import FlowLint.Path.Encoding
import FlowLint.Proofs.Json.Layout

/-!
The texts that a path is read from. They are told by a grammar in which a name is a literal and an
index is a row of digits, so a text tells each step apart, and what is written for a path is read
back as that path.
-/

namespace FlowLint

open Json

/-! ### Steps -/

namespace Segment

/-- A name is written as a literal, an index as the digits of a number that fits 64 bits: without
    sign, point and exponent, and without a zero in front. -/
inductive Written : List Char → Segment → Prop
  | key {body cs : List Char} (h : Literal.Body body cs) : Written ('"' :: body) (.key (.ofList cs))
  | index {ds : List Char} (h : Numeral.Whole ds) (fits : Decimal.digitsValue ds < UInt64.size) :
      Written ds (.index (Decimal.digitsValue ds))

/-- An index fits 64 bits; a name always does. -/
def Fits : Segment → Prop
  | .key _   => True
  | .index i => i < UInt64.size

/-- Only strings and counts stand for a step. -/
theorem ofJson?_eq_some_iff {v : Json} {step : Segment} : ofJson? v = some step ↔
    (∃ s, v = .string s ∧ step = .key s) ∨ ∃ k : Nat, v = .number (.int k) ∧ step = .index k := by
  constructor
  · intro h
    unfold ofJson? at h
    split at h
    · next s =>
      cases h
      exact .inl ⟨s, rfl, rfl⟩
    · next n =>
      split at h
      · next nonneg =>
        obtain ⟨k, rfl⟩ := Int.eq_ofNat_of_zero_le nonneg
        cases h
        exact .inr ⟨k, rfl, rfl⟩
      · cases h
    · cases h
  · rintro (⟨s, rfl, rfl⟩ | ⟨k, rfl, rfl⟩)
    · rfl
    · simp [ofJson?]

/-- What stands for a step is spelled the way the step is written. -/
theorem written_of_tree {c : Spelling} {step : Segment} (h : ofJson? c.tree = some step) :
    Written c.text step := by
  obtain ⟨s, tree, rfl⟩ | ⟨k, tree, rfl⟩ := ofJson?_eq_some_iff.1 h
  · cases c with
    | string q =>
      cases tree
      exact .key q.spelled
    | scalar w =>
      obtain ⟨text, value, spelled⟩ := w
      cases tree
      cases spelled
    | _ => cases tree
  · cases c with
    | scalar w =>
      obtain ⟨text, value, spelled⟩ := w
      cases tree
      obtain ⟨whole, rfl, fits⟩ := isScalar_count_iff.1 spelled
      exact .index whole (Nat.lt_succ_of_le fits)
    | _ => cases tree

namespace Written

variable {t : List Char} {step : Segment}

/-- A step that is written is spelled by a value that stands for it. -/
theorem exists_spelling (h : Written t step) :
    ∃ c : Spelling, c.text = t ∧ ofJson? c.tree = some step ∧ c.depth = 0 := by
  cases h with
  | @key body cs h => exact ⟨.string ⟨body, cs, h⟩, rfl, rfl, rfl⟩
  | index whole fits =>
    have spelled := isScalar_count_iff.2 ⟨whole, rfl, Nat.le_of_lt_succ fits⟩
    exact ⟨.scalar ⟨t, _, spelled⟩, rfl, ofJson?_eq_some_iff.2 (.inr ⟨_, rfl, rfl⟩), rfl⟩

theorem fits (h : Written t step) : step.Fits := by
  cases h with
  | key _ => trivial
  | index _ fits => exact fits

end Written

theorem written_encode {step : Segment} (h : step.Fits) : Written step.encode step := by
  cases step with
  | key name =>
    have literal := Written.key (body_flatMap_quotedChar name.toList)
    rwa [String.ofList_toList] at literal
  | index i =>
    have digits := Written.index (whole_toDigits i) (by rwa [digitsValue_toDigits])
    rwa [digitsValue_toDigits] at digits

theorem ofJson?_settled (v : Json) : ofJson? v.settled = ofJson? v := by cases v <;> rfl

end Segment

/-! ### Paths -/

theorem mapM_cons_eq_some_iff {f : α → Option β} {x : α} {xs : List α} {ys : List β} :
    (x :: xs).mapM f = some ys ↔ ∃ y, f x = some y ∧ ∃ zs, xs.mapM f = some zs ∧ y :: zs = ys := by
  simp [List.mapM_cons, Option.bind_eq_some_iff]

namespace Path

/-- Steps one after the other, with a comma after each but the last and blanks around each. -/
inductive Listed : List Char → Path → Prop
  | last (b a : Blanks) {t : List Char} {step : Segment} (h : step.Written t) :
      Listed (b.text ++ (t ++ a.text)) [step]
  | more (b a : Blanks) {t s : List Char} {step : Segment} {p : Path} (h : step.Written t)
      (others : Listed s p) : Listed (b.text ++ (t ++ (a.text ++ ',' :: s))) (step :: p)

/-- A path is written as its steps between brackets, with blanks around it. -/
inductive Written : List Char → Path → Prop
  | root (b inside a : Blanks) : Written (b.text ++ ('[' :: (inside.text ++ [']']) ++ a.text)) []
  | steps (b a : Blanks) {t : List Char} {p : Path} (h : Listed t p) :
      Written (b.text ++ ('[' :: (t ++ [']']) ++ a.text)) p

/-- All indices fit 64 bits. -/
def Fits (p : Path) : Prop := ∀ step ∈ p, step.Fits

theorem Listed.fits {t : List Char} {p : Path} (h : Listed t p) : p.Fits := by
  induction h with
  | last _ _ h => exact List.forall_mem_singleton.2 h.fits
  | more _ _ h _ ih => exact List.forall_mem_cons.2 ⟨h.fits, ih⟩

theorem Written.fits {t : List Char} {p : Path} (h : Written t p) : p.Fits := by
  cases h with
  | root => exact nofun
  | steps _ _ h => exact h.fits

/-! ### Reading -/

/-- The induction is on the items, which are listed like the steps that they stand for. -/
theorem listed_of_trees : ∀ (items : ItemSpellings) {p : Path},
    items.trees.mapM Segment.ofJson? = some p → Listed items.text p
  | .last b c a, p, h => by
    obtain ⟨step, first, _, none, rfl⟩ := mapM_cons_eq_some_iff.1 h
    cases none
    exact .last b a (Segment.written_of_tree first)
  | .more b c a others, p, h => by
    obtain ⟨step, first, _, more, rfl⟩ := mapM_cons_eq_some_iff.1 h
    exact .more b a (Segment.written_of_tree first) (listed_of_trees others more)

theorem Listed.exists_items {t : List Char} {p : Path} (h : Listed t p) :
    ∃ items : ItemSpellings, items.text = t ∧ items.trees.mapM Segment.ofJson? = some p ∧
      items.depth = 0 := by
  induction h with
  | last b a h =>
    obtain ⟨c, rfl, stands, depth⟩ := h.exists_spelling
    exact ⟨.last b c a, rfl, mapM_cons_eq_some_iff.2 ⟨_, stands, _, rfl, rfl⟩, depth⟩
  | more b a h _ ih =>
    obtain ⟨c, rfl, stands, depth⟩ := h.exists_spelling
    obtain ⟨items, rfl, others, depths⟩ := ih
    refine ⟨.more b c a items, rfl, mapM_cons_eq_some_iff.2 ⟨_, stands, _, others, rfl⟩, ?_⟩
    rw [ItemSpellings.depth, depth, depths, Nat.max_self]

/-- No step of a path is an object, so repeated names make no difference. -/
theorem ofJson?_settled (v : Json) : ofJson? v.settled = ofJson? v := by
  cases v with
  | array vs =>
    have steps : (settledItems vs).mapM Segment.ofJson? = vs.mapM Segment.ofJson? := by
      rw [settledItems_eq_map, List.mapM_map]
      exact congrArg (vs.mapM ·) (funext Segment.ofJson?_settled)
    exact steps
  | _ => rfl

/-- A text is read as a path if it is a document whose value stands for the path. -/
theorem decode?_eq_some_iff {text : List Char} {p : Path} : decode? text = some p ↔
    ∃ d : Document, d.text = text ∧ ofJson? d.tree = some p ∧ d.root.depth ≤ maxDepth := by
  rw [decode?, Option.bind_eq_some_iff]
  constructor
  · rintro ⟨v, parsed, stands⟩
    cases h : parse? text with
    | error _ => rw [h] at parsed; cases parsed
    | ok w =>
      rw [h] at parsed
      cases parsed
      obtain ⟨d, rfl, rfl, depth⟩ := exists_document h
      exact ⟨d, rfl, by rwa [ofJson?_settled] at stands, depth⟩
  · rintro ⟨d, rfl, stands, depth⟩
    have reads := parse?_of_tree? (tree?_eq_ok_iff.2 ⟨d, rfl, rfl, depth⟩)
    exact ⟨_, by rw [reads]; rfl, by rwa [ofJson?_settled]⟩

theorem written_of_decode? {text : List Char} {p : Path} (h : decode? text = some p) :
    Written text p := by
  obtain ⟨⟨b, c, a⟩, rfl, stands, -⟩ := decode?_eq_some_iff.1 h
  obtain ⟨vs, items, steps⟩ := Option.bind_eq_some_iff.1 stands
  cases c with
  | emptyArray inside =>
    cases items
    cases steps
    exact .root b inside a
  | array items' =>
    cases items
    exact .steps b a (listed_of_trees items' steps)
  | scalar w =>
    obtain ⟨text, value, spelled⟩ := w
    cases spelled <;> cases items
  | _ => cases items

theorem Written.decode?_eq {text : List Char} {p : Path} (h : Written text p) :
    decode? text = some p := by
  rw [decode?_eq_some_iff]
  cases h with
  | root b inside a => exact ⟨⟨b, .emptyArray inside, a⟩, rfl, rfl, (by decide : 1 ≤ maxDepth)⟩
  | steps b a h =>
    obtain ⟨items, rfl, steps, depth⟩ := h.exists_items
    refine ⟨⟨b, .array items, a⟩, rfl, steps, ?_⟩
    rw [Spelling.depth, depth]
    decide

/-! ### Writing -/

theorem listed_encode {step : Segment} {p : Path} (h : Path.Fits (step :: p)) :
    Listed ([','].intercalate ((step :: p).map Segment.encode)) (step :: p) := by
  induction p generalizing step with
  | nil =>
    have last := Listed.last .none .none (Segment.written_encode (h step List.mem_cons_self))
    simpa [Blanks.none] using last
  | cons next p ih =>
    obtain ⟨first, others⟩ := List.forall_mem_cons.1 h
    have more := Listed.more .none .none (Segment.written_encode first) (ih others)
    simpa [Blanks.none] using more

theorem written_encode {p : Path} (h : p.Fits) : Written p.encode p := by
  cases p with
  | nil => exact .root .none .none .none
  | cons step p =>
    have steps := Written.steps .none .none (listed_encode h)
    simpa [Blanks.none, encode] using steps

/-- A path is read from just the texts that write it: arrays with a literal for each name and digits
    for each index. What is written for it is such a text, as long as its indices fit 64 bits, so
    no two paths are written the same. -/
theorem decode?_exact (text : List Char) (p : Path) :
    (decode? text = some p ↔ Written text p) ∧
    (decode? p.encode = some p ↔ p.Fits) ∧
    ∀ q : Path, p.Fits → q.Fits → p.encode = q.encode → p = q := by
  have read {q : Path} (fits : q.Fits) : decode? q.encode = some q :=
    (written_encode fits).decode?_eq
  refine ⟨⟨written_of_decode?, fun h => h.decode?_eq⟩, ⟨fun h => ?_, read⟩, ?_⟩
  · exact (written_of_decode? h).fits
  · intro q fits fits' same
    exact Option.some.inj ((read fits).symm.trans (same ▸ read fits'))

/-- Names that look like a number, that are empty and that have to be escaped, with the least and
    the largest index. -/
def oddPath : Path :=
  [.key "0", .index 0, .key "", .key "a\"\\\x01\n𝄞", .index 0xFFFFFFFFFFFFFFFF]

theorem decode?_exact_oddPath : oddPath.Fits ∧ decode? oddPath.encode = some oddPath ∧
    decode? "[ \"\\u0030\",0 ]\n".toList = some [.key "0", .index 0] ∧
    encode [.key "0"] ≠ encode [.index 0] := by
  have fits : oddPath.Fits := by simp [oddPath, Path.Fits, Segment.Fits]
  have name : Path.Fits [.key "0"] := by simp [Path.Fits, Segment.Fits]
  have index : Path.Fits [.index 0] := by simp [Path.Fits, Segment.Fits]
  have blanks : ∀ c ∈ [' '], Text.isJsonBlank c := by simp [Text.isJsonBlank]
  have lineFeed : ∀ c ∈ ['\n'], Text.isJsonBlank c := by simp [Text.isJsonBlank]
  have zero : Literal.Escape ['u', '0', '0', '3', '0'] '0' :=
    .code (n := 48) (by decide) (by decide)
  have escaped : Written "[ \"\\u0030\",0 ]\n".toList [.key "0", .index 0] :=
    .steps .none ⟨['\n'], lineFeed⟩ <|
      .more ⟨[' '], blanks⟩ .none (.key (.escape zero .close)) <|
      .last .none ⟨[' '], blanks⟩ (.index .zero (by decide))
  refine ⟨fits, (decode?_exact [] oddPath).2.1.2 fits, (decode?_exact _ _).1.2 escaped, ?_⟩
  intro same
  have equal := (decode?_exact [] [.key "0"]).2.2 [.index 0] name index same
  exact absurd equal (by decide)

end Path

end FlowLint
