import FlowLint.Proofs.Locate.Entry
import FlowLint.Proofs.Locate.Seek

/-!
The walk along a text agrees with the reader of values. On a text that the reader accepts it never
fails, and it ends at the entry that the path leads to if of each name the first member counts.
-/

namespace FlowLint.Locate

open Json

variable {s r : List Char}

/-! ### Members -/

/-- The name of a label is read, and the colon is left. -/
theorem yields_readName (l : Label) (s : List Char) :
    Yields (readName (l.text ++ s)) l.name (l.before.text ++ ':' :: (l.after.text ++ s)) := by
  have read : readText (fun t => Literal.read t) l.quoted.body = .ok l.name := by
    refine readText_eq_ok.2 ⟨[], Literal.yields_read.2 ⟨_, _, l.quoted.spelled, rfl, ?_⟩, rfl⟩
    rw [List.append_nil]
  have named : literal? l.quoted.text = .ok l.name := by
    rw [Quoted.text, literal?, read]
  rw [label_append]
  obtain ⟨h, e⟩ := leaves_skipLiteral l.quoted (l.before.text ++ ':' :: (l.after.text ++ s))
  rw [readName, e]
  simp only [bind, Except.bind, List.length_append, Nat.add_sub_cancel, List.take_left, named]
  exact (yields_pure ..).2 ⟨rfl, rfl⟩

section Member

variable {name : String} {l : Label} {v : Spelling} {t : List Char}

/-- The member sought is the one at hand. -/
theorem seekMember_found (h : l.name = name) :
    seekMember name (l.text ++ (v.text ++ r)) =
      .ok (some ⟨l.text ++ (v.text ++ r), v.text ++ r⟩) := by
  subst h
  exact seekMember_here (yields_readName l _) (leaves_skipColon l.before l.after v r)

/-- It is none, as the object ends here. -/
theorem seekMember_last (h : l.name ≠ name) (hr : Delimited r) (close : skipSpace r = '}' :: t) :
    seekMember name (l.text ++ (v.text ++ r)) = .ok none :=
  seekMember_closed (yields_readName l _) h (leaves_skipColon l.before l.after v r)
    (leaves_skipValue v hr) close

/-- It is another one, if there is any. -/
theorem seekMember_next (h : l.name ≠ name) (hr : Delimited r) (comma : skipSpace r = ',' :: t) :
    seekMember name (l.text ++ (v.text ++ r)) = seekMember name (skipSpace t) :=
  seekMember_behind (yields_readName l _) h (leaves_skipColon l.before l.after v r)
    (leaves_skipValue v hr) comma

end Member

/-- What is sought among the members is the first of the name. -/
theorem seekMember_eq : ∀ (ms : MemberSpellings) (name : String) (r : List Char),
    seekMember name (skipSpace (ms.text ++ '}' :: r)) =
      .ok ((ms.entryAt? name).map fun e => (e.within [] ('}' :: r)).place)
  | .last b l v a, name, r => by
    rw [MemberSpellings.last_append, skipSpace_label, MemberSpellings.entryAt?]
    by_cases h : l.name = name
    · rw [if_pos h, seekMember_found h]
      simp [Entry.place_eq]
    · rw [if_neg h, seekMember_last h ((delimited_cons (.inr (.inr rfl))).append a)
        (skipSpace_token (by decide))]
      rfl
  | .more b l v a others, name, r => by
    rw [MemberSpellings.more_append, skipSpace_label, MemberSpellings.entryAt?]
    by_cases h : l.name = name
    · rw [if_pos h, seekMember_found h]
      simp [Entry.place_eq]
    · rw [if_neg h, seekMember_next h ((delimited_cons (.inl rfl)).append a)
        (skipSpace_token (by decide)), seekMember_eq others name r, Option.map_map]
      simp only [Function.comp_def, Entry.within_within_place, List.nil_append]

/-! ### Items -/

section Item

variable {v : Spelling} {t : List Char}

theorem seekItem_last (i : Nat) (hr : Delimited r) (close : skipSpace r = ']' :: t) :
    seekItem (i + 1) (v.text ++ r) = .ok none :=
  seekItem_closed i (leaves_skipValue v hr) close

theorem seekItem_next (i : Nat) (hr : Delimited r) (comma : skipSpace r = ',' :: t) :
    seekItem (i + 1) (v.text ++ r) = seekItem i (skipSpace t) :=
  seekItem_behind i (leaves_skipValue v hr) comma

end Item

/-- What is sought among the items is the one at the index. -/
theorem seekItem_eq : ∀ (items : ItemSpellings) (i : Nat) (r : List Char),
    seekItem i (skipSpace (items.text ++ ']' :: r)) =
      .ok ((items.entryAt? i).map fun e => (e.within [] (']' :: r)).place)
  | .last b v a, 0, r => by
    rw [ItemSpellings.last_append, skipSpace_spelling, ItemSpellings.entryAt?, seekItem]
    simp [Entry.place_eq]
  | .last b v a, i + 1, r => by
    rw [ItemSpellings.last_append, skipSpace_spelling, ItemSpellings.entryAt?,
      seekItem_last i ((delimited_cons (.inr (.inl rfl))).append a) (skipSpace_token (by decide))]
    rfl
  | .more b v a others, 0, r => by
    rw [ItemSpellings.more_append, skipSpace_spelling, ItemSpellings.entryAt?, seekItem]
    simp [Entry.place_eq]
  | .more b v a others, i + 1, r => by
    rw [ItemSpellings.more_append, skipSpace_spelling, ItemSpellings.entryAt?,
      seekItem_next i ((delimited_cons (.inl rfl)).append a) (skipSpace_token (by decide)),
      seekItem_eq others i r, Option.map_map]
    simp only [Function.comp_def, Entry.within_within_place, List.nil_append]

/-! ### Paths -/

theorem enter_eq_none {step : Segment} {c : Char} (open' : c ≠ '{' ∧ c ≠ '[') :
    enter step (c :: s) = .ok none := by
  refine enter_other fun t e => ?_
  have first := (List.cons.inj e).1
  cases step with
  | key name => exact open'.1 first
  | index i => exact open'.2 first

theorem enter_array (items : ItemSpellings) (i : Nat) (r : List Char) :
    enter (.index i) ('[' :: (items.text ++ ']' :: r)) =
      .ok ((items.entryAt? i).map fun e => (e.within [] (']' :: r)).place) := by
  obtain ⟨c, t, e, start⟩ := exists_item items (']' :: r)
  have filled (u : List Char) : skipSpace (items.text ++ ']' :: r) ≠ ']' :: u := by
    rw [e]
    exact fun h => start.not_closing.1 (List.cons.inj h).1
  exact (enter_opening filled).trans (seekItem_eq items i r)

theorem enter_object (ms : MemberSpellings) (name : String) (r : List Char) :
    enter (.key name) ('{' :: (ms.text ++ '}' :: r)) =
      .ok ((ms.entryAt? name).map fun e => (e.within [] ('}' :: r)).place) := by
  obtain ⟨t, e⟩ := exists_member ms ('}' :: r)
  have filled (u : List Char) : skipSpace (ms.text ++ '}' :: r) ≠ '}' :: u := by
    rw [e]
    simp
  exact (enter_opening filled).trans (seekMember_eq ms name r)

/-- A step down from a value does not hang on what follows it. -/
theorem enter_eq (v : Spelling) (step : Segment) (r : List Char) :
    enter step (v.text ++ r) = .ok ((v.entryAt? step).map fun e => (e.within [] r).place) := by
  cases v with
  | scalar w =>
    obtain ⟨c, t, e, hc⟩ := w.exists_cons
    have open' : c ≠ '{' ∧ c ≠ '[' := by
      constructor <;> rintro rfl <;> revert hc <;> decide
    rw [Spelling.text, e, List.cons_append, enter_eq_none open', Spelling.entryAt?]
    · rfl
    all_goals simp
  | string q =>
    rw [Spelling.text, Quoted.text, List.cons_append, enter_eq_none (by decide), Spelling.entryAt?]
    · rfl
    all_goals simp
  | emptyArray b =>
    have close : skipSpace (b.text ++ ']' :: r) = ']' :: r := skipSpace_token (by decide)
    rw [Spelling.emptyArray_append]
    cases step with
    | key name => rfl
    | index i =>
      rw [enter, close]
      rfl
  | array items =>
    rw [Spelling.array_append]
    cases step with
    | key name => rfl
    | index i =>
      rw [enter_array, Spelling.entryAt?, Option.map_map]
      simp only [Function.comp_def, Entry.within_within_place]
      rfl
  | emptyObject b =>
    have close : skipSpace (b.text ++ '}' :: r) = '}' :: r := skipSpace_token (by decide)
    rw [Spelling.emptyObject_append]
    cases step with
    | key name =>
      rw [enter, close]
      rfl
    | index i => rfl
  | object ms =>
    rw [Spelling.object_append]
    cases step with
    | key name =>
      rw [enter_object, Spelling.entryAt?, Option.map_map]
      simp only [Function.comp_def, Entry.within_within_place]
      rfl
    | index i => rfl

/-- The walk goes down entries. -/
theorem descend_eq (p : Path) (e : Entry) :
    descend p e.place = .ok ((e.descend? p).map Entry.place) := by
  induction p generalizing e with
  | nil => rfl
  | cons step p ih =>
    rw [descend, Entry.place, enter_eq, Entry.descend?]
    cases h : e.value.entryAt? step with
    | none => rfl
    | some i =>
      have next := ih (i.within (e.before ++ e.labelText) e.after)
      rw [Entry.within_place] at next
      exact next

theorem offsetOf_append (s t : List Char) : offsetOf (s ++ t) t = Text.byteLength s := by
  rw [offsetOf, Text.byteLength_append, Nat.add_sub_cancel]

theorem Place.span_eq {e : Entry} (he : Delimited e.after) : e.place.span e.text = .ok e.span := by
  obtain ⟨hv, ev⟩ := leaves_skipValue e.value he
  have start : offsetOf e.text (e.shown ++ e.after) = Text.byteLength e.before :=
    offsetOf_append ..
  have stop : offsetOf e.text e.after = Text.byteLength e.before + Text.byteLength e.shown := by
    rw [Entry.text, ← List.append_assoc, offsetOf_append, Text.byteLength_append]
  rw [Place.span, Entry.place, ev]
  simp only [bind, Except.bind, start, stop, List.length_append, Nat.add_sub_cancel, List.take_left]
  rfl

/-- On a spelled document the locator finds the entry that the path leads to. -/
theorem find_eq (d : Document) (p : Path) :
    find d.text p = .ok ((d.entryAt? p).map Entry.span) := by
  have root : (⟨skipSpace d.text, skipSpace d.text⟩ : Place) = d.entry.place := by
    rw [Document.text, skipSpace_spelling]
    rfl
  rw [find, walk, root, descend_eq]
  cases h : d.entryAt? p with
  | none =>
    rw [Document.entryAt?] at h
    simp only [h]
    rfl
  | some e =>
    have span := Place.span_eq (Document.delimited_of_entryAt? h)
    rw [Document.text_of_entryAt? h] at span
    rw [Document.entryAt?] at h
    simp only [h, Option.map_some, bind, Except.bind, span]
    rfl

/-! ### Accepted texts -/

/-- `e` is the place in `d` that `p` leads to, if of each name the first member counts: a cut of the
    text before the value there, or before its name where the last step is one, and after the
    value. -/
structure Leads (d : Document) (p : Path) (e : Entry) : Prop where
  entry  : d.entryAt? p = some e
  text   : e.text = d.text
  label  : e.label.map Label.name = p.getLast?.bind Segment.name?
  value  : d.tree.at? p = some e.value.tree
  reads  : tree? e.value.text = .ok e.value.tree
  parses : parse? e.value.text = .ok e.value.tree.settled

theorem leads_of_entryAt? {d : Document} (hd : d.root.depth ≤ maxDepth) {p : Path} {e : Entry}
    (h : d.entryAt? p = some e) : Leads d p e where
  entry  := h
  text   := Document.text_of_entryAt? h
  label  := Document.label_of_entryAt? h
  value  := by rw [← d.tree_of_entryAt? p, h]; rfl
  reads  := Document.readable_of_entryAt? h hd
  parses := parse?_of_tree? (Document.readable_of_entryAt? h hd)

/-- On a text that the reader accepts the locator never fails. It finds every path that exists if of
    each name the first member counts, at the place of the value there, and no other path. What
    stands there, read by itself in the same way, is that value. -/
theorem find_of_parse {text : List Char} {v : Json} (h : parse? text = .ok v) :
    ∃ d : Document, d.text = text ∧ d.tree.settled = v ∧ ∀ p,
      match d.tree.earliest.at? p with
      | none   => find text p = .ok none
      | some w => ∃ e : Entry, find text p = .ok (some e.span) ∧ Leads d p e ∧
        e.value.tree.earliest = w := by
  obtain ⟨d, rfl, rfl, hd⟩ := exists_document h
  refine ⟨d, rfl, rfl, fun p => ?_⟩
  rw [at?_earliest, ← d.tree_of_entryAt? p, find_eq]
  cases e : d.entryAt? p with
  | none => rfl
  | some i => exact ⟨i, rfl, leads_of_entryAt? hd e, rfl⟩

/-- A text that says a name twice. -/
def repeatedName : List Char := "\x7b\"a\": [true], \"a\": null\x7d".toList

theorem find_of_parse_repeated :
    ∃ d : Document, d.text = repeatedName ∧ d.tree.settled = .object [("a", .null)] ∧ ∀ p,
      match d.tree.earliest.at? p with
      | none   => find repeatedName p = .ok none
      | some w => ∃ e : Entry, find repeatedName p = .ok (some e.span) ∧ Leads d p e ∧
        e.value.tree.earliest = w :=
  find_of_parse (by decide +kernel)

end FlowLint.Locate
