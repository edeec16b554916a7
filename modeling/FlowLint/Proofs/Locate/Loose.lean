import FlowLint.Proofs.Locate.Skip
import Mathlib.Data.List.TakeWhile

/-!
The texts that the locator passes over. Their grammar is looser than that of values: a name or a
string is anything up to the quote that closes it, a scalar is anything up to a delimiter, and
nothing is said of what they hold. Passing over a text takes one word of this grammar off its front,
and the only character looked at beyond the word is the one that ends a scalar.
-/

namespace FlowLint.Locate

open Json

/-! ### The grammar -/

/-- Blanks between the parts of a value. -/
def Blank (b : List Char) : Prop := ∀ c ∈ b, Text.isAsciiBlank c

/-- The characters from after a quote up to the next one that no backslash precedes. -/
inductive Closed : List Char → Prop
  | quote : Closed ['"']
  | escaped (c : Char) {u : List Char} (more : Closed u) : Closed ('\\' :: c :: u)
  | plain {c : Char} {u : List Char} (quote : c ≠ '"') (slash : c ≠ '\\') (more : Closed u) :
      Closed (c :: u)

/-- What stands before the value of an entry. -/
inductive Named : Container → List Char → Prop
  | item : Named .list []
  | member {u b a : List Char} (name : Closed u) (before : Blank b) (after : Blank a) :
      Named .record ('"' :: (u ++ (b ++ ':' :: a)))

/-- The bracket that starts a container. -/
def Container.opening : Container → Char
  | .list   => '['
  | .record => '{'

/-- The character starts neither a container nor a string. -/
def Bare (c : Char) : Prop := c ≠ '{' ∧ c ≠ '[' ∧ c ≠ '"'

/-- The parts of a text that are passed over at once. -/
inductive Part where
  | value
  | contents (k : Container)
  | entries (k : Container)

/-- A value; the contents of a container with the closing bracket; its entries with the closing
    bracket. -/
inductive Loose : Part → List Char → Prop
  | scalar {c : Char} {u : List Char} (bare : Bare c) (rest : ∀ d ∈ c :: u, ¬ isDelimiter d) :
      Loose .value (c :: u)
  | literal {u : List Char} (body : Closed u) : Loose .value ('"' :: u)
  | container {k : Container} {u : List Char} (inside : Loose (.contents k) u) :
      Loose .value (k.opening :: u)
  | empty {k : Container} {b : List Char} (blank : Blank b) : Loose (.contents k) (b ++ [k.close])
  | filled {k : Container} {b u : List Char} (blank : Blank b) (entries : Loose (.entries k) u) :
      Loose (.contents k) (b ++ u)
  | last {k : Container} {n v b : List Char} (name : Named k n) (value : Loose .value v)
      (blank : Blank b) : Loose (.entries k) (n ++ (v ++ (b ++ [k.close])))
  | more {k : Container} {n v b a u : List Char} (name : Named k n) (value : Loose .value v)
      (before : Blank b) (after : Blank a) (others : Loose (.entries k) u) :
      Loose (.entries k) (n ++ (v ++ (b ++ ',' :: (a ++ u))))

/-- What may follow a scalar. -/
def Stops (r : List Char) : Prop := ∀ c ∈ r.head?, isDelimiter c

/-- What may follow a value of that text: anything, if it is no scalar. -/
def Follows (w r : List Char) : Prop := (∀ c ∈ w.head?, Bare c) → Stops r

variable {s r : List Char} {k : Container}

/-! ### Blanks -/

/-- The text starts with no blank. -/
def Solid (r : List Char) : Prop := ∀ c ∈ r.head?, ¬ Text.isAsciiBlank c

theorem solid_cons {c : Char} (h : ¬ Text.isAsciiBlank c) (r : List Char) : Solid (c :: r) := by
  rintro d hd
  cases hd
  exact h

theorem solid_skipSpace (s : List Char) : Solid (skipSpace s) := by
  intro c hc
  have stopped := List.head?_dropWhile_not Text.isAsciiBlank s
  rw [skipSpace] at hc
  rw [Option.mem_def.1 hc] at stopped
  simp [stopped]

theorem skipSpace_blank {b : List Char} (hb : Blank b) (s : List Char) :
    skipSpace (b ++ s) = skipSpace s :=
  List.dropWhile_append_of_pos hb

theorem skipSpace_append_of_solid {b : List Char} (hb : Blank b) (h : Solid r) :
    skipSpace (b ++ r) = r := by
  rw [skipSpace_blank hb]
  cases r with
  | nil => rfl
  | cons c r => exact skipSpace_cons (h c rfl)

/-- What is skipped is blank. -/
theorem exists_blank (s : List Char) : ∃ b, Blank b ∧ s = b ++ skipSpace s :=
  ⟨s.takeWhile Text.isAsciiBlank, fun _ => List.mem_takeWhile_imp,
    List.takeWhile_append_dropWhile.symm⟩

/-! ### Literals -/

theorem leaves_afterQuote_iff : Leaves (afterQuote s) r ↔ ∃ u, Closed u ∧ s = u ++ r := by
  constructor
  · intro h
    fun_induction afterQuote s with
    | case1 => simp at h
    | case2 s =>
      obtain rfl : s = r := by simpa [Rest.tail] using h
      exact ⟨_, .quote, rfl⟩
    | case3 => simp at h
    | case4 c s ih =>
      obtain ⟨u, hu, rfl⟩ := ih (Leaves.of_map h fun _ => rfl)
      exact ⟨_, .escaped c hu, rfl⟩
    | case5 c s quote last slash ih =>
      obtain ⟨u, hu, rfl⟩ := ih (Leaves.of_map h fun _ => rfl)
      have noSlash : c ≠ '\\' := by
        rintro rfl
        cases hs : u ++ r with
        | nil => exact last rfl hs
        | cons d t => exact slash d t rfl hs
      exact ⟨_, .plain quote noSlash hu, rfl⟩
  · rintro ⟨u, hu, rfl⟩
    induction hu with
    | quote => exact (leaves_ok ..).2 rfl
    | escaped c _ ih => exact leaves_afterQuote_escaped ih
    | plain quote slash _ ih => exact leaves_afterQuote_plain quote slash ih

theorem leaves_expect_iff {c : Char} : Leaves (expect c s) r ↔ s = c :: r := by
  cases s with
  | nil => simp [expect]
  | cons d s =>
    rw [expect]
    split
    · next h => simp [h, Rest.tail]
    · next h => simp [h]

theorem leaves_skipLiteral_iff :
    Leaves (skipLiteral s) r ↔ ∃ u, Closed u ∧ s = '"' :: (u ++ r) := by
  rw [skipLiteral, leaves_bind]
  constructor
  · rintro ⟨t, ht, e, h⟩
    obtain rfl := leaves_expect_iff.1 ⟨ht, e⟩
    obtain ⟨u, hu, rfl⟩ := leaves_afterQuote_iff.1 (Leaves.of_bind_pure h fun _ => rfl)
    exact ⟨u, hu, rfl⟩
  · rintro ⟨u, hu, rfl⟩
    obtain ⟨h, e⟩ : Leaves (expect '"' ('"' :: (u ++ r))) (u ++ r) := leaves_expect
    refine ⟨_, h, e, ?_⟩
    exact (leaves_afterQuote_iff.2 ⟨u, hu, rfl⟩).bind fun _ => (leaves_ok ..).2 rfl

/-! ### Names -/

theorem leaves_skipColon_iff : Leaves (skipColon s) r ↔
    Solid r ∧ ∃ b a, Blank b ∧ Blank a ∧ s = b ++ ':' :: (a ++ r) := by
  rw [skipColon, leaves_bind]
  constructor
  · rintro ⟨t, ht, e, h⟩
    obtain rfl : skipSpace t = r := (leaves_ok ..).1 h
    obtain ⟨b, hb, eb⟩ := exists_blank s
    obtain ⟨a, ha, ea⟩ := exists_blank t
    have colon := leaves_expect_iff.1 ⟨ht, e⟩
    refine ⟨solid_skipSpace t, b, a, hb, ha, ?_⟩
    rw [← ea, ← colon, ← eb]
  · rintro ⟨solid, b, a, hb, ha, rfl⟩
    have colon : skipSpace (b ++ ':' :: (a ++ r)) = ':' :: (a ++ r) :=
      skipSpace_append_of_solid hb (solid_cons (by decide) _)
    obtain ⟨h, e⟩ := leaves_expect_iff.2 colon
    exact ⟨_, h, e, (leaves_ok ..).2 (skipSpace_append_of_solid ha solid)⟩

/-- A name is passed over up to its value. -/
theorem named_of_skipName (h : Leaves (skipName k s) r) : ∃ n, Named k n ∧ s = n ++ r := by
  cases k with
  | list =>
    obtain rfl : s = r := (leaves_ok ..).1 h
    exact ⟨[], .item, rfl⟩
  | record =>
    rw [skipName, leaves_bind] at h
    obtain ⟨t, ht, e, h⟩ := h
    obtain ⟨u, hu, rfl⟩ := leaves_skipLiteral_iff.1 ⟨ht, e⟩
    obtain ⟨-, b, a, hb, ha, rfl⟩ := leaves_skipColon_iff.1 (Leaves.of_bind_pure h fun _ => rfl)
    exact ⟨_, .member hu hb ha, by simp⟩

theorem Named.skipName {n : List Char} (h : Named k n) (solid : Solid r) :
    Leaves (skipName k (n ++ r)) r := by
  cases h with
  | item => exact (leaves_ok ..).2 rfl
  | @member u b a hu hb ha =>
    rw [Locate.skipName, leaves_bind]
    have text : '"' :: (u ++ (b ++ ':' :: a)) ++ r = '"' :: (u ++ (b ++ ':' :: (a ++ r))) := by simp
    obtain ⟨h, e⟩ := leaves_skipLiteral_iff.2 ⟨u, hu, text⟩
    refine ⟨_, h, e, ?_⟩
    exact (leaves_skipColon_iff.2 ⟨solid, b, a, hb, ha, rfl⟩).bind fun _ => (leaves_ok ..).2 rfl

/-! ### Scalars -/

/-- A scalar is passed over up to the next delimiter. -/
theorem scalar_of_skipScalar (h : Leaves (skipScalar s) r) :
    Stops r ∧ ∃ c w, (∀ d ∈ c :: w, ¬ isDelimiter d) ∧ s = c :: w ++ r := by
  cases s with
  | nil => simp [skipScalar] at h
  | cons c s =>
    rw [skipScalar] at h
    split at h
    · simp at h
    next plain =>
    obtain rfl := (leaves_ok ..).1 h
    refine ⟨fun d hd => ?_, c, s.takeWhile (!isDelimiter ·), ?_, ?_⟩
    · have stopped := List.head?_dropWhile_not (!isDelimiter ·) s
      rw [Option.mem_def.1 hd] at stopped
      simpa using stopped
    · intro d hd
      rcases List.mem_cons.1 hd with rfl | hd
      · exact plain
      · simpa using List.mem_takeWhile_imp hd
    · rw [List.cons_append, List.takeWhile_append_dropWhile]

theorem leaves_skipScalar_append {c : Char} {w : List Char} (plain : ∀ d ∈ c :: w, ¬ isDelimiter d)
    (stops : Stops r) : Leaves (skipScalar (c :: w ++ r)) r := by
  have inner : ∀ d ∈ w, (!isDelimiter d) = true := fun d hd => by
    simpa using plain d (List.mem_cons_of_mem _ hd)
  have ends : (w ++ r).dropWhile (!isDelimiter ·) = r := by
    rw [List.dropWhile_append_of_pos inner]
    cases r with
    | nil => rfl
    | cons d r => exact List.dropWhile_cons_of_neg (by simp [stops d rfl])
  rw [List.cons_append, skipScalar, if_neg (plain c List.mem_cons_self), leaves_ok]
  exact ends

/-! ### Values -/

theorem not_isAsciiBlank_of_not_isDelimiter {c : Char} (h : ¬ isDelimiter c) :
    ¬ Text.isAsciiBlank c := by
  simp only [isDelimiter, Bool.or_eq_true, not_or] at h
  exact h.2

/-- A value starts with no blank and no closing bracket. -/
theorem Loose.exists_cons_value {w : List Char} (h : Loose .value w) :
    ∃ c t, w = c :: t ∧ ¬ Text.isAsciiBlank c ∧ ∀ k : Container, c ≠ k.close := by
  cases h with
  | @scalar c u _ rest =>
    have plain := rest c List.mem_cons_self
    refine ⟨c, u, rfl, not_isAsciiBlank_of_not_isDelimiter plain, ?_⟩
    rintro k rfl
    cases k <;> exact plain (by decide)
  | literal => exact ⟨_, _, rfl, by decide, fun k => by cases k <;> decide⟩
  | @container k u =>
    refine ⟨_, _, rfl, ?_, fun j => ?_⟩
    · cases k <;> decide
    · cases k <;> cases j <;> decide

theorem Loose.solid_value {w : List Char} (h : Loose .value w) (r : List Char) :
    Solid (w ++ r) := by
  obtain ⟨c, t, rfl, notBlank, -⟩ := h.exists_cons_value
  exact solid_cons notBlank _

/-- The entries start with no blank and not with the bracket that ends them. -/
theorem Loose.exists_cons_entries {w : List Char} (h : Loose (.entries k) w) :
    ∃ c t, w = c :: t ∧ ¬ Text.isAsciiBlank c ∧ c ≠ k.close := by
  have first {n v : List Char} (name : Named k n) (value : Loose .value v) (u : List Char) :
      ∃ c t, n ++ (v ++ u) = c :: t ∧ ¬ Text.isAsciiBlank c ∧ c ≠ k.close := by
    cases name with
    | item =>
      obtain ⟨c, t, rfl, notBlank, notClosing⟩ := value.exists_cons_value
      exact ⟨c, t ++ u, rfl, notBlank, notClosing _⟩
    | member => exact ⟨_, _, rfl, by decide, by decide⟩
  cases h with
  | last name value => exact first name value _
  | more name value => exact first name value _

theorem Loose.solid_entries {w : List Char} (h : Loose (.entries k) w) (r : List Char) :
    Solid (w ++ r) := by
  obtain ⟨c, t, rfl, notBlank, -⟩ := h.exists_cons_entries
  exact solid_cons notBlank _

/-- Passing over a part of the text `s` leaves `r`. -/
def Part.Passes : Part → List Char → List Char → Prop
  | .value,      s, r => Leaves (skipValue s) r
  | .contents k, s, r => Leaves (skipContainer k s) r
  | .entries k,  s, r => Leaves (skipEntries k s) r

/-- A separator or a closing bracket stands after a value, behind blanks. -/
theorem stops_append {b : List Char} (hb : Blank b) {c : Char} (hc : isDelimiter c)
    (r : List Char) : Stops (b ++ c :: r) := by
  intro d hd
  cases b with
  | nil =>
    cases hd
    exact hc
  | cons e b =>
    cases hd
    have blank := hb d List.mem_cons_self
    simp [isDelimiter, blank]

theorem isDelimiter_close (k : Container) : isDelimiter k.close := by cases k <;> decide

theorem not_isAsciiBlank_close (k : Container) : ¬ Text.isAsciiBlank k.close := by
  cases k <;> decide

/-- A word of the grammar is passed over, whatever follows it, if a scalar does not run on. -/
theorem Loose.passes {p : Part} {w : List Char} (h : Loose p w) (r : List Char)
    (follows : p = .value → Follows w r) : p.Passes (w ++ r) r := by
  induction h generalizing r with
  | @scalar c u bare rest =>
    have stops : Stops r := follows rfl fun d hd => by cases hd; exact bare
    have passed : Leaves (skipScalar (c :: u ++ r)) r :=
      leaves_skipScalar_append rest stops
    rw [Part.Passes, List.cons_append, skipValue]
    · exact passed
    · exact fun _ e => bare.1 (List.cons.inj e).1
    · exact fun _ e => bare.2.1 (List.cons.inj e).1
    · exact fun _ e => bare.2.2 (List.cons.inj e).1
  | literal body =>
    rw [Part.Passes, List.cons_append, skipValue]
    exact (leaves_afterQuote_iff.2 ⟨_, body, rfl⟩).map fun _ => rfl
  | @container k u _ ih =>
    have inside := ih r (by simp)
    cases k with
    | list => exact leaves_list inside
    | record => exact leaves_record inside
  | @empty k b blank =>
    rw [List.append_assoc]
    exact leaves_empty (skipSpace_append_of_solid blank (solid_cons (not_isAsciiBlank_close k) r))
  | @filled k b u blank entries ih =>
    obtain ⟨c, t, rfl, notBlank, notClosing⟩ := entries.exists_cons_entries
    rw [List.append_assoc]
    exact leaves_entries (skipSpace_append_of_solid blank (solid_cons notBlank _)) notClosing
      (ih r (by simp))
  | @last k n v b name value blank ih =>
    have passed := ih (b ++ k.close :: r) fun _ _ => stops_append blank (isDelimiter_close k) r
    have text : n ++ (v ++ (b ++ [k.close])) ++ r = n ++ (v ++ (b ++ k.close :: r)) := by simp
    rw [text]
    exact leaves_lastEntry (name.skipName (value.solid_value _)) passed
      (skipSpace_append_of_solid blank (solid_cons (not_isAsciiBlank_close k) r))
  | @more k n v b a u name value before after others ihv ihu =>
    have passed := ihv (b ++ ',' :: (a ++ (u ++ r))) fun _ _ => stops_append before (by decide) _
    have text : n ++ (v ++ (b ++ ',' :: (a ++ u))) ++ r =
        n ++ (v ++ (b ++ ',' :: (a ++ (u ++ r)))) := by simp
    rw [text]
    refine leaves_moreEntries (name.skipName (value.solid_value _)) passed
      (skipSpace_append_of_solid before (solid_cons (by decide) _)) ?_
    rw [skipSpace_append_of_solid after (others.solid_entries r)]
    exact ihu r (by simp)

theorem skipContainer_of_opening (h : Leaves (skipValue (k.opening :: s)) r) :
    Leaves (skipContainer k s) r := by
  cases k <;> rw [Container.opening, skipValue] at h <;>
    exact Leaves.of_bind_pure h fun _ => rfl

/-- What passing over a container comes to: there is nothing in it, or there are entries. -/
theorem cases_of_skipContainer (h : Leaves (skipContainer k s) r) :
    skipSpace s = k.close :: r ∨
      ∃ c t, skipSpace s = c :: t ∧ ¬ c = k.close ∧ Leaves (skipEntries k (c :: t)) r := by
  unfold skipContainer at h
  split at h
  · simp at h
  · next c t hs =>
    split at h
    · next close =>
      obtain rfl : t = r := by simpa using h
      exact .inl (by rw [hs, close])
    · next notClosed => exact .inr ⟨c, t, hs, notClosed, Leaves.of_bind_pure h fun _ => rfl⟩

/-- What passing over entries comes to: after the first one the container ends, or others follow. -/
theorem cases_of_skipEntries (h : Leaves (skipEntries k s) r) :
    ∃ n v, Leaves (skipName k s) n ∧ Leaves (skipValue n) v ∧
      (skipSpace v = k.close :: r ∨
        ∃ t, skipSpace v = ',' :: t ∧ Leaves (skipEntries k (skipSpace t)) r) := by
  rw [skipEntries, leaves_bind] at h
  obtain ⟨n, hn, en, h⟩ := h
  rw [leaves_bind] at h
  obtain ⟨v, hv, ev, h⟩ := h
  refine ⟨n, v, ⟨hn, en⟩, ⟨hv, ev⟩, ?_⟩
  simp only at h
  split at h
  · simp at h
  · next t hs => exact .inr ⟨t, hs, Leaves.of_bind_pure h fun _ => rfl⟩
  · next c t _ hs =>
    split at h
    · next close =>
      obtain rfl : t = r := by simpa using h
      exact .inl (by rw [hs, close])
    · simp at h

/-- Whatever is passed over as that part of `s` is a word of the grammar. -/
def Part.Splits (p : Part) (s : List Char) : Prop :=
  ∀ r, p.Passes s r → ∃ w, Loose p w ∧ s = w ++ r ∧ (p = .value → Follows w r)

/-- Only a scalar has to be followed by a delimiter. -/
theorem follows_of_not_bare {c : Char} (h : ¬ Bare c) (u r : List Char) : Follows (c :: u) r :=
  fun bare => absurd (bare c rfl) h

theorem not_bare_opening (k : Container) : ¬ Bare k.opening := by
  cases k <;> simp [Bare, Container.opening]

namespace Part

theorem splits_container (k : Container) (s : List Char) (h : (contents k).Splits s) :
    value.Splits (k.opening :: s) := by
  intro r passes
  obtain ⟨w, hw, rfl, -⟩ := h r (skipContainer_of_opening passes)
  exact ⟨_, .container hw, rfl, fun _ => follows_of_not_bare (not_bare_opening k) w r⟩

theorem splits_literal (s : List Char) : value.Splits ('"' :: s) := by
  intro r passes
  rw [Passes, skipValue] at passes
  obtain ⟨u, hu, rfl⟩ := leaves_afterQuote_iff.1 (Leaves.of_map passes fun _ => rfl)
  exact ⟨_, .literal hu, rfl, fun _ => follows_of_not_bare (by simp [Bare]) u r⟩

theorem splits_scalar (s : List Char) (brace : ∀ t, s = '{' :: t → False)
    (bracket : ∀ t, s = '[' :: t → False) (quote : ∀ t, s = '"' :: t → False) :
    value.Splits s := by
  intro r passes
  rw [Passes, skipValue] at passes
  · obtain ⟨stops, c, w, plain, rfl⟩ := scalar_of_skipScalar passes
    have bare : Bare c := by
      refine ⟨?_, ?_, ?_⟩
      · rintro rfl
        exact brace _ rfl
      · rintro rfl
        exact bracket _ rfl
      · rintro rfl
        exact quote _ rfl
    exact ⟨_, .scalar bare plain, rfl, fun _ _ => stops⟩
  · exact brace
  · exact bracket
  · exact quote

theorem splits_contents (k : Container) (s : List Char)
    (h : ∀ c t, skipSpace s = c :: t → ¬ c = k.close → (entries k).Splits (c :: t)) :
    (contents k).Splits s := by
  intro r passes
  obtain ⟨b, blank, text⟩ := exists_blank s
  rcases cases_of_skipContainer passes with close | ⟨c, t, first, notClosed, inside⟩
  · refine ⟨_, .empty blank, ?_, by simp⟩
    rw [text, close]
    simp
  · obtain ⟨u, hu, within, -⟩ := h c t first notClosed r inside
    refine ⟨_, .filled blank hu, ?_, by simp⟩
    rw [text, first, within, List.append_assoc]

/-- One entry is a name, a value and the closing bracket or a comma. -/
theorem splits_entries (k : Container) (s : List Char) (hv : ∀ n : Remainder s, value.Splits n.val)
    (others : ∀ (n : Remainder s) (v : Rest n.val) (t : List Char), skipSpace v.val = ',' :: t →
      (entries k).Splits (skipSpace t)) : (entries k).Splits s := by
  intro r passes
  obtain ⟨n, v, ⟨hn, en⟩, ⟨hv', ev⟩, ends⟩ := cases_of_skipEntries passes
  obtain ⟨name, named, rfl⟩ := named_of_skipName ⟨hn, en⟩
  obtain ⟨w, hw, rfl, -⟩ := hv ⟨n, hn⟩ v ⟨hv', ev⟩
  obtain ⟨b, blank, before⟩ := exists_blank v
  rcases ends with close | ⟨t, comma, more⟩
  · refine ⟨_, .last named hw blank, ?_, by simp⟩
    rw [before, close]
    simp
  · obtain ⟨a, blank', after⟩ := exists_blank t
    obtain ⟨u, hu, within, -⟩ := others ⟨_, hn⟩ ⟨v, hv'⟩ t comma r more
    refine ⟨_, .more named hw blank blank' hu, ?_, by simp⟩
    rw [before, comma, after, within]
    simp

end Part

/-- Induction along the passing over of the parts of a text. -/
theorem Part.induction {motive : Part → List Char → Prop}
    (container : ∀ k s, motive (.contents k) s → motive .value (k.opening :: s))
    (literal : ∀ s, motive .value ('"' :: s))
    (scalar : ∀ s, (∀ t, s = '{' :: t → False) → (∀ t, s = '[' :: t → False) →
      (∀ t, s = '"' :: t → False) → motive .value s)
    (contents : ∀ k s,
      (∀ c t, skipSpace s = c :: t → ¬ c = k.close → motive (.entries k) (c :: t)) →
      motive (.contents k) s)
    (entries : ∀ k s, (∀ n : Remainder s, motive .value n.val) →
      (∀ (n : Remainder s) (v : Rest n.val) (t : List Char), skipSpace v.val = ',' :: t →
        motive (.entries k) (skipSpace t)) → motive (.entries k) s) (p : Part) (s : List Char) :
    motive p s := by
  obtain ⟨value, inside, others⟩ := skipValue.mutual_induct (motive .value)
    (fun k => motive (.contents k)) (fun k => motive (.entries k)) (container .record)
    (container .list) literal scalar
    (fun k s none => contents k s fun c t first => by cases none.symm.trans first)
    (fun k s t close => contents k s fun c u first notClosed => by
      cases close.symm.trans first
      exact absurd rfl notClosed)
    (fun k s c t first _ h => contents k s fun d u first' _ => by
      cases first.symm.trans first'
      exact h)
    entries
  cases p with
  | value => exact value s
  | contents k => exact inside k s
  | entries k => exact others k s

/-- What is passed over is a word of the grammar, and if it is a scalar, a delimiter follows. -/
theorem loose_of_passes {p : Part} (h : p.Passes s r) :
    ∃ w, Loose p w ∧ s = w ++ r ∧ (p = .value → Follows w r) :=
  Part.induction Part.splits_container Part.splits_literal Part.splits_scalar Part.splits_contents
    Part.splits_entries p s r h

/-- A part of a text is passed over exactly if it is a word of the grammar. -/
theorem passes_iff {p : Part} :
    p.Passes s r ↔ ∃ w, Loose p w ∧ s = w ++ r ∧ (p = .value → Follows w r) := by
  constructor
  · exact loose_of_passes
  · rintro ⟨w, hw, rfl, follows⟩
    exact hw.passes r follows

end FlowLint.Locate
