import FlowLint.Locate.Find
import FlowLint.Proofs.Locate.Loose

/-!
One step down from a value. A step goes over the entries of a container one by one, as far as the
one it looks for, and takes each for what passing over the container takes it for.
-/

namespace FlowLint

open Json Locate

namespace Locate

variable {s t r v e n : List Char} {k : Container} {p q : Place}

/-! ### What is left -/

/-- `r` is what is left of `s` after something of it. -/
def After (s r : List Char) : Prop := ∃ u, u ≠ [] ∧ s = u ++ r

namespace After

theorem suffix (h : After s r) : r <:+ s := by
  obtain ⟨u, -, rfl⟩ := h
  exact List.suffix_append u r

theorem of_suffix (h : After s r) (hs : s <:+ t) : After t r := by
  obtain ⟨a, rfl⟩ := hs
  obtain ⟨u, some, rfl⟩ := h
  exact ⟨a ++ u, by simp [some], by simp⟩

theorem to_suffix (h : After s r) (hr : t <:+ r) : After s t := by
  obtain ⟨a, rfl⟩ := hr
  obtain ⟨u, some, rfl⟩ := h
  exact ⟨u ++ a, by simp [some], by simp⟩

theorem trans (h : After s r) (h' : After r t) : After s t := h.to_suffix h'.suffix

end After

theorem after_cons (c : Char) (s : List Char) : After (c :: s) s := ⟨[c], by simp, rfl⟩

theorem skipSpace_suffix (s : List Char) : skipSpace s <:+ s := List.dropWhile_suffix _

/-- What a value leaves is less than there was. -/
theorem after_of_skipValue (h : Leaves (skipValue s) r) : After s r := by
  obtain ⟨w, hw, rfl, -⟩ := loose_of_passes (p := .value) h
  obtain ⟨c, u, rfl, -⟩ := hw.exists_cons_value
  exact ⟨c :: u, by simp, rfl⟩

theorem suffix_of_skipName (h : Leaves (skipName k s) r) : r <:+ s := by
  obtain ⟨w, -, rfl⟩ := named_of_skipName h
  exact List.suffix_append w r

theorem after_separator {c : Char} (h : skipSpace s = c :: r) : After s r :=
  (after_cons c r).of_suffix (h ▸ skipSpace_suffix s)

/-- The next entry starts behind the comma. -/
theorem after_comma (h : skipSpace s = ',' :: r) : After s (skipSpace r) :=
  (after_separator h).to_suffix (skipSpace_suffix r)

/-! ### Entries -/

/-- The place `p` is the entry that follows `n` entries from `s` on, which starts an entry. -/
inductive Reaches (k : Container) : Nat → List Char → Place → Prop
  | here {s v : List Char} (name : Leaves (skipName k s) v) : Reaches k 0 s ⟨s, v⟩
  | next {n : Nat} {s v e t : List Char} {p : Place} (name : Leaves (skipName k s) v)
      (value : Leaves (skipValue v) e) (comma : skipSpace e = ',' :: t)
      (others : Reaches k n (skipSpace t) p) : Reaches k (n + 1) s p

/-- `q` starts after the value at `p`, which ends before. -/
def Place.Precedes (p q : Place) : Prop := ∃ e, Leaves (skipValue p.value) e ∧ After e q.start

namespace Reaches

variable {i j : Nat}

theorem start_suffix (h : Reaches k i s p) : p.start <:+ s := by
  induction h with
  | here => exact List.suffix_rfl
  | next name value comma _ ih =>
    have left := (after_of_skipValue value).suffix.trans (suffix_of_skipName name)
    exact ih.trans ((after_comma comma).suffix.trans left)

theorem value_suffix (h : Reaches k i s p) : p.value <:+ p.start := by
  induction h with
  | here name => exact suffix_of_skipName name
  | next _ _ _ _ ih => exact ih

/-- As many entries on there is one place. -/
theorem unique (h : Reaches k i s p) (h' : Reaches k i s q) : p = q := by
  induction h with
  | here name =>
    cases h' with
    | here name' => rw [name.unique name']
  | next name value comma _ ih =>
    cases h' with
    | next name' value' comma' others' =>
      cases name.unique name'
      cases value.unique value'
      cases comma.symm.trans comma'
      exact ih others'

/-- Of two entries the first ends before the second starts. -/
theorem precedes (h : Reaches k i s p) (h' : Reaches k j s q) (lt : i < j) : p.Precedes q := by
  induction h generalizing j with
  | here name =>
    cases h' with
    | here => exact absurd lt (Nat.lt_irrefl 0)
    | next name' value comma others =>
      cases name.unique name'
      exact ⟨_, value, (after_comma comma).to_suffix others.start_suffix⟩
  | next name value comma _ ih =>
    cases h' with
    | here => exact absurd lt (Nat.not_lt_zero _)
    | next name' value' comma' others' =>
      cases name.unique name'
      cases value.unique value'
      cases comma.symm.trans comma'
      exact ih others' (Nat.lt_of_succ_lt_succ lt)

/-- Where all the entries are passed over, each of them ends before the container does. -/
theorem ends (h : Reaches k i s p) (passes : Leaves (skipEntries k s) r) :
    ∃ e, Leaves (skipValue p.value) e ∧ After e r := by
  induction h with
  | here name =>
    obtain ⟨v, e, name', value, tail⟩ := cases_of_skipEntries passes
    cases name.unique name'
    refine ⟨e, value, ?_⟩
    rcases tail with close | ⟨t, comma, more⟩
    · exact after_separator close
    · obtain ⟨w, -, text, -⟩ := loose_of_passes (p := .entries k) more
      exact (after_comma comma).to_suffix ⟨w, text.symm⟩
  | next name value comma _ ih =>
    obtain ⟨v, e, name', value', tail⟩ := cases_of_skipEntries passes
    cases name.unique name'
    cases value.unique value'
    rcases tail with close | ⟨t, comma', more⟩
    · -- the entry sought stands behind a comma, so the container does not end here
      cases k <;> cases comma.symm.trans close
    · cases comma.symm.trans comma'
      exact ih more

end Reaches

/-! ### Members -/

theorem take_append (a r : List Char) : (a ++ r).take ((a ++ r).length - r.length) = a := by
  rw [List.length_append, Nat.add_sub_cancel, List.take_left]

/-- The literal that starts a member is passed over, and read as its name. -/
theorem yields_readName_iff {name : String} : Yields (readName s) name r ↔
    ∃ u, Closed u ∧ literal? ('"' :: u) = .ok name ∧ s = '"' :: (u ++ r) := by
  have cut (u : List Char) :
      ('"' :: (u ++ r)).take (('"' :: (u ++ r)).length - r.length) = '"' :: u :=
    take_append ('"' :: u) r
  rw [readName, Yields]
  constructor
  · rintro ⟨_, h⟩
    obtain ⟨⟨t, ht⟩, e, h⟩ := bind_eq_ok_iff.1 h
    split at h
    · next found read =>
      cases h
      obtain ⟨u, hu, rfl⟩ := leaves_skipLiteral_iff.1 ⟨ht, e⟩
      rw [cut] at read
      exact ⟨u, hu, read, rfl⟩
    · cases h
  · rintro ⟨u, hu, read, rfl⟩
    obtain ⟨h, e⟩ := leaves_skipLiteral_iff.2 ⟨u, hu, rfl⟩
    refine ⟨h, bind_eq_ok_iff.2 ⟨_, e, ?_⟩⟩
    simp only [cut, read]
    rfl

section Member

variable {name other : String}

/-- What seeking a member comes to: the first one has the name, or the search goes on behind it. -/
theorem cases_of_seekMember (h : seekMember name s = .ok (some p)) :
    ∃ other n v, Yields (readName s) other n ∧ Leaves (skipColon n) v ∧
      (other = name ∧ p = ⟨s, v⟩ ∨ other ≠ name ∧ ∃ e t, Leaves (skipValue v) e ∧
        skipSpace e = ',' :: t ∧ seekMember name (skipSpace t) = .ok (some p)) := by
  rw [seekMember] at h
  obtain ⟨⟨other, n⟩, en, h⟩ := bind_eq_ok_iff.1 h
  obtain ⟨v, ev, h⟩ := bind_eq_ok_iff.1 h
  refine ⟨other, n.val, v.val, ⟨n.property, en⟩, ⟨v.property, ev⟩, ?_⟩
  split at h
  · next found =>
    cases h
    exact .inl ⟨found, rfl⟩
  · next differs =>
    obtain ⟨e, ee, h⟩ := bind_eq_ok_iff.1 h
    refine .inr ⟨differs, ?_⟩
    split at h
    · cases h
    · next t comma => exact ⟨e.val, t, ⟨e.property, ee⟩, comma, h⟩
    · cases h
    · cases h

theorem seekMember_here (hn : Yields (readName s) name n) (hv : Leaves (skipColon n) v) :
    seekMember name s = .ok (some ⟨s, v⟩) := by
  obtain ⟨_, en⟩ := hn
  obtain ⟨_, ev⟩ := hv
  rw [seekMember]
  refine bind_eq_ok_iff.2 ⟨_, en, bind_eq_ok_iff.2 ⟨_, ev, ?_⟩⟩
  rw [if_pos rfl]
  rfl

theorem seekMember_behind (hn : Yields (readName s) other n) (differs : other ≠ name)
    (hv : Leaves (skipColon n) v) (he : Leaves (skipValue v) e) (comma : skipSpace e = ',' :: t) :
    seekMember name s = seekMember name (skipSpace t) := by
  obtain ⟨_, en⟩ := hn
  obtain ⟨_, ev⟩ := hv
  obtain ⟨_, ee⟩ := he
  rw [seekMember, en]
  simp only [bind, Except.bind, ev]
  rw [if_neg differs]
  simp only [ee]
  split <;> rename_i h <;> cases comma.symm.trans h
  · rfl
  · contradiction

theorem seekMember_closed (hn : Yields (readName s) other n) (differs : other ≠ name)
    (hv : Leaves (skipColon n) v) (he : Leaves (skipValue v) e) (close : skipSpace e = '}' :: t) :
    seekMember name s = .ok none := by
  obtain ⟨_, en⟩ := hn
  obtain ⟨_, ev⟩ := hv
  obtain ⟨_, ee⟩ := he
  rw [seekMember, en]
  simp only [bind, Except.bind, ev]
  rw [if_neg differs]
  simp only [ee]
  split <;> rename_i h <;> cases close.symm.trans h
  · rfl
  · contradiction

end Member

/-! ### Items -/

theorem cases_of_seekItem {i : Nat} (h : seekItem (i + 1) s = .ok (some p)) :
    ∃ e t, Leaves (skipValue s) e ∧ skipSpace e = ',' :: t ∧
      seekItem i (skipSpace t) = .ok (some p) := by
  rw [seekItem] at h
  obtain ⟨e, ee, h⟩ := bind_eq_ok_iff.1 h
  split at h
  · cases h
  · next t comma => exact ⟨e.val, t, ⟨e.property, ee⟩, comma, h⟩
  · cases h
  · cases h

theorem seekItem_behind (i : Nat) (he : Leaves (skipValue s) e) (comma : skipSpace e = ',' :: t) :
    seekItem (i + 1) s = seekItem i (skipSpace t) := by
  obtain ⟨_, ee⟩ := he
  rw [seekItem, ee]
  simp only [bind, Except.bind, comma]

theorem seekItem_closed (i : Nat) (he : Leaves (skipValue s) e) (close : skipSpace e = ']' :: t) :
    seekItem (i + 1) s = .ok none := by
  obtain ⟨_, ee⟩ := he
  rw [seekItem, ee]
  simp only [bind, Except.bind, close]
  rfl

/-! ### Steps -/

end Locate

/-- The kind of container that has such an entry. -/
def Segment.container : Segment → Container
  | .key _   => .record
  | .index _ => .list

/-- The entry after `n` others, at that place, is the one that a step leads to: it has the name, or
    the number. -/
def Segment.Marks : Segment → Nat → Place → Prop
  | .key name, _, p => ∃ r, Yields (readName p.start) name r
  | .index i,  n, _ => n = i

theorem Segment.Marks.unique {step step' : Segment} {n : Nat} {p : Place} (h : step.Marks n p)
    (h' : step'.Marks n p) (same : step.container = step'.container) : step = step' := by
  cases step <;> cases step' <;> cases same
  · obtain ⟨_, read⟩ := h
    obtain ⟨_, read'⟩ := h'
    rw [read.unique read']
  · rw [← h, ← h']

namespace Locate

/-- The walk to an entry from the start of the first one. -/
def seek : Segment → List Char → Except Snag (Option Place)
  | .key name => seekMember name
  | .index i  => seekItem i

variable {step : Segment}

theorem leaves_skipName_of_readName {name : String} (hn : Yields (readName s) name n)
    (hv : Leaves (skipColon n) v) : Leaves (skipName .record s) v := by
  obtain ⟨u, hu, -, rfl⟩ := yields_readName_iff.1 hn
  obtain ⟨solid, b, a, hb, ha, rfl⟩ := leaves_skipColon_iff.1 hv
  have text : '"' :: (u ++ (b ++ ':' :: (a ++ v))) = '"' :: (u ++ (b ++ ':' :: a)) ++ v := by simp
  rw [text]
  exact (Named.member hu hb ha).skipName solid

/-- The member found is one that passing over the object comes to, and has the name. -/
theorem reaches_of_seekMember {name : String} (h : seekMember name s = .ok (some p)) :
    ∃ m, Reaches .record m s p ∧ ∃ r, Yields (readName p.start) name r := by
  induction s using seekMember.induct with
  | _ s ih =>
    obtain ⟨other, n, v, hn, hv, found | ⟨-, e, t, he, comma, h⟩⟩ := cases_of_seekMember h
    · obtain ⟨rfl, rfl⟩ := found
      exact ⟨0, .here (leaves_skipName_of_readName hn hv), n, hn⟩
    · obtain ⟨m, reached, named⟩ := ih ⟨n, hn.bound⟩ ⟨v, hv.bound⟩ ⟨e, he.bound⟩ t comma h
      exact ⟨m + 1, .next (leaves_skipName_of_readName hn hv) he comma reached, named⟩

theorem reaches_of_seekItem {i : Nat} (h : seekItem i s = .ok (some p)) : Reaches .list i s p := by
  induction i generalizing s with
  | zero =>
    cases h
    exact .here ((leaves_ok ..).2 rfl)
  | succ i ih =>
    obtain ⟨e, t, value, comma, h⟩ := cases_of_seekItem h
    exact .next ((leaves_ok ..).2 rfl) value comma (ih h)

theorem reaches_of_seek (h : seek step s = .ok (some p)) :
    ∃ m, Reaches step.container m s p ∧ step.Marks m p := by
  cases step with
  | key name => exact reaches_of_seekMember h
  | index i => exact ⟨i, reaches_of_seekItem h, rfl⟩

/-- What a step comes to: the value is a container with entries, and one of them is sought. -/
theorem cases_of_enter (h : enter step s = .ok (some p)) :
    ∃ t, s = step.container.opening :: t ∧ (∀ u, skipSpace t ≠ step.container.close :: u) ∧
      seek step (skipSpace t) = .ok (some p) := by
  rw [enter.eq_def] at h
  split at h
  · split at h
    · cases h
    · next open' => exact ⟨_, rfl, fun u => open' u, h⟩
  · split at h
    · cases h
    · next open' => exact ⟨_, rfl, fun u => open' u, h⟩
  · cases h

theorem enter_opening (open' : ∀ u, skipSpace t ≠ step.container.close :: u) :
    enter step (step.container.opening :: t) = seek step (skipSpace t) := by
  cases step <;> rw [Segment.container, Container.opening, enter] <;> split
  · next h => exact absurd h (open' _)
  · rfl
  · next h => exact absurd h (open' _)
  · rfl

theorem enter_closed (close : skipSpace t = step.container.close :: r) :
    enter step (step.container.opening :: t) = .ok none := by
  cases step <;> rw [Segment.container, Container.opening, enter] <;> split
  · rfl
  · next h => exact absurd close (h r)
  · rfl
  · next h => exact absurd close (h r)

theorem enter_other (h : ∀ t, s ≠ step.container.opening :: t) : enter step s = .ok none := by
  rw [enter.eq_def]
  split
  · exact absurd rfl (h _)
  · exact absurd rfl (h _)
  · rfl

/-- The entry starts after the bracket that starts the container, and its value not before it. -/
theorem after_of_enter (h : enter step s = .ok (some p)) : After s p.start := by
  obtain ⟨t, rfl, -, h⟩ := cases_of_enter h
  obtain ⟨m, reached, -⟩ := reaches_of_seek h
  exact (after_cons _ t).to_suffix (reached.start_suffix.trans (skipSpace_suffix t))

theorem value_suffix_of_enter (h : enter step s = .ok (some p)) : p.value <:+ p.start := by
  obtain ⟨t, rfl, -, h⟩ := cases_of_enter h
  obtain ⟨m, reached, -⟩ := reaches_of_seek h
  exact reached.value_suffix

/-- The entry ends before the container does. -/
theorem ends_of_enter (h : enter step s = .ok (some p)) (passes : Leaves (skipValue s) r) :
    ∃ e, Leaves (skipValue p.value) e ∧ After e r := by
  obtain ⟨t, rfl, open', h⟩ := cases_of_enter h
  obtain ⟨m, reached, -⟩ := reaches_of_seek h
  rcases cases_of_skipContainer (skipContainer_of_opening passes) with
    close | ⟨c, u, first, -, entries⟩
  · exact absurd close (open' r)
  · rw [first] at reached
    exact reached.ends entries

/-- The entries that two different steps lead to follow one another. -/
theorem precedes_of_enter {step' : Segment} (h : enter step s = .ok (some p))
    (h' : enter step' s = .ok (some q)) (differ : step ≠ step') : p.Precedes q ∨ q.Precedes p := by
  obtain ⟨t, rfl, -, h⟩ := cases_of_enter h
  obtain ⟨t', text, -, h'⟩ := cases_of_enter h'
  obtain ⟨m, reached, marks⟩ := reaches_of_seek h
  obtain ⟨m', reached', marks'⟩ := reaches_of_seek h'
  have same : step.container = step'.container := by
    cases step <;> cases step' <;> first | rfl | cases text
  rw [same] at text reached
  cases text
  rcases Nat.lt_trichotomy m m' with lt | rfl | lt
  · exact .inl (reached.precedes reached' lt)
  · -- one entry is marked by one step only
    cases reached.unique reached'
    exact absurd (marks.unique marks' same) differ
  · exact .inr (reached'.precedes reached lt)

theorem precedes_of_enter_index {i j : Nat} (h : enter (.index i) s = .ok (some p))
    (h' : enter (.index j) s = .ok (some q)) (lt : i < j) : p.Precedes q := by
  obtain ⟨t, rfl, -, h⟩ := cases_of_enter h
  obtain ⟨t', text, -, h'⟩ := cases_of_enter h'
  cases text
  exact (reaches_of_seekItem h).precedes (reaches_of_seekItem h') lt

end Locate

end FlowLint
