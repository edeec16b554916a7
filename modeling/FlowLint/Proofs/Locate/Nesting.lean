import FlowLint.Proofs.Locate.Descent
import FlowLint.Proofs.Locate.Seek
import FlowLint.Proofs.Text.Layout

/-!
How the spans of a text lie to one another, be it malformed. Along a path they lie within one
another, and where two paths part, one span ends before the other starts. What goes down into a
value in one walk is passed over in the other, so of a value that is found after another one, or
around it, the end is known.
-/

namespace FlowLint.Locate

open Json

variable {text s r e e' : List Char} {p q : Path} {m n : Place}

/-! ### Downwards -/

theorem descend_cons_eq_some {step : Segment} (h : descend (step :: p) m = .ok (some n)) :
    ∃ next, enter step m.value = .ok (some next) ∧ descend p next = .ok (some n) := by
  rw [descend] at h
  obtain ⟨found, entered, h⟩ := bind_eq_ok_iff.1 h
  cases found with
  | none => cases h
  | some next => exact ⟨next, entered, h⟩

theorem descend_append_eq_some (h : descend (p ++ q) m = .ok (some n)) :
    ∃ o, descend p m = .ok (some o) ∧ descend q o = .ok (some n) := by
  rw [descend_append] at h
  obtain ⟨found, walked, h⟩ := bind_eq_ok_iff.1 h
  cases found with
  | none => cases h
  | some o => exact ⟨o, walked, h⟩

/-- The value of a place starts where the place does or later. -/
def Place.Ordered (m : Place) : Prop := m.value <:+ m.start

/-- Down from a place one comes to places in it. -/
theorem suffix_of_descend (ordered : m.Ordered) (h : descend p m = .ok (some n)) :
    n.Ordered ∧ n.start <:+ m.start := by
  induction p generalizing m with
  | nil =>
    cases h
    exact ⟨ordered, List.suffix_rfl⟩
  | cons step p ih =>
    obtain ⟨next, entered, h⟩ := descend_cons_eq_some h
    obtain ⟨ordered', within⟩ := ih (value_suffix_of_enter entered) h
    exact ⟨ordered', within.trans ((after_of_enter entered).suffix.trans ordered)⟩

/-- Further down one comes further on. -/
theorem after_of_descend (deep : p ≠ []) (h : descend p m = .ok (some n)) :
    After m.value n.start := by
  obtain ⟨step, p, rfl⟩ := List.exists_cons_of_ne_nil deep
  obtain ⟨next, entered, h⟩ := descend_cons_eq_some h
  exact (after_of_enter entered).to_suffix (suffix_of_descend (value_suffix_of_enter entered) h).2

/-- What is in a value ends where the value does or before. -/
theorem ends_of_descend (h : descend p m = .ok (some n)) (ends : Leaves (skipValue m.value) r) :
    ∃ e, Leaves (skipValue n.value) e ∧ r <:+ e := by
  induction p generalizing m r with
  | nil =>
    cases h
    exact ⟨r, ends, List.suffix_rfl⟩
  | cons step p ih =>
    obtain ⟨next, entered, h⟩ := descend_cons_eq_some h
    obtain ⟨e, ends', after⟩ := ends_of_enter entered ends
    obtain ⟨e', ends'', within⟩ := ih h ends'
    exact ⟨e', ends'', after.suffix.trans within⟩

/-- What is further down ends before. -/
theorem ends_before_of_descend (deep : p ≠ []) (h : descend p m = .ok (some n))
    (ends : Leaves (skipValue m.value) r) : ∃ e, Leaves (skipValue n.value) e ∧ After e r := by
  obtain ⟨step, p, rfl⟩ := List.exists_cons_of_ne_nil deep
  obtain ⟨next, entered, h⟩ := descend_cons_eq_some h
  obtain ⟨e, ends', after⟩ := ends_of_enter entered ends
  obtain ⟨e', ends'', within⟩ := ends_of_descend h ends'
  exact ⟨e', ends'', after.of_suffix within⟩

/-- What is in one of two places in a row precedes what is in the other. -/
theorem Place.Precedes.within {m' n' : Place} (h : m.Precedes n) (ordered : n.Ordered)
    (hm : descend p m = .ok (some m')) (hn : descend q n = .ok (some n')) : m'.Precedes n' := by
  obtain ⟨e, ends, after⟩ := h
  obtain ⟨e', ends', within⟩ := ends_of_descend hm ends
  exact ⟨e', ends', (after.of_suffix within).to_suffix (suffix_of_descend ordered hn).2⟩

/-! ### Parting -/

/-- Two paths, neither of which goes on from the other one, part at a step. -/
theorem exists_parting : ∀ {p q : Path}, ¬ p <+: q → ¬ q <+: p →
    ∃ r a b p' q', p = r ++ a :: p' ∧ q = r ++ b :: q' ∧ a ≠ b
  | [],     q,      h, _  => absurd (List.nil_prefix ..) h
  | a :: p, [],     _, h' => absurd (List.nil_prefix ..) h'
  | a :: p, b :: q, h, h' => by
    by_cases differ : a = b
    · subst differ
      obtain ⟨r, a', b', p', q', rfl, rfl, apart⟩ :=
        exists_parting (p := p) (q := q) (fun within => h (List.prefix_cons_inj a |>.2 within))
          (fun within => h' (List.prefix_cons_inj a |>.2 within))
      exact ⟨a :: r, a', b', p', q', rfl, rfl, apart⟩
    · exact ⟨[], a, b, p, q, rfl, rfl, differ⟩

/-! ### Offsets -/

theorem offsetOf_lt (h : After s r) (hs : s <:+ text) : offsetOf text s < offsetOf text r := by
  obtain ⟨a, rfl⟩ := hs
  obtain ⟨u, some, rfl⟩ := h
  obtain ⟨c, u, rfl⟩ := List.exists_cons_of_ne_nil some
  rw [offsetOf_append, ← List.append_assoc, offsetOf_append, Text.byteLength_append]
  exact Nat.lt_add_of_pos_right (Text.byteLength_pos c u)

theorem position_offsetOf_before (h : After s r) (hs : s <:+ text) :
    (Text.position text (offsetOf text s)).Before (Text.position text (offsetOf text r)) := by
  obtain ⟨a, rfl⟩ := hs
  obtain ⟨u, some, rfl⟩ := h
  have before := Text.position_before a some r
  rw [offsetOf_append]
  rw [← List.append_assoc] at before ⊢
  rwa [offsetOf_append]

/-! ### Spans -/

/-- The path leads to that place, and `e` is what its value leaves. -/
structure Found (text : List Char) (p : Path) (m : Place) (e : List Char) : Prop where
  leads : descend p (.root text) = .ok (some m)
  ends  : Leaves (skipValue m.value) e

/-- The span from a place to what is left. -/
def Place.upTo (text : List Char) (m : Place) (e : List Char) : Span :=
  ⟨offsetOf text m.start, offsetOf text e, m.start.take (m.start.length - e.length)⟩

theorem Place.upTo_append (before label w r : List Char) :
    (⟨label ++ (w ++ r), w ++ r⟩ : Place).upTo (before ++ (label ++ (w ++ r))) r =
      ⟨Text.byteLength before, Text.byteLength (before ++ (label ++ w)), label ++ w⟩ := by
  rw [upTo, offsetOf_append, ← List.append_assoc label, ← List.append_assoc before, offsetOf_append,
    take_append]

theorem find_eq_some_iff {a : Span} :
    find text p = .ok (some a) ↔ ∃ m e, Found text p m e ∧ a = m.upTo text e := by
  constructor
  · intro h
    cases walked : descend p (.root text) with
    | error snag => cases (find_of_error walked).symm.trans h
    | ok found =>
      cases found with
      | none => cases (find_eq_none_iff.2 walked).symm.trans h
      | some m =>
        rw [find_of_some walked, Place.span] at h
        cases passed : skipValue m.value with
        | error snag =>
          rw [passed] at h
          cases h
        | ok e =>
          rw [passed] at h
          cases h
          exact ⟨m, e.val, ⟨walked, e.property, passed⟩, rfl⟩
  · rintro ⟨m, e, ⟨walked, h, passed⟩, rfl⟩
    rw [find_of_some walked, Place.span, passed]
    rfl

namespace Found

theorem ordered_root (text : List Char) : (Place.root text).Ordered := List.suffix_rfl

theorem ordered (h : Found text p m e) : m.Ordered :=
  (suffix_of_descend (ordered_root text) h.leads).1

theorem start_suffix (h : Found text p m e) : m.start <:+ text :=
  (suffix_of_descend (ordered_root text) h.leads).2.trans (skipSpace_suffix text)

theorem after (h : Found text p m e) : After m.start e :=
  (after_of_skipValue h.ends).of_suffix h.ordered

theorem end_suffix (h : Found text p m e) : e <:+ text := h.after.suffix.trans h.start_suffix

/-- What is found, with the text before it and behind it. -/
theorem cut (h : Found text p m e) : ∃ before label w, Loose .value w ∧ Follows w e ∧
    m = ⟨label ++ (w ++ e), w ++ e⟩ ∧ text = before ++ (label ++ (w ++ e)) := by
  obtain ⟨w, hw, value, follows⟩ := loose_of_passes (p := .value) h.ends
  obtain ⟨before, text'⟩ := h.start_suffix
  obtain ⟨label, start⟩ := h.ordered
  rw [value] at start
  refine ⟨before, label, w, hw, follows rfl, ?_, ?_⟩
  · rw [start, ← value]
  · rw [start, text']

/-- The start and the end of what is found further down lie between those of what it is in. -/
theorem nested {r : Path} (h : Found text p m e) (h' : Found text (p ++ r) n e') (deep : r ≠ []) :
    After m.start n.start ∧ After e' e := by
  have walked := h'.leads
  rw [descend_append_of_some h.leads] at walked
  obtain ⟨e'', ends, before⟩ := ends_before_of_descend deep walked h.ends
  rw [h'.ends.unique ends]
  exact ⟨(after_of_descend deep walked).of_suffix h.ordered, before⟩

/-- Where two paths part, two steps lead down from one value. -/
theorem exists_fork {r p' q' : Path} {a b : Segment} (h : Found text (r ++ a :: p') m e)
    (h' : Found text (r ++ b :: q') n e') : ∃ s x y, enter a s = .ok (some x) ∧
      enter b s = .ok (some y) ∧ descend p' x = .ok (some m) ∧ descend q' y = .ok (some n) := by
  obtain ⟨o, reached, walked⟩ := descend_append_eq_some h.leads
  obtain ⟨o', reached', walked'⟩ := descend_append_eq_some h'.leads
  cases reached.symm.trans reached'
  obtain ⟨x, entered, walked⟩ := descend_cons_eq_some walked
  obtain ⟨y, entered', walked'⟩ := descend_cons_eq_some walked'
  exact ⟨o.value, x, y, entered, entered', walked, walked'⟩

theorem parted {r p' q' : Path} {a b : Segment} (h : Found text (r ++ a :: p') m e)
    (h' : Found text (r ++ b :: q') n e') (fork : a ≠ b) : m.Precedes n ∨ n.Precedes m := by
  obtain ⟨s, x, y, entered, entered', walked, walked'⟩ := h.exists_fork h'
  rcases precedes_of_enter entered entered' fork with first | first
  · exact .inl (first.within (value_suffix_of_enter entered') walked walked')
  · exact .inr (first.within (value_suffix_of_enter entered) walked' walked)

/-- Of two items the one with the smaller number comes first. -/
theorem parted_index {r p' q' : Path} {i j : Nat} (h : Found text (r ++ .index i :: p') m e)
    (h' : Found text (r ++ .index j :: q') n e') (lt : i < j) : m.Precedes n := by
  obtain ⟨s, x, y, entered, entered', walked, walked'⟩ := h.exists_fork h'
  exact (precedes_of_enter_index entered entered' lt).within (value_suffix_of_enter entered')
    walked walked'

theorem stop_lt (h : Found text p m e) (first : m.Precedes n) :
    offsetOf text e < offsetOf text n.start := by
  obtain ⟨e', ends, after⟩ := first
  cases h.ends.unique ends
  exact offsetOf_lt after h.end_suffix

/-- Different paths lead to different places. -/
theorem apart (h : Found text p m e) (h' : Found text q n e') (differ : p ≠ q) :
    After m.start n.start ∨ After n.start m.start := by
  by_cases above : p <+: q
  · obtain ⟨r, rfl⟩ := above
    exact .inl (h.nested h' (by simpa using differ)).1
  by_cases below : q <+: p
  · obtain ⟨r, rfl⟩ := below
    exact .inr (h'.nested h (by simpa using differ.symm)).1
  obtain ⟨r, a, b, p', q', rfl, rfl, fork⟩ := exists_parting above below
  rcases h.parted h' fork with ⟨e'', ends, after⟩ | ⟨e'', ends, after⟩
  · exact .inl (after.of_suffix ((after_of_skipValue ends).suffix.trans h.ordered))
  · exact .inr (after.of_suffix ((after_of_skipValue ends).suffix.trans h'.ordered))

theorem positions_differ (h : Found text p m e) (h' : Found text q n e') (differ : p ≠ q) :
    ((m.upTo text e).location text).position ≠ ((n.upTo text e').location text).position := by
  rcases h.apart h' differ with after | after
  · exact (position_offsetOf_before after h.start_suffix).ne
  · exact (position_offsetOf_before after h'.start_suffix).ne.symm

end Found

/-- What is found in a text, be it malformed, forms a tree. Further down a path the span is within
    the span above it, with something of that before and behind it. Where two paths part, one span
    ends before the other starts, and of two items the first one does. So no two paths that lead
    somewhere are reported at the same line and column, unless one of them is the root. -/
theorem spans_nest {a b : Span} (hp : find text p = .ok (some a)) (hq : find text q = .ok (some b))
    (differ : p ≠ q) :
    (p <+: q → a.start < b.start ∧ b.stop < a.stop) ∧
    (¬ p <+: q → ¬ q <+: p → a.stop < b.start ∨ b.stop < a.start) ∧
    (∀ r i j p' q', p = r ++ .index i :: p' → q = r ++ .index j :: q' → i < j →
      a.stop < b.start) ∧
    (p ≠ [] → q ≠ [] → ∃ la lb, resolve text p = .ok la ∧ resolve text q = .ok lb ∧
      la.position ≠ lb.position) := by
  obtain ⟨m, e, h, rfl⟩ := find_eq_some_iff.1 hp
  obtain ⟨n, e', h', rfl⟩ := find_eq_some_iff.1 hq
  refine ⟨?_, ?_, ?_, ?_⟩
  · rintro ⟨r, rfl⟩
    obtain ⟨starts, ends⟩ := h.nested h' (by simpa using differ)
    exact ⟨offsetOf_lt starts h.start_suffix, offsetOf_lt ends h'.end_suffix⟩
  · intro above below
    obtain ⟨r, a, b, p', q', rfl, rfl, fork⟩ := exists_parting above below
    exact (h.parted h' fork).imp h.stop_lt h'.stop_lt
  · rintro r i j p' q' rfl rfl lt
    exact h.stop_lt (h.parted_index h' lt)
  · intro deep deep'
    exact ⟨_, _, resolve_of_find_some deep hp, resolve_of_find_some deep' hq,
      h.positions_differ h' differ⟩

/-- A text that ends within an object that says a name twice. -/
def unendedNames : List Char := "\x7b\"a\": [1, tru], \"a\": 2, \"b\": \"x\" ".toList

theorem spans_nest_unendedNames :
    find unendedNames [] = .error (.unexpectedEnd 33 []) ∧
      ∃ list first second last : Span,
        find unendedNames [.key "a"] = .ok (some list) ∧
        find unendedNames [.key "a", .index 0] = .ok (some first) ∧
        find unendedNames [.key "a", .index 1] = .ok (some second) ∧
        find unendedNames [.key "b"] = .ok (some last) ∧
        (list.start < second.start ∧ second.stop < list.stop) ∧ first.stop < second.start ∧
        (second.stop < last.start ∨ last.stop < second.start) ∧ ∃ la lb,
          resolve unendedNames [.key "a", .index 1] = .ok la ∧
          resolve unendedNames [.key "b"] = .ok lb ∧ la.position ≠ lb.position := by
  have list : find unendedNames [.key "a"] = .ok (some ⟨1, 14, "\"a\": [1, tru]".toList⟩) := by
    decide +kernel
  have first : find unendedNames [.key "a", .index 0] = .ok (some ⟨7, 8, "1".toList⟩) := by
    decide +kernel
  have second : find unendedNames [.key "a", .index 1] = .ok (some ⟨10, 13, "tru".toList⟩) := by
    decide +kernel
  have last : find unendedNames [.key "b"] = .ok (some ⟨24, 32, "\"b\": \"x\"".toList⟩) := by
    decide +kernel
  obtain ⟨-, apart, -, positions⟩ := spans_nest second last (by decide)
  refine ⟨by decide +kernel, _, _, _, _, list, first, second, last, ?_, ?_, ?_, ?_⟩
  · exact (spans_nest list second (by decide)).1 (by decide)
  · exact (spans_nest first second (by decide)).2.2.1 [.key "a"] 0 1 [] [] rfl rfl (by decide)
  · exact apart (by decide) (by decide)
  · exact positions (by decide) (by decide)

end FlowLint.Locate
