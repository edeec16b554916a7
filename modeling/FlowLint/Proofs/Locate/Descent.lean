import FlowLint.Proofs.Locate.Resolve
import Mathlib.Data.List.Basic
import Mathlib.Data.List.Induction

/-!
Where a path is reported, on any text. The climb walks the text anew for every part of the path it
tries, and it comes to what one walk along the whole path comes to: the path is followed until a
step is missing, and the value reached there is shown. How that value goes on does not matter to
longer paths, so a malformed text can have a place for a path and none for a part of it.
-/

namespace FlowLint.Locate

open Json

variable {text : List Char} {p q : Path} {place next : Place} {snag : Snag}

/-- Where every walk starts. -/
def Place.root (text : List Char) : Place := ⟨skipSpace text, skipSpace text⟩

/-- Goes down as long as there is a step and it leads somewhere. How many steps that is, and where
    the last of them leads. -/
def follow : Path → Place → Except Snag (Nat × Place)
  | [],           place => .ok (0, place)
  | step :: path, place => do
    match ← enter step place.value with
    | some next =>
      let (n, last) ← follow path next
      return (n + 1, last)
    | none      => return (0, place)

/-! ### Walks -/

/-- A walk along a path in two parts. -/
theorem descend_append (p q : Path) (place : Place) :
    descend (p ++ q) place = (do
      match ← descend p place with
      | some next => descend q next
      | none      => return none) := by
  induction p generalizing place with
  | nil => rfl
  | cons step p ih =>
    rw [List.cons_append, descend, descend]
    cases enter step place.value with
    | error snag => rfl
    | ok found =>
      cases found with
      | none => rfl
      | some next => exact ih next

theorem descend_append_of_some (h : descend p place = .ok (some next)) (q : Path) :
    descend (p ++ q) place = descend q next := by
  rw [descend_append, h]
  rfl

theorem descend_append_of_none (h : descend p place = .ok none) (q : Path) :
    descend (p ++ q) place = .ok none := by
  rw [descend_append, h]
  rfl

theorem descend_singleton (step : Segment) (place : Place) :
    descend [step] place = enter step place.value := by
  rw [descend]
  cases enter step place.value with
  | error snag => rfl
  | ok found => cases found <;> rfl

theorem find_of_error (h : descend p (.root text) = .error snag) :
    find text p = .error (snag.toError text p) := by
  rw [Place.root] at h
  rw [find, walk, h]
  rfl

theorem find_of_some (h : descend p (.root text) = .ok (some place)) :
    find text p = ((place.span text).map some).mapError (·.toError text p) := by
  rw [Place.root] at h
  rw [find, walk, h]
  rfl

theorem find_eq_none_iff : find text p = .ok none ↔ descend p (.root text) = .ok none := by
  constructor
  · intro h
    cases found : descend p (.root text) with
    | error snag => cases (find_of_error found).symm.trans h
    | ok found' =>
      cases found' with
      | none => rfl
      | some place =>
        rw [find_of_some found] at h
        cases e : place.span text <;> rw [e] at h <;> cases h
  · intro h
    rw [Place.root] at h
    rw [find, walk, h]
    rfl

/-- What a missing step was to lead to is missing. -/
theorem find_append_eq_none (h : find text p = .ok none) (q : Path) :
    find text (p ++ q) = .ok none :=
  find_eq_none_iff.2 (descend_append_of_none (find_eq_none_iff.1 h) q)

/-! ### Following a path -/

theorem descend_of_follow_eq_error (h : follow p place = .error snag) :
    descend p place = .error snag := by
  induction p generalizing place with
  | nil => cases h
  | cons step p ih =>
    rw [follow] at h
    rw [descend]
    cases entered : enter step place.value with
    | error snag' =>
      rw [entered] at h
      cases h
      rfl
    | ok found =>
      rw [entered] at h
      cases found with
      | none => cases h
      | some next =>
        refine ih ?_
        cases followed : follow p next with
        | error snag' => simpa [bind, Except.bind, followed] using h
        | ok reached => simp [bind, Except.bind, followed, pure, Except.pure] at h

/-- The steps counted lead to the place, and the one after them, if there is one, leads nowhere. -/
theorem exists_of_follow_eq_ok {k : Nat} (h : follow p place = .ok (k, next)) :
    ∃ a b, p = a ++ b ∧ a.length = k ∧ descend a place = .ok (some next) ∧
      ∀ step ∈ b.head?, enter step next.value = .ok none := by
  induction p generalizing place k with
  | nil =>
    cases h
    exact ⟨[], [], rfl, rfl, rfl, by simp⟩
  | cons step p ih =>
    rw [follow] at h
    obtain ⟨found, entered, h⟩ := bind_eq_ok_iff.1 h
    cases found with
    | none =>
      cases h
      refine ⟨[], step :: p, rfl, rfl, rfl, fun step' first => ?_⟩
      cases first
      exact entered
    | some inner =>
      obtain ⟨⟨n, last⟩, followed, h⟩ := bind_eq_ok_iff.1 h
      cases h
      obtain ⟨a, b, rfl, rfl, leads, missing⟩ := ih followed
      refine ⟨step :: a, b, rfl, rfl, ?_, missing⟩
      rw [descend, entered]
      exact leads

/-! ### The climb -/

theorem resolve_concat (text : List Char) (p : Path) (step : Segment) :
    resolve text (p ++ [step]) = (do
      match ← find text (p ++ [step]) with
      | some span => return span.location text
      | none      => resolve text p) := by
  rw [resolve, List.reverse_append, List.reverse_singleton, List.singleton_append, climb,
    List.reverse_cons, List.reverse_reverse]
  rfl

/-- From below a missing step the climb comes to above it. -/
theorem resolve_append {step : Segment} (missing : find text (p ++ [step]) = .ok none)
    (q : Path) : resolve text (p ++ step :: q) = resolve text p := by
  induction q using List.reverseRecOn with
  | nil =>
    rw [resolve_concat, missing]
    rfl
  | append_singleton q last ih =>
    have below := find_append_eq_none missing (q ++ [last])
    rw [List.append_assoc, List.singleton_append] at below
    rw [← List.cons_append, ← List.append_assoc] at below ⊢
    rw [resolve_concat, below]
    exact ih

theorem resolve_of_find_error {e : LocateError} (deep : p ≠ []) (h : find text p = .error e) :
    resolve text p = .error e := by
  obtain rfl | ⟨q, step, rfl⟩ := List.eq_nil_or_concat' p
  · exact absurd rfl deep
  · rw [resolve_concat, h]
    rfl

theorem resolve_of_find_some {s : Span} (deep : p ≠ []) (h : find text p = .ok (some s)) :
    resolve text p = .ok (s.location text) := by
  obtain rfl | ⟨q, step, rfl⟩ := List.eq_nil_or_concat' p
  · exact absurd rfl deep
  · rw [resolve_concat, h]
    rfl

/-- What is found at a path that leads to that place, and what is reported: the span of the value
    there, or why it has no end. -/
def ShownAt (text : List Char) (p : Path) (place : Place) (shown : Except LocateError Location) :
    Prop :=
  match place.span text with
  | .ok s       => find text p = .ok (some s) ∧ shown = .ok (s.location text)
  | .error snag =>
    find text p = .error (snag.toError text p) ∧ shown = .error (snag.toError text p)

theorem shownAt_resolve (deep : p ≠ []) (h : descend p (.root text) = .ok (some place)) :
    ShownAt text p place (resolve text p) := by
  have found := find_of_some h
  rw [ShownAt]
  cases e : place.span text with
  | ok s =>
    rw [e] at found
    exact ⟨found, resolve_of_find_some deep found⟩
  | error snag =>
    rw [e] at found
    exact ⟨found, resolve_of_find_error deep found⟩

/-- What is reported for a path if the walk along it ends so. -/
def Reported (text : List Char) (p : Path) : Except Snag (Nat × Place) → Prop
  | .error snag     => resolve text p = .error (snag.toError text p)
  | .ok (k, place) =>
    k ≤ p.length ∧ (∀ j, k < j → j ≤ p.length → find text (p.take j) = .ok none) ∧
      if k = 0 then resolve text p = .ok ⟨.start, text⟩
      else ShownAt text (p.take k) place (resolve text p)

section Halted

variable {a b : Path} (leads : descend a (.root text) = .ok (some place))
  (missing : ∀ step ∈ b.head?, enter step place.value = .ok none)

include leads missing

/-- No path that goes on after the last step that leads somewhere exists. -/
theorem find_append_of_missing {c : Path} (more : c ≠ []) (within : c <+: b) :
    find text (a ++ c) = .ok none := by
  obtain ⟨step, c, rfl⟩ := List.exists_cons_of_ne_nil more
  obtain ⟨d, rfl⟩ := within
  have first : descend (a ++ [step]) (.root text) = .ok none := by
    rw [descend_append_of_some leads, descend_singleton]
    exact missing step rfl
  rw [← List.singleton_append, ← List.append_assoc]
  exact find_append_eq_none (find_eq_none_iff.2 first) c

theorem resolve_append_of_missing : resolve text (a ++ b) = resolve text a := by
  cases b with
  | nil => rw [List.append_nil]
  | cons step b =>
    exact resolve_append
      (find_append_of_missing leads missing (by simp) (List.prefix_append [step] b)) b

end Halted

theorem reported_follow (text : List Char) (p : Path) :
    Reported text p (follow p (.root text)) := by
  cases followed : follow p (.root text) with
  | error snag =>
    have failed := find_of_error (descend_of_follow_eq_error followed)
    refine resolve_of_find_error ?_ failed
    rintro rfl
    cases followed
  | ok reached =>
    obtain ⟨k, place⟩ := reached
    obtain ⟨a, b, rfl, rfl, leads, missing⟩ := exists_of_follow_eq_ok followed
    have climbed := resolve_append_of_missing leads missing
    refine ⟨by simp, fun j more within => ?_, ?_⟩
    · rw [List.take_append, List.take_of_length_le more.le]
      refine find_append_of_missing leads missing ?_ (List.take_prefix _ b)
      have some : (b.take (j - a.length)).length ≠ 0 := by
        rw [List.length_append] at within
        rw [List.length_take]
        omega
      exact fun none' => some (congrArg List.length none')
    · rw [climbed, List.take_left]
      split
      · next none' =>
        rw [List.length_eq_zero_iff.1 none']
        rfl
      · next deep => exact shownAt_resolve (fun none' => deep (congrArg List.length none')) leads

/-- On any text a path is reported where one walk along it comes to. The walk fails, and so does the
    report; or it comes to the root, and the start of the text is reported; or it comes to a value
    further down, and what is found there is reported, be it a failure, and never anything above. A
    path below a missing one is missing. On a text that the reader accepts there is always a
    report, at the longest part of the path that exists. -/
theorem resolve_follows (text : List Char) (p : Path) :
    Reported text p (follow p (.root text)) ∧
    (∀ q, find text p = .ok none → find text (p ++ q) = .ok none) ∧
    (∀ v, parse? text = .ok v → ∃ q s, q <+: p ∧ find text q = .ok (some s) ∧
      (∀ q', q' <+: p → (∃ s', find text q' = .ok (some s')) → q' <+: q) ∧
      resolve text p = .ok (if q = [] then ⟨.start, text⟩ else s.location text)) := by
  refine ⟨reported_follow text p, fun q missing => find_append_eq_none missing q, ?_⟩
  intro v parsed
  obtain ⟨d, rfl, -, -⟩ := exists_document parsed
  obtain ⟨q, e, nearest, found, reported⟩ := resolve_eq d p
  refine ⟨q, e.span, nearest.above, by rw [find_eq, found]; rfl, ?_, ?_⟩
  · rintro q' above ⟨s, found'⟩
    refine nearest.longest q' above ?_
    rw [find_eq] at found'
    cases e' : d.entryAt? q' with
    | none =>
      rw [e'] at found'
      cases found'
    | some e => rfl
  · rw [reported, Document.located]

/-- A text that ends within a list, after a member of an object in it. -/
def unendedList : List Char := "[\x7b\"a\": [1], \"b\"".toList

/-- The member in it. -/
def memberOfUnended : Place := ⟨unendedList.drop 2, unendedList.drop 7⟩

/-- A member is reported where the object it is in has no end, for a path that goes on below it. -/
theorem resolve_follows_unendedList :
    find unendedList [.index 0] = .error (.unexpectedEnd 15 [.index 0]) ∧
      resolve unendedList [.index 0, .key "a", .index 5] =
        .ok ⟨⟨1, 3⟩, "\"a\": [1]".toList⟩ ∧
      find unendedList [.key "b", .index 0] = .ok none ∧
      ∃ q s, q <+: [.key "a", .index 0, .key "b"] ∧ find repeatedName q = .ok (some s) := by
  have followed : follow [.index 0, .key "a", .index 5] (.root unendedList) =
      .ok (2, memberOfUnended) := by decide +kernel
  have span : memberOfUnended.span unendedList = .ok ⟨2, 10, "\"a\": [1]".toList⟩ := by
    decide +kernel
  refine ⟨by decide +kernel, ?_,
    (resolve_follows unendedList [.key "b"]).2.1 [.index 0] (by decide +kernel), ?_⟩
  · have reported := (resolve_follows unendedList [.index 0, .key "a", .index 5]).1
    rw [followed] at reported
    obtain ⟨-, -, shown⟩ := reported
    rw [if_neg (by decide), ShownAt, span] at shown
    exact shown.2
  · obtain ⟨q, s, above, found, -⟩ :=
      (resolve_follows repeatedName [.key "a", .index 0, .key "b"]).2.2
        (.object [("a", .null)]) (by decide +kernel)
    exact ⟨q, s, above, found⟩

end FlowLint.Locate
