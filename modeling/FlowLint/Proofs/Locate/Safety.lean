import FlowLint.Proofs.Locate.Agreement
import FlowLint.Proofs.Locate.Nesting

/-!
What the locator says of a text is so, be the text malformed. A span is cut out of the text at whole
characters, a character that is said to stand somewhere does, the text ends where it is said to
end, and a name that is said to be no string is a literal that is none.
-/

namespace FlowLint.Locate

open Json

variable {text : List Char} {path : Path}

/-- What the locator says of a text is so. A span is a part of the text that is not empty, and a
    failure names what stands at its offset. -/
def Truthful (text : List Char) : Except LocateError (Option Span) → Prop
  | .ok none                              => True
  | .ok (some s)                          =>
    s.start < s.stop ∧ s.stop ≤ Text.byteLength text ∧
      ∃ before after, text = before ++ (s.text ++ after) ∧ s.start = Text.byteLength before ∧
        s.stop = Text.byteLength (before ++ s.text)
  | .error (.unexpectedChar found offset _) =>
    offset < Text.byteLength text ∧
      ∃ before after, text = before ++ found :: after ∧ offset = Text.byteLength before
  | .error (.unexpectedEnd offset _)      => offset = Text.byteLength text
  | .error (.invalidString offset reason) =>
    ∃ before u after, text = before ++ '"' :: (u ++ after) ∧ offset = Text.byteLength before ∧
      Closed u ∧ literal? ('"' :: u) = .error reason

theorem truthful_toError {snag : Snag} (h : snag.Holds text) :
    Truthful text (.error (snag.toError text path)) := by
  cases snag with
  | ended => rfl
  | unexpected c after =>
    obtain ⟨before, rfl⟩ := h
    rw [Snag.toError, offsetOf_append, Truthful, Text.byteLength_append]
    have pos := Text.byteLength_pos c after
    exact ⟨by omega, before, after, rfl, rfl⟩
  | invalidName start reason =>
    obtain ⟨⟨before, rfl⟩, u, after, hu, rfl, rejected⟩ := h
    rw [Snag.toError, offsetOf_append]
    exact ⟨before, u, after, rfl, rfl, hu, rejected⟩

theorem truthful_upTo {before label w e : List Char} (hw : Loose .value w) :
    Truthful (before ++ (label ++ (w ++ e))) (.ok (some ⟨Text.byteLength before,
      Text.byteLength (before ++ (label ++ w)), label ++ w⟩)) := by
  obtain ⟨c, t, rfl, -⟩ := hw.exists_cons_value
  have pos := Text.byteLength_pos c t
  refine ⟨?_, ?_, before, e, by simp, rfl, rfl⟩
  all_goals
    simp only [Text.byteLength_append] at pos ⊢
    omega

theorem truthful_find (text : List Char) (path : Path) : Truthful text (find text path) := by
  cases walked : walk text path with
  | error snag =>
    rw [find, walked]
    exact truthful_toError (holds_of_walk walked)
  | ok s =>
    have found : find text path = .ok s := by
      rw [find, walked]
      rfl
    rw [found]
    cases s with
    | none => trivial
    | some s =>
      obtain ⟨m, e, there, rfl⟩ := find_eq_some_iff.1 found
      obtain ⟨before, label, w, hw, -, rfl, rfl⟩ := there.cut
      rw [Place.upTo_append]
      exact truthful_upTo hw

/-- On any text the locator comes to an end, and what it says is so. What it finds is a part of the
    text cut out at whole characters and not empty, and that is what is reported. A walk over the
    bytes with a cursor comes to the same. -/
theorem find_safe (text : List Char) (path : Path) :
    Truthful text (find text path) ∧
    (∀ s, find text path = .ok (some s) → Text.slice? text s.start s.stop = some s.text ∧
      s.text ≠ [] ∧ (path ≠ [] → resolve text path = .ok ⟨Text.position text s.start, s.text⟩)) ∧
    Cursor.find text path = (find text path).map (Option.map fun s => (s.start, s.stop)) := by
  refine ⟨truthful_find text path, fun s found => ?_, cursor_find_eq text path⟩
  have truthful := truthful_find text path
  rw [found] at truthful
  obtain ⟨less, -, before, after, cut, start, stop⟩ := truthful
  refine ⟨?_, ?_, fun deep => resolve_of_find_some deep found⟩
  · rw [start, stop, cut]
    exact Text.slice?_append before s.text after
  · intro nothing
    rw [start, stop, nothing, List.append_nil] at less
    exact Nat.lt_irrefl _ less

/-- A text with a backslash before a character of two bytes, and one that ends with a backslash. -/
def strayEscape : List Char := "\x7b\"\\é\": 1\x7d".toList

def endsInEscape : List Char := "\x7b\"a\\".toList

theorem find_safe_strayEscape :
    (∃ before u after, strayEscape = before ++ '"' :: (u ++ after) ∧ 1 = Text.byteLength before ∧
      Closed u ∧ literal? ('"' :: u) = .error ⟨.invalidEscape, ⟨1, 3⟩⟩) ∧
    Text.slice? strayEscape 0 10 = some strayEscape ∧
    find endsInEscape [.key "a"] = .error (.unexpectedEnd 4 [.key "a"]) ∧
    4 = Text.byteLength endsInEscape := by
  have rejected : find strayEscape [.key "é"] =
      .error (.invalidString 1 ⟨.invalidEscape, ⟨1, 3⟩⟩) := by decide +kernel
  have whole : find strayEscape [] = .ok (some ⟨0, 10, strayEscape⟩) := by decide +kernel
  have ended : find endsInEscape [.key "a"] = .error (.unexpectedEnd 4 [.key "a"]) := by
    decide +kernel
  obtain ⟨atName, -⟩ := find_safe strayEscape [.key "é"]
  obtain ⟨-, cut, -⟩ := find_safe strayEscape []
  obtain ⟨atEnd, -⟩ := find_safe endsInEscape [.key "a"]
  rw [rejected] at atName
  rw [ended] at atEnd
  exact ⟨atName, (cut _ whole).1, ended, atEnd⟩

end FlowLint.Locate
