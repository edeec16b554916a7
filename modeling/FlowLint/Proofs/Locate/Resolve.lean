import FlowLint.Locate.Location
import FlowLint.Proofs.Locate.Find

/-!
Where a path is reported. The climb from a path ends at the longest part of it that leads to an
entry, and the root always does, so on a text that the reader accepts every path has a location.
-/

namespace FlowLint

open Json Locate

/-- `q` is the longest part of `p`, from the root on, that leads somewhere in `d`. -/
structure Nearest (d : Document) (p q : Path) : Prop where
  above   : q <+: p
  longest : ∀ q', q' <+: p → (d.entryAt? q').isSome → q' <+: q

theorem Nearest.self {d : Document} (p : Path) : Nearest d p p :=
  ⟨List.prefix_rfl, fun _ h _ => h⟩

/-- A step that leads nowhere is taken back. -/
theorem Nearest.push {d : Document} {p q : Path} (h : Nearest d p q) {step : Segment}
    (none' : d.entryAt? (p ++ [step]) = none) : Nearest d (p ++ [step]) q where
  above := h.above.trans (List.prefix_append ..)
  longest q' hq' found := by
    rcases List.prefix_concat_iff.1 hq' with rfl | hq'
    · rw [none'] at found
      cases found
    · exact h.longest q' hq' found

/-- A path that leads somewhere is its own longest part. -/
theorem Nearest.eq_self {d : Document} {p q : Path} (h : Nearest d p q)
    (found : (d.entryAt? p).isSome) : q = p :=
  h.above.eq_of_length_le (h.longest p List.prefix_rfl found).length_le

/-- From a path that leads nowhere, but for its last step, the climb is one step. -/
theorem Nearest.eq_above {d : Document} {p q : Path} {step : Segment}
    (h : Nearest d (p ++ [step]) q) (found : (d.entryAt? q).isSome)
    (there : (d.entryAt? p).isSome) (missing : ¬ (d.entryAt? (p ++ [step])).isSome) : q = p := by
  rcases List.prefix_concat_iff.1 h.above with rfl | above
  · exact absurd found missing
  · exact above.eq_of_length_le (h.longest p (List.prefix_append ..) there).length_le

/-- How an entry is shown: with its label, and at the root the whole text from its start on. -/
def Json.Document.located (d : Document) (q : Path) (e : Entry) : Location :=
  if q = [] then ⟨.start, d.text⟩ else e.span.location d.text

namespace Locate

theorem climb_eq (d : Document) : ∀ steps : List Segment, ∃ q e,
    Nearest d steps.reverse q ∧ d.entryAt? q = some e ∧ climb d.text steps = .ok (d.located q e)
  | [] => ⟨[], d.entry, .self [], rfl, rfl⟩
  | step :: above => by
    rw [climb, find_eq, List.reverse_cons]
    cases h : d.entryAt? (above.reverse ++ [step]) with
    | some e =>
      refine ⟨_, e, .self _, h, ?_⟩
      rw [Document.located, if_neg (by simp)]
      rfl
    | none =>
      obtain ⟨q, e, nearest, found, climbed⟩ := climb_eq d above
      exact ⟨q, e, nearest.push h, found, climbed⟩

/-- A path is reported at the nearest entry. -/
theorem resolve_eq (d : Document) (p : Path) : ∃ q e,
    Nearest d p q ∧ d.entryAt? q = some e ∧ resolve d.text p = .ok (d.located q e) := by
  have climbed := climb_eq d p.reverse
  rw [List.reverse_reverse] at climbed
  exact climbed

end Locate

end FlowLint
