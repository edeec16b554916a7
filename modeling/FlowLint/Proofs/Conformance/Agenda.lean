import FlowLint.Proofs.Conformance.Order
import FlowLint.Proofs.Json.Depth
import Mathlib.Logic.Function.Iterate

/-!
A check as a list of things to do. To check a value is to check parts of it and to report what is
wrong with the rest, in order; a choice rule is spelled out only when it is its turn, and the rules
in it are left as they are until it is theirs. Nothing bounds the steps beforehand, but every list
gets done: spelling out a rule leads down to parts of the value, and the value has an end.
-/

namespace FlowLint

variable [Formats]

/-- A choice rule asks what its shape asks. -/
theorem violations_choiceRule (v : Json) (p : Path) :
    violations v .choiceRule p = violations v (.record ChoiceRule.nestedShape) p := by
  cases v with
  | object ms => rw [violations_object ms rfl, violations_object ms rfl]
  | _ => rfl

/-- Something to do: to check a value at a path, or to report a violation. -/
inductive Agenda.Task where
  | check (v : Json) (c : Constraint) (p : Path)
  | report (g : Violation)

namespace Agenda.Task

def reports (gs : List Violation) : List Task := gs.map .report

/-- Each item under its own constraint, as far as there are constraints, from that index on. -/
def items : List Json → List Constraint → Path → Nat → List Task
  | v :: vs, r :: rs, p, i => .check v r (p.item i) :: items vs rs p (i + 1)
  | _,       _,       _, _ => []

/-- What a field asks of the members. -/
def field (ms : List (String × Json)) (p : Path) (f : Field Constraint) : List Task :=
  match f.demand, ms.lookup f.name with
  | .optional rule, some v => [.check v rule (p.member f.name)]
  | .optional _,    none   => []
  | .required rule, some v => [.check v rule (p.member f.name)]
  | .required _,    none   => [.report ⟨p.member f.name, .required⟩]
  | .forbidden,     some _ => [.report ⟨p.member f.name, .notAllowed⟩]
  | .forbidden,     none   => []

/-- What the check of a value comes to. A choice rule comes to the shape of one, for the same
    value. -/
def parts (v : Json) (c : Constraint) (p : Path) : List Task :=
  match c, v with
  | .choiceRule,           v          => [.check v (.record ChoiceRule.nestedShape) p]
  | .list item atLeast,    .array vs  =>
    item.elim [] (fun r => items vs (vs.map fun _ => r) p 0)
      ++ reports (tooFew vs.length atLeast p)
  | .positions rs atLeast, .array vs  => items vs rs p 0 ++ reports (tooFew vs.length atLeast p)
  | .record s,             .object ms =>
    s.fields.flatMap (field ms p) ++ reports (s.undeclared (ms.map Prod.fst) p)
      ++ reports (s.peers.flatMap (·.violatedBy (ms.map Prod.fst) p))
  | c,                     v          => reports ((c.violatedBy v).map (⟨p, ·⟩))

end Agenda.Task

/-- A check under way: what is still to do, and what is found. -/
structure Agenda where
  tasks : List Agenda.Task
  found : List Violation

namespace Agenda

/-- All there is to do is to check a value. -/
def start (v : Json) (c : Constraint) (p : Path) : Agenda := ⟨[.check v c p], []⟩

/-- Does the first thing. A check gives way to what it comes to. -/
def step : Agenda → Agenda
  | ⟨[], found⟩                 => ⟨[], found⟩
  | ⟨.check v c p :: ts, found⟩ => ⟨Task.parts v c p ++ ts, found⟩
  | ⟨.report g :: ts, found⟩    => ⟨ts, found ++ [g]⟩

/-- Whatever else is to do and was found, after some steps the tasks are done and just these
    violations are found with them. -/
def Finishes (ts : List Task) (gs : List Violation) : Prop :=
  ∀ rest found, ∃ k, step^[k] ⟨ts ++ rest, found⟩ = ⟨rest, found ++ gs⟩

namespace Finishes

variable {ts us : List Task} {gs hs : List Violation}

theorem nil : Finishes [] [] := fun rest found => ⟨0, by simp⟩

/-- One thing after the other. -/
theorem append (h : Finishes ts gs) (h' : Finishes us hs) : Finishes (ts ++ us) (gs ++ hs) := by
  intro rest found
  obtain ⟨k, first⟩ := h (us ++ rest) found
  obtain ⟨l, second⟩ := h' rest (found ++ gs)
  refine ⟨l + k, ?_⟩
  rw [Function.iterate_add_apply, List.append_assoc, first, second, List.append_assoc]

theorem flatMap {α : Type} {f : α → List Task} {g : α → List Violation} {xs : List α}
    (h : ∀ x ∈ xs, Finishes (f x) (g x)) : Finishes (xs.flatMap f) (xs.flatMap g) := by
  induction xs with
  | nil => exact nil
  | cons x xs ih =>
    obtain ⟨first, others⟩ := List.forall_mem_cons.1 h
    rw [List.flatMap_cons, List.flatMap_cons]
    exact first.append (ih others)

theorem report (g : Violation) : Finishes [.report g] [g] := fun _ _ => ⟨1, rfl⟩

theorem reports (gs : List Violation) : Finishes (Task.reports gs) gs := by
  have each : Finishes (gs.flatMap fun g => [.report g]) (gs.flatMap fun g => [g]) :=
    flatMap fun g _ => report g
  rwa [← List.map_eq_flatMap, List.flatMap_singleton'] at each

/-- A check gets done if what it comes to does. -/
theorem check {v : Json} {c : Constraint} {p : Path} (h : Finishes (Task.parts v c p) gs) :
    Finishes [.check v c p] gs := by
  intro rest found
  obtain ⟨k, done⟩ := h rest found
  exact ⟨k + 1, done⟩

end Finishes

/-! ### Values -/

/-- Every check of the value gets done and finds the violations. -/
def GetsDone (v : Json) : Prop := ∀ c p, Finishes [.check v c p] (violations v c p)

theorem finishes_items {vs : List Json} (each : ∀ v ∈ vs, GetsDone v) :
    ∀ (rs : List Constraint) (p : Path) (i : Nat),
      Finishes (Task.items vs rs p i) (positionViolations vs rs p i) := by
  induction vs with
  | nil => exact fun _ _ _ => .nil
  | cons v vs ih =>
    obtain ⟨first, others⟩ := List.forall_mem_cons.1 each
    intro rs p i
    cases rs with
    | nil => exact .nil
    | cons r rs => exact (first r (p.item i)).append (ih others rs p (i + 1))

/-- A field gets done if the members do. -/
theorem finishes_field {ms : List (String × Json)} (each : ∀ m ∈ ms, GetsDone m.2) (p : Path)
    (f : Field Constraint) : Finishes (Task.field ms p f) (f.violatedBy ms p) := by
  rw [Task.field, Field.violatedBy]
  cases there : ms.lookup f.name with
  | none =>
    cases f.demand with
    | optional rule => exact .nil
    | required rule => exact .report _
    | forbidden => exact .nil
  | some v =>
    have value : GetsDone v := each (f.name, v) (mem_of_lookup there)
    cases f.demand with
    | optional rule => exact value rule _
    | required rule => exact value rule _
    | forbidden => exact .report _

theorem finishes_parts {v : Json} {c : Constraint} (spelled : c ≠ .choiceRule) (p : Path)
    (below : ∀ w, w.depth < v.depth → GetsDone w) :
    Finishes (Task.parts v c p) (violations v c p) := by
  cases v with
  | array vs =>
    have each : ∀ v ∈ vs, GetsDone v := fun v hv => below v (Json.depth_lt_itemsDepth hv)
    cases c with
    | list item atLeast =>
      cases item with
      | none => exact .reports _
      | some r =>
        rw [violations, itemViolations_eq]
        exact (finishes_items each _ p 0).append (.reports _)
    | positions rs atLeast => exact (finishes_items each rs p 0).append (.reports _)
    | choiceRule => contradiction
    | _ => exact .reports _
  | object ms =>
    have each : ∀ m ∈ ms, GetsDone m.2 := fun m hm => below m.2 (Json.depth_lt_membersDepth hm)
    cases c with
    | record s =>
      have fields := Finishes.flatMap fun f (_ : f ∈ s.fields) => finishes_field each p f
      rw [violations_object ms rfl]
      exact (fields.append (.reports _)).append (.reports _)
    | choiceRule => contradiction
    | _ => exact .reports _
  | _ =>
    cases c with
    | choiceRule => contradiction
    | _ => exact .reports _

/-- Every check gets done. The induction is on the depth of the value: to spell out a choice rule
    leaves the value as it is, but what comes next is a shape, which leads to members. -/
theorem getsDone (v : Json) : GetsDone v := by
  induction v using Json.depth_induction with
  | h v below =>
    intro c p
    by_cases rule : c = .choiceRule
    · subst rule
      have shape := finishes_parts (c := .record ChoiceRule.nestedShape) nofun p below
      rw [violations_choiceRule]
      exact .check (.check shape)
    · exact .check (finishes_parts rule p below)

end Agenda

end FlowLint
