import FlowLint.Format.Standard
import FlowLint.Proofs.Machine.Isolation
import FlowLint.Proofs.Machine.References

/-!
Runs of machines. A run begins at the state where the machine starts and goes on along any name of a
state that the current one has. In a document without faults each name met leads to a state of the
same machine, and from each state that does not end the run there is a way on.
-/

namespace FlowLint.Machine

open Constraint Workflow

/-- What a state says of where to go on. -/
inductive Target (state : Json) : Json → Prop
  | next {w : Json} (h : state.at? [.key "Next"] = some w) : Target state w
  | otherwise {w : Json} (h : state.at? [.key "Default"] = some w) : Target state w
  | choice {w : Json} {i : Nat} (h : state.at? [.key "Choices", .index i, .key "Next"] = some w) :
      Target state w
  | catcher {w : Json} {i : Nat} (h : state.at? [.key "Catch", .index i, .key "Next"] = some w) :
      Target state w

/-- What some run of a machine is led to. -/
inductive Reached (machine : Json) : Json → Prop
  | start {w : Json} (h : machine.at? [.key "StartAt"] = some w) : Reached machine w
  | step {name : String} {state w : Json} (reached : Reached machine (.string name))
      (named : machine.at? [.key "States", .key name] = some state) (target : Target state w) :
      Reached machine w

/-- The run ends at the state. -/
def Terminal (state : Json) : Prop :=
  state.get? "Type" = some (.string "Succeed") ∨ state.get? "Type" = some (.string "Fail") ∨
    state.get? "End" = some (.bool true)

/-- A state that ends the run names no next one, and from any other there is a way on. -/
structure GoesOnOrEnds (state : Json) : Prop where
  ends : Terminal state → state.at? [.key "Next"] = none
  goes : ¬ Terminal state → (∃ w, state.at? [.key "Next"] = some w) ∨
    ∃ i w, state.at? [.key "Choices", .index i, .key "Next"] = some w

/-! ### States of the language -/

section

variable {kind : StateKind} {on : Prop} {siblings : List String} {k : String} {v w state : Json}

section

variable [Formats]

/-- What the members of a state are that lead on or end the run. -/
structure Ways (on : Prop) (siblings : List String) (k : String) (v : Json) : Prop where
  next      : k = "Next" → on ∧ IsOneOf siblings v
  otherwise : k = "Default" → IsOneOf siblings v
  choices   : k = "Choices" → IsArrayOf (IsRule siblings) 1 v
  catching  : k = "Catch" → IsArrayOf (IsCatcher siblings) 0 v
  ending    : k = "End" → IsFlag v

theorem ways_of_stateMember (h : StateMember kind on siblings k v) : Ways on siblings k v := by
  cases h <;> constructor <;> simp_all

theorem not_ruleMember_next : ¬ RuleMember "Next" v := by
  intro h
  generalize hk : "Next" = k at h
  cases h with
  | comparison test =>
    cases test with
    | text name => exact absurd name (hk ▸ by decide)
    | number name => exact absurd name (hk ▸ by decide)
    | flag => exact absurd hk (by decide)
    | time name => exact absurd name (hk ▸ by decide)
  | _ => exact absurd hk (by decide)

/-- A rule of a state says where to go. -/
theorem exists_next_of_isRule {rule : Json} (h : IsRule siblings rule) :
    ∃ entry, rule = .object entry ∧ ∃ w, entry.lookup "Next" = some w := by
  cases h with
  | rule _ next => exact ⟨_, rfl, exists_lookup_iff.2 next⟩

theorem next_of_isRule {entry : List (String × Json)} (h : IsRule siblings (.object entry))
    (hw : entry.lookup "Next" = some w) : IsOneOf siblings w := by
  cases h with
  | rule each =>
    rcases each _ (mem_of_lookup hw) with member | ⟨-, target⟩
    · exact absurd member not_ruleMember_next
    · exact target

end

theorem next_of_isCatcher {entry : List (String × Json)}
    (h : IsCatcher siblings (.object entry)) (hw : entry.lookup "Next" = some w) :
    IsOneOf siblings w := by
  obtain ⟨_, e, each, -⟩ := h
  cases e
  have member := each _ (mem_of_lookup hw)
  generalize hk : "Next" = k at member
  cases member with
  | next target => exact target
  | _ => exact absurd hk (by decide)

variable {ms : List (String × Json)}

section

variable [Formats]

theorem exists_type_of_isState (h : IsState siblings state) :
    ∃ ms, ∃ kind : StateKind, state = .object ms ∧ ms.lookup "Type" = some (.string kind.name) := by
  cases h with
  | state kind type => exact ⟨_, kind, rfl, type⟩

theorem ways_of_isState (type : ms.lookup "Type" = some (.string kind.name))
    (h : IsState siblings (.object ms)) (hv : ms.lookup k = some v) :
    Ways (GoesOn kind ms) siblings k v :=
  ways_of_stateMember (((State.isState_iff siblings type).1 h).1 _ (mem_of_lookup hv))

/-- A state leads to none but its siblings. -/
theorem isOneOf_of_target (h : IsState siblings state) (target : Target state w) :
    IsOneOf siblings w := by
  obtain ⟨ms, kind, rfl, type⟩ := exists_type_of_isState h
  cases target with
  | next hw =>
    obtain ⟨_, e, hw⟩ := exists_member hw
    cases e
    exact ((ways_of_isState type h hw).next rfl).2
  | otherwise hw =>
    obtain ⟨_, e, hw⟩ := exists_member hw
    cases e
    exact (ways_of_isState type h hw).otherwise rfl
  | choice hw =>
    obtain ⟨_, items, entry, e, lists, hi, hw⟩ := exists_entry hw
    cases e
    obtain ⟨_, e, -, rules⟩ := (ways_of_isState type h lists).choices rfl
    cases e
    exact next_of_isRule (rules _ (List.mem_of_getElem? hi)) hw
  | catcher hw =>
    obtain ⟨_, items, entry, e, lists, hi, hw⟩ := exists_entry hw
    cases e
    obtain ⟨_, e, -, catchers⟩ := (ways_of_isState type h lists).catching rfl
    cases e
    exact next_of_isCatcher (catchers _ (List.mem_of_getElem? hi)) hw

end

theorem terminal_iff (type : ms.lookup "Type" = some (.string kind.name)) :
    Terminal (.object ms) ↔
      kind = .succeed ∨ kind = .fail ∨ ms.lookup "End" = some (.bool true) :=
  or_congr (State.type_iff type .succeed) (or_congr_left (State.type_iff type .fail))

variable [Formats]

/-- The states that must name a next one are those that neither end the run nor choose. -/
theorem goesOn_iff (type : ms.lookup "Type" = some (.string kind.name))
    (h : IsState siblings (.object ms)) :
    GoesOn kind ms ↔ ¬ Terminal (.object ms) ∧ kind ≠ .choice := by
  have step : kind ∈ steps ↔ kind ≠ .succeed ∧ kind ≠ .fail ∧ kind ≠ .choice := by
    cases kind <;> decide
  have going : (ms.lookup "End" = none ∨ ms.lookup "End" = some (.bool false)) ↔
      ms.lookup "End" ≠ some (.bool true) := by
    cases hv : ms.lookup "End" with
    | none => simp
    | some v =>
      obtain ⟨b, rfl⟩ := (ways_of_isState type h hv).ending rfl
      cases b <;> simp
  rw [GoesOn, terminal_iff type, step, going]
  tauto

theorem goesOnOrEnds_of_isState (h : IsState siblings state) : GoesOnOrEnds state := by
  obtain ⟨ms, kind, rfl, type⟩ := exists_type_of_isState h
  have next : (Json.object ms).at? [.key "Next"] = ms.lookup "Next" := by
    simp [Json.at?_cons, Json.child?]
  obtain ⟨-, ⟨needsNext, -, needsChoices, -⟩, -⟩ := (State.isState_iff siblings type).1 h
  constructor
  · intro terminal
    rw [next]
    cases hw : ms.lookup "Next" with
    | none => rfl
    | some w =>
      have goes := ((ways_of_isState type h hw).next rfl).1
      exact absurd terminal ((goesOn_iff type h).1 goes).1
  · intro going
    by_cases chooses : kind = .choice
    · obtain ⟨v, lists⟩ := exists_lookup_iff.2 (needsChoices chooses)
      obtain ⟨items, rfl, some', rules⟩ := (ways_of_isState type h lists).choices rfl
      have first : items[0]? = some items[0] := List.getElem?_eq_getElem some'
      obtain ⟨entry, object, w, hw⟩ := exists_next_of_isRule (rules _ (List.getElem_mem some'))
      refine .inr ⟨0, w, ?_⟩
      simp [Json.at?_cons, Json.child?, lists, first, object, hw]
    · rw [next]
      exact .inl (exists_lookup_iff.2 (needsNext ((goesOn_iff type h).2 ⟨going, chooses⟩)))

end

/-! ### Runs -/

variable {document machine state w : Json} {name : String} {p : Path}

section

variable [Formats]

/-- In a document without faults no machine has one. -/
theorem meets_of_accepted (h : document.NoRepeats) (accepted : documentViolations document = [])
    (scope : Scope document p machine) :
    ∃ whole, machine.Meets (.record (shape whole machine)) := by
  obtain ⟨whole, eq⟩ := below_scope scope h true
  have own := eq [] p List.prefix_rfl
  rw [← documentViolations_eq, accepted, List.nil_append,
    below_eq_self (prefix_of_mem_violations _ _ _)] at own
  exact ⟨whole, (violations_eq_nil_iff p).1 own.symm⟩

/-- A machine starts at one of its states. -/
theorem start_of_accepted (h : document.NoRepeats) (accepted : documentViolations document = [])
    (scope : Scope document p machine) :
    ∃ w, machine.at? [.key "StartAt"] = some w ∧ IsOneOf (stateNames machine) w := by
  obtain ⟨whole, meets⟩ := meets_of_accepted h accepted scope
  obtain ⟨ms, rfl⟩ := Json.exists_object_of_meets meets rfl
  have start : .required "StartAt" (oneOf (stateNames (.object ms))) ∈
      (shape whole (.object ms)).fields := by
    cases whole with
    | false => simp [shape, branchShape, branchFields]
    | true => simp [shape, documentShape, documentFields]
  obtain ⟨w, hw, one⟩ := Json.exists_lookup_of_required start meets
  exact ⟨w, by simp [Json.at?_cons, Json.child?, hw], Json.meets_oneOf_iff.1 one⟩

theorem isState_of_accepted (h : document.NoRepeats) (accepted : documentViolations document = [])
    (scope : Scope document p machine)
    (named : machine.at? [.key "States", .key name] = some state) :
    IsState (stateNames machine) state := by
  have own := (isolated_state h scope named).own
  rw [accepted] at own
  have meets := (violations_eq_nil_iff _).1 own.symm
  exact (meets_stateShape_iff state ((noRepeats_scope scope h).at? named) _).1 meets

/-- A run meets none but the names of the states of its machine: each state that it comes to leads
    to its siblings only. -/
theorem isOneOf_of_reached (h : document.NoRepeats) (accepted : documentViolations document = [])
    (scope : Scope document p machine) (reached : Reached machine w) :
    IsOneOf (stateNames machine) w := by
  induction reached with
  | start hw =>
    obtain ⟨v, start, known⟩ := start_of_accepted h accepted scope
    cases start.symm.trans hw
    exact known
  | step _ named target =>
    exact isOneOf_of_target (isState_of_accepted h accepted scope named) target

/-- In a document without faults each machine starts somewhere, all that a run of it meets are names
    of states of that machine, and in none of these states it is stuck. -/
theorem runs_go_on (h : document.NoRepeats) (accepted : documentViolations document = [])
    (scope : Scope document p machine) :
    (∃ w, machine.at? [.key "StartAt"] = some w) ∧
      ∀ w, Reached machine w → ∃ name state, w = .string name ∧
        machine.at? [.key "States", .key name] = some state ∧ GoesOnOrEnds state := by
  obtain ⟨v, start, -⟩ := start_of_accepted h accepted scope
  refine ⟨⟨v, start⟩, fun w reached => ?_⟩
  obtain ⟨name, known, rfl⟩ := isOneOf_of_reached h accepted scope reached
  obtain ⟨state, named⟩ := mem_stateNames_iff.1 known
  have known := isState_of_accepted h accepted scope named
  exact ⟨name, state, rfl, named, goesOnOrEnds_of_isState known⟩

end

/-- The run of a branch is one of its own. -/
theorem runs_go_on_innerMachine :
    documentViolations nestedMachine = [] ∧ Reached innerMachine (.string "A") ∧
      (∃ w, innerMachine.at? [.key "StartAt"] = some w) ∧
        ∀ w, Reached innerMachine w → ∃ name state, w = .string name ∧
          innerMachine.at? [.key "States", .key name] = some state ∧ GoesOnOrEnds state := by
  have accepted : documentViolations nestedMachine = [] := by decide +kernel
  have scope : Scope nestedMachine
      [.key "States", .key "A", .key "Branches", .index 0] innerMachine :=
    .branch rfl mayBe_outerState rfl (.self innerMachine)
  exact ⟨accepted, .start rfl, runs_go_on noRepeats_nestedMachine accepted scope⟩

end FlowLint.Machine
