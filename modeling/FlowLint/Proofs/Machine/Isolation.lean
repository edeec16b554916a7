import FlowLint.Format.Standard
import FlowLint.Proofs.Machine.Scopes

/-!
Each state and each branch of a document is judged by itself. Its part of the report is the report
of a check of it alone, and whatever it holds, the rest of the report is the same.
-/

namespace FlowLint.Machine

section

variable [Formats]

/-- What a document reports at a place or below it is `own`, and all that it reports elsewhere is
    reported of each document that differs from it at that place only. -/
structure Isolated (document : Json) (q : Path) (own : List Violation) : Prop where
  own  : below q (documentViolations document) = own
  rest : ∀ other, DifferAt q document other →
    outside q (documentViolations document) = outside q (documentViolations other)

variable {document machine state branch : Json} {name : String} {p : Path}

theorem documentViolations_eq (document : Json) :
    documentViolations document = violations document (.record (shape true document)) [] := rfl

/-- All that is said of a value is said at its place or below, so nothing of it is left outside. -/
theorem outside_own (v w : Json) (c d : Constraint) (p : Path) :
    outside p (violations v c p) = outside p (violations w d p) := by
  rw [outside_eq_nil (prefix_of_mem_violations v c p),
    outside_eq_nil (prefix_of_mem_violations w d p)]

/-- A state is judged by itself, against the names of its siblings. -/
theorem isolated_state (h : document.NoRepeats) (scope : Scope document p machine)
    (named : machine.at? [.key "States", .key name] = some state) :
    Isolated document ((p.member "States").member name)
      (violations state (.record (stateShape state (stateNames machine)))
        ((p.member "States").member name)) where
  own := by
    have hp : p <+: (p.member "States").member name :=
      (p.prefix_push _).trans (Path.prefix_push ..)
    obtain ⟨whole, eq⟩ := below_scope scope h true
    rw [documentViolations_eq, eq [] _ hp, List.nil_append,
      below_state whole (noRepeats_scope scope h) named List.prefix_rfl,
      below_eq_self (prefix_of_mem_violations _ _ _)]
  rest other differ := by
    rw [← List.append_nil ((p.member "States").member name), ← state_place] at differ
    obtain ⟨machine', whole, inMachine, ofMachine⟩ := outside_scope scope h true differ
    obtain ⟨state', -, ofState⟩ := outside_state (noRepeats_scope scope h) named inMachine
    exact ofMachine [] _ (ofState whole _ _ (outside_own ..))

/-- So is a branch of a state that may be parallel. -/
theorem isolated_branch (h : document.NoRepeats) (scope : Scope document p machine)
    (named : machine.at? [.key "States", .key name] = some state)
    (splits : State.MayBe [.parallel] state) {i : Nat}
    (listed : state.at? [.key "Branches", .index i] = some branch) :
    Isolated document ((((p.member "States").member name).member "Branches").item i)
      (violations branch (.record (branchShape branch))
        ((((p.member "States").member name).member "Branches").item i)) where
  own := by
    rw [← below_below (state_prefix_branch p name i), (isolated_state h scope named).own,
      below_branch splits listed List.prefix_rfl, below_eq_self (prefix_of_mem_violations _ _ _)]
  rest other differ := by
    rw [← List.append_nil (Path.item _ _), ← branch_place] at differ
    have hm := noRepeats_scope scope h
    obtain ⟨machine', whole, inMachine, ofMachine⟩ := outside_scope scope h true differ
    obtain ⟨state', inState, ofState⟩ := outside_state hm named inMachine
    obtain ⟨branch', -, ofBranch⟩ := outside_branch (hm.at? named) splits listed inState
    exact ofMachine [] _ (ofState whole _ _ (ofBranch _ _ _ (outside_own ..)))

/-- States and branches are judged by themselves, at any depth. -/
theorem states_isolated (h : document.NoRepeats) (scope : Scope document p machine)
    (named : machine.at? [.key "States", .key name] = some state) :
    Isolated document (p ++ [.key "States", .key name])
        (violations state (.record (stateShape state (stateNames machine)))
          (p ++ [.key "States", .key name])) ∧
      (State.MayBe [.parallel] state → ∀ i branch,
        state.at? [.key "Branches", .index i] = some branch →
          Isolated document (p ++ [.key "States", .key name, .key "Branches", .index i])
            (violations branch (.record (branchShape branch))
              (p ++ [.key "States", .key name, .key "Branches", .index i]))) := by
  refine ⟨?_, fun splits i branch listed => ?_⟩
  · rw [state_place, List.append_nil]
    exact isolated_state h scope named
  · rw [branch_place, List.append_nil]
    exact isolated_branch h scope named splits listed

end

/-- The branch of a parallel state. -/
def innerMachine : Json :=
  .object [("StartAt", .string "A"),
    ("States", .object [("A", .object [("Type", .string "Succeed")])])]

/-- The state that has it. -/
def outerState : Json :=
  .object [("Type", .string "Parallel"), ("Next", .string "B"), ("Branches", .array [innerMachine])]

theorem mayBe_outerState : State.MayBe [.parallel] outerState := by
  have kind : State.kind? outerState = some .parallel := by decide
  intro k hk
  rw [kind] at hk
  cases hk
  exact List.mem_singleton_self _

theorem states_isolated_outerState :
    Isolated nestedMachine [.key "States", .key "A"]
        (violations outerState (.record (stateShape outerState ["A", "B"]))
          [.key "States", .key "A"]) ∧
      Isolated nestedMachine [.key "States", .key "A", .key "Branches", .index 0]
        (violations innerMachine (.record (branchShape innerMachine))
          [.key "States", .key "A", .key "Branches", .index 0]) := by
  have named : nestedMachine.at? [.key "States", .key "A"] = some outerState := rfl
  have isolated := states_isolated noRepeats_nestedMachine (.self nestedMachine) named
  exact ⟨isolated.1, isolated.2 mayBe_outerState 0 innerMachine rfl⟩

end FlowLint.Machine
