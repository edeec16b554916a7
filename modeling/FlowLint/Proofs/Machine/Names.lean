import FlowLint.Proofs.Conformance.Names
import FlowLint.Proofs.Machine.Order
import FlowLint.Proofs.Machine.Scopes

/-!
The names in a report on a document. A document is checked against a shape made from itself, so what
its messages repeat are words of the grammar, indices, and names of members of the document.
-/

namespace FlowLint

variable {P : String → Prop}

/-! ### Constraints -/

namespace Constraint

@[simp] theorem named_anyText : Named P .anyText := .text nofun

@[simp] theorem named_uri : Named P (.text none .uri) := .text nofun

/-- A choice among texts repeats those texts. -/
theorem named_oneOf {texts : List String} (h : ∀ s ∈ texts, P s) : Named P (.oneOf texts) := by
  refine .text fun texts' e => ?_
  cases e
  exact h

@[simp] theorem named_positive : Named P .positive := .number _

@[simp] theorem named_count (least : Int) : Named P (.count least) := .number _

/-- A list repeats what its items do. -/
@[simp] theorem named_list_iff {r : Constraint} {atLeast : Nat} :
    Named P (.list (some r) atLeast) ↔ r.Named P := by
  constructor
  · intro h
    cases h with
    | list below => exact below r rfl
  · intro h
    refine .list fun r' e => ?_
    cases e
    exact h

/-- A record repeats what its shape does. -/
@[simp] theorem named_record_iff {s : Shape Constraint} : Named P (.record s) ↔ s.Named P := by
  constructor
  · intro h
    cases h with
    | record fields rules peers => exact ⟨fun f hf => ⟨fields f hf, rules f hf⟩, peers⟩
  · exact Shape.Named.record

end Constraint

attribute [simp] Constraint.Named.anything Constraint.Named.number Constraint.Named.boolean
  Constraint.Named.timestamp Constraint.Named.choiceRule

namespace Field

variable (name : String) (r : Constraint) (condition : Bool)

/-- A field repeats its own name and what its rule does. -/
@[simp] theorem named_optional_iff : (optional name r).Named P ↔ P name ∧ r.Named P :=
  ⟨fun h => ⟨h.name, h.rule r rfl⟩, fun h => ⟨h.1, fun _ e => Option.some.inj e ▸ h.2⟩⟩

@[simp] theorem named_required_iff : (required name r).Named P ↔ P name ∧ r.Named P :=
  ⟨fun h => ⟨h.name, h.rule r rfl⟩, fun h => ⟨h.1, fun _ e => Option.some.inj e ▸ h.2⟩⟩

/-- A field that may not be there asks nothing, so it repeats its own name only. -/
@[simp] theorem named_forbidden_iff : (forbidden name).Named P ↔ P name :=
  ⟨fun h => h.name, fun h => ⟨h, nofun⟩⟩

@[simp] theorem named_optionalIf_iff :
    (optionalIf condition name r).Named P ↔ P name ∧ (condition → r.Named P) := by
  cases condition <;> simp [optionalIf]

/-- Where the condition fails the field is forbidden, and its rule is out of the way. -/
@[simp] theorem named_requiredIf_iff :
    (requiredIf condition name r).Named P ↔ P name ∧ (condition → r.Named P) := by
  cases condition <;> simp [requiredIf]

end Field

/-! ### Words -/

/-- The names that the grammar itself brings, and what a message calls the root. -/
def Machine.words : List String :=
  ["value", "StartAt", "States", "Comment", "Version", "TimeoutSeconds", "HeartbeatSeconds", "Type",
    "End", "Next", "InputPath", "ResultPath", "OutputPath", "Cause", "Error", "Result", "Retry",
    "Catch", "Resource", "Choices", "Default", "Branches", "ErrorEquals", "IntervalSeconds",
    "MaxAttempts", "BackoffRate", "Variable"]
  ++ State.waitFields ++ StateKind.all.map StateKind.name ++ ChoiceRule.combinators
  ++ ChoiceRule.comparators

section

variable (known : ∀ word ∈ Machine.words, P word)

include known

/-- Choice rules bring combinators, comparators and what these compare with. -/
theorem ChoiceRule.named_commonFields : ∀ f ∈ commonFields, f.Named P := by
  have operands (name : String) : (operand name).Named P := by
    rw [operand]
    split_ifs <;> simp
  have comparing : ∀ name ∈ comparators, P name := fun name hn =>
    known name (List.mem_append_right _ hn)
  refine List.forall_mem_append.2 ⟨?_, ?_⟩
  · simp (disch := decide) [known]
  · rw [List.forall_mem_map]
    exact fun name hn => (Field.named_optional_iff ..).2 ⟨comparing name hn, operands name⟩

theorem ChoiceRule.named_peerRules : ∀ r ∈ peerRules, ∀ name ∈ r.names, P name := by
  have words : ∀ r ∈ peerRules, ∀ name ∈ r.names, name ∈ Machine.words := by decide
  exact fun r hr name hn => known name (words r hr name hn)

theorem ChoiceRule.named_nestedShape : nestedShape.Named P :=
  ⟨named_commonFields known, named_peerRules known⟩

theorem State.named_waitRules : ∀ r ∈ waitRules, ∀ name ∈ r.names, P name := by
  have words : ∀ r ∈ waitRules, ∀ name ∈ r.names, name ∈ Machine.words := by decide
  exact fun r hr name hn => known name (words r hr name hn)

/-- The only texts that a type may be are the names of the kinds. -/
theorem State.named_typeField : typeField.Named P := by
  have kinds : ∀ name ∈ StateKind.all.map StateKind.name, name ∈ Machine.words := by decide
  have type := Constraint.named_oneOf fun name hn => known name (kinds name hn)
  exact (Field.named_required_iff ..).2 ⟨known "Type" (by decide), type⟩

theorem ErrorHandling.named_retrierShape : retrierShape.Named P := by
  refine ⟨?_, nofun⟩
  simp (disch := decide) [retrierShape, errorEquals, known]

variable {siblings : List String} (around : ∀ name ∈ siblings, P name)

include around

/-- A catcher leads to a sibling, so it repeats the names of those. -/
theorem ErrorHandling.named_catcherShape : (catcherShape siblings).Named P := by
  refine ⟨?_, nofun⟩
  simp (disch := decide) [catcherShape, errorEquals, known, Constraint.named_oneOf around]

theorem ChoiceRule.named_topShape : (topShape siblings).Named P := by
  refine ⟨List.forall_mem_append.2 ⟨named_commonFields known, ?_⟩, named_peerRules known⟩
  simp (disch := decide) [known, Constraint.named_oneOf around]

namespace State

variable {branches : List Constraint} (below : ∀ r ∈ branches, r.Named P)

include below

/-- A state repeats words, its siblings as targets, and what its branches repeat. The branches are
    taken as given here; what they are made from comes later. -/
theorem named_kindFields (kind : StateKind) (ends : Bool) :
    ∀ f ∈ kindFields kind ends siblings branches, f.Named P := by
  have type := named_typeField known
  have next := Constraint.named_oneOf around
  have retriers := ErrorHandling.named_retrierShape known
  have catchers := ErrorHandling.named_catcherShape known around
  have rules := ChoiceRule.named_topShape known around
  have parts : (Constraint.positions branches 1).Named P := .positions below
  have ending : ∀ f ∈ (if kind.declaresEnd then [Field.optional "End" .boolean] else []),
      f.Named P := by
    split
    · simp (disch := decide) [known]
    · nofun
  refine List.forall_mem_append.2 ⟨List.forall_mem_append.2 ⟨?_, ending⟩, ?_⟩
  · simp (disch := decide) [type, known]
  · simp (disch := decide) [known, next, retriers, catchers, rules, parts]

theorem named_untypedFields : ∀ f ∈ untypedFields siblings branches, f.Named P := by
  have type := named_typeField known
  have next := Constraint.named_oneOf around
  have retriers := ErrorHandling.named_retrierShape known
  have catchers := ErrorHandling.named_catcherShape known around
  have rules := ChoiceRule.named_topShape known around
  have parts : (Constraint.positions branches 1).Named P := .positions below
  simp (disch := decide) [untypedFields, type, known, next, retriers, catchers, rules, parts]

/-- So it is whatever the type, and also where there is none. -/
theorem named_shapeWith (state : Json) : (shapeWith state siblings branches).Named P := by
  rw [shapeWith]
  cases kind? state with
  | some kind =>
    refine ⟨named_kindFields known around below kind _, fun r hr => ?_⟩
    have rules : r ∈ if kind = .wait then waitRules else [] := hr
    split_ifs at rules
    · exact named_waitRules known r rules
    · cases rules
  | none =>
    rw [untypedShape_eq]
    exact ⟨named_untypedFields known around below, List.forall_mem_nil _⟩

end State

end

namespace Machine

/-- The names of the states of a machine are names in it. -/
theorem named_stateNames {machine : Json} (h : machine.Named P) :
    ∀ name ∈ stateNames machine, P name := by
  intro name hn
  obtain ⟨state, there⟩ := mem_stateNames_iff.1 hn
  obtain ⟨ms, ss, rfl, lists, hs⟩ := exists_states there
  exact (h.members _ (mem_of_lookup lists)).names name (exists_lookup_iff.1 ⟨state, hs⟩)

section

variable (known : ∀ word ∈ words, P word)

include known

/-- A branch repeats the names of its own states as the place to start. -/
theorem named_branchShape {branch : Json} (names : ∀ name ∈ stateNames branch, P name)
    (states : ∀ f ∈ ownStates branch, f.Named P) : (branchShape branch).Named P := by
  have below : (Shape.mk (ownStates branch) []).Named P := ⟨states, nofun⟩
  rw [branchShape_eq_ownStates]
  refine ⟨?_, nofun⟩
  simp (disch := decide) [branchFields, known, below, Constraint.named_oneOf names]

theorem named_documentShape_of {document : Json} (names : ∀ name ∈ stateNames document, P name)
    (states : ∀ f ∈ ownStates document, f.Named P) : (documentShape document).Named P := by
  have below : (Shape.mk (ownStates document) []).Named P := ⟨states, nofun⟩
  rw [documentShape_eq_ownStates]
  refine ⟨?_, nofun⟩
  simp (disch := decide) [documentFields, known, below, Constraint.named_oneOf names]

end

/-- A constraint for branches is the shape of an item under that name. -/
theorem exists_branch_of_mem {state : Json} {r : Constraint} (h : r ∈ branchesIn state.members) :
    ∃ ms items b, state = .object ms ∧ ms.lookup "Branches" = some (.array items) ∧ b ∈ items ∧
      r = .record (branchShape b) := by
  rw [branchesIn_eq_getD] at h
  cases lists : state.members.lookup "Branches" with
  | none =>
    rw [lists] at h
    cases h
  | some v =>
    obtain ⟨ms, object, listed⟩ := Json.exists_object_of_lookup lists
    rw [lists] at h
    cases v with
    | array items =>
      rw [Option.map_some, Option.getD_some, branchesOf, branchList_eq_map] at h
      obtain ⟨b, hb, rfl⟩ := List.mem_map.1 h
      exact ⟨ms, items, b, object, listed, hb, rfl⟩
    | _ => cases h

/-- A field for states is that of a member under that name, with the shape made from its value. -/
theorem exists_state_of_mem {machine : Json} {f : Field Constraint} (h : f ∈ ownStates machine) :
    ∃ ms ss s, machine = .object ms ∧ ms.lookup "States" = some (.object ss) ∧ s ∈ ss ∧
      f = .required s.1 (.record (stateShape s.2 (stateNames machine))) := by
  rw [ownStates, statesIn_eq_getD] at h
  cases lists : machine.members.lookup "States" with
  | none =>
    rw [lists] at h
    cases h
  | some v =>
    obtain ⟨ms, object, listed⟩ := Json.exists_object_of_lookup lists
    rw [lists] at h
    cases v with
    | object ss =>
      rw [Option.map_some, Option.getD_some, statesOf, stateFields_eq_map] at h
      obtain ⟨s, hs, rfl⟩ := List.mem_map.1 h
      exact ⟨ms, ss, s, object, listed, hs, rfl⟩
    | _ => cases h

/-- A state repeats names of the document if the states in its branches do. -/
theorem named_stateShape {state : Json} (known : ∀ word ∈ words, P word) (h : state.Named P)
    (below : ∀ ms items, state = .object ms → ms.lookup "Branches" = some (.array items) →
      ∀ b ∈ items, b.Named P → ∀ f ∈ ownStates b, f.Named P)
    {siblings : List String} (around : ∀ name ∈ siblings, P name) :
    (stateShape state siblings).Named P := by
  rw [stateShape_eq_members]
  refine State.named_shapeWith known around (fun r hr => ?_) state
  obtain ⟨ms, items, b, rfl, lists, hb, rfl⟩ := exists_branch_of_mem hr
  have named := (h.members _ (mem_of_lookup lists)).items b hb
  have states := below ms items rfl lists b hb named
  exact (named_branchShape known (named_stateNames named) states).record

/-- By induction over states and machines the states of any machine repeat names in it. -/
theorem named_ownStates (known : ∀ word ∈ words, P word) (machine : Json) (h : machine.Named P) :
    ∀ f ∈ ownStates machine, f.Named P := by
  have both := induction
    (S := fun s => s.Named P → ∀ siblings, (∀ name ∈ siblings, P name) →
      (stateShape s siblings).Named P)
    (M := fun m => m.Named P → ∀ f ∈ ownStates m, f.Named P)
    (fun state below h siblings around => named_stateShape known h below around) ?_ machine
  · exact both.2 h
  intro machine states h f hf
  obtain ⟨ms, ss, s, rfl, lists, hs, rfl⟩ := exists_state_of_mem hf
  have named := h.members _ (mem_of_lookup lists)
  have shape := states ms ss rfl lists s hs (named.members s hs) _ (named_stateNames h)
  exact (Field.named_required_iff ..).2 ⟨named.names _ (List.mem_map_of_mem hs), shape.record⟩

theorem named_documentShape {document : Json} (known : ∀ word ∈ words, P word)
    (h : document.Named P) : (documentShape document).Named P :=
  named_documentShape_of known (named_stateNames h) (named_ownStates known document h)

end Machine

variable [Formats]

/-- The names that a report on a document repeats are words of the grammar, indices, and names of
    members of the document. -/
theorem named_documentViolations {document : Json} (known : ∀ word ∈ Machine.words, P word)
    (index : ∀ i : Nat, P (toString i)) (h : document.Named P) :
    ∀ w ∈ documentViolations document, ∀ name ∈ w.repeated, P name := by
  intro w hw
  obtain ⟨k, fails⟩ := mem_violations_iff.1 hw
  exact fails.named (ChoiceRule.named_nestedShape known) index
    (Machine.named_documentShape known h).record h (known "value" (by decide))

end FlowLint
