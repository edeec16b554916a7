import FlowLint.Format.Standard
import FlowLint.Proofs.Conformance.Distinct
import FlowLint.Proofs.Machine.Names

/-!
No problem of a document is told twice. The shape that is made for a document has one field for each
name wherever it has fields: those of the grammar are told apart by their words, and states, which
are named by the document itself, by the names in it.
-/

namespace FlowLint

/-! ### Constraints -/

namespace Constraint

@[simp] theorem coherent_anyText : Coherent .anyText := .text ..

@[simp] theorem coherent_uri : Coherent (.text none .uri) := .text ..

@[simp] theorem coherent_oneOf (texts : List String) : Coherent (.oneOf texts) := .text ..

/-- Where there is no largest number, no number misses both bounds. -/
@[simp] theorem coherent_atLeast (whole : Bool) (least : Option Binary64) :
    Coherent (.number ⟨whole, least, none⟩) := .number nofun

@[simp] theorem coherent_positive : Coherent .positive := coherent_atLeast ..

/-- There is a count between the bounds. -/
theorem coherent_count {least : ℤ} (small : least.natAbs < 2 ^ 53) (room : least ≤ 99999998) :
    Coherent (.count least) := by
  refine .number fun a b ha hb => ?_
  cases ha
  cases hb
  obtain ⟨k, hk, same, -⟩ := Binary64.exists_exact_ofInt least
  obtain ⟨m, hm, largest, -⟩ := Binary64.exists_exact_ofInt 99999998
  rw [← Bool.not_eq_true, Binary64.lt_iff, maxCount, hk, hm, same small, largest (by decide),
    Int.cast_lt]
  exact Int.not_lt.2 room

/-- A list is coherent if its items are. -/
@[simp] theorem coherent_list_iff {r : Constraint} {atLeast : Nat} :
    Coherent (.list (some r) atLeast) ↔ r.Coherent := by
  constructor
  · intro h
    cases h with
    | list below => exact below r rfl
  · intro h
    refine .list fun r' e => ?_
    cases e
    exact h

@[simp] theorem coherent_record_iff {s : Shape Constraint} :
    Coherent (.record s) ↔ s.Coherent := by
  constructor
  · intro h
    exact h.shape rfl
  · exact Shape.Coherent.record

end Constraint

attribute [simp] Constraint.Coherent.anything Constraint.Coherent.boolean
  Constraint.Coherent.timestamp Constraint.Coherent.choiceRule

namespace Field

variable (name : String) (r : Constraint) (condition : Bool)

@[simp] theorem coherent_optional_iff : (optional name r).Coherent ↔ r.Coherent :=
  ⟨fun h => h r rfl, fun h _ e => Option.some.inj e ▸ h⟩

@[simp] theorem coherent_required_iff : (required name r).Coherent ↔ r.Coherent :=
  ⟨fun h => h r rfl, fun h _ e => Option.some.inj e ▸ h⟩

@[simp] theorem coherent_optionalIf_iff :
    (optionalIf condition name r).Coherent ↔ (condition → r.Coherent) := by
  cases condition
  · exact ⟨nofun, fun _ => nofun⟩
  · simp [optionalIf]

/-- A field that is forbidden has nothing to contradict itself with. -/
@[simp] theorem coherent_requiredIf_iff :
    (requiredIf condition name r).Coherent ↔ (condition → r.Coherent) := by
  cases condition
  · exact ⟨nofun, fun _ => nofun⟩
  · simp [requiredIf]

end Field

/-- A shape without rules among the members is coherent if its fields are. -/
theorem Shape.coherent_of_fields {fields : List (Field Constraint)}
    (distinct : (fields.map Field.name).Nodup) (each : ∀ f ∈ fields, f.Coherent) :
    (Shape.mk fields []).Coherent := ⟨distinct, each, .nil⟩

/-! ### States -/

theorem ErrorHandling.coherent_retrierShape : retrierShape.Coherent := by
  refine Shape.coherent_of_fields (by decide) ?_
  simp [errorEquals, Constraint.coherent_count]

theorem ErrorHandling.coherent_catcherShape (siblings : List String) :
    (catcherShape siblings).Coherent := by
  have distinct : ((catcherShape siblings).fields.map Field.name).Nodup :=
    (by decide : ["ErrorEquals", "Next", "ResultPath"].Nodup)
  refine Shape.coherent_of_fields distinct ?_
  simp [errorEquals]

theorem ChoiceRule.coherent_topShape (siblings : List String) : (topShape siblings).Coherent where
  distinct := (asks_next siblings).distinct
  fields := by
    refine List.forall_mem_append.2 ⟨coherent_commonFields, List.forall_mem_singleton.2 ?_⟩
    simp
  peers := coherent_nestedShape.peers

namespace State

variable (siblings : List String) {branches : List Constraint}
  (below : ∀ r ∈ branches, r.Coherent)

include below

/-- The fields of each kind are coherent if the branches are. -/
theorem coherent_kindFields (kind : StateKind) (ends : Bool) :
    ∀ f ∈ kindFields kind ends siblings branches, f.Coherent := by
  have retriers := ErrorHandling.coherent_retrierShape
  have catchers := ErrorHandling.coherent_catcherShape siblings
  have rules := ChoiceRule.coherent_topShape siblings
  have parts : (Constraint.positions branches 1).Coherent := .positions below
  have ending : ∀ f ∈ (if kind.declaresEnd then [Field.optional "End" .boolean] else []),
      f.Coherent := by
    split
    · simp
    · nofun
  refine List.forall_mem_append.2 ⟨List.forall_mem_append.2 ⟨?_, ending⟩, ?_⟩
  · simp [typeField]
  · simp [Constraint.coherent_count, retriers, catchers, rules, parts]

theorem coherent_untypedFields : ∀ f ∈ untypedFields siblings branches, f.Coherent := by
  have retriers := ErrorHandling.coherent_retrierShape
  have catchers := ErrorHandling.coherent_catcherShape siblings
  have rules := ChoiceRule.coherent_topShape siblings
  have parts : (Constraint.positions branches 1).Coherent := .positions below
  simp [untypedFields, typeField, Constraint.coherent_count, retriers, catchers, rules, parts]

theorem coherent_shapeWith (state : Json) : (shapeWith state siblings branches).Coherent := by
  have distinct := nodup_shapeWith siblings branches state
  rw [shapeWith] at distinct ⊢
  cases known : kind? state with
  | some kind =>
    rw [known] at distinct
    have waits : (if kind = .wait then waitRules else []).Pairwise fun r r' =>
        ∀ o ∈ r.subjects, o ∉ r'.subjects := by
      split
      · decide
      · exact .nil
    exact ⟨distinct, coherent_kindFields siblings below kind _, waits⟩
  | none =>
    rw [known] at distinct
    rw [untypedShape_eq] at distinct ⊢
    exact ⟨distinct, coherent_untypedFields siblings below, .nil⟩

end State

/-! ### Machines -/

namespace Machine

/-- No state of a machine is named twice. -/
theorem nodup_ownStates {machine : Json} (h : machine.NoRepeats) :
    ((ownStates machine).map Field.name).Nodup := by
  rw [ownStates, statesIn_eq_getD]
  cases lists : machine.members.lookup "States" with
  | none => exact .nil
  | some v =>
    obtain ⟨ms, rfl, listed⟩ := Json.exists_object_of_lookup lists
    cases v with
    | object ss =>
      rw [Option.map_some, Option.getD_some, statesOf, names_stateFields]
      exact nodup_states h listed
    | _ => exact .nil

/-- The states of a machine are told apart by their names. -/
theorem coherent_states {machine : Json} (h : machine.NoRepeats)
    (states : ∀ f ∈ ownStates machine, f.Coherent) : (Shape.mk (ownStates machine) []).Coherent :=
  Shape.coherent_of_fields (nodup_ownStates h) states

theorem coherent_branchShape {branch : Json}
    (states : (Shape.mk (ownStates branch) []).Coherent) : (branchShape branch).Coherent := by
  rw [branchShape_eq_ownStates]
  refine Shape.coherent_of_fields (by decide : ["StartAt", "Comment", "States"].Nodup) ?_
  simp [branchFields, states]

/-- A state is coherent if the states in its branches are. -/
theorem coherent_stateShape {state : Json} (h : state.NoRepeats)
    (below : ∀ ms items, state = .object ms → ms.lookup "Branches" = some (.array items) →
      ∀ b ∈ items, b.NoRepeats → (Shape.mk (ownStates b) []).Coherent) (siblings : List String) :
    (stateShape state siblings).Coherent := by
  rw [stateShape_eq_members]
  refine State.coherent_shapeWith siblings (fun r hr => ?_) state
  obtain ⟨ms, items, b, rfl, lists, hb, rfl⟩ := exists_branch_of_mem hr
  cases h with
  | object _ values =>
    cases values _ (mem_of_lookup lists) with
    | array each => exact (coherent_branchShape (below ms items rfl lists b hb (each b hb))).record

/-- By induction over states and machines all states are coherent. -/
theorem coherent_ownStates (machine : Json) (h : machine.NoRepeats) :
    (Shape.mk (ownStates machine) []).Coherent := by
  have both := induction
    (S := fun s => s.NoRepeats → ∀ siblings, (stateShape s siblings).Coherent)
    (M := fun m => m.NoRepeats → (Shape.mk (ownStates m) []).Coherent)
    (fun state below h siblings => coherent_stateShape h below siblings) ?_ machine
  · exact both.2 h
  intro machine states h
  refine coherent_states h fun f hf => ?_
  obtain ⟨ms, ss, s, rfl, lists, hs, rfl⟩ := exists_state_of_mem hf
  cases h with
  | object _ values =>
    cases values _ (mem_of_lookup lists) with
    | object _ each =>
      have shape := states ms ss rfl lists s hs (each s hs) (stateNames (.object ms))
      exact (Field.coherent_required_iff ..).2 shape.record

theorem coherent_documentShape {document : Json} (h : document.NoRepeats) :
    (documentShape document).Coherent := by
  rw [documentShape_eq_ownStates]
  refine Shape.coherent_of_fields
    (by decide : ["StartAt", "Comment", "Version", "TimeoutSeconds", "States"].Nodup) ?_
  simp [documentFields, coherent_ownStates document h, Constraint.coherent_count]

end Machine

/-- No problem of a document is told twice: a violation is told by its path and its code. -/
theorem violations_distinct [Formats] {document : Json} (h : document.NoRepeats) :
    ((documentViolations document).map fun g => (g.path, g.kind.code)).Nodup :=
  (toldOnce_iff _).1 (toldOnce_violations document h [] (Machine.coherent_documentShape h).record)

/-- A machine that starts nowhere, one state of which waits twice and goes on to nowhere. -/
def restlessMachine : Json :=
  .object [("StartAt", .string "B"), ("Retries", .null), ("States", .object
    [("A", .object [("Type", .string "Wait"), ("Seconds", .bool true), ("SecondsPath", .string ""),
      ("Next", .string "B")])])]

theorem violations_distinct_restlessMachine :
    restlessMachine.NoRepeats ∧
      ((documentViolations restlessMachine).map fun g => (g.path, g.kind.code)).Nodup ∧
      (documentViolations restlessMachine).map (fun g => (g.path, g.kind.code)) =
        [([.key "StartAt"], "V006"), ([.key "States", .key "A", .key "Next"], "V006"),
         ([.key "States", .key "A", .key "Seconds"], "V003"),
         ([.key "States", .key "A", .key "SecondsPath"], "V004"),
         ([.key "States", .key "A", .key "Seconds"], "V009"),
         ([.key "States", .key "A", .key "SecondsPath"], "V009"), ([.key "Retries"], "V002")] := by
  have settled : restlessMachine.settled = restlessMachine := rfl
  have distinct : restlessMachine.NoRepeats := settled ▸ Json.noRepeats_settled restlessMachine
  exact ⟨distinct, violations_distinct distinct, by decide +kernel⟩

end FlowLint
