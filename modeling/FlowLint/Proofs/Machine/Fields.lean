import FlowLint.Proofs.Conformance.Machines
import FlowLint.Proofs.Conformance.Parts

/-!
What is asked of the members of machines, states, choice rules and catchers. Each name that leads to
another state, or to what holds such a name, has one field; where a state is of no known kind, the
field is the one of the kinds that have it.
-/

namespace FlowLint

open Constraint Workflow

/-! ### Fields under conditions -/

namespace Field

variable (name : String) (r : Constraint)

@[simp] theorem rule?_optional : (optional name r).rule? = some r := rfl

@[simp] theorem rule?_required : (required name r).rule? = some r := rfl

theorem rule?_optionalIf {condition : Bool} (h : condition) :
    (optionalIf condition name r).rule? = some r := by
  rw [h]
  rfl

theorem rule?_requiredIf {condition : Bool} (h : condition) :
    (requiredIf condition name r).rule? = some r := by
  rw [h]
  rfl

end Field

/-- A shape without rules among the members asks what its fields do. -/
theorem Shape.asks_of_mem {fields : List (Field Constraint)}
    (distinct : (fields.map Field.name).Nodup) {f : Field Constraint} (hf : f ∈ fields)
    {r : Constraint} (hr : f.rule? = some r) : (Shape.mk fields []).Asks f.name r :=
  ⟨⟨f, hf, rfl, hr⟩, distinct, nofun⟩

/-! ### Rules and catchers -/

theorem ChoiceRule.asks_next (siblings : List String) :
    (topShape siblings).Asks "Next" (oneOf siblings) where
  field := ⟨.required "Next" (oneOf siblings), List.mem_append_right _ (List.mem_singleton_self _),
    rfl, rfl⟩
  distinct := by
    have names : (topShape siblings).fields.map Field.name =
        commonFields.map Field.name ++ ["Next"] := List.map_append
    rw [names]
    decide
  blamed := by
    have peers : (topShape siblings).peers = peerRules := rfl
    rw [peers]
    decide

theorem ErrorHandling.asks_next (siblings : List String) :
    (catcherShape siblings).Asks "Next" (oneOf siblings) :=
  have distinct : ((catcherShape siblings).fields.map Field.name).Nodup :=
    (by decide : ["ErrorEquals", "Next", "ResultPath"].Nodup)
  have field : .required "Next" (oneOf siblings) ∈ (catcherShape siblings).fields := by
    simp [catcherShape]
  Shape.asks_of_mem distinct field rfl

/-! ### States -/

namespace State

/-- The kind of a state is one of these or is not known. -/
def MayBe (kinds : List StateKind) (state : Json) : Prop :=
  ∀ kind, kind? state = some kind → kind ∈ kinds

/-- The state goes on to a next one, or its kind is not known. -/
def MayGoOn (state : Json) : Prop :=
  ∀ kind, kind? state = some kind →
    kind ∈ steps ∧ (state.get? "End" = none ∨ state.get? "End" = some (.bool false))

variable {state : Json} (siblings : List String) (branches : List Constraint)

/-- Of the state itself its type and its end are all that counts. -/
theorem shapeWith_congr {other : Json} (type : state.get? "Type" = other.get? "Type")
    (ending : state.get? "End" = other.get? "End") :
    shapeWith state siblings branches = shapeWith other siblings branches := by
  have kind : kind? state = kind? other := by rw [kind?, kind?, type]
  have same : ends state = ends other := by rw [ends, ends, ending]
  rw [shapeWith, shapeWith, kind, same]

/-- The shape of a state has one field for each name. -/
theorem nodup_shapeWith (state : Json) :
    ((shapeWith state siblings branches).fields.map Field.name).Nodup := by
  rw [shapeWith]
  cases kind? state with
  | some kind => exact nodup_kindFields _ _ _
  | none =>
    rw [untypedShape_eq]
    exact nodup_untypedFields _ _

/-- Only waiting is a matter between several members. -/
theorem blamed_shapeWith : ∀ rule ∈ (shapeWith state siblings branches).peers,
    ∀ k ∈ rule.blamed, k ∈ waitFields := by
  rw [shapeWith]
  cases kind? state with
  | some kind =>
    simp only [kindShape]
    split
    · decide
    · simp
  | none =>
    rw [untypedShape_eq]
    simp

/-- What a shape asks is what the fields of the kind ask, if that is known, and of each kind
    else. -/
theorem asks_shapeWith {name : String} {r : Constraint} (hn : name ∉ waitFields)
    (known : ∀ kind, kind? state = some kind →
      ∃ f ∈ kindFields kind (ends state) siblings branches, f.name = name ∧ f.rule? = some r)
    (unknown : .optional name r ∈ untypedFields siblings branches) :
    (shapeWith state siblings branches).Asks name r where
  field := by
    rw [shapeWith]
    cases h : kind? state with
    | some kind => exact known kind h
    | none =>
      rw [untypedShape_eq]
      exact ⟨_, unknown, rfl, rfl⟩
  distinct := nodup_shapeWith siblings branches state
  blamed rule hrule hk := hn (blamed_shapeWith siblings branches rule hrule name hk)

/-- What may come next is one of the siblings. -/
theorem asks_next (h : MayGoOn state) :
    (shapeWith state siblings branches).Asks "Next" (oneOf siblings) := by
  refine asks_shapeWith _ _ (by decide) (fun kind hk => ?_) (by simp [untypedFields])
  obtain ⟨step, goes⟩ := h kind hk
  have must := StateKind.requiresNext_iff.2 ⟨step, ends_eq_false_iff.2 goes⟩
  exact ⟨.requiredIf (kind.requiresNext (ends state)) "Next" (oneOf siblings),
    by simp [kindFields], Field.name_requiredIf .., Field.rule?_requiredIf _ _ must⟩

theorem asks_default (h : MayBe [.choice] state) :
    (shapeWith state siblings branches).Asks "Default" (oneOf siblings) := by
  refine asks_shapeWith _ _ (by decide) (fun kind hk => ?_) (by simp [untypedFields])
  obtain rfl := List.mem_singleton.1 (h kind hk)
  exact ⟨.optional "Default" (oneOf siblings), by simp [kindFields, Field.optionalIf], rfl, rfl⟩

theorem asks_choices (h : MayBe [.choice] state) : (shapeWith state siblings branches).Asks
    "Choices" (.list (some (.record (ChoiceRule.topShape siblings))) 1) := by
  refine asks_shapeWith _ _ (by decide) (fun kind hk => ?_) (by simp [untypedFields])
  obtain rfl := List.mem_singleton.1 (h kind hk)
  exact ⟨.required "Choices" (.list (some (.record (ChoiceRule.topShape siblings))) 1),
    by simp [kindFields, Field.requiredIf], rfl, rfl⟩

/-- Errors lead to siblings too. -/
theorem asks_catch (h : MayBe fallible state) : (shapeWith state siblings branches).Asks
    "Catch" (.list (some (.record (ErrorHandling.catcherShape siblings))) 0) := by
  refine asks_shapeWith _ _ (by decide) (fun kind hk => ?_) (by simp [untypedFields])
  have handles := StateKind.handlesErrors_iff.2 (h kind hk)
  exact ⟨.optionalIf kind.handlesErrors "Catch"
      (.list (some (.record (ErrorHandling.catcherShape siblings))) 0),
    by simp [kindFields], Field.name_optionalIf .., Field.rule?_optionalIf _ _ handles⟩

/-- The branches are asked for last, and no other field hangs on them. -/
theorem exists_shapeWith_eq (h : MayBe [.parallel] state) :
    ∃ front, ∃ f : Constraint → Field Constraint,
      (∀ r, (f r).name = "Branches" ∧ (f r).rule? = some r) ∧ ∀ branches,
        shapeWith state siblings branches = ⟨front ++ [f (.positions branches 1)], []⟩ := by
  cases known : kind? state with
  | some kind =>
    obtain rfl := List.mem_singleton.1 (h kind known)
    refine ⟨(kindFields .parallel (ends state) siblings []).dropLast, .required "Branches",
      fun r => ⟨rfl, rfl⟩, fun branches => ?_⟩
    rw [shapeWith, known]
    rfl
  | none =>
    refine ⟨(untypedFields siblings []).dropLast, .optional "Branches", fun r => ⟨rfl, rfl⟩,
      fun branches => ?_⟩
    rw [shapeWith, known]
    exact untypedShape_eq siblings branches

theorem asks_branches (h : MayBe [.parallel] state) :
    (shapeWith state siblings branches).Asks "Branches" (.positions branches 1) := by
  obtain ⟨front, f, field, shape⟩ := exists_shapeWith_eq siblings h
  have distinct := nodup_shapeWith siblings branches state
  rw [shape] at distinct ⊢
  obtain ⟨name, rule⟩ := field (.positions branches 1)
  have asks := Shape.asks_of_mem distinct (List.mem_append_right _ (List.mem_singleton_self _)) rule
  rwa [name] at asks

end State

end FlowLint
