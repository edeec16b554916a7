import FlowLint.Proofs.Conformance.Rules

/-!
The shape of a state of a kind describes what the language says of the state. What becomes of its
branches is left open here: they hold states themselves.
-/

namespace FlowLint

open Workflow

/-! ### Kinds -/

namespace StateKind

theorem mem_all (kind : StateKind) : kind ∈ all := by cases kind <;> decide

@[simp] theorem ofName?_name (kind : StateKind) : ofName? kind.name = some kind := by
  cases kind <;> decide

theorem ofName?_eq_some_iff {s : String} {kind : StateKind} :
    ofName? s = some kind ↔ s = kind.name := by
  constructor
  · intro h
    have found := List.find?_some h
    exact (eq_of_beq found).symm
  · rintro rfl
    exact kind.ofName?_name

theorem declaresEnd_iff {kind : StateKind} : kind.declaresEnd ↔ kind ∈ steps := by
  cases kind <;> decide

theorem handlesErrors_iff {kind : StateKind} : kind.handlesErrors ↔ kind ∈ fallible := by
  cases kind <;> decide

theorem requiresNext_iff {kind : StateKind} {ends : Bool} :
    kind.requiresNext ends ↔ kind ∈ steps ∧ ends = false := by
  cases kind <;> cases ends <;> decide

end StateKind

namespace State

variable {ms : List (String × Json)} {kind : StateKind}

theorem kind?_eq_some_iff :
    kind? (.object ms) = some kind ↔ ms.lookup "Type" = some (.string kind.name) := by
  have named : kind? (.object ms) =
      ((ms.lookup "Type").bind Json.text?).bind StateKind.ofName? := rfl
  rw [named]
  cases ms.lookup "Type" with
  | none => simp
  | some v =>
    cases v with
    | string s => simp [Json.text?, StateKind.ofName?_eq_some_iff]
    | _ => simp [Json.text?]

/-- A state has one type. -/
theorem type_iff (type : ms.lookup "Type" = some (.string kind.name)) (k : StateKind) :
    ms.lookup "Type" = some (.string k.name) ↔ kind = k := by
  rw [← kind?_eq_some_iff, kind?_eq_some_iff.2 type, Option.some.injEq]

theorem ends_eq_false_iff {state : Json} : ends state = false ↔
    state.get? "End" = none ∨ state.get? "End" = some (.bool false) := by
  rw [ends]
  cases state.get? "End" with
  | none => simp
  | some v =>
    cases v with
    | bool b => cases b <;> simp
    | _ => simp

theorem requiresNext_ends_iff :
    kind.requiresNext (ends (.object ms)) ↔ GoesOn kind ms := by
  rw [StateKind.requiresNext_iff, ends_eq_false_iff, GoesOn]
  rfl

/-! ### Fields -/

variable (ends : Bool) (siblings : List String) (branches : List Constraint)

theorem nodup_kindFields : ((kindFields kind ends siblings branches).map Field.name).Nodup := by
  have names : (kindFields kind ends siblings branches).map Field.name =
      ["Type", "Comment"] ++ (if kind.declaresEnd then ["End"] else []) ++
        ["Next", "InputPath", "ResultPath", "OutputPath", "Cause", "Error", "Result", "Retry",
          "Catch", "Resource", "HeartbeatSeconds", "TimeoutSeconds", "Choices", "Default",
          "Seconds", "SecondsPath", "Timestamp", "TimestampPath", "Branches"] := by
    simp [kindFields, typeField, apply_ite (List.map Field.name)]
  rw [names]
  cases kind.declaresEnd <;> decide

/-- Which fields of a kind are required. -/
theorem required_kindFields_iff (kind : StateKind) (P : String → Prop) :
    (∀ f ∈ kindFields kind ends siblings branches, f.IsRequired → P f.name) ↔
      P "Type" ∧ (kind.requiresNext ends → P "Next") ∧ (kind = .task → P "Resource") ∧
        (kind = .choice → P "Choices") ∧ (kind = .parallel → P "Branches") := by
  simp [kindFields, typeField, or_imp, forall_and]

/-- Which members the fields of a kind admit, once its type is known. -/
theorem admits_kindFields_iff [Formats] {k : String} {v : Json} {on : Prop} (h : v.NoRepeats)
    (type : k = "Type" → v = .string kind.name) (next : kind.requiresNext ends ↔ on)
    (below : k = "Branches" → (v.Meets (.positions branches 1) ↔
      ∃ items, v = .array items ∧ items ≠ [] ∧ ∀ b ∈ items, IsBranch b)) :
    (∃ f ∈ kindFields kind ends siblings branches, f.Admits k v) ↔
      StateMember kind on siblings k v := by
  have retriers := Json.meets_arrayOf_iff h (fun w _ hw => Json.meets_retrier_iff hw) 0
  have catchers := Json.meets_arrayOf_iff h (fun w _ hw => Json.meets_catcher_iff hw siblings) 0
  have rules := Json.meets_arrayOf_iff h (fun w _ hw => Json.meets_rule_iff hw siblings) 1
  have ending : (∃ f ∈ (if kind.declaresEnd then [Field.optional "End" .boolean] else []),
      f.Admits k v) ↔ kind.declaresEnd ∧ "End" = k ∧ IsFlag v := by
    split <;> simp_all
  simp only [kindFields, typeField, List.mem_append, or_and_right, exists_or, ending]
  simp only [List.mem_cons, List.not_mem_nil, or_false, exists_eq_or_imp, exists_eq_left,
    Field.admits_required, Field.admits_optional, Field.admits_optionalIf,
    Field.admits_requiredIf]
  simp only [Json.meets_oneOf_iff, Json.meets_anyText_iff, Json.meets_anything,
    Json.meets_uri_iff, Json.meets_count_iff (by decide : (1 : ℤ).natAbs < 2 ^ 53),
    Json.meets_positive_iff, Json.meets_timestamp_iff, retriers, catchers, rules, next,
    StateKind.declaresEnd_iff, StateKind.handlesErrors_iff, bne_iff_ne, beq_iff_eq, and_true]
  constructor
  · rintro (((⟨rfl, -⟩ | ⟨rfl, h⟩) | ⟨may, rfl, h⟩) | ⟨go, rfl, h⟩ | ⟨may, rfl, h⟩ | ⟨may, rfl, h⟩ |
      ⟨may, rfl, h⟩ | ⟨rfl, rfl, h⟩ | ⟨rfl, rfl, h⟩ | ⟨rfl, rfl⟩ | ⟨may, rfl, h⟩ | ⟨may, rfl, h⟩ |
      ⟨rfl, rfl, h⟩ | ⟨rfl, rfl, h⟩ | ⟨rfl, rfl, h⟩ | ⟨rfl, rfl, h⟩ | ⟨rfl, rfl, h⟩ |
      ⟨rfl, rfl, h⟩ | ⟨rfl, rfl, h⟩ | ⟨rfl, rfl, h⟩ | ⟨rfl, rfl, h⟩ | ⟨rfl, rfl, h⟩)
    · rw [type rfl]
      exact .type
    · exact .comment h
    · exact .ending may h
    · exact .next go h
    · exact .input may h
    · exact .resultPath may h
    · exact .output may h
    · exact .cause h
    · exact .error h
    · exact .result
    · exact .retry may h
    · exact .catching may h
    · exact .resource h
    · exact .heartbeat h
    · exact .timeout h
    · exact .choices h
    · exact .otherwise h
    · exact .seconds h
    · exact .secondsPath h
    · exact .timestamp h
    · exact .timestampPath h
    · obtain ⟨items, rfl, some, each⟩ := (below rfl).1 h
      exact .branches some each
  · intro member
    cases member with
    | type => exact .inl (.inl (.inl ⟨rfl, kind.name, List.mem_map_of_mem kind.mem_all, rfl⟩))
    | branches some each => simp [(below rfl).2 ⟨_, rfl, some, each⟩]
    | _ => simp_all

/-! ### Waiting -/

/-- The peers of a way to wait are the others. -/
theorem mem_waitPeers_iff : ∀ key ∈ waitFields, ∀ k,
    k ∈ waitPeers key ↔ k ∈ waitFields ∧ k ≠ key := by
  have peers : ∀ key ∈ waitFields,
      waitPeers key ⊆ waitFields ∧ key ∉ waitPeers key ∧
        ∀ k ∈ waitFields, k ≠ key → k ∈ waitPeers key := by decide
  intro key hkey k
  obtain ⟨known, others, all⟩ := peers key hkey
  exact ⟨fun h => ⟨known h, fun e => others (e ▸ h)⟩, fun h => all k h.1 h.2⟩

/-- That each excludes its peers and one is there is to say that just one is there. -/
theorem waitRules_hold_iff (present : List String) :
    (∀ r ∈ waitRules, r.Holds present) ↔ ExactlyOne waitFields present := by
  have rules : (∀ r ∈ waitRules, r.Holds present) ↔
      (∀ key ∈ waitFields, key ∈ present → ∀ k ∈ waitPeers key, k ∉ present) ∧
        ∃ k ∈ waitFields, k ∈ present := by
    simp only [waitRules, List.forall_mem_append, List.forall_mem_map, List.forall_mem_singleton,
      PeerRule.Holds]
  rw [rules]
  constructor
  · rintro ⟨alone, key, hkey, there⟩
    refine ⟨key, hkey, there, fun k hk found => ?_⟩
    by_contra other
    exact alone key hkey there k ((mem_waitPeers_iff key hkey k).2 ⟨hk, other⟩) found
  · rintro ⟨key, hkey, there, only⟩
    refine ⟨fun l hl found k hk found' => ?_, key, hkey, there⟩
    obtain ⟨known, other⟩ := (mem_waitPeers_iff l hl k).1 hk
    exact other ((only k known found').trans (only l hl found).symm)

/-! ### Unknown kinds -/

theorem relaxed?_typeField : relaxed? typeField = some typeField := rfl

theorem relaxed?_optional (name : String) (r : Constraint) :
    relaxed? (.optional name r) = some (.optional name r) := rfl

theorem relaxed?_optionalIf (condition : Bool) (name : String) (r : Constraint) :
    relaxed? (.optionalIf condition name r) =
      if condition then some (.optional name r) else none := by
  cases condition <;> rfl

/-- Where the kind is not known, what some kind requires is optional. -/
theorem relaxed?_requiredIf (condition : Bool) {name : String} (h : name ≠ "Type")
    (r : Constraint) : relaxed? (.requiredIf condition name r) =
      if condition then some (.optional name r) else none := by
  cases condition with
  | false => rfl
  | true => exact congrArg some (if_neg h)

/-- The members of a state of no kind, one by one. -/
def untypedFields : List (Field Constraint) :=
  [typeField, .optional "Comment" .anyText, .optional "End" .boolean,
   .optional "Next" (.oneOf siblings), .optional "InputPath" .anyText,
   .optional "ResultPath" .anyText, .optional "OutputPath" .anyText,
   .optional "Result" .anything, .optional "Cause" .anyText, .optional "Error" .anyText,
   .optional "Retry" (.list (some (.record ErrorHandling.retrierShape)) 0),
   .optional "Catch" (.list (some (.record (ErrorHandling.catcherShape siblings))) 0),
   .optional "Resource" (.text none .uri), .optional "HeartbeatSeconds" (.count 1),
   .optional "TimeoutSeconds" (.count 1),
   .optional "Choices" (.list (some (.record (ChoiceRule.topShape siblings))) 1),
   .optional "Default" (.oneOf siblings), .optional "Seconds" .positive,
   .optional "SecondsPath" .anyText, .optional "Timestamp" .timestamp,
   .optional "TimestampPath" .anyText, .optional "Branches" (.positions branches 1)]

/-- Put together, the fields of all kinds are those. -/
theorem untypedShape_eq :
    untypedShape siblings branches = ⟨untypedFields siblings branches, []⟩ := by
  -- First the fields that each kind keeps, then those of them that are new.
  simp only [untypedShape, StateKind.all, List.flatMap_cons, List.flatMap_nil, kindFields,
    StateKind.declaresEnd, StateKind.requiresNext, StateKind.isTerminal, StateKind.handlesErrors,
    List.filterMap_append]
  simp only [relaxed?_typeField, relaxed?_optional, relaxed?_optionalIf, relaxed?_requiredIf,
    List.filterMap_cons_some, List.filterMap_cons_none, List.filterMap_nil, List.cons_append,
    List.nil_append, List.append_nil, Option.some.injEq, ↓reduceIte, ne_eq, String.reduceEq,
    not_false_eq_true, Bool.or_false, Bool.not_or, BEq.rfl, Bool.and_eq_true,
    Bool.not_eq_eq_eq_not, Bool.not_true, beq_eq_false_iff_ne, reduceCtorEq, and_self,
    bne_iff_ne, beq_iff_eq, Bool.false_eq_true, Bool.true_or, Bool.false_and, Bool.or_true,
    bne_self_eq_false, Bool.and_false, Shape.mk.injEq, and_true]
  simp [firstOfEachName, typeField, untypedFields]

theorem nodup_untypedFields : ((untypedFields siblings branches).map Field.name).Nodup := by
  have names : (untypedFields siblings branches).map Field.name =
      ["Type", "Comment", "End", "Next", "InputPath", "ResultPath", "OutputPath", "Result",
        "Cause", "Error", "Retry", "Catch", "Resource", "HeartbeatSeconds", "TimeoutSeconds",
        "Choices", "Default", "Seconds", "SecondsPath", "Timestamp", "TimestampPath",
        "Branches"] := rfl
  rw [names]
  decide

theorem typeField_mem_untypedShape : typeField ∈ (untypedShape siblings branches).fields := by
  rw [untypedShape_eq]
  exact List.mem_cons_self

variable [Formats]

/-- A state must have a type, and a known one. -/
theorem exists_kind_of_meets {state : Json}
    (meets : state.Meets (.record (shapeWith state siblings branches))) :
    ∃ kind, kind? state = some kind := by
  cases known : kind? state with
  | some kind => exact ⟨kind, rfl⟩
  | none =>
    rw [shapeWith, known] at meets
    obtain ⟨ms, rfl⟩ := Json.exists_object_of_meets meets rfl
    obtain ⟨v, hv, type⟩ := Json.exists_lookup_of_required
      (typeField_mem_untypedShape siblings branches) meets
    obtain ⟨name, hname, rfl⟩ := Json.meets_oneOf_iff.1 type
    obtain ⟨kind, -, rfl⟩ := List.mem_map.1 hname
    rw [kind?_eq_some_iff.2 hv] at known
    cases known

/-! ### States -/

theorem isState_iff (type : ms.lookup "Type" = some (.string kind.name)) :
    IsState siblings (.object ms) ↔
      (∀ m ∈ ms, StateMember kind (GoesOn kind ms) siblings m.1 m.2) ∧
        ((GoesOn kind ms → "Next" ∈ names ms) ∧ (kind = .task → "Resource" ∈ names ms) ∧
          (kind = .choice → "Choices" ∈ names ms) ∧
            (kind = .parallel → "Branches" ∈ names ms)) ∧
          (kind = .wait → ExactlyOne waitFields (names ms)) := by
  constructor
  · intro state
    cases state with
    | state kind' type' each next resource choices branches waits =>
      obtain rfl := (type_iff type kind').1 type'
      exact ⟨each, ⟨next, resource, choices, branches⟩, waits⟩
  · rintro ⟨each, ⟨next, resource, choices, branches⟩, waits⟩
    exact .state kind type each next resource choices branches waits

/-- A state has the shape made for it exactly if it is one of the language, granted that the same
    is true of its branches. -/
theorem meets_shapeWith_iff (distinct : (names ms).Nodup) (values : ∀ m ∈ ms, m.2.NoRepeats)
    (below : ∀ v, ("Branches", v) ∈ ms → (v.Meets (.positions branches 1) ↔
      ∃ items, v = .array items ∧ items ≠ [] ∧ ∀ b ∈ items, IsBranch b)) :
    (Json.object ms).Meets (.record (shapeWith (.object ms) siblings branches)) ↔
      IsState siblings (.object ms) := by
  -- Where the kind is known the rest is field by field; a state of no known kind is neither.
  have known {kind : StateKind} (type : ms.lookup "Type" = some (.string kind.name)) :
      (Json.object ms).Meets (.record (shapeWith (.object ms) siblings branches)) ↔
        IsState siblings (.object ms) := by
    have members : (∀ m ∈ ms, ∃ f ∈ kindFields kind (ends (.object ms)) siblings branches,
        f.Admits m.1 m.2) ↔ ∀ m ∈ ms, StateMember kind (GoesOn kind ms) siblings m.1 m.2 := by
      refine forall₂_congr fun m hm => ?_
      refine admits_kindFields_iff _ _ _ (values m hm) (fun e => ?_) requiresNext_ends_iff
        fun e => ?_
      · have there := lookup_of_mem distinct hm
        rw [e, type] at there
        exact (Option.some.inj there).symm
      · rw [← e] at below
        exact below m.2 hm
    have required := required_kindFields_iff (ends (.object ms)) siblings branches kind
      (· ∈ names ms)
    have waits : (∀ r ∈ if kind = .wait then waitRules else [], r.Holds (names ms)) ↔
        (kind = .wait → ExactlyOne waitFields (names ms)) := by
      split
      · next wait => rw [waitRules_hold_iff, forall_prop_of_true wait]
      · next other => exact ⟨fun _ wait => absurd wait other, fun _ => nofun⟩
    have typed : "Type" ∈ names ms := exists_lookup_iff.1 ⟨_, type⟩
    have shape : shapeWith (.object ms) siblings branches =
        kindShape kind (ends (.object ms)) siblings branches := by
      rw [shapeWith, kind?_eq_some_iff.2 type]
    rw [shape, kindShape, Json.meets_object_iff distinct rfl (nodup_kindFields _ _ _), members,
      required, waits, requiresNext_ends_iff, and_iff_right typed, isState_iff siblings type]
  constructor
  · intro meets
    obtain ⟨kind, type⟩ := exists_kind_of_meets siblings branches meets
    exact (known (kind?_eq_some_iff.1 type)).1 meets
  · intro state
    cases state with
    | state kind type => exact (known type).2 (.state kind type ‹_› ‹_› ‹_› ‹_› ‹_› ‹_›)

end State

end FlowLint
