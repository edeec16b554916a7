import FlowLint.Proofs.Conformance.Records

/-!
The shapes of retriers, catchers and choice rules describe what the language says of them. A choice
rule may hold others to any depth; the proof goes down with them.
-/

namespace FlowLint

open Workflow

namespace Json

variable {v : Json}

section

variable [Formats]

/-- An array of things whose shape is known. -/
theorem meets_arrayOf_iff (h : v.NoRepeats) {r : Constraint} {IsItem : Json → Prop}
    (item : ∀ w, sizeOf w ≤ sizeOf v → w.NoRepeats → (w.Meets r ↔ IsItem w)) (atLeast : Nat) :
    v.Meets (.list (some r) atLeast) ↔ IsArrayOf IsItem atLeast v := by
  rw [meets_list_iff, IsArrayOf]
  refine exists_congr fun items => and_congr_right fun e => and_congr_right' ?_
  subst e
  cases h with
  | array below =>
    refine forall₂_congr fun i hi => item i ?_ (below i hi)
    have := List.sizeOf_lt_of_mem hi
    simp only [Json.array.sizeOf_spec]
    omega

theorem meets_texts_iff (atLeast : Nat) :
    v.Meets (.list (some .anyText) atLeast) ↔ IsArrayOf IsText atLeast v := by
  simp only [meets_list_iff, IsArrayOf, meets_anyText_iff]

/-! ### Errors -/

/-- A retrier is what its shape asks for. -/
theorem meets_retrier_iff (h : v.NoRepeats) :
    v.Meets (.record ErrorHandling.retrierShape) ↔ IsRetrier v := by
  refine meets_record_iff h (by decide) (fun k w _ => ?_) fun P => by
    simp [ErrorHandling.errorEquals]
  simp only [ErrorHandling.errorEquals, List.mem_cons, List.not_mem_nil, or_false,
    exists_eq_or_imp, exists_eq_left, Field.admits_required, Field.admits_optional,
    meets_texts_iff, meets_integerFrom_iff (by decide : (1 : ℤ).natAbs < 2 ^ 53),
    meets_count_iff (by decide : (0 : ℤ).natAbs < 2 ^ 53), meets_positive_iff]
  constructor
  · rintro (⟨rfl, h⟩ | ⟨rfl, h⟩ | ⟨rfl, h⟩ | ⟨rfl, h⟩)
    · exact .errors h
    · exact .interval h
    · exact .attempts h
    · exact .rate h
  · intro h
    cases h <;> simp_all

/-- A catcher is what its shape asks for. -/
theorem meets_catcher_iff (h : v.NoRepeats) (siblings : List String) :
    v.Meets (.record (ErrorHandling.catcherShape siblings)) ↔ IsCatcher siblings v := by
  have distinct : ((ErrorHandling.catcherShape siblings).fields.map Field.name).Nodup :=
    (by decide : ["ErrorEquals", "Next", "ResultPath"].Nodup)
  refine meets_record_iff h distinct (fun k w _ => ?_) fun P => by
    simp [ErrorHandling.catcherShape, ErrorHandling.errorEquals]
  simp only [ErrorHandling.catcherShape, ErrorHandling.errorEquals, List.mem_cons,
    List.not_mem_nil, or_false, exists_eq_or_imp, exists_eq_left, Field.admits_required,
    Field.admits_optional, meets_texts_iff, meets_oneOf_iff, meets_anyText_iff]
  constructor
  · rintro (⟨rfl, h⟩ | ⟨rfl, h⟩ | ⟨rfl, h⟩)
    · exact .errors h
    · exact .next h
    · exact .result h
  · intro h
    cases h <;> simp_all

end

/-! ### Comparisons -/

theorem mem_comparators_iff {k : String} : k ∈ ChoiceRule.comparators ↔
    k ∈ textComparators ∨ k ∈ numberComparators ∨ k = "BooleanEquals" ∨ k ∈ timeComparators := by
  rw [show ChoiceRule.comparators = comparators from rfl, comparators]
  simp only [List.mem_append, List.mem_singleton, or_assoc]

theorem operand_text : ∀ k ∈ textComparators, ChoiceRule.operand k = .anyText := by
  simp only [textComparators, List.forall_mem_cons]
  exact ⟨rfl, rfl, rfl, rfl, rfl, nofun⟩

theorem operand_number : ∀ k ∈ numberComparators,
    ChoiceRule.operand k = .number ⟨false, none, none⟩ := by
  simp only [numberComparators, List.forall_mem_cons]
  exact ⟨rfl, rfl, rfl, rfl, rfl, nofun⟩

theorem operand_time : ∀ k ∈ timeComparators, ChoiceRule.operand k = .timestamp := by
  simp only [timeComparators, List.forall_mem_cons]
  exact ⟨rfl, rfl, rfl, rfl, rfl, nofun⟩

/-- A comparator admits what the language lets it compare with. -/
theorem comparison_iff [Formats] {k : String} :
    k ∈ ChoiceRule.comparators ∧ v.Meets (ChoiceRule.operand k) ↔ Comparison k v := by
  rw [mem_comparators_iff]
  constructor
  · rintro ⟨hk | hk | rfl | hk, h⟩
    · rw [operand_text k hk, meets_anyText_iff] at h
      exact .text hk h
    · rw [operand_number k hk, meets_anyNumber_iff] at h
      exact .number hk h
    · exact .flag (meets_boolean_iff.1 h)
    · rw [operand_time k hk, meets_timestamp_iff] at h
      exact .time hk h
  · intro h
    cases h with
    | text hk h => exact ⟨.inl hk, by rwa [operand_text k hk, meets_anyText_iff]⟩
    | number hk h => exact ⟨.inr (.inl hk), by rwa [operand_number k hk, meets_anyNumber_iff]⟩
    | flag h => exact ⟨.inr (.inr (.inl rfl)), meets_boolean_iff.2 h⟩
    | time hk h => exact ⟨.inr (.inr (.inr hk)), by rwa [operand_time k hk, meets_timestamp_iff]⟩

/-! ### Choice rules -/

theorem exactlyOne_iff {peers present : List String} (distinct : peers.Nodup) :
    (PeerRule.exactlyOneOf peers).Holds present ↔ ExactlyOne peers present := by
  rw [PeerRule.Holds, List.length_eq_one_iff]
  constructor
  · rintro ⟨k, hk⟩
    have mem (l : String) : l ∈ peers ∧ l ∈ present ↔ l = k := by
      rw [← List.mem_singleton, ← hk, List.mem_filter, List.contains_iff_mem]
    obtain ⟨there, found⟩ := (mem k).2 rfl
    exact ⟨k, there, found, fun l hl found => (mem l).1 ⟨hl, found⟩⟩
  · rintro ⟨k, there, found, only⟩
    have mem (l : String) : l ∈ peers.filter present.contains ↔ l = k := by
      rw [List.mem_filter, List.contains_iff_mem]
      exact ⟨fun h => only l h.1 h.2, fun e => e ▸ ⟨there, found⟩⟩
    exact ⟨k, List.perm_singleton.1 <| (List.perm_ext_iff_of_nodup (distinct.filter _)
      (List.nodup_singleton k)).2 fun l => by rw [mem, List.mem_singleton]⟩

/-- The rules among the members say that there is one test and no other. -/
theorem peerRules_hold_iff (present : List String) :
    (∀ r ∈ ChoiceRule.peerRules, r.Holds present) ↔ HasOneTest present := by
  have one : (PeerRule.exactlyOneOf ChoiceRule.comparators).Holds present ↔
      ExactlyOne comparators present := exactlyOne_iff (by decide)
  have any : (PeerRule.exactlyOneOf (ChoiceRule.comparators ++ ChoiceRule.combinators)).Holds
      present ↔ ExactlyOne (comparators ++ combinators) present := exactlyOne_iff (by decide)
  simp only [ChoiceRule.peerRules, List.forall_mem_cons, List.not_mem_nil, false_implies,
    implies_true, and_true, PeerRule.Holds.eq_1, PeerRule.Holds.eq_4, one, any, HasOneTest]
  split
  · next h => exact and_congr_left' (forall_prop_of_true h)
  · next h => exact ⟨fun both => both.2, fun test => ⟨fun there => absurd there h, test⟩⟩

/-- A member that the fields of all rules admit, if what it holds is known. -/
theorem ruleMember_iff [Formats] (h : v.NoRepeats) {k : String}
    (nested : ∀ w, sizeOf w ≤ sizeOf v → w.NoRepeats → (w.Meets .choiceRule ↔ IsNestedRule w)) :
    (∃ f ∈ ChoiceRule.commonFields, f.Admits k v) ↔ RuleMember k v := by
  have fields : (∃ f ∈ ChoiceRule.commonFields, f.Admits k v) ↔
      ("And" = k ∧ IsArrayOf IsNestedRule 1 v ∨ "Or" = k ∧ IsArrayOf IsNestedRule 1 v ∨
        "Not" = k ∧ IsNestedRule v ∨ "Variable" = k ∧ IsText v) ∨ Comparison k v := by
    simp only [ChoiceRule.commonFields, List.mem_append, or_and_right, exists_or,
      ← comparison_iff]
    simp only [List.mem_cons, List.not_mem_nil, or_false, exists_eq_or_imp, exists_eq_left,
      Field.admits_optional, meets_arrayOf_iff h nested, nested v (Nat.le_refl _) h,
      meets_anyText_iff, List.mem_map, exists_exists_and_eq_and]
    refine or_congr_right ⟨?_, ?_⟩
    · rintro ⟨_, hk, rfl, meets⟩
      exact ⟨hk, meets⟩
    · rintro ⟨hk, meets⟩
      exact ⟨k, hk, rfl, meets⟩
  rw [fields]
  constructor
  · rintro ((⟨rfl, _, rfl, some, each⟩ | ⟨rfl, _, rfl, some, each⟩ | ⟨rfl, h⟩ | ⟨rfl, h⟩) | h)
    · exact .all (List.length_pos_iff.1 some) each
    · exact .any (List.length_pos_iff.1 some) each
    · exact .not h
    · exact .subject h
    · exact .comparison h
  · intro h
    cases h with
    | all some each => exact .inl (.inl ⟨rfl, _, rfl, List.length_pos_iff.2 some, each⟩)
    | any some each => exact .inl (.inr (.inl ⟨rfl, _, rfl, List.length_pos_iff.2 some, each⟩))
    | not h => exact .inl (.inr (.inr (.inl ⟨rfl, h⟩)))
    | subject h => exact .inl (.inr (.inr (.inr ⟨rfl, h⟩)))
    | comparison h => exact .inr h

theorem sizeOf_member_lt {ms : List (String × Json)} {m : String × Json} (h : m ∈ ms) :
    sizeOf m.2 < sizeOf (Json.object ms) := by
  obtain ⟨k, v⟩ := m
  have := List.sizeOf_lt_of_mem h
  simp only [Json.object.sizeOf_spec, Prod.mk.sizeOf_spec] at this ⊢
  omega

theorem not_isRequired_commonFields : ∀ f ∈ ChoiceRule.commonFields, ¬ f.IsRequired := by
  intro f hf
  rcases List.mem_append.1 hf with hf | hf
  · simp only [List.mem_cons, List.not_mem_nil, or_false] at hf
    rcases hf with rfl | rfl | rfl | rfl <;> exact not_false
  · obtain ⟨k, -, rfl⟩ := List.mem_map.1 hf
    exact not_false

variable [Formats]

/-- Rules within rules are checked for what the language says of them. -/
theorem meets_nestedRule_iff (v : Json) (h : v.NoRepeats) :
    v.Meets .choiceRule ↔ IsNestedRule v := by
  cases h with
  | @object ms distinct below =>
    have fields : (ChoiceRule.nestedShape.fields.map Field.name).Nodup := by decide
    have members : (∀ m ∈ ms, ∃ f ∈ ChoiceRule.nestedShape.fields, f.Admits m.1 m.2) ↔
        ∀ m ∈ ms, RuleMember m.1 m.2 := by
      refine forall₂_congr fun m hm => ruleMember_iff (below m hm) fun w hw hn => ?_
      have smaller : sizeOf w < sizeOf (object ms) := Nat.lt_of_le_of_lt hw (sizeOf_member_lt hm)
      exact meets_nestedRule_iff w hn
    rw [meets_object_iff distinct rfl fields, members]
    constructor
    · exact fun ⟨each, _, peers⟩ => .rule each ((peerRules_hold_iff _).1 peers)
    · intro rule
      cases rule with
      | rule each test =>
        exact ⟨each, fun f hf required => absurd required (not_isRequired_commonFields f hf),
          (peerRules_hold_iff _).2 test⟩
  | _ => exact meets_iff_of_not_object rfl (by nofun) (by nofun)
termination_by sizeOf v
decreasing_by exact smaller

/-- A rule at the top leads to a sibling, besides what holds of every rule. -/
theorem meets_rule_iff (h : v.NoRepeats) (siblings : List String) :
    v.Meets (.record (ChoiceRule.topShape siblings)) ↔ IsRule siblings v := by
  cases h with
  | @object ms distinct below =>
    have fields : ((ChoiceRule.topShape siblings).fields.map Field.name).Nodup := by
      have names : (ChoiceRule.topShape siblings).fields.map Field.name =
          ChoiceRule.commonFields.map Field.name ++ ["Next"] := List.map_append
      rw [names]
      decide
    have members : (∀ m ∈ ms, ∃ f ∈ (ChoiceRule.topShape siblings).fields, f.Admits m.1 m.2) ↔
        ∀ m ∈ ms, RuleMember m.1 m.2 ∨ m.1 = "Next" ∧ IsOneOf siblings m.2 := by
      refine forall₂_congr fun m hm => ?_
      simp only [ChoiceRule.topShape, List.mem_append, or_and_right, exists_or,
        ruleMember_iff (below m hm) fun w _ hn => meets_nestedRule_iff w hn]
      simp [eq_comm]
    have required : (∀ f ∈ (ChoiceRule.topShape siblings).fields, f.IsRequired →
        f.name ∈ names ms) ↔ "Next" ∈ names ms := by
      simp only [ChoiceRule.topShape, List.forall_mem_append, List.forall_mem_singleton]
      refine ⟨fun h => h.2 trivial, fun next => ⟨fun f hf required => ?_, fun _ => next⟩⟩
      exact absurd required (not_isRequired_commonFields f hf)
    rw [meets_object_iff distinct rfl fields, members, required]
    constructor
    · exact fun ⟨each, next, peers⟩ => .rule each next ((peerRules_hold_iff _).1 peers)
    · intro rule
      cases rule with
      | rule each next test => exact ⟨each, next, (peerRules_hold_iff _).2 test⟩
  | _ => exact meets_iff_of_not_object rfl (by nofun) (by nofun)

end Json

end FlowLint
