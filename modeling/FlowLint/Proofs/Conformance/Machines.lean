import FlowLint.Format.Standard
import FlowLint.Proofs.Conformance.States

/-!
Documents. A machine is checked against a shape made from itself: the names of its states are what
its states may refer to, and its branches are machines again. The proof goes down with them, and
what it comes to is that exactly the documents of the language pass.
-/

namespace FlowLint

open Workflow

namespace Machine

variable {ms ss : List (String × Json)}

/-! ### The states and branches of a value -/

theorem stateNames_eq (lists : ms.lookup "States" = some (.object ss)) :
    stateNames (.object ms) = names ss := by
  have found : (Json.object ms).get? "States" = some (.object ss) := lists
  rw [stateNames, found]
  rfl

theorem stateFields_eq_map (siblings : List String) : ∀ ss : List (String × Json),
    stateFields ss siblings = ss.map fun s => .required s.1 (.record (stateShape s.2 siblings))
  | []           => by rw [stateFields, List.map_nil]
  | (k, v) :: ss => by rw [stateFields, stateFields_eq_map siblings ss, List.map_cons]

theorem statesIn_eq_getD (siblings : List String) (ms : List (String × Json)) :
    statesIn ms siblings = ((ms.lookup "States").map (statesOf · siblings)).getD [] := by
  induction ms with
  | nil => rfl
  | cons m ms ih =>
    obtain ⟨k, v⟩ := m
    rw [statesIn, lookup_cons_ite, ih]
    split <;> rfl

theorem statesIn_eq (siblings : List String) (lists : ms.lookup "States" = some (.object ss)) :
    statesIn ms siblings = stateFields ss siblings := by
  rw [statesIn_eq_getD, lists, Option.map_some, Option.getD_some, statesOf]

theorem branchList_eq_map : ∀ items : List Json,
    branchList items = items.map fun b => .record (branchShape b)
  | []         => by rw [branchList, List.map_nil]
  | v :: items => by rw [branchList, branchList_eq_map items, List.map_cons]

theorem branchesIn_eq_getD (ms : List (String × Json)) :
    branchesIn ms = ((ms.lookup "Branches").map branchesOf).getD [] := by
  induction ms with
  | nil => rfl
  | cons m ms ih =>
    obtain ⟨k, v⟩ := m
    rw [branchesIn, lookup_cons_ite, ih]
    split <;> rfl

theorem branchesIn_eq {v : Json} (lists : ms.lookup "Branches" = some v) :
    branchesIn ms = branchesOf v := by
  rw [branchesIn_eq_getD, lists, Option.map_some, Option.getD_some]

/-! ### States together -/

section

variable [Formats]

/-- What holds the states passes if each of them does. -/
theorem meets_states_iff (distinct : (names ss).Nodup) (siblings : List String) :
    (Json.object ss).Meets (.record ⟨stateFields ss siblings, []⟩) ↔
      ∀ s ∈ ss, s.2.Meets (.record (stateShape s.2 siblings)) := by
  have fields : (stateFields ss siblings).map Field.name = names ss := by
    rw [stateFields_eq_map, List.map_map]
    rfl
  rw [Json.meets_object_iff distinct rfl (fields ▸ distinct)]
  constructor
  · rintro ⟨each, -⟩ s hs
    obtain ⟨f, hf, admits⟩ := each s hs
    rw [stateFields_eq_map] at hf
    obtain ⟨t, ht, rfl⟩ := List.mem_map.1 hf
    obtain rfl := List.inj_on_of_nodup_map distinct ht hs admits.1
    exact admits.2
  · intro each
    refine ⟨fun s hs => ?_, fun f hf _ => ?_, nofun⟩
    · rw [stateFields_eq_map]
      exact ⟨_, List.mem_map_of_mem hs, rfl, each s hs⟩
    · rw [← fields]
      exact List.mem_map_of_mem hf

/-! ### Branches -/

variable {states : List (Field Constraint)}

theorem admits_branchFields_iff {k : String} {v : Json} (same : k = "States" → v = .object ss)
    (below : (Json.object ss).Meets (.record ⟨states, []⟩) ↔
      ∀ s ∈ ss, IsState (names ss) s.2) :
    (∃ f ∈ branchFields (names ss) states, f.Admits k v) ↔ BranchMember ss k v := by
  simp only [branchFields, List.mem_cons, List.not_mem_nil, or_false, exists_eq_or_imp,
    exists_eq_left, Field.admits_required, Field.admits_optional, Json.meets_oneOf_iff,
    Json.meets_anyText_iff]
  constructor
  · rintro (⟨rfl, h⟩ | ⟨rfl, h⟩ | ⟨rfl, h⟩)
    · exact .start h
    · exact .comment h
    · rw [same rfl] at h ⊢
      exact .states (below.1 h)
  · intro member
    cases member with
    | start h => exact .inl ⟨rfl, h⟩
    | comment h => exact .inr (.inl ⟨rfl, h⟩)
    | states each => exact .inr (.inr ⟨rfl, below.2 each⟩)

/-- A document has the members of a branch and two more. -/
theorem admits_documentFields_iff {k : String} {v : Json} (same : k = "States" → v = .object ss)
    (below : (Json.object ss).Meets (.record ⟨states, []⟩) ↔
      ∀ s ∈ ss, IsState (names ss) s.2) :
    (∃ f ∈ documentFields (names ss) states, f.Admits k v) ↔ DocumentMember ss k v := by
  have fields : (∃ f ∈ documentFields (names ss) states, f.Admits k v) ↔
      (∃ f ∈ branchFields (names ss) states, f.Admits k v) ∨
        "Version" = k ∧ IsText v ∨ "TimeoutSeconds" = k ∧ IsCount 1 v := by
    simp only [documentFields, branchFields, List.mem_cons, List.not_mem_nil, or_false,
      exists_eq_or_imp, exists_eq_left, Field.admits_required, Field.admits_optional,
      Json.meets_anyText_iff, Json.meets_count_iff (by decide : (1 : ℤ).natAbs < 2 ^ 53)]
    grind only
  rw [fields, admits_branchFields_iff same below]
  constructor
  · rintro (h | ⟨rfl, h⟩ | ⟨rfl, h⟩)
    · exact .branch h
    · exact .version h
    · exact .timeout h
  · intro member
    cases member with
    | branch h => exact .inl h
    | version h => exact .inr (.inl ⟨rfl, h⟩)
    | timeout h => exact .inr (.inr ⟨rfl, h⟩)

/-- A machine that passes holds states. -/
theorem exists_states_of_meets {s : Shape Constraint} {below : Shape Constraint}
    (field : .required "States" (.record below) ∈ s.fields)
    (meets : (Json.object ms).Meets (.record s)) :
    ∃ ss, ms.lookup "States" = some (.object ss) := by
  obtain ⟨v, lists, object⟩ := Json.exists_lookup_of_required field meets
  obtain ⟨ss, rfl⟩ := Json.exists_object_of_meets object rfl
  exact ⟨ss, lists⟩

/-- What is asked of a branch or a document: its members are of the sort, and it says where to
    start. -/
theorem meets_machine_iff (distinct : (names ms).Nodup)
    (lists : ms.lookup "States" = some (.object ss)) {fields : List (Field Constraint)}
    (declared : (fields.map Field.name).Nodup) {Member : String → Json → Prop}
    (members : ∀ k v, (k = "States" → v = .object ss) →
      ((∃ f ∈ fields, f.Admits k v) ↔ Member k v))
    (required : ∀ P : String → Prop, (∀ f ∈ fields, f.IsRequired → P f.name) ↔
      P "StartAt" ∧ P "States") :
    (Json.object ms).Meets (.record ⟨fields, []⟩) ↔
      (∀ m ∈ ms, Member m.1 m.2) ∧ "StartAt" ∈ names ms := by
  have listed : "States" ∈ names ms := exists_lookup_iff.1 ⟨_, lists⟩
  have each : (∀ m ∈ ms, ∃ f ∈ fields, f.Admits m.1 m.2) ↔ ∀ m ∈ ms, Member m.1 m.2 := by
    refine forall₂_congr fun m hm => members m.1 m.2 fun e => ?_
    exact Option.some.inj ((lookup_of_mem distinct hm).symm.trans (e ▸ lists))
  have peers : ∀ r ∈ ([] : List PeerRule), r.Holds (names ms) := nofun
  rw [Json.meets_object_iff distinct rfl declared, each, required, and_iff_left listed,
    and_iff_left peers]

/-- A branch is of the language if its states are. -/
theorem meets_branch_iff (distinct : (names ms).Nodup)
    (lists : ms.lookup "States" = some (.object ss))
    (below : (Json.object ss).Meets (.record ⟨stateFields ss (names ss), []⟩) ↔
      ∀ s ∈ ss, IsState (names ss) s.2) :
    (Json.object ms).Meets (.record (branchShape (.object ms))) ↔ IsBranch (.object ms) := by
  have shape : branchShape (.object ms) =
      ⟨branchFields (names ss) (stateFields ss (names ss)), []⟩ := by
    simp only [branchShape, stateNames_eq lists, statesIn_eq _ lists]
  have declared : ((branchFields (names ss) (stateFields ss (names ss))).map Field.name).Nodup :=
    (by decide : ["StartAt", "Comment", "States"].Nodup)
  rw [shape, meets_machine_iff distinct lists declared
    (fun _ _ same => admits_branchFields_iff same below) fun P => by simp [branchFields]]
  constructor
  · exact fun h => .branch lists h.1 h.2
  · intro branch
    cases branch with
    | branch lists' each start =>
      cases lists.symm.trans lists'
      exact ⟨each, start⟩

/-- A document is of the language if its states are. -/
theorem meets_document_iff (distinct : (names ms).Nodup)
    (lists : ms.lookup "States" = some (.object ss))
    (below : (Json.object ss).Meets (.record ⟨stateFields ss (names ss), []⟩) ↔
      ∀ s ∈ ss, IsState (names ss) s.2) :
    (Json.object ms).Meets (.record (documentShape (.object ms))) ↔ IsDocument (.object ms) := by
  have shape : documentShape (.object ms) =
      ⟨documentFields (names ss) (stateFields ss (names ss)), []⟩ := by
    simp only [documentShape, stateNames_eq lists, statesIn_eq _ lists]
  have declared : ((documentFields (names ss) (stateFields ss (names ss))).map Field.name).Nodup :=
    (by decide : ["StartAt", "Comment", "Version", "TimeoutSeconds", "States"].Nodup)
  rw [shape, meets_machine_iff distinct lists declared
    (fun _ _ same => admits_documentFields_iff same below) fun P => by simp [documentFields]]
  constructor
  · exact fun h => .document lists h.1 h.2
  · intro document
    cases document with
    | document lists' each start =>
      cases lists.symm.trans lists'
      exact ⟨each, start⟩

end

/-! ### Down to the leaves -/

/-- The states are where the value is listed, so they stand below it. -/
theorem sizeOf_lt_of_mem_states (lists : ms.lookup "States" = some (.object ss))
    {s : String × Json} (hs : s ∈ ss) : sizeOf s.2 < sizeOf (Json.object ms) :=
  Nat.lt_trans (Json.sizeOf_member_lt hs) (Json.sizeOf_member_lt (mem_of_lookup lists))

theorem sizeOf_lt_of_mem_branches {items : List Json} (lists : ("Branches", .array items) ∈ ms)
    {b : Json} (hb : b ∈ items) : sizeOf b < sizeOf (Json.object ms) := by
  refine Nat.lt_trans ?_ (Json.sizeOf_member_lt lists)
  have := List.sizeOf_lt_of_mem hb
  rw [Json.array.sizeOf_spec]
  omega

/-- States hold branches and branches hold states, so a property of the ones is proved with a
    property of the others: of a state from its branches, and of a machine from its states. -/
theorem induction {S M : Json → Prop}
    (state : ∀ s, (∀ ms items, s = .object ms → ms.lookup "Branches" = some (.array items) →
      ∀ b ∈ items, M b) → S s)
    (machine : ∀ m, (∀ ms ss, m = .object ms → ms.lookup "States" = some (.object ss) →
      ∀ s ∈ ss, S s.2) → M m) (v : Json) : S v ∧ M v := by
  constructor
  · refine state v fun ms items object lists b hb => ?_
    have smaller : sizeOf b < sizeOf v :=
      object ▸ sizeOf_lt_of_mem_branches (mem_of_lookup lists) hb
    exact (induction state machine b).2
  · refine machine v fun ms ss object lists s hs => ?_
    have smaller : sizeOf s.2 < sizeOf v := object ▸ sizeOf_lt_of_mem_states lists hs
    exact (induction state machine s.2).1
termination_by sizeOf v
decreasing_by all_goals exact smaller

variable [Formats]

/-- What is listed as branches passes if it is an array of branches, and not an empty one. -/
theorem meets_branches_iff {v : Json}
    (below : ∀ items, v = .array items → ∀ b ∈ items,
      (b.Meets (.record (branchShape b)) ↔ IsBranch b)) :
    v.Meets (.positions (branchesOf v) 1) ↔
      ∃ items, v = .array items ∧ items ≠ [] ∧ ∀ b ∈ items, IsBranch b := by
  cases v with
  | array items =>
    rw [branchesOf, branchList_eq_map, Json.meets_positions_iff,
      forall₂_congr (below items rfl), Nat.one_le_iff_ne_zero, ne_eq, List.length_eq_zero_iff]
    simp
  | _ => exact ⟨nofun, nofun⟩

/-- A state is checked for what the language says of it, granted that its branches are. -/
theorem meets_stateShape_of_branches {state : Json} (h : state.NoRepeats)
    (branches : ∀ ms items, state = .object ms → ms.lookup "Branches" = some (.array items) →
      ∀ b ∈ items, b.NoRepeats → (b.Meets (.record (branchShape b)) ↔ IsBranch b))
    (siblings : List String) :
    state.Meets (.record (stateShape state siblings)) ↔ IsState siblings state := by
  cases h with
  | @object ms distinct values =>
    rw [stateShape]
    refine State.meets_shapeWith_iff siblings _ distinct values fun v hv => ?_
    have lists := lookup_of_mem distinct hv
    rw [branchesIn_eq lists]
    refine meets_branches_iff fun items hitems b hb => ?_
    subst hitems
    cases values _ hv with
    | array each => exact branches ms items rfl lists b hb (each b hb)
  | _ => exact Json.meets_iff_of_not_object rfl (by nofun) (by nofun)

/-- A branch is checked for what the language says of it, granted that its states are. -/
theorem meets_branchShape_of_states {branch : Json} (h : branch.NoRepeats)
    (states : ∀ ms ss, branch = .object ms → ms.lookup "States" = some (.object ss) →
      ∀ s ∈ ss, s.2.NoRepeats → ∀ siblings,
        (s.2.Meets (.record (stateShape s.2 siblings)) ↔ IsState siblings s.2)) :
    branch.Meets (.record (branchShape branch)) ↔ IsBranch branch := by
  cases h with
  | @object ms distinct values =>
    have known {ss : List (String × Json)} (lists : ms.lookup "States" = some (.object ss)) :
        (Json.object ms).Meets (.record (branchShape (.object ms))) ↔ IsBranch (.object ms) := by
      cases values _ (mem_of_lookup lists) with
      | object distinct' each =>
        refine meets_branch_iff distinct lists ?_
        rw [meets_states_iff distinct']
        exact forall₂_congr fun s hs => states ms ss rfl lists s hs (each s hs) (names ss)
    constructor
    · intro meets
      rw [branchShape] at meets
      obtain ⟨ss, lists⟩ := exists_states_of_meets (List.mem_of_getLast? rfl) meets
      exact (known lists).1 meets
    · intro branch
      cases branch with
      | branch lists each start => exact (known lists).2 (.branch lists each start)
  | _ => exact Json.meets_iff_of_not_object rfl (by nofun) (by nofun)

/-- A state is checked for what the language says of it. -/
theorem meets_stateShape_iff (state : Json) (h : state.NoRepeats) (siblings : List String) :
    state.Meets (.record (stateShape state siblings)) ↔ IsState siblings state :=
  (induction
    (S := fun s => s.NoRepeats → ∀ siblings,
      (s.Meets (.record (stateShape s siblings)) ↔ IsState siblings s))
    (M := fun m => m.NoRepeats → (m.Meets (.record (branchShape m)) ↔ IsBranch m))
    (fun _ branches h => meets_stateShape_of_branches h branches)
    (fun _ states h => meets_branchShape_of_states h states) state).1 h siblings

end Machine

/-- A document in which no name repeats, as in all that are read, is found without fault exactly
    if it is one of the language. -/
theorem documentViolations_eq_nil_iff [Formats] {document : Json} (h : document.NoRepeats) :
    documentViolations document = [] ↔ IsDocument document := by
  rw [documentViolations, violations_eq_nil_iff]
  cases h with
  | @object ms distinct values =>
    have known {ss : List (String × Json)} (lists : ms.lookup "States" = some (.object ss)) :
        (Json.object ms).Meets (.record (Machine.documentShape (.object ms))) ↔
          IsDocument (.object ms) := by
      cases values _ (mem_of_lookup lists) with
      | object distinct' each =>
        refine Machine.meets_document_iff distinct lists ?_
        rw [Machine.meets_states_iff distinct']
        exact forall₂_congr fun s hs => Machine.meets_stateShape_iff s.2 (each s hs) (names ss)
    constructor
    · intro meets
      obtain ⟨ss, lists⟩ := Machine.exists_states_of_meets (List.mem_of_getLast? rfl) meets
      exact (known lists).1 meets
    · intro document
      cases document with
      | document lists each start => exact (known lists).2 (.document lists each start)
  | _ => exact Json.meets_iff_of_not_object rfl (by nofun) (by nofun)

/-- A parallel state whose branch has a state of the same name. -/
def nestedMachine : Json :=
  .object [("StartAt", .string "A"), ("States", .object
    [("A", .object [("Type", .string "Parallel"), ("Next", .string "B"), ("Branches", .array
      [.object [("StartAt", .string "A"),
        ("States", .object [("A", .object [("Type", .string "Succeed")])])]])]),
     ("B", .object [("Type", .string "Fail"), ("Cause", .string "over")])])]

theorem noRepeats_nestedMachine : nestedMachine.NoRepeats := by
  have settled : nestedMachine.settled = nestedMachine := rfl
  exact settled ▸ Json.noRepeats_settled nestedMachine

theorem isDocument_nestedMachine : nestedMachine.NoRepeats ∧ IsDocument nestedMachine := by
  have distinct := noRepeats_nestedMachine
  exact ⟨distinct, (documentViolations_eq_nil_iff distinct).1 (by decide +kernel)⟩

end FlowLint
