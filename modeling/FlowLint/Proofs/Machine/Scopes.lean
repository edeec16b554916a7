import FlowLint.Proofs.Conformance.Differences
import FlowLint.Proofs.Machine.Fields

/-!
Scopes: a document and the branches in it, at any depth. Each is a machine of its own, with names of
its own. What is reported of a state or a branch is what its own check says, wherever it stands; and
of all that a state or a branch holds nothing shows in the rest of the report.
-/

namespace FlowLint

/-! ### One step down -/

namespace Json

variable {v w : Json}

theorem exists_object_of_child? {name : String} (h : v.child? (.key name) = some w) :
    ∃ ms, v = .object ms ∧ ms.lookup name = some w := by
  cases v with
  | object ms => exact ⟨ms, rfl, h⟩
  | _ => cases h

theorem exists_array_of_child? {i : Nat} (h : v.child? (.index i) = some w) :
    ∃ items, v = .array items ∧ items[i]? = some w := by
  cases v with
  | array items => exact ⟨items, rfl, h⟩
  | _ => cases h

theorem exists_of_at?_pair {a b : Segment} (h : v.at? [a, b] = some w) :
    ∃ u, v.child? a = some u ∧ u.child? b = some w := by
  obtain ⟨u, hu, h⟩ := Option.bind_eq_some_iff.1 h
  obtain ⟨x, hx, h⟩ := Option.bind_eq_some_iff.1 h
  cases h
  exact ⟨u, hu, hx⟩

end Json

namespace Machine

open Constraint Workflow

/-- The path leads from a machine to one in it: to itself, or through a branch of a state that may
    have some. -/
inductive Scope : Json → Path → Json → Prop
  | self (machine : Json) : Scope machine [] machine
  | branch {machine state branch scope : Json} {name : String} {i : Nat} {p : Path}
      (named : machine.at? [.key "States", .key name] = some state)
      (splits : State.MayBe [.parallel] state)
      (listed : state.at? [.key "Branches", .index i] = some branch)
      (within : Scope branch p scope) :
      Scope machine (.key "States" :: .key name :: .key "Branches" :: .index i :: p) scope

/-- Where a state of the machine at `p` is. -/
theorem state_place (p : Path) (name : String) (q : Path) :
    p ++ .key "States" :: .key name :: q = (p.member "States").member name ++ q := by
  simp [Path.member, Path.push]

/-- Where a branch of the state is. -/
theorem branch_place (p : Path) (name : String) (i : Nat) (q : Path) :
    p ++ .key "States" :: .key name :: .key "Branches" :: .index i :: q =
      (((p.member "States").member name).member "Branches").item i ++ q := by
  simp [Path.member, Path.item, Path.push]

theorem state_prefix_branch (p : Path) (name : String) (i : Nat) :
    (p.member "States").member name <+:
      (((p.member "States").member name).member "Branches").item i :=
  (Path.prefix_member ..).trans (Path.prefix_item ..)

/-! ### Shapes of machines -/

/-- What a machine is checked against where it is the whole document or a branch. -/
def shape (whole : Bool) (machine : Json) : Shape Constraint :=
  if whole then documentShape machine else branchShape machine

/-- The members of a machine but for its states. -/
def ownFields (whole : Bool) (names : List String) : List (Field Constraint) :=
  [.required "StartAt" (oneOf names), .optional "Comment" anyText]
  ++ if whole then [.optional "Version" anyText, .optional "TimeoutSeconds" (count 1)] else []

variable {ms ss : List (String × Json)}

/-- The states of a machine have a field of their own, which is the last one; all others know only
    the names of the states. -/
theorem shape_eq (whole : Bool) (lists : ms.lookup "States" = some (.object ss)) :
    shape whole (.object ms) = ⟨ownFields whole (names ss) ++
      [.required "States" (.record ⟨stateFields ss (names ss), []⟩)], []⟩ := by
  cases whole with
  | false =>
    have branch : shape false (.object ms) = branchShape (.object ms) := rfl
    rw [branch, branchShape, stateNames_eq lists, statesIn_eq _ lists]
    rfl
  | true =>
    have document : shape true (.object ms) = documentShape (.object ms) := rfl
    simp only [document, documentShape, stateNames_eq lists, statesIn_eq _ lists]
    rfl

theorem nodup_fields (whole : Bool) (names : List String) (r : Constraint) :
    ((ownFields whole names ++ [Field.required "States" r]).map Field.name).Nodup := by
  cases whole with
  | false => exact (by decide : ["StartAt", "Comment", "States"].Nodup)
  | true =>
    exact (by decide : ["StartAt", "Comment", "Version", "TimeoutSeconds", "States"].Nodup)

theorem asks_states (whole : Bool) (lists : ms.lookup "States" = some (.object ss)) :
    (shape whole (.object ms)).Asks "States" (.record ⟨stateFields ss (names ss), []⟩) := by
  rw [shape_eq whole lists]
  exact Shape.asks_of_mem (nodup_fields ..)
    (List.mem_append_right _ (List.mem_singleton_self _)) rfl

theorem asks_start (whole : Bool) (lists : ms.lookup "States" = some (.object ss)) :
    (shape whole (.object ms)).Asks "StartAt" (oneOf (names ss)) := by
  rw [shape_eq whole lists]
  exact Shape.asks_of_mem (f := .required "StartAt" (oneOf (names ss))) (nodup_fields ..)
    (List.mem_append_left _ List.mem_cons_self) rfl

theorem names_stateFields (siblings : List String) :
    (stateFields ss siblings).map Field.name = names ss := by
  rw [stateFields_eq_map, List.map_map]
  rfl

/-- Each state is asked for under its name, by the shape made for it. -/
theorem asks_state (distinct : (names ss).Nodup) {name : String} {state : Json}
    (named : ss.lookup name = some state) (siblings : List String) :
    (Shape.mk (stateFields ss siblings) []).Asks name (.record (stateShape state siblings)) := by
  have field : .required name (.record (stateShape state siblings)) ∈ stateFields ss siblings := by
    rw [stateFields_eq_map]
    exact List.mem_map_of_mem (mem_of_lookup named)
  exact Shape.asks_of_mem (names_stateFields siblings ▸ distinct) field rfl

theorem stateShape_eq {items : List Json} (lists : ms.lookup "Branches" = some (.array items))
    (siblings : List String) : stateShape (.object ms) siblings =
      State.shapeWith (.object ms) siblings (items.map fun b => .record (branchShape b)) := by
  rw [stateShape, branchesIn_eq lists, branchesOf, branchList_eq_map]

/-! ### What is said of a state or a branch -/

section

variable {machine state branch scope : Json} {name : String} {i : Nat} {p q : Path}

theorem exists_states (named : machine.at? [.key "States", .key name] = some state) :
    ∃ ms ss, machine = .object ms ∧ ms.lookup "States" = some (.object ss) ∧
      ss.lookup name = some state := by
  obtain ⟨u, hu, hs⟩ := Json.exists_of_at?_pair named
  obtain ⟨ms, rfl, lists⟩ := Json.exists_object_of_child? hu
  obtain ⟨ss, rfl, hs⟩ := Json.exists_object_of_child? hs
  exact ⟨ms, ss, rfl, lists, hs⟩

/-- The names of states are those under which there is a state. -/
theorem mem_stateNames_iff :
    name ∈ stateNames machine ↔ ∃ state, machine.at? [.key "States", .key name] = some state := by
  constructor
  · intro h
    cases machine with
    | object ms =>
      cases hs : ms.lookup "States" with
      | none => simp [stateNames, Json.get?, Json.members?, hs] at h
      | some v =>
        cases v with
        | object ss =>
          rw [stateNames_eq hs] at h
          obtain ⟨state, named⟩ := exists_lookup_iff.2 h
          exact ⟨state, by simp [Json.at?_cons, Json.child?, hs, named]⟩
        | _ => simp [stateNames, Json.get?, Json.members?, hs] at h
    | _ => cases h
  · rintro ⟨state, named⟩
    obtain ⟨ms, ss, rfl, lists, hs⟩ := exists_states named
    rw [stateNames_eq lists]
    exact exists_lookup_iff.1 ⟨state, hs⟩

theorem exists_branches (listed : state.at? [.key "Branches", .index i] = some branch) :
    ∃ ms items, state = .object ms ∧ ms.lookup "Branches" = some (.array items) ∧
      items[i]? = some branch := by
  obtain ⟨u, hu, hb⟩ := Json.exists_of_at?_pair listed
  obtain ⟨ms, rfl, lists⟩ := Json.exists_object_of_child? hu
  obtain ⟨items, rfl, hb⟩ := Json.exists_array_of_child? hb
  exact ⟨ms, items, rfl, lists, hb⟩

theorem nodup_states (h : (Json.object ms).NoRepeats)
    (lists : ms.lookup "States" = some (.object ss)) : (names ss).Nodup := by
  have states : (Json.object ms).child? (.key "States") = some (.object ss) := lists
  cases h.child states with
  | object distinct => exact distinct

/-- Below a state the report of the machine is that of the state. -/
theorem below_state [Formats] (whole : Bool) (h : machine.NoRepeats)
    (named : machine.at? [.key "States", .key name] = some state)
    (hq : (p.member "States").member name <+: q) :
    below q (violations machine (.record (shape whole machine)) p) =
      below q (violations state (.record (stateShape state (stateNames machine)))
        ((p.member "States").member name)) := by
  obtain ⟨ms, ss, rfl, lists, hs⟩ := exists_states named
  have hq' := (Path.prefix_push _ _).trans hq
  rw [below_object rfl (asks_states whole lists) lists hq',
    below_object rfl (asks_state (nodup_states h lists) hs _) hs hq, stateNames_eq lists]

/-- Below a branch the report of the state is that of the branch. -/
theorem below_branch [Formats] (splits : State.MayBe [.parallel] state)
    (listed : state.at? [.key "Branches", .index i] = some branch)
    (hq : (p.member "Branches").item i <+: q) (siblings : List String) :
    below q (violations state (.record (stateShape state siblings)) p) =
      below q (violations branch (.record (branchShape branch))
        ((p.member "Branches").item i)) := by
  obtain ⟨ms, items, rfl, lists, hb⟩ := exists_branches listed
  have asks := State.asks_branches siblings (items.map fun b => .record (branchShape b)) splits
  rw [← stateShape_eq lists] at asks
  have hq' := (Path.prefix_push _ _).trans hq
  rw [below_object rfl asks lists hq', below_positions hb (by rw [List.getElem?_map, hb]; rfl) hq]

theorem noRepeats_scope (scopes : Scope machine p scope) (h : machine.NoRepeats) :
    scope.NoRepeats := by
  induction scopes with
  | self => exact h
  | branch named _ listed _ ih => exact ih ((h.at? named).at? listed)

variable [Formats]

/-- Below a machine in another the whole report has just what a check of that machine alone
    has. -/
theorem below_scope (scopes : Scope machine p scope) (h : machine.NoRepeats) (whole : Bool) :
    ∃ whole', ∀ r q : Path, r ++ p <+: q →
      below q (violations machine (.record (shape whole machine)) r) =
        below q (violations scope (.record (shape whole' scope)) (r ++ p)) := by
  induction scopes generalizing whole with
  | self machine => exact ⟨whole, fun r q _ => by rw [List.append_nil]⟩
  | @branch machine state branch scope name i p named splits listed within ih =>
    obtain ⟨whole', eq⟩ := ih ((h.at? named).at? listed) false
    refine ⟨whole', fun r q hq => ?_⟩
    rw [branch_place] at hq ⊢
    have hb := (List.prefix_append _ p).trans hq
    have hs := (state_prefix_branch r name i).trans hb
    rw [below_state whole h named hs, below_branch splits listed hb]
    exact eq _ q hq

/-! ### What differs within a state or a branch -/

variable {other : Json} {r : Path}

/-- If a machine is changed within one state, the rest of the report changes only where that of the
    state does. -/
theorem outside_state (h : machine.NoRepeats)
    (named : machine.at? [.key "States", .key name] = some state)
    (differ : DifferAt (.key "States" :: .key name :: r) machine other) :
    ∃ state', DifferAt r state state' ∧ ∀ whole p q,
      (outside q (violations state (.record (stateShape state (stateNames machine)))
          ((p.member "States").member name)) =
        outside q (violations state' (.record (stateShape state' (stateNames machine)))
          ((p.member "States").member name))) →
      outside q (violations machine (.record (shape whole machine)) p) =
        outside q (violations other (.record (shape whole other)) p) := by
  obtain ⟨ms, ss, rfl, lists, hs⟩ := exists_states named
  have distinct := nodup_states h lists
  cases h with
  | object distinct' =>
    obtain ⟨_, _, _, -, rfl, inStates, members⟩ := differ.exists_member distinct' lists
    obtain ⟨before, after, state', split, rfl, inState, states⟩ :=
      inStates.exists_member distinct hs
    refine ⟨state', inState, fun whole p q own => ?_⟩
    have same : names (before ++ (name, state') :: after) = names ss := states.names.symm
    rw [stateNames_eq lists] at own
    rw [shape_eq whole lists, shape_eq whole members.right, same]
    refine outside_object members rfl rfl (nodup_fields ..) rfl rfl [] ?_
    -- The states are fields of their own, alike but for the one.
    have fields : (stateFields ss (names ss)).map Field.name = names ss := names_stateFields _
    rw [← fields] at distinct
    generalize names ss = siblings at own distinct
    rw [stateFields_eq_map, split, List.map_append, List.map_cons] at distinct
    rw [stateFields_eq_map, stateFields_eq_map, split]
    simp only [List.map_append, List.map_cons]
    exact outside_object (f := .required name (.record (stateShape state siblings)))
      (g := .required name (.record (stateShape state' siblings))) (split ▸ states) rfl rfl
      distinct rfl rfl [] own

/-- If a state is changed within one branch, the rest of the report changes only where that of the
    branch does. -/
theorem outside_branch (h : state.NoRepeats) (splits : State.MayBe [.parallel] state)
    (listed : state.at? [.key "Branches", .index i] = some branch)
    (differ : DifferAt (.key "Branches" :: .index i :: r) state other) :
    ∃ branch', DifferAt r branch branch' ∧ ∀ siblings p q,
      (outside q (violations branch (.record (branchShape branch))
          ((p.member "Branches").item i)) =
        outside q (violations branch' (.record (branchShape branch'))
          ((p.member "Branches").item i))) →
      outside q (violations state (.record (stateShape state siblings)) p) =
        outside q (violations other (.record (stateShape other siblings)) p) := by
  obtain ⟨ms, items, rfl, lists, hb⟩ := exists_branches listed
  cases h with
  | object distinct =>
    obtain ⟨_, _, _, -, rfl, inBranches, members⟩ := differ.exists_member distinct lists
    obtain ⟨before, after, branch', rfl, split, rfl, inBranch⟩ := inBranches.exists_item hb
    refine ⟨branch', inBranch, fun siblings p q own => ?_⟩
    -- Neither the type nor the end of the state is what is changed.
    have shapes := State.shapeWith_congr siblings
      ((before ++ branch' :: after).map fun b => .record (branchShape b))
      (members.get?_eq (by decide : "Type" ≠ _)) (members.get?_eq (by decide : "End" ≠ _))
    obtain ⟨front, f, field, shape⟩ := State.exists_shapeWith_eq siblings splits
    have distinct := State.nodup_shapeWith siblings
      (items.map fun b => .record (branchShape b)) (.object ms)
    rw [stateShape_eq lists, stateShape_eq members.right, ← shapes]
    rw [shape] at distinct ⊢
    rw [shape]
    refine outside_object members (field _).1 (field _).1 distinct (field _).2 (field _).2 [] ?_
    rw [split]
    exact outside_positions (fun b => .record (branchShape b)) before after 1 own

/-- If a document is changed within one machine, the rest of the report changes only where that of
    the machine does. -/
theorem outside_scope (scopes : Scope machine p scope) (h : machine.NoRepeats) (whole : Bool)
    (differ : DifferAt (p ++ r) machine other) :
    ∃ scope' whole', DifferAt r scope scope' ∧ ∀ s q : Path,
      (outside q (violations scope (.record (shape whole' scope)) (s ++ p)) =
        outside q (violations scope' (.record (shape whole' scope')) (s ++ p))) →
      outside q (violations machine (.record (shape whole machine)) s) =
        outside q (violations other (.record (shape whole other)) s) := by
  induction scopes generalizing whole other with
  | self machine =>
    refine ⟨other, whole, differ, fun s q own => ?_⟩
    rwa [List.append_nil] at own
  | @branch machine state branch scope name i p named splits listed within ih =>
    have hs := h.at? named
    obtain ⟨state', inState, ofState⟩ := outside_state h named differ
    obtain ⟨branch', inBranch, ofBranch⟩ := outside_branch hs splits listed inState
    obtain ⟨scope', whole', inScope, ofScope⟩ := ih (hs.at? listed) false inBranch
    refine ⟨scope', whole', inScope, fun s q own => ?_⟩
    rw [branch_place] at own
    exact ofState whole s q (ofBranch _ _ q (ofScope _ q own))

end

end Machine

end FlowLint
