import FlowLint.Format.Standard
import FlowLint.Proofs.Machine.Scopes

/-!
References to states. Wherever a machine names one of its states, the name is looked for among the
states of that machine alone; if it is not there, that and nothing else is said at that place.
-/

namespace FlowLint.Machine

open Constraint Workflow

/-- The places of a machine at which a state of it is named, and the value there. -/
inductive Site (machine : Json) : Path → Json → Prop
  | start {w : Json} (h : machine.at? [.key "StartAt"] = some w) : Site machine [.key "StartAt"] w
  | next {name : String} {state w : Json}
      (named : machine.at? [.key "States", .key name] = some state) (goes : State.MayGoOn state)
      (h : state.at? [.key "Next"] = some w) :
      Site machine [.key "States", .key name, .key "Next"] w
  | otherwise {name : String} {state w : Json}
      (named : machine.at? [.key "States", .key name] = some state)
      (chooses : State.MayBe [.choice] state) (h : state.at? [.key "Default"] = some w) :
      Site machine [.key "States", .key name, .key "Default"] w
  | choice {name : String} {state w : Json} {i : Nat}
      (named : machine.at? [.key "States", .key name] = some state)
      (chooses : State.MayBe [.choice] state)
      (h : state.at? [.key "Choices", .index i, .key "Next"] = some w) :
      Site machine [.key "States", .key name, .key "Choices", .index i, .key "Next"] w
  | catcher {name : String} {state w : Json} {i : Nat}
      (named : machine.at? [.key "States", .key name] = some state)
      (catches : State.MayBe fallible state)
      (h : state.at? [.key "Catch", .index i, .key "Next"] = some w) :
      Site machine [.key "States", .key name, .key "Catch", .index i, .key "Next"] w

/-! ### Members and entries of a state -/

variable {state w : Json} {p q : Path}

theorem exists_member {key : String} (h : state.at? [.key key] = some w) :
    ∃ ms, state = .object ms ∧ ms.lookup key = some w := by
  obtain ⟨u, hu, h⟩ := Option.bind_eq_some_iff.1 h
  cases h
  exact Json.exists_object_of_child? hu

theorem exists_entry {key : String} {i : Nat}
    (h : state.at? [.key key, .index i, .key "Next"] = some w) :
    ∃ ms items entry, state = .object ms ∧ ms.lookup key = some (.array items) ∧
      items[i]? = some (.object entry) ∧ entry.lookup "Next" = some w := by
  obtain ⟨u, hu, h⟩ := Option.bind_eq_some_iff.1 h
  obtain ⟨x, hx, hw⟩ := Json.exists_of_at?_pair h
  obtain ⟨ms, rfl, hu⟩ := Json.exists_object_of_child? hu
  obtain ⟨items, rfl, hx⟩ := Json.exists_array_of_child? hx
  obtain ⟨entry, rfl, hw⟩ := Json.exists_object_of_child? hw
  exact ⟨ms, items, entry, rfl, hu, hx, hw⟩

/-- The shape of a state is one made with some branches. -/
theorem exists_stateShape_eq (state : Json) (siblings : List String) :
    ∃ branches, stateShape state siblings = State.shapeWith state siblings branches := by
  cases state with
  | object ms => exact ⟨branchesIn ms, by simp only [stateShape]⟩
  | _ => exact ⟨[], by simp only [stateShape]⟩

/-- What is said of a member of a state, if the shape of the state asks something of it. -/
theorem below_member [Formats] {key : String} {r : Constraint} (siblings : List String)
    (asks : ∀ branches, (State.shapeWith state siblings branches).Asks key r)
    (h : state.at? [.key key] = some w) (hq : p.member key <+: q) :
    below q (violations state (.record (stateShape state siblings)) p) =
      below q (violations w r (p.member key)) := by
  obtain ⟨ms, rfl, hw⟩ := exists_member h
  obtain ⟨branches, shape⟩ := exists_stateShape_eq (.object ms) siblings
  exact below_object rfl (shape ▸ asks branches) hw hq

/-- What is said of where an entry of a list in a state leads to. -/
theorem below_entry [Formats] {key : String} {s : Shape Constraint} {r : Constraint}
    {i atLeast : Nat} (siblings : List String)
    (asks : ∀ branches,
      (State.shapeWith state siblings branches).Asks key (.list (some (.record s)) atLeast))
    (next : s.Asks "Next" r) (h : state.at? [.key key, .index i, .key "Next"] = some w)
    (hq : ((p.member key).item i).member "Next" <+: q) :
    below q (violations state (.record (stateShape state siblings)) p) =
      below q (violations w r (((p.member key).item i).member "Next")) := by
  obtain ⟨ms, items, entry, rfl, lists, hi, hw⟩ := exists_entry h
  have hi' := (Path.prefix_push _ _).trans hq
  have hk := (Path.prefix_push _ _).trans hi'
  have listed : (Json.object ms).at? [.key key] = some (.array items) := by
    simp [Json.at?, Json.child?, lists]
  rw [below_member siblings asks listed hk, below_list hi hi', below_object rfl next hw hq]

/-! ### References -/

theorem member_place (p : Path) (name key : String) :
    p ++ [.key "States", .key name, .key key] =
      ((p.member "States").member name).member key :=
  state_place p name [.key key]

theorem entry_place (p : Path) (name key : String) (i : Nat) :
    p ++ [.key "States", .key name, .key key, .index i, .key "Next"] =
      ((((p.member "States").member name).member key).item i).member "Next" := by
  simp [Path.member, Path.item, Path.push]

theorem state_prefix_entry (p : Path) (name key : String) (i : Nat) :
    (p.member "States").member name <+:
      ((((p.member "States").member name).member key).item i).member "Next" :=
  ((Path.prefix_member ..).trans (Path.prefix_item ..)).trans (Path.prefix_member ..)

section

variable [Formats]

/-- Of a name of a state nothing is asked but that it be one. -/
theorem violations_oneOf (names : List String) (w : Json) (q : Path) :
    (IsOneOf names w → violations w (oneOf names) q = []) ∧
      (¬ IsOneOf names w → violations w (oneOf names) q = [⟨q, .notOneOf names⟩]) := by
  have plain : violations w (oneOf names) q = ((oneOf names).violatedBy w).map (⟨q, ·⟩) :=
    Json.violations_plain rfl q
  rw [plain]
  cases w with
  | string s =>
    by_cases h : s ∈ names
    · simp [oneOf, Constraint.violatedBy, IsOneOf, h]
    · simp [oneOf, Constraint.violatedBy, IsOneOf, h]
  | _ => simp [oneOf, Constraint.violatedBy, IsOneOf]

/-- All that a machine has to say of a place that names a state is said by a check of the name. -/
theorem below_site {machine : Json} {ss : List (String × Json)} (whole : Bool)
    (h : machine.NoRepeats) (lists : machine.at? [.key "States"] = some (.object ss))
    (site : Site machine q w) :
    below (p ++ q) (violations machine (.record (shape whole machine)) p) =
      below (p ++ q) (violations w (oneOf (names ss)) (p ++ q)) := by
  obtain ⟨ms, rfl, states⟩ := exists_member lists
  have inState {name : String} {state : Json} {q : Path}
      (named : (Json.object ms).at? [.key "States", .key name] = some state)
      (hq : (p.member "States").member name <+: q) :
      below q (violations (.object ms) (.record (shape whole (.object ms))) p) =
        below q (violations state (.record (stateShape state (names ss)))
          ((p.member "States").member name)) := by
    rw [below_state whole h named hq, stateNames_eq states]
  cases site with
  | start hw =>
    obtain ⟨_, e, hw⟩ := exists_member hw
    cases e
    exact below_object rfl (asks_start whole states) hw List.prefix_rfl
  | next named goes hw =>
    rw [member_place, inState named (Path.prefix_member ..)]
    exact below_member _ (State.asks_next _ · goes) hw List.prefix_rfl
  | otherwise named chooses hw =>
    rw [member_place, inState named (Path.prefix_member ..)]
    exact below_member _ (State.asks_default _ · chooses) hw List.prefix_rfl
  | choice named chooses hw =>
    rw [entry_place, inState named (state_prefix_entry ..)]
    exact below_entry _ (State.asks_choices _ · chooses) (ChoiceRule.asks_next _) hw
      List.prefix_rfl
  | catcher named catches hw =>
    rw [entry_place, inState named (state_prefix_entry ..)]
    exact below_entry _ (State.asks_catch _ · catches) (ErrorHandling.asks_next _) hw
      List.prefix_rfl

variable {document machine : Json} {ss : List (String × Json)}

/-- At each place of each machine in a document that names a state, and below it, just one thing is
    reported if the value is not the name of a state of that machine, and nothing if it is. -/
theorem references_exact (h : document.NoRepeats) (scope : Scope document p machine)
    (lists : machine.at? [.key "States"] = some (.object ss)) (site : Site machine q w) :
    (IsOneOf (names ss) w → below (p ++ q) (documentViolations document) = []) ∧
      (¬ IsOneOf (names ss) w →
        below (p ++ q) (documentViolations document) = [⟨p ++ q, .notOneOf (names ss)⟩]) := by
  obtain ⟨whole, eq⟩ := below_scope scope h true
  have report := (eq [] (p ++ q) (List.prefix_append p q)).trans
    (below_site whole (noRepeats_scope scope h) lists site)
  rw [below_eq_self (prefix_of_mem_violations _ _ _)] at report
  obtain ⟨known, unknown⟩ := violations_oneOf (names ss) w (p ++ q)
  exact ⟨fun one => report.trans (known one), fun none' => report.trans (unknown none')⟩

end

/-- A branch that goes on to a state it does not have. -/
def strayBranch : Json :=
  .object [("StartAt", .string "A"),
    ("States", .object [("A", .object [("Type", .string "Pass"), ("Next", .string "B")])])]

/-- The machine with that branch, which has the state. -/
def strayMachine : Json :=
  .object [("StartAt", .string "A"), ("States", .object
    [("A", .object [("Type", .string "Parallel"), ("Next", .string "B"),
      ("Branches", .array [strayBranch])]),
     ("B", .object [("Type", .string "Succeed")])])]

theorem references_exact_strayBranch :
    strayMachine.NoRepeats ∧
      Scope strayMachine [.key "States", .key "A", .key "Branches", .index 0] strayBranch ∧
        Site strayBranch [.key "States", .key "A", .key "Next"] (.string "B") ∧
          below [.key "States", .key "A", .key "Branches", .index 0,
              .key "States", .key "A", .key "Next"] (documentViolations strayMachine) =
            [⟨[.key "States", .key "A", .key "Branches", .index 0,
              .key "States", .key "A", .key "Next"], .notOneOf ["A"]⟩] := by
  have settled : strayMachine.settled = strayMachine := rfl
  have distinct : strayMachine.NoRepeats := settled ▸ Json.noRepeats_settled strayMachine
  have scope : Scope strayMachine
      [.key "States", .key "A", .key "Branches", .index 0] strayBranch := by
    refine .branch rfl (fun kind hk => ?_) rfl (.self strayBranch)
    cases hk
    exact List.mem_singleton_self _
  have site : Site strayBranch [.key "States", .key "A", .key "Next"] (.string "B") := by
    refine .next rfl (fun kind hk => ?_) rfl
    cases hk
    exact ⟨by decide, .inl rfl⟩
  have stray : ¬ IsOneOf ["A"] (.string "B") := by simp [IsOneOf]
  exact ⟨distinct, scope, site, (references_exact distinct scope rfl site).2 stray⟩

end FlowLint.Machine
