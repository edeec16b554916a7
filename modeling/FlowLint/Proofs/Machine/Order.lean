import FlowLint.Format.Standard
import FlowLint.Proofs.Conformance.Machines
import FlowLint.Proofs.Conformance.Order

/-!
The order of members does not change what is wrong with a document. A document is checked against a
shape made from itself, so an order of its members is an order of the names and fields of the shape
as well; the shapes are alike all the same, and so are the reports.
-/

namespace FlowLint

open Json

/-! ### Fields -/

namespace Field.Alike

variable {c c' : Constraint}

theorem optionalIf (condition : Bool) (name : String) (h : c.Alike c') :
    Field.Alike Constraint.Alike (.optionalIf condition name c)
      (.optionalIf condition name c') := by
  cases condition with
  | false => exact .forbidden name
  | true => exact .optional name h

theorem requiredIf (condition : Bool) (name : String) (h : c.Alike c') :
    Field.Alike Constraint.Alike (.requiredIf condition name c)
      (.requiredIf condition name c') := by
  cases condition with
  | false => exact .forbidden name
  | true => exact .required name h

end Field.Alike

variable {siblings siblings' : List String}

theorem ErrorHandling.catcherShape_alike (order : siblings.Perm siblings') :
    (catcherShape siblings).Alike (catcherShape siblings') := by
  refine ⟨.of_forall₂ ?_, rfl⟩
  exact .cons (.same _) <| .cons (.required "Next" (.oneOf order .plain)) <| .cons (.same _) .nil

theorem ChoiceRule.topShape_alike (order : siblings.Perm siblings') :
    (topShape siblings).Alike (topShape siblings') := by
  refine ⟨.append (.refl Field.Alike.same _) (.of_forall₂ ?_), rfl⟩
  exact .cons (.required "Next" (.oneOf order .plain)) .nil

namespace State

variable {branches branches' : List Constraint}

/-- The fields of a kind, one by one. Only those hang on the states around that name one of them,
    and only the last on the branches. -/
theorem kindFields_alike (kind : StateKind) (ends : Bool) (order : siblings.Perm siblings')
    (each : List.Forall₂ Constraint.Alike branches branches') :
    List.Forall₂ (Field.Alike Constraint.Alike) (kindFields kind ends siblings branches)
      (kindFields kind ends siblings' branches') := by
  have one : Constraint.Alike (.oneOf siblings) (.oneOf siblings') := .oneOf order .plain
  have catchers := (ErrorHandling.catcherShape_alike order).record
  have rules := (ChoiceRule.topShape_alike order).record
  refine List.rel_append (List.forall₂_same.2 fun f _ => .same f) ?_
  exact .cons (.requiredIf _ "Next" one) <| .cons (.same _) <| .cons (.same _) <|
    .cons (.same _) <| .cons (.same _) <| .cons (.same _) <| .cons (.same _) <| .cons (.same _) <|
    .cons (.optionalIf _ "Catch" (.list catchers 0)) <| .cons (.same _) <| .cons (.same _) <|
    .cons (.same _) <| .cons (.requiredIf _ "Choices" (.list rules 1)) <|
    .cons (.optionalIf _ "Default" one) <| .cons (.same _) <| .cons (.same _) <|
    .cons (.same _) <| .cons (.same _) <|
    .cons (.requiredIf _ "Branches" (.positions each 1)) .nil

/-- What becomes of a field where no kind is known does not hang on its constraint. -/
theorem relaxed?_alike {f f' : Field Constraint} (h : f.Alike Constraint.Alike f') :
    Option.Rel (Field.Alike Constraint.Alike) (relaxed? f) (relaxed? f') := by
  cases h with
  | optional name hr => exact .some (.optional name hr)
  | required name hr =>
    have kept (r : Constraint) : relaxed? ⟨name, .required r⟩ =
        some (if name = "Type" then ⟨name, .required r⟩ else ⟨name, .optional r⟩) := rfl
    rw [kept, kept]
    split
    · exact .some (.required name hr)
    · exact .some (.optional name hr)
  | forbidden name => exact .none

theorem firstOfEachName_alike {fields fields' : List (Field Constraint)}
    (each : List.Forall₂ (Field.Alike Constraint.Alike) fields fields') :
    List.Forall₂ (Field.Alike Constraint.Alike) (firstOfEachName fields)
      (firstOfEachName fields') := by
  refine List.rel_foldl (P := List.Forall₂ (Field.Alike Constraint.Alike)) ?_ .nil each
  intro done done' alike f f' h
  have seen := (Shuffled.of_forall₂ alike).any_name f'.name
  simp only [h.name, seen]
  split
  · exact alike
  · exact List.rel_append alike (.cons h .nil)

theorem untypedShape_alike (order : siblings.Perm siblings')
    (each : List.Forall₂ Constraint.Alike branches branches') :
    (untypedShape siblings branches).Alike (untypedShape siblings' branches') := by
  have kinds : List.Forall₂ (Field.Alike Constraint.Alike)
      (StateKind.all.flatMap fun kind => kindFields kind false siblings branches)
      (StateKind.all.flatMap fun kind => kindFields kind false siblings' branches') := by
    refine List.rel_flatMap (R := Eq) (List.forall₂_same.2 fun _ _ => rfl) ?_
    rintro kind _ rfl
    exact kindFields_alike kind false order each
  have relaxed : Relator.LiftFun (Field.Alike Constraint.Alike)
      (Option.Rel (Field.Alike Constraint.Alike)) relaxed? relaxed? := fun _ _ => relaxed?_alike
  have kept := Shuffled.of_forall₂ (firstOfEachName_alike (List.rel_filterMap relaxed kinds))
  exact .of_fields kept []

variable {state state' : Json}

/-- The kind is a text, in which there is nothing to put in another order. -/
theorem kind?_reordered (h : state.Reordered state') (distinct : state.NoRepeats) :
    kind? state = kind? state' := by
  rw [kind?, kind?]
  rcases h.get? distinct "Type" with ⟨absent, absent'⟩ | ⟨v, w, here, here', related⟩
  · rw [absent, absent']
  · rw [here, here']
    cases related <;> rfl

theorem ends_reordered (h : state.Reordered state') (distinct : state.NoRepeats) :
    ends state = ends state' := by
  rw [ends, ends]
  rcases h.get? distinct "End" with ⟨absent, absent'⟩ | ⟨v, w, here, here', related⟩
  · rw [absent, absent']
  · rw [here, here']
    cases related <;> rfl

theorem shapeWith_alike (h : state.Reordered state') (distinct : state.NoRepeats)
    (order : siblings.Perm siblings')
    (each : List.Forall₂ Constraint.Alike branches branches') :
    (shapeWith state siblings branches).Alike (shapeWith state' siblings' branches') := by
  rw [shapeWith, shapeWith, kind?_reordered h distinct, ends_reordered h distinct]
  cases kind? state' with
  | none => exact untypedShape_alike order each
  | some kind => exact ⟨.of_forall₂ (kindFields_alike kind _ order each), rfl⟩

end State

namespace Machine

variable {ms ms' : List (String × Json)} {names names' : List String}

theorem perm_stateNames {machine machine' : Json} (h : machine.Reordered machine')
    (distinct : machine.NoRepeats) : (stateNames machine).Perm (stateNames machine') := by
  rw [stateNames, stateNames]
  rcases h.get? distinct "States" with ⟨absent, absent'⟩ | ⟨v, w, here, here', related⟩
  · rw [absent, absent']
  · rw [here, here']
    cases related with
    | object each order => exact Shuffled.perm_names ⟨_, each, order⟩
    | _ => exact .refl _

/-- The states of a machine in another order are fields in that order, if each state by itself has a
    shape that is alike. -/
theorem statesIn_alike (members : Shuffled (SameName Reordered) ms ms')
    (distinct : (ms.map Prod.fst).Nodup)
    (below : ∀ ss, ms.lookup "States" = some (.object ss) → ∀ s ∈ ss, ∀ state',
      s.2.Reordered state' → (stateShape s.2 names).Alike (stateShape state' names')) :
    Shuffled (Field.Alike Constraint.Alike) (statesIn ms names) (statesIn ms' names') := by
  rw [statesIn_eq_getD, statesIn_eq_getD]
  rcases members.lookup distinct "States" with ⟨absent, absent'⟩ | ⟨v, w, here, here', related⟩
  · rw [absent, absent']
    exact .of_forall₂ .nil
  · rw [here, here']
    cases related with
    | @object ss mid ss' each order =>
      simp only [Option.map_some, Option.getD_some, statesOf, stateFields_eq_map]
      refine Shuffled.map ⟨mid, each, order⟩ ?_
      rintro _ hs _ (⟨name, h⟩ : SameName ..)
      exact .required name (below ss here _ hs _ h).record
    | _ => exact .of_forall₂ .nil

/-- The branches of a state, which stay in their order. -/
theorem branchesIn_alike (members : Shuffled (SameName Reordered) ms ms')
    (distinct : (ms.map Prod.fst).Nodup)
    (below : ∀ items, ms.lookup "Branches" = some (.array items) → ∀ b ∈ items, ∀ b',
      b.Reordered b' → (branchShape b).Alike (branchShape b')) :
    List.Forall₂ Constraint.Alike (branchesIn ms) (branchesIn ms') := by
  rw [branchesIn_eq_getD, branchesIn_eq_getD]
  rcases members.lookup distinct "Branches" with ⟨absent, absent'⟩ | ⟨v, w, here, here', related⟩
  · rw [absent, absent']
    exact .nil
  · rw [here, here']
    cases related with
    | @array items items' each =>
      simp only [Option.map_some, Option.getD_some, branchesOf, branchList_eq_map]
      rw [List.forall₂_map_left_iff, List.forall₂_map_right_iff]
      have inside := (List.forall₂_and_left items items').2 ⟨fun _ hb => hb, each⟩
      exact inside.imp fun b b' h => (below items here b h.1 b' h.2).record
    | _ => exact .nil

/-- Only what is an object has branches. -/
theorem stateShape_eq_members (state : Json) (siblings : List String) :
    stateShape state siblings = State.shapeWith state siblings (branchesIn state.members) := by
  cases state with
  | object ms =>
    rw [stateShape]
    rfl
  | _ =>
    rw [stateShape]
    · rfl
    · intro ms h
      cases h

/-- The states of a machine as fields, each with its shape. -/
def ownStates (machine : Json) : List (Field Constraint) :=
  statesIn machine.members (stateNames machine)

theorem branchShape_eq_ownStates (branch : Json) :
    branchShape branch = ⟨branchFields (stateNames branch) (ownStates branch), []⟩ := by
  cases branch with
  | object ms =>
    rw [branchShape]
    rfl
  | _ =>
    rw [branchShape]
    · rfl
    · intro ms h
      cases h

theorem documentShape_eq_ownStates (document : Json) :
    documentShape document = ⟨documentFields (stateNames document) (ownStates document), []⟩ := by
  cases document <;> rfl

section

variable {machine machine' : Json} (order : (stateNames machine).Perm (stateNames machine'))
  (states : Shuffled (Field.Alike Constraint.Alike) (ownStates machine) (ownStates machine'))

include order states

theorem branchShape_alike : (branchShape machine).Alike (branchShape machine') := by
  have start : Constraint.Alike (.oneOf _) (.oneOf _) := .oneOf order .plain
  rw [branchShape_eq_ownStates, branchShape_eq_ownStates]
  refine .of_fields (.of_forall₂ ?_) []
  exact .cons (.required "StartAt" start) <| .cons (.same _) <|
    .cons (.required "States" (Shape.Alike.of_fields states []).record) .nil

theorem documentShape_alike : (documentShape machine).Alike (documentShape machine') := by
  have start : Constraint.Alike (.oneOf _) (.oneOf _) := .oneOf order .plain
  rw [documentShape_eq_ownStates, documentShape_eq_ownStates]
  refine .of_fields (.of_forall₂ ?_) []
  exact .cons (.required "StartAt" start) <| .cons (.same _) <| .cons (.same _) <|
    .cons (.same _) <| .cons (.required "States" (Shape.Alike.of_fields states []).record) .nil

end

theorem stateShape_alike {state state' : Json} (h : state.Reordered state')
    (distinct : state.NoRepeats)
    (below : ∀ ms items, state = .object ms → ms.lookup "Branches" = some (.array items) →
      ∀ b ∈ items, ∀ b', b.Reordered b' → b.NoRepeats →
        Shuffled (Field.Alike Constraint.Alike) (ownStates b) (ownStates b'))
    {siblings siblings' : List String} (order : siblings.Perm siblings') :
    (stateShape state siblings).Alike (stateShape state' siblings') := by
  have branches : ∀ items, state.members.lookup "Branches" = some (.array items) → ∀ b ∈ items,
      ∀ b', b.Reordered b' → (branchShape b).Alike (branchShape b') := by
    intro items lists b hb b' hb'
    obtain ⟨ms, rfl, listed⟩ := Json.exists_object_of_lookup lists
    cases distinct with
    | object _ values =>
      cases values _ (mem_of_lookup listed) with
      | array each =>
        have states := below ms items rfl listed b hb b' hb' (each b hb)
        exact branchShape_alike (perm_stateNames hb' (each b hb)) states
  rw [stateShape_eq_members, stateShape_eq_members]
  exact State.shapeWith_alike h distinct order
    (branchesIn_alike h.members distinct.members branches)

theorem ownStates_alike (machine : Json) {machine' : Json} (h : machine.Reordered machine')
    (distinct : machine.NoRepeats) :
    Shuffled (Field.Alike Constraint.Alike) (ownStates machine) (ownStates machine') := by
  have both := induction
    (S := fun s => ∀ s', s.Reordered s' → s.NoRepeats → ∀ siblings siblings',
      siblings.Perm siblings' → (stateShape s siblings).Alike (stateShape s' siblings'))
    (M := fun m => ∀ m', m.Reordered m' → m.NoRepeats →
      Shuffled (Field.Alike Constraint.Alike) (ownStates m) (ownStates m'))
    (fun state below state' h distinct _ _ order => stateShape_alike h distinct below order)
    ?_ machine
  · exact both.2 machine' h distinct
  intro machine below machine' h distinct
  refine statesIn_alike h.members distinct.members ?_
  intro ss lists s hs state' hs'
  have order := perm_stateNames h distinct
  obtain ⟨ms, rfl, listed⟩ := Json.exists_object_of_lookup lists
  cases distinct with
  | object _ values =>
    cases values _ (mem_of_lookup listed) with
    | object _ each => exact below ms ss rfl listed s hs state' hs' (each s hs) _ _ order

end Machine

/-- The members of the objects in a document can be put in any order: the report stays the same up
    to order, and a violation that lists what a text should have been one of lists the same. -/
theorem documentViolations_reordered [Formats] {document document' : Json}
    (h : document.Reordered document') (distinct : document.NoRepeats) :
    SayTheSame (documentViolations document) (documentViolations document') ∧
      (documentViolations document = [] ↔ documentViolations document' = []) := by
  have shapes := Machine.documentShape_alike (Machine.perm_stateNames h distinct)
    (Machine.ownStates_alike document h distinct)
  have same : SayTheSame (documentViolations document) (documentViolations document') :=
    violations_sayTheSame document h distinct shapes.record
  exact ⟨same, same.nil_iff⟩

/-- A machine that starts at no state. -/
def lostStart : Json :=
  .object [("StartAt", .string "C"), ("States", .object
    [("A", .object [("Type", .string "Pass"), ("Next", .string "B")]),
     ("B", .object [("Type", .string "Succeed")])])]

/-- The same with the members of three objects in another order. -/
def lostStartReordered : Json :=
  .object [("States", .object
    [("B", .object [("Type", .string "Succeed")]),
     ("A", .object [("Next", .string "B"), ("Type", .string "Pass")])]), ("StartAt", .string "C")]

theorem documentViolations_reordered_lostStart :
    lostStart.Reordered lostStartReordered ∧ lostStart.NoRepeats ∧
      documentViolations lostStart = [⟨[.key "StartAt"], .notOneOf ["A", "B"]⟩] ∧
        documentViolations lostStartReordered = [⟨[.key "StartAt"], .notOneOf ["B", "A"]⟩] ∧
          SayTheSame (documentViolations lostStart) (documentViolations lostStartReordered) ∧
            (documentViolations lostStart = [] ↔ documentViolations lostStartReordered = []) := by
  have stateA : Reordered (.object [("Type", .string "Pass"), ("Next", .string "B")])
      (.object [("Next", .string "B"), ("Type", .string "Pass")]) :=
    .object (.cons (.intro _ (.string _)) (.cons (.intro _ (.string _)) .nil)) (.swap ..)
  have stateB : Reordered (.object [("Type", .string "Succeed")])
      (.object [("Type", .string "Succeed")]) :=
    .object (.cons (.intro _ (.string _)) .nil) (.refl _)
  have states := Reordered.object
    (.cons (.intro "A" stateA) (.cons (.intro "B" stateB) .nil)) (.swap ..)
  have reordered : lostStart.Reordered lostStartReordered :=
    .object (.cons (.intro _ (.string _)) (.cons (.intro _ states) .nil)) (.swap ..)
  have settled : lostStart.settled = lostStart := rfl
  have distinct : lostStart.NoRepeats := settled ▸ noRepeats_settled lostStart
  exact ⟨reordered, distinct, by decide +kernel, by decide +kernel,
    documentViolations_reordered reordered distinct⟩

end FlowLint
