import FlowLint.Grammar.State

/-!
State machines and the branches of parallel states. Each has its own states, and what a state or a
start refers to must be one of the states beside it.
-/

namespace FlowLint.Machine

open Constraint

/-- The names of the states of a machine in order. -/
def stateNames (machine : Json) : List String :=
  (((machine.get? "States").bind Json.members?).getD []).map Prod.fst

/-- A branch with the given states. -/
def branchFields (names : List String) (states : List (Field Constraint)) :
    List (Field Constraint) :=
  [.required "StartAt" (oneOf names),
   .optional "Comment" anyText,
   .required "States" (.record ⟨states, []⟩)]

/-- A whole machine with the given states. -/
def documentFields (names : List String) (states : List (Field Constraint)) :
    List (Field Constraint) :=
  [.required "StartAt" (oneOf names),
   .optional "Comment" anyText,
   .optional "Version" anyText,
   .optional "TimeoutSeconds" (count 1),
   .required "States" (.record ⟨states, []⟩)]

mutual

/-- A branch: its own states and where it starts. -/
def branchShape : Json → Shape Constraint
  | .object members =>
    let names := stateNames (.object members)
    ⟨branchFields names (statesIn members names), []⟩
  | _               => ⟨branchFields [] [], []⟩

/-- The states among the members of a machine. -/
def statesIn : List (String × Json) → List String → List (Field Constraint)
  | [],           _     => []
  | (k, v) :: ms, names => if k = "States" then statesOf v names else statesIn ms names

/-- The states that a value holds. -/
def statesOf : Json → List String → List (Field Constraint)
  | .object states, names => stateFields states names
  | _,              _     => []

/-- Each state by its name. -/
def stateFields : List (String × Json) → List String → List (Field Constraint)
  | [],           _     => []
  | (k, v) :: ms, names => .required k (.record (stateShape v names)) :: stateFields ms names

/-- A state among the states of those names. -/
def stateShape : Json → List String → Shape Constraint
  | .object members, siblings => State.shapeWith (.object members) siblings (branchesIn members)
  | v,               siblings => State.shapeWith v siblings []

/-- The branches among the members of a state. -/
def branchesIn : List (String × Json) → List Constraint
  | []           => []
  | (k, v) :: ms => if k = "Branches" then branchesOf v else branchesIn ms

/-- The branches that a value holds. -/
def branchesOf : Json → List Constraint
  | .array items => branchList items
  | _            => []

/-- Each branch in order. -/
def branchList : List Json → List Constraint
  | []      => []
  | v :: vs => .record (branchShape v) :: branchList vs

end

/-- A whole document. -/
def documentShape (document : Json) : Shape Constraint :=
  let names := stateNames document
  ⟨documentFields names (match document with
    | .object members => statesIn members names
    | _               => []), []⟩

end FlowLint.Machine
