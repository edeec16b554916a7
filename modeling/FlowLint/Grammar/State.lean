import FlowLint.Grammar.ChoiceRule
import FlowLint.Grammar.ErrorHandling
import FlowLint.Grammar.StateKind
import FlowLint.Json.Basic

/-!
The members of a state. They hang on its kind, on whether it ends the run, on the names of the
states around it and, for parallel states, on its branches.
-/

namespace FlowLint.State

open Constraint ErrorHandling

/-- How long a state waits, of which it says exactly one. -/
def waitFields : List String := ["Seconds", "SecondsPath", "Timestamp", "TimestampPath"]

/-- The others of `waitFields` in the order in which they are blamed. -/
def waitPeers : String → List String
  | "Seconds"     => ["SecondsPath", "Timestamp", "TimestampPath"]
  | "SecondsPath" => ["Seconds", "Timestamp", "TimestampPath"]
  | "Timestamp"   => ["SecondsPath", "Seconds", "TimestampPath"]
  | _             => ["SecondsPath", "Seconds", "Timestamp"]

/-- The rules among the members of a waiting state. -/
def waitRules : List PeerRule :=
  waitFields.map (fun key => .excludes key (waitPeers key)) ++ [.atLeastOneOf waitFields]

/-- The name of a kind. -/
def typeField : Field Constraint := .required "Type" (oneOf (StateKind.all.map StateKind.name))

/-- The members of a state of a kind. `branches` are the constraints on its branches in order. -/
def kindFields (kind : StateKind) (ends : Bool) (siblings : List String)
    (branches : List Constraint) : List (Field Constraint) :=
  [typeField, .optional "Comment" anyText]
  ++ (if kind.declaresEnd then [.optional "End" .boolean] else [])
  ++ [.requiredIf (kind.requiresNext ends) "Next" (oneOf siblings),
      .optionalIf (kind != .fail) "InputPath" anyText,
      .optionalIf (kind != .fail) "ResultPath" anyText,
      .optionalIf (kind != .fail) "OutputPath" anyText,
      .optionalIf (kind == .fail) "Cause" anyText,
      .optionalIf (kind == .fail) "Error" anyText,
      .optionalIf (kind == .pass) "Result" .anything,
      .optionalIf kind.handlesErrors "Retry" (.list (some (.record retrierShape)) 0),
      .optionalIf kind.handlesErrors "Catch" (.list (some (.record (catcherShape siblings))) 0),
      .requiredIf (kind == .task) "Resource" (.text none .uri),
      .optionalIf (kind == .task) "HeartbeatSeconds" (count 1),
      .optionalIf (kind == .task) "TimeoutSeconds" (count 1),
      .requiredIf (kind == .choice) "Choices"
        (.list (some (.record (ChoiceRule.topShape siblings))) 1),
      .optionalIf (kind == .choice) "Default" (oneOf siblings),
      .optionalIf (kind == .wait) "Seconds" positive,
      .optionalIf (kind == .wait) "SecondsPath" anyText,
      .optionalIf (kind == .wait) "Timestamp" .timestamp,
      .optionalIf (kind == .wait) "TimestampPath" anyText,
      .requiredIf (kind == .parallel) "Branches" (.positions branches 1)]

/-- A state of a kind. -/
def kindShape (kind : StateKind) (ends : Bool) (siblings : List String)
    (branches : List Constraint) : Shape Constraint :=
  ⟨kindFields kind ends siblings branches, if kind = .wait then waitRules else []⟩

/-- A field as it is where no kind is known: forbidden fields drop out and only the type stays
    required. -/
def relaxed? (f : Field Constraint) : Option (Field Constraint) :=
  match f.demand with
  | .forbidden     => none
  | .optional rule => some (.optional f.name rule)
  | .required rule =>
    some (if f.name = "Type" then .required f.name rule else .optional f.name rule)

/-- The fields less those whose name came before. -/
def firstOfEachName (fields : List (Field Constraint)) : List (Field Constraint) :=
  fields.foldl (fun done f => if done.any (·.name == f.name) then done else done ++ [f]) []

/-- A state of no kind: all that some kind admits. -/
def untypedShape (siblings : List String) (branches : List Constraint) : Shape Constraint :=
  let fields := StateKind.all.flatMap fun kind => kindFields kind false siblings branches
  ⟨firstOfEachName (fields.filterMap relaxed?), []⟩

/-- The kind that a state names. -/
def kind? (state : Json) : Option StateKind :=
  ((state.get? "Type").bind Json.text?).bind StateKind.ofName?

/-- A state ends the run if it says anything but false. -/
def ends (state : Json) : Bool :=
  match state.get? "End" with
  | none               => false
  | some (.bool false) => false
  | some _             => true

/-- The members of a state whose branches are known. -/
def shapeWith (state : Json) (siblings : List String) (branches : List Constraint) :
    Shape Constraint :=
  match kind? state with
  | some kind => kindShape kind (ends state) siblings branches
  | none      => untypedShape siblings branches

end FlowLint.State
