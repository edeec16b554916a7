import FlowLint.Binary64.Shortest
import FlowLint.Path.Basic

/-!
Violations of a grammar: what is wrong, where, and how it is said.
-/

namespace FlowLint

/-- What a value was expected to be. -/
inductive ValueType where
  | string | number | integer | boolean | array | object
  deriving DecidableEq, Repr

/-- The wording of a type. -/
def ValueType.text : ValueType → String
  | .string  => "a string"
  | .number  => "a number"
  | .integer => "an integer"
  | .boolean => "a boolean"
  | .array   => "an array"
  | .object  => "an object"

/-- What is wrong. -/
inductive ViolationKind where
  | required
  | notAllowed
  | invalidType (expected : ValueType)
  | empty
  | belowMinimum (least : Binary64)
  | aboveMaximum (most : Binary64)
  | notOneOf (texts : List String)
  | invalidUri
  | invalidTimestamp
  | tooFewItems (atLeast : Nat)
  | conflict (peer : String)
  | exclusivePeers (present : List String)
  | missingPeers (peers : List String)
  deriving DecidableEq, Repr

namespace ViolationKind

/-- The code of a kind; both bounds share one, and so do both formats. -/
def code : ViolationKind → String
  | .required         => "V001"
  | .notAllowed       => "V002"
  | .invalidType _    => "V003"
  | .empty            => "V004"
  | .belowMinimum _   => "V005"
  | .aboveMaximum _   => "V005"
  | .notOneOf _       => "V006"
  | .invalidUri       => "V007"
  | .invalidTimestamp => "V007"
  | .tooFewItems _    => "V008"
  | .conflict _       => "V009"
  | .exclusivePeers _ => "V010"
  | .missingPeers _   => "V011"

/-- Names between brackets. -/
def listed (names : List String) : String := "[" ++ ", ".intercalate names ++ "]"

/-- What is said of a value called `label`. What concerns a set of members is always said of
    `value`. -/
def message (label : String) : ViolationKind → String
  | .required               => s!"\"{label}\" is required"
  | .notAllowed             => s!"\"{label}\" is not allowed"
  | .invalidType expected   => s!"\"{label}\" must be {expected.text}"
  | .empty                  => s!"\"{label}\" is not allowed to be empty"
  | .belowMinimum least     =>
    s!"\"{label}\" must be larger than or equal to {String.ofList least.toText}"
  | .aboveMaximum most      =>
    s!"\"{label}\" must be less than or equal to {String.ofList most.toText}"
  | .notOneOf texts         => s!"\"{label}\" must be one of {listed texts}"
  | .invalidUri             => s!"\"{label}\" must be a valid uri"
  | .invalidTimestamp       => s!"\"{label}\" must be a valid timestamp or number of milliseconds"
  | .tooFewItems atLeast    => s!"\"{label}\" must contain at least {atLeast} items"
  | .conflict peer          => s!"\"{label}\" conflict with forbidden peer \"{peer}\""
  | .exclusivePeers present =>
    s!"\"value\" contains a conflict between exclusive peers {listed present}"
  | .missingPeers peers     => s!"\"value\" must contain at least one of {listed peers}"

end ViolationKind

/-- Something wrong at a place. -/
structure Violation where
  path : Path
  kind : ViolationKind
  deriving DecidableEq, Repr

namespace Violation

/-- What is said, by the last step of the path. -/
def message (v : Violation) : String := v.kind.message v.path.label

/-- Code, message and, below the root, the path. -/
def text (v : Violation) : String :=
  let said := s!"[{v.kind.code}] {v.message}"
  if v.path.isEmpty then said else s!"{said} (at '{v.path.text}')"

end Violation

end FlowLint
