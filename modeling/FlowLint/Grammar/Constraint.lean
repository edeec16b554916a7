import FlowLint.Binary64.Basic

/-!
The vocabulary of grammars: what a JSON value must be, which members an object must have, and how
the presence of members hangs together. A choice rule may hold choice rules, so it is a constraint
by itself and is spelled out only where a value asks for it.
-/

namespace FlowLint

/-- What a text must look like, apart from not being empty. -/
inductive TextFormat where
  | plain | uri
  deriving DecidableEq, Repr

/-- What a number must be. -/
structure NumberRule where
  whole : Bool
  least : Option Binary64
  most  : Option Binary64
  deriving DecidableEq, Repr

/-- What must hold of the members that an object has. -/
inductive PeerRule where
  /-- With `key` none of the peers may be there; the first of them that is there is the culprit. -/
  | excludes (key : String) (peers : List String)
  | exactlyOneOf (peers : List String)
  | atLeastOneOf (peers : List String)
  /-- One rule where `key` is there and another where it is not. -/
  | keyed (key : String) (present absent : PeerRule)
  deriving DecidableEq, Repr

/-- Whether a member may, must or must not be there, and what its value must be. -/
inductive Demand (ρ : Type) where
  | optional (rule : ρ)
  | required (rule : ρ)
  | forbidden
  deriving Repr

/-- A member that an object may be asked about. -/
structure Field (ρ : Type) where
  name   : String
  demand : Demand ρ
  deriving Repr

namespace Field

variable {ρ : Type}

def optional (name : String) (rule : ρ) : Field ρ := ⟨name, .optional rule⟩

def required (name : String) (rule : ρ) : Field ρ := ⟨name, .required rule⟩

def forbidden (name : String) : Field ρ := ⟨name, .forbidden⟩

/-- A member that may be there only under a condition. -/
def optionalIf (condition : Bool) (name : String) (rule : ρ) : Field ρ :=
  if condition then optional name rule else forbidden name

/-- A member that must be there under a condition and must not otherwise. -/
def requiredIf (condition : Bool) (name : String) (rule : ρ) : Field ρ :=
  if condition then required name rule else forbidden name

end Field

/-- The members of an object in the order in which they are checked, and the rules among them.
    Members that no field names are not allowed. -/
structure Shape (ρ : Type) where
  fields : List (Field ρ)
  peers  : List PeerRule
  deriving Repr

namespace Shape

variable {ρ : Type}

/-- No member is known and none is asked for. -/
def empty : Shape ρ := ⟨[], []⟩

/-- A field of that name is there. -/
def declares (s : Shape ρ) (name : String) : Bool := s.fields.any (·.name == name)

/-- The first field of that name. -/
def field? (s : Shape ρ) (name : String) : Option (Field ρ) := s.fields.find? (·.name == name)

/-- Adds a field at the end. -/
def addField (s : Shape ρ) (f : Field ρ) : Shape ρ := { s with fields := s.fields ++ [f] }

/-- Adds a rule among the members at the end. -/
def addPeers (s : Shape ρ) (r : PeerRule) : Shape ρ := { s with peers := s.peers ++ [r] }

end Shape

/-- What a value must be. -/
inductive Constraint where
  | anything
  /-- With a list the text must be in it and nothing else is asked. -/
  | text (among : Option (List String)) (format : TextFormat)
  | number (rule : NumberRule)
  | boolean
  | timestamp
  | list (item : Option Constraint) (atLeast : Nat)
  /-- The items one by one; items beyond the given constraints are free. -/
  | positions (items : List Constraint) (atLeast : Nat)
  | record (shape : Shape Constraint)
  | choiceRule
  deriving Repr

namespace Constraint

/-- A text that is not empty. -/
def anyText : Constraint := .text none .plain

/-- One of the given texts. -/
def oneOf (texts : List String) : Constraint := .text (some texts) .plain

/-- A number of at least one. -/
def positive : Constraint := .number ⟨false, some (.ofInt 1), none⟩

/-- The largest count of seconds or attempts. -/
def maxCount : Binary64 := .ofInt 99999998

/-- A whole number from `least` to the largest count. -/
def count (least : Int) : Constraint := .number ⟨true, some (.ofInt least), some maxCount⟩

end Constraint

end FlowLint
