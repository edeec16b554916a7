/-!
Paths: the names and indices that lead from the root of a document to a value.
-/

namespace FlowLint

/-- One step: to the member of a name, or to the item at an index. -/
inductive Segment where
  | key (name : String)
  | index (i : Nat)
  deriving DecidableEq, Repr

/-- The text of a step: the bare name or number. -/
def Segment.text : Segment → String
  | .key name => name
  | .index i  => toString i

/-- The steps from the root; the root itself is the empty path. -/
abbrev Path := List Segment

namespace Path

/-- The steps joined by points. -/
def text (p : Path) : String := ".".intercalate (p.map Segment.text)

/-- What messages call the value: its last step, and `value` at the root. -/
def label (p : Path) : String := (p.getLast?.map Segment.text).getD "value"

/-- One step further down. -/
def push (p : Path) (step : Segment) : Path := p ++ [step]

/-- The last step and the path above it; the root has no last step and stays the root. -/
def pop (p : Path) : Option Segment × Path := (p.getLast?, p.dropLast)

/-- The path to a member. -/
def member (p : Path) (name : String) : Path := p.push (.key name)

/-- The path to an item. -/
def item (p : Path) (i : Nat) : Path := p.push (.index i)

end Path

end FlowLint
