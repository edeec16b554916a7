import FlowLint.Json.Literal
import FlowLint.Json.Reader

/-!
JSON texts as values. `tree?` keeps what the text says, repeated names included; `parse?` is the
value that the text stands for, with repeats settled and faults turned into positions.
-/

namespace FlowLint.Json

/-- Values as they are written. -/
def treeBuilder : Builder String Json where
  name   := Literal.read
  text   := fun s => (Literal.read s).map fun (t, r) => (.string t, r)
  number := fun n rest => (n.value rest).map .number
  null   := .null
  bool   := .bool
  array  := .array
  object := .object

/-- Nothing but the form: strings and numbers may say what no value can hold. -/
def formBuilder : Builder Unit Unit where
  name   := Literal.skip
  text   := Literal.skip
  number := fun _ _ => .ok ()
  null   := ()
  bool   := fun _ => ()
  array  := fun _ => ()
  object := fun _ => ()

/-- The containers that may stand within each other. -/
def maxDepth : Nat := 127

/-- A value as it is written. -/
def readTree : Reader Json := readValue treeBuilder maxDepth

/-- Passes over a value of any depth. -/
def skipForm : Reader Unit := fun s => readValue formBuilder s.length s

/-- The value of a text with its repeated names. -/
def tree? (text : List Char) : Except Fault Json := readText readTree text

/-- The value of a text. -/
def parse? (text : List Char) : Except SyntaxError Json :=
  match tree? text with
  | .ok v    => .ok v.settled
  | .error f => .error (f.toError text)

/-- The text of a string literal that is the whole text. -/
def literal? (text : List Char) : Except SyntaxError String :=
  match text with
  | '"' :: s =>
    match readText (fun t => Literal.read t) s with
    | .ok v    => .ok v
    | .error f => .error (f.toError text)
  | s        => .error (Fault.toError text (.onNext .expectedValue s))

end FlowLint.Json
