import FlowLint.Json.Parse
import FlowLint.Json.Quoted
import FlowLint.Path.Basic

/-!
Paths as JSON: an array with a string for a name and a whole number for an index, so the name "0"
and the index 0 stay apart.
-/

namespace FlowLint

/-- The step that a value stands for. Only a number written as an integer is an index. -/
def Segment.ofJson? : Json → Option Segment
  | .string s         => some (.key s)
  | .number (.int n)  => if 0 ≤ n then some (.index n.toNat) else none
  | _                 => none

/-- A step as JSON. -/
def Segment.encode : Segment → List Char
  | .key name => Json.quoted name
  | .index i  => Nat.toDigits 10 i

namespace Path

/-- The path that a value stands for. -/
def ofJson? (v : Json) : Option Path := v.items?.bind (·.mapM Segment.ofJson?)

/-- Reads a path. -/
def decode? (text : List Char) : Option Path := (Json.parse? text).toOption.bind ofJson?

/-- Writes a path. -/
def encode (p : Path) : List Char := '[' :: [','].intercalate (p.map Segment.encode) ++ [']']

end Path

end FlowLint
