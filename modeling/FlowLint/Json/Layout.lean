import FlowLint.Json.Quoted

/-!
JSON laid out for reading: each item and member on a line of its own, two blanks further in than
what holds it.
-/

namespace FlowLint.Json

/-- The text of a value, given how many containers it stands in. -/
abbrev Layout := Nat → List Char

namespace Layout

/-- The start of a line within `depth` containers. -/
def newline (depth : Nat) : List Char := '\n' :: List.replicate (2 * depth) ' '

def null : Layout := fun _ => "null".toList

def count (n : Nat) : Layout := fun _ => Nat.toDigits 10 n

def text (s : String) : Layout := fun _ => quoted s

/-- Entries between brackets. Without entries the brackets touch. -/
def container (opening closing : Char) (entries : List Layout) : Layout := fun depth =>
  if entries.isEmpty then [opening, closing]
  else
    opening :: newline (depth + 1)
      ++ List.intercalate (',' :: newline (depth + 1)) (entries.map (· (depth + 1)))
      ++ newline depth ++ [closing]

/-- An item to a line. -/
def array (items : List Layout) : Layout := container '[' ']' items

/-- A name and its value. -/
def member (m : String × Layout) : Layout := fun depth => quoted m.1 ++ ':' :: ' ' :: m.2 depth

/-- A member to a line. -/
def object (members : List (String × Layout)) : Layout := container '{' '}' (members.map member)

/-- A value, or null for none. -/
def orNull (layout : α → Layout) : Option α → Layout
  | some x => layout x
  | none   => null

end Layout

end FlowLint.Json
