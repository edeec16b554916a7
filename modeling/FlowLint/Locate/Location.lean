import FlowLint.Locate.Find

/-!
Where in a text a path is reported: at its value, or at the nearest value above it that exists, and
at the start of the text when that is the root.
-/

namespace FlowLint

/-- A line, a column in characters, and the text found there. -/
structure Location where
  position : Text.Position
  source   : List Char
  deriving DecidableEq, Repr

namespace Locate

/-- The location of a stretch of `text`. -/
def Span.location (text : List Char) (s : Span) : Location := ⟨Text.position text s.start, s.text⟩

/-- Tries the path whose steps are given last first, then the paths above it. -/
def climb (text : List Char) : List Segment → Except LocateError Location
  | []            => .ok ⟨.start, text⟩
  | step :: above => do
    match ← find text (step :: above).reverse with
    | some span => return span.location text
    | none      => climb text above

/-- The location of a path. -/
def resolve (text : List Char) (path : Path) : Except LocateError Location :=
  climb text path.reverse

end Locate

end FlowLint
