import FlowLint.Locate.Location
import FlowLint.Violation

/-!
Diagnostics: what a lint of a text reports, and how one reads as a line.
-/

namespace FlowLint

/-- Where a diagnostic comes from: the text is no JSON, the document breaks the grammar, or the
    linter could not find its way in the text. -/
inductive DiagnosticKind where
  | malformed | structural | internal
  deriving DecidableEq, Repr

/-- How a kind is written. -/
def DiagnosticKind.name : DiagnosticKind → String
  | .malformed  => "syntax"
  | .structural => "structural"
  | .internal   => "internal"

inductive Severity where
  | warning | error
  deriving DecidableEq, Repr

/-- How a severity is written. -/
def Severity.name : Severity → String
  | .warning => "warning"
  | .error   => "error"

/-- A report about a text, with the piece of the text that it is about. -/
structure Diagnostic where
  kind     : DiagnosticKind
  severity : Severity
  code     : String
  message  : String
  source   : String
  line     : Option Nat
  column   : Option Nat
  path     : Option String
  deriving DecidableEq, Repr

namespace Diagnostic

/-- A text that is no JSON. Lines and columns start at 1, also where the reader's column is 0. -/
def malformed (text : List Char) (message : String) (reader : Text.Position) : Diagnostic :=
  let line := max reader.line 1
  { kind     := .malformed
    severity := .error
    code     := "S001"
    message  := message
    source   := .ofList (Text.lineText text line)
    line     := some line
    column   := some (max reader.column 1)
    path     := none }

/-- A violation at its place in the text. -/
def structural (v : Violation) (l : Location) : Diagnostic :=
  { kind     := .structural
    severity := .error
    code     := v.kind.code
    message  := v.message
    source   := .ofList l.source
    line     := some l.position.line
    column   := some l.position.column
    path     := some v.path.text }

/-- A violation that could not be placed. -/
def internal (e : LocateError) : Diagnostic :=
  { kind     := .internal
    severity := .warning
    code     := "I001"
    message  := e.message
    source   := ""
    line     := none
    column   := none
    path     := none }

/-- The line and column, if both are there, then severity, code and message. -/
def text (d : Diagnostic) : String :=
  let said := s!"{d.severity.name}[{d.code}] {d.message}"
  match d.line, d.column with
  | some line, some column => s!"{line}:{column}: {said}"
  | _,         _           => said

end Diagnostic

end FlowLint
