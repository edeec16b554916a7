import FlowLint.Diagnostic.Lint
import FlowLint.Json.Layout

/-!
Reports: the diagnostics of each file, as lines for people and as JSON for programs.
-/

namespace FlowLint

open Json (Layout)

/-- The diagnostics of a file under the name by which it is shown. -/
structure Report where
  file        : String
  diagnostics : List Diagnostic
  deriving DecidableEq, Repr

/-- The parts of a diagnostic; what is absent is null. -/
def Diagnostic.layout (d : Diagnostic) : Layout :=
  .object
    [("kind",     .text d.kind.name),
     ("severity", .text d.severity.name),
     ("code",     .text d.code),
     ("message",  .text d.message),
     ("source",   .text d.source),
     ("line",     .orNull .count d.line),
     ("column",   .orNull .count d.column),
     ("path",     .orNull .text d.path)]

namespace Report

/-- The report on a text. -/
def ofSource [Formats] (file source : String) : Report := ⟨file, lint source⟩

/-- A line for each diagnostic. -/
def lines (r : Report) : List String := r.diagnostics.map fun d => s!"{r.file}:{d.text}"

/-- Some diagnostic is an error. -/
def hasError (r : Report) : Bool := r.diagnostics.any (·.severity == .error)

def layout (r : Report) : Layout :=
  .object [("file", .text r.file), ("diagnostics", .array (r.diagnostics.map Diagnostic.layout))]

end Report

/-- Reports as lines. -/
def textOutput (reports : List Report) : String :=
  .join ((reports.flatMap Report.lines).map (· ++ "\n"))

/-- Reports as a JSON array. -/
def jsonOutput (reports : List Report) : String :=
  .ofList (Layout.array (reports.map Report.layout) 0 ++ ['\n'])

end FlowLint
