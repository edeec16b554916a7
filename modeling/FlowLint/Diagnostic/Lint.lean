import FlowLint.Conformance
import FlowLint.Diagnostic.Basic

/-!
Linting a text: read it, check the document, and find each violation in the text. A text that is no
JSON gives one diagnostic, and so does a violation that cannot be placed.
-/

namespace FlowLint

/-- The document that a text holds, or the diagnostic that it holds none. -/
def document? (text : List Char) : Except Diagnostic Json :=
  (Json.parse? text).mapError fun e => .malformed text e.cause.message e.position

/-- Each violation at its place in the text. -/
def placed (text : List Char) (vs : List Violation) : Except LocateError (List Diagnostic) :=
  vs.mapM fun v => (Locate.resolve text v.path).map (.structural v)

/-- All that is to be said about a text. -/
def lint [Formats] (source : String) : List Diagnostic :=
  let text := source.toList
  match document? text with
  | .error d     => [d]
  | .ok document =>
    match placed text (documentViolations document) with
    | .ok ds   => ds
    | .error e => [.internal e]

end FlowLint
