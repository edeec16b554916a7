import FlowLint.Diagnostic.Basic
import FlowLint.Json.Parse

/-!
Diagnostics as JSON: an object with a member for each part, or an array of the parts in order.
Members that are no part may hold anything that has the form of JSON; a part may be named once only.
-/

namespace FlowLint

/-- The kind of that name. -/
def DiagnosticKind.ofName? (s : String) : Option DiagnosticKind :=
  [DiagnosticKind.malformed, .structural, .internal].find? (·.name == s)

/-- The severity of that name. -/
def Severity.ofName? (s : String) : Option Severity :=
  [Severity.warning, .error].find? (·.name == s)

namespace Diagnostic

/-- The names of the parts in order. -/
def partNames : List String :=
  ["kind", "severity", "code", "message", "source", "line", "column", "path"]

/-- A name on its own, or as the only member of an object whose value is null. -/
def name? : Json → Option String
  | .string s             => some s
  | .object [(s, .null)]  => some s
  | _                     => none

/-- A count, or null for none. -/
def count? : Json → Option (Option Nat)
  | .null             => some none
  | .number (.int n)  => if 0 ≤ n then some (some n.toNat) else none
  | _                 => none

/-- A text, or null for none. -/
def text? : Json → Option (Option String)
  | .null     => some none
  | .string s => some (some s)
  | _         => none

/-- The diagnostic of the given parts. -/
def ofParts? : (kind severity code message source line column path : Json) → Option Diagnostic
  | kind, severity, .string code, .string message, .string source, line, column, path => do
    return { kind     := ← (name? kind).bind DiagnosticKind.ofName?
             severity := ← (name? severity).bind Severity.ofName?
             code     := code
             message  := message
             source   := source
             line     := ← count? line
             column   := ← count? column
             path     := ← text? path }
  | _, _, _, _, _, _, _, _ => none

/-- The diagnostic that an array holds. -/
def ofItems? : List Json → Option Diagnostic
  | [kind, severity, code, message, source, line, column, path] =>
    ofParts? kind severity code message source line column path
  | _ => none

/-- The diagnostic that the members of an object make up. Line, column and path may be missing. -/
def ofMembers? (members : List (String × Json)) : Option Diagnostic := do
  let parts := members.filter fun m => partNames.contains m.1
  guard (parts.map Prod.fst).Nodup
  let kind ← parts.lookup "kind"
  let severity ← parts.lookup "severity"
  let code ← parts.lookup "code"
  let message ← parts.lookup "message"
  let source ← parts.lookup "source"
  let orNull (name : String) := (parts.lookup name).getD .null
  ofParts? kind severity code message source (orNull "line") (orNull "column") (orNull "path")

/-- The diagnostic that a value stands for. -/
def ofJson? : Json → Option Diagnostic
  | .array items    => ofItems? items
  | .object members => ofMembers? members
  | _               => none

open Json in
/-- Reads an object or array of parts; what is no part is passed over and stands as null. -/
def readParts : Reader Json :=
  let part (name : String) : Reader Json :=
    if partNames.contains name then readTree else fun s => (skipForm s).map fun (_, r) => (.null, r)
  fun s =>
    match h : skipBlank s with
    | '{' :: r =>
      (readMembers Literal.read part r).map fun (ms, t) => (.object ms, (Rest.ofToken h).trans t)
    | _        => readTree s

/-- Reads a diagnostic. -/
def decode? (text : List Char) : Option Diagnostic :=
  (Json.readText readParts text).toOption.bind ofJson?

end Diagnostic

end FlowLint
