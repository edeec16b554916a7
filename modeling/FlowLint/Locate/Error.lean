import FlowLint.Locate.Skip
import FlowLint.Path.Basic

/-!
Failures of the locator: malformed text met on the way to a value. That a path does not exist is not
one of them.
-/

namespace FlowLint

/-- What stopped the walk, at which byte and, apart from a malformed name, on the way to which
    path. -/
inductive LocateError where
  | unexpectedEnd (offset : Nat) (path : Path)
  | unexpectedChar (found : Char) (offset : Nat) (path : Path)
  | invalidString (offset : Nat) (reason : Json.SyntaxError)
  deriving DecidableEq, Repr

/-- The wording. The position in the reason counts from the start of the name. -/
def LocateError.message : LocateError → String
  | .unexpectedEnd offset path =>
    s!"unexpected end of input at byte {offset} while locating '{path.text}'"
  | .unexpectedChar found offset path =>
    s!"unexpected character '{found}' at byte {offset} while locating '{path.text}'"
  | .invalidString offset reason =>
    s!"invalid string literal at byte {offset}: {reason.describe}"

/-- The bytes of `text` before `rest`, which is an end of it. -/
def Locate.offsetOf (text rest : List Char) : Nat := Text.byteLength text - Text.byteLength rest

/-- What a walk over `text` towards `path` reports. -/
def Locate.Snag.toError (text : List Char) (path : Path) : Snag → LocateError
  | .ended                    => .unexpectedEnd (Text.byteLength text) path
  | .unexpected found after   => .unexpectedChar found (offsetOf text (found :: after)) path
  | .invalidName start reason => .invalidString (offsetOf text start) reason

end FlowLint
