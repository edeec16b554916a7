import FlowLint.Text.Blank
import FlowLint.Text.Layout

/-!
What can be wrong with a JSON text and where a reader was when it noticed. A fault holds the text
that was left, so the offset follows from the lengths; `SyntaxError` is the fault as a position.
-/

namespace FlowLint.Json

/-- Why a text is no JSON. -/
inductive SyntaxCause where
  | endOfValue | endOfList | endOfObject | endOfString
  | expectedValue | expectedKeyword | expectedColon
  | expectedListSeparator | expectedObjectSeparator
  | keyNotString | trailingComma | trailingCharacters | tooDeep
  | controlCharacter | invalidEscape | loneSurrogate | unfinishedPair
  | invalidNumber | numberOutOfRange
  deriving DecidableEq, Repr

/-- The wording of a cause. -/
def SyntaxCause.message : SyntaxCause → String
  | .endOfValue              => "EOF while parsing a value"
  | .endOfList               => "EOF while parsing a list"
  | .endOfObject             => "EOF while parsing an object"
  | .endOfString             => "EOF while parsing a string"
  | .expectedValue           => "expected value"
  | .expectedKeyword         => "expected ident"
  | .expectedColon           => "expected `:`"
  | .expectedListSeparator   => "expected `,` or `]`"
  | .expectedObjectSeparator => "expected `,` or `\x7d`"
  | .keyNotString            => "key must be a string"
  | .trailingComma           => "trailing comma"
  | .trailingCharacters      => "trailing characters"
  | .tooDeep                 => "recursion limit exceeded"
  | .controlCharacter        => "control character (\\u0000-\\u001F) found while parsing a string"
  | .invalidEscape           => "invalid escape"
  | .loneSurrogate           => "lone leading surrogate in hex escape"
  | .unfinishedPair          => "unexpected end of hex escape"
  | .invalidNumber           => "invalid number"
  | .numberOutOfRange        => "number out of range"

/-- A cause, the text left where it was noticed, and the bytes of it that count as read. -/
structure Fault where
  cause : SyntaxCause
  rest  : List Char
  ahead : Nat
  deriving DecidableEq, Repr

namespace Fault

/-- A fault in the next byte, which counts as read. -/
def onNext (cause : SyntaxCause) (rest : List Char) : Fault := ⟨cause, rest, 1⟩

/-- A fault in what was read, with nothing of the rest. -/
def before (cause : SyntaxCause) (rest : List Char) : Fault := ⟨cause, rest, 0⟩

/-- The bytes of `text` that were read; the end of the text is as far as a reader gets. -/
def taken (text : List Char) (f : Fault) : Nat :=
  min (Text.byteLength text) (Text.byteLength text - Text.byteLength f.rest + f.ahead)

end Fault

/-- A cause and where the reader stood; the column counts bytes and is 0 right after a line feed. -/
structure SyntaxError where
  cause    : SyntaxCause
  position : Text.Position
  deriving DecidableEq, Repr

/-- A fault in `text` as a position. -/
def Fault.toError (text : List Char) (f : Fault) : SyntaxError :=
  ⟨f.cause, Text.readerPosition text (f.taken text)⟩

/-- The wording with the position. -/
def SyntaxError.describe (e : SyntaxError) : String :=
  s!"{e.cause.message} at line {e.position.line} column {e.position.column}"

/-! ### Readers -/

/-- What is left of `s` after something of it was read. -/
abbrev Rest (s : List Char) := { r : List Char // r.length < s.length }

/-- What is left of `s` after something of it or nothing was read. -/
abbrev Remainder (s : List Char) := { r : List Char // r.length ≤ s.length }

/-- Reads from the front of a text. -/
abbrev Reader (α : Type) := (s : List Char) → Except Fault (α × Rest s)

namespace Rest

/-- All but the first character. -/
def tail (c : Char) (s : List Char) : Rest (c :: s) := ⟨s, Nat.lt_succ_self _⟩

/-- What is left of what is left. -/
def trans {s : List Char} (r : Rest s) (t : Rest r.val) : Rest s := ⟨t.val, Nat.lt_trans t.2 r.2⟩

/-- What is left of an end of `s`. -/
def ofLe {s t : List Char} (h : t.length ≤ s.length) (r : Rest t) : Rest s :=
  ⟨r.val, Nat.lt_of_lt_of_le r.2 h⟩

/-- What is left of a text after its first character. -/
def cons {s : List Char} (c : Char) (r : Rest s) : Rest (c :: s) := ⟨r.val, Nat.lt_succ_of_lt r.2⟩

def remainder {s : List Char} (r : Rest s) : Remainder s := ⟨r.val, Nat.le_of_lt r.2⟩

@[simp] theorem val_tail (c : Char) (s : List Char) : (tail c s).val = s := rfl

@[simp] theorem val_cons {s : List Char} (c : Char) (r : Rest s) : (r.cons c).val = r.val := rfl

@[simp] theorem val_remainder {s : List Char} (r : Rest s) : r.remainder.val = r.val := rfl

end Rest

namespace Remainder

/-- All of the text. -/
def all (s : List Char) : Remainder s := ⟨s, Nat.le_refl _⟩

/-- As `Rest.cons`. -/
def cons {s : List Char} (c : Char) (r : Remainder s) : Remainder (c :: s) :=
  ⟨r.val, Nat.le_succ_of_le r.2⟩

@[simp] theorem val_all (s : List Char) : (all s).val = s := rfl

@[simp] theorem val_cons {s : List Char} (c : Char) (r : Remainder s) : (r.cons c).val = r.val :=
  rfl

end Remainder

/-- The text from the next token on. -/
def skipBlank (s : List Char) : List Char := s.dropWhile Text.isJsonBlank

theorem length_skipBlank_le (s : List Char) : (skipBlank s).length ≤ s.length :=
  (List.dropWhile_suffix _).length_le

end FlowLint.Json
