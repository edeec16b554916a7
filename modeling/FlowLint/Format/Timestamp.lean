import FlowLint.Binary64.Decimal
import FlowLint.Format.Basic
import FlowLint.Text.Blank

/-!
Timestamps in text: a finite number of milliseconds, or a date and a time. Blanks around either do
not count.
-/

namespace FlowLint.Format.Timestamp

/-- A decimal that is not beyond the 64-bit numbers. -/
def isFiniteNumber (cs : List Char) : Bool := ((Decimal.ofText? cs).bind Decimal.toBinary64?).isSome

/-- The text is a timestamp. -/
def isValid [Formats] (s : String) : Bool :=
  let cs := Text.trim Text.isBlank s.toList
  !cs.isEmpty && (isFiniteNumber cs || Formats.isDateTime (.ofList cs))

end FlowLint.Format.Timestamp
