import FlowLint.Binary64.Basic

/-!
Decimal numbers as text and the 64-bit number nearest to one. A decimal is written with a sign,
digits that may hold a point, and an exponent; only the digits must be there.
-/

namespace FlowLint

/-- The number ± `digits` · 10^`exponent`. -/
structure Decimal where
  negative : Bool
  digits   : Nat
  exponent : Int
  deriving DecidableEq, Repr

namespace Decimal

/-- The sign that a text may start with, and the rest. -/
def sign : List Char → Bool × List Char
  | '-' :: cs => (true, cs)
  | '+' :: cs => (false, cs)
  | cs        => (false, cs)

/-- The digits that a text starts with, and the rest. -/
def digitRun (cs : List Char) : List Char × List Char :=
  (cs.takeWhile Char.isDigit, cs.dropWhile Char.isDigit)

/-- The number that digits spell. -/
def digitsValue (ds : List Char) : Nat := Nat.ofDigitChars 10 ds 0

/-- What follows the digits: nothing, or a mark, a sign and the digits of the exponent. -/
def exponentOf? : List Char → Option Int
  | []      => some 0
  | c :: cs =>
    let (negative, ds) := sign cs
    if (c == 'e' || c == 'E') && !ds.isEmpty && ds.all Char.isDigit then
      some (if negative then -digitsValue ds else digitsValue ds)
    else none

/-- Reads a decimal, which must be the whole text. At least one digit stands before or after the
    point. -/
def ofText? (cs : List Char) : Option Decimal :=
  let (negative, cs) := sign cs
  let (whole, cs) := digitRun cs
  let (fraction, cs) := match cs with
    | '.' :: cs => digitRun cs
    | cs        => ([], cs)
  if whole.isEmpty && fraction.isEmpty then none
  else (exponentOf? cs).map fun e =>
    ⟨negative, digitsValue (whole ++ fraction), e - fraction.length⟩

/-- The least power of ten above a number has this exponent. -/
def width (n : Nat) : Nat := (Nat.toDigits 10 n).length

/-- The nearest 64-bit number, none if the decimal is beyond all of them. Exponents far outside the
    range are told by the count of digits alone, so their powers are never computed. -/
def toBinary64? (d : Decimal) : Option Binary64 :=
  let magnitude := d.exponent + width d.digits
  if d.digits = 0 ∨ magnitude < -330 then some ⟨d.negative, 0⟩
  else if 310 < magnitude then none
  else
    let up := Nat.pow 10 d.exponent.toNat
    let down := Nat.pow 10 (-d.exponent).toNat
    (Binary64.roundUnits? (d.digits * up * Binary64.one) down).map (⟨d.negative, ·⟩)

end Decimal

end FlowLint
