import FlowLint.Json.Basic
import FlowLint.Json.Fault
import FlowLint.Binary64.Decimal

/-!
Numbers as a JSON text writes them, and the value that one stands for. The significand is gathered
in 64 bits and then scaled by a power of ten in floating point, so the last bit of a long number may
differ from the nearest float.
-/

namespace FlowLint.Json

/-- A written number: the digits before the point, those after it, and the exponent. -/
structure Numeral where
  negative : Bool
  whole    : List Char
  fraction : List Char
  exponent : Option (Bool × List Char)
  deriving DecidableEq, Repr

namespace Numeral

/-! ### The form -/

theorem length_digitRun_le (s : List Char) : (Decimal.digitRun s).2.length ≤ s.length :=
  (List.dropWhile_suffix _).length_le

/-- What is left after a digit and those that follow it. -/
def afterDigits (c : Char) (s : List Char) : Rest (c :: s) :=
  ⟨(Decimal.digitRun s).2, Nat.lt_succ_of_le (length_digitRun_le s)⟩

/-- The digits before the point: one zero, or digits that start with no zero. -/
def readWhole : Reader (List Char)
  | []       => .error (.before .endOfValue [])
  | '0' :: s =>
    match s with
    | []     => .ok (['0'], .tail '0' [])
    | c :: r =>
      if c.isDigit then .error (.onNext .invalidNumber (c :: r))
      else .ok (['0'], .tail '0' (c :: r))
  | c :: s   =>
    if c.isDigit then .ok (c :: (Decimal.digitRun s).1, afterDigits c s)
    else .error (.onNext .invalidNumber (c :: s))

/-- The digits after the point, none where there is no point. -/
def readFraction (s : List Char) : Except Fault (List Char × Remainder s) :=
  match s with
  | '.' :: r =>
    match Decimal.digitRun r, length_digitRun_le r with
    | ([], _),      _ => .error (.onNext (if r.isEmpty then .endOfValue else .invalidNumber) r)
    | (d :: ds, t), h => .ok (d :: ds, ⟨t, Nat.le_succ_of_le h⟩)
  | r        => .ok ([], .all r)

/-- The digits of an exponent, of which there is at least one. -/
def readExponentDigits : Reader (List Char)
  | []     => .error (.before .endOfValue [])
  | c :: s =>
    if c.isDigit then .ok (c :: (Decimal.digitRun s).1, afterDigits c s)
    else .error (.onNext .invalidNumber (c :: s))

/-- The sign and the digits of the exponent, none where there is no mark of one. -/
def readExponent (s : List Char) : Except Fault (Option (Bool × List Char) × Remainder s) :=
  match s with
  | []     => .ok (none, .all [])
  | c :: r =>
    if c == 'e' || c == 'E' then
      match r with
      | '-' :: t =>
        (readExponentDigits t).map fun (ds, u) => (some (true, ds), .cons c (.cons '-' u.remainder))
      | '+' :: t =>
        (readExponentDigits t).map fun (ds, u) =>
          (some (false, ds), .cons c (.cons '+' u.remainder))
      | t        =>
        (readExponentDigits t).map fun (ds, u) => (some (false, ds), .cons c u.remainder)
    else .ok (none, .all (c :: r))

/-- A number without its sign. -/
def readUnsigned (negative : Bool) : Reader Numeral := fun s => do
  let (whole, r) ← readWhole s
  let (fraction, t) ← readFraction r.val
  let (exponent, u) ← readExponent t.val
  return (⟨negative, whole, fraction, exponent⟩, ⟨u.val, by grind⟩)

/-- Reads a number. It ends where it can no longer go on; what follows is left to the caller. -/
def read : Reader Numeral
  | '-' :: s => (readUnsigned true s).map fun (n, r) => (n, (Rest.tail '-' s).trans r)
  | s        => readUnsigned false s

/-! ### The value -/

/-- The largest significand. -/
def maxSignificand : Nat := 0xFFFFFFFFFFFFFFFF

/-- The largest exponent that is written out. -/
def maxExponent : Nat := 0x7FFFFFFF

/-- Appends digits to a significand while it does not exceed `bound`; also the digits left over. -/
def gather (bound n : Nat) : List Char → Nat × List Char
  | []      => (n, [])
  | d :: ds =>
    let m := 10 * n + (d.toNat - '0'.toNat)
    if bound < m then (n, d :: ds) else gather bound m ds

/-- `units` · 10^`e`, rounded at each step: one power of ten up to 10^308, and before that a
    division by 10^308 as often as it takes. None where the result is beyond all numbers. -/
def scale (units : Nat) (e : Int) : Option Nat :=
  if e.natAbs ≤ 308 then
    if 0 ≤ e then Binary64.mul? units (Binary64.ofNat (Nat.pow 10 e.natAbs))
    else some (Binary64.div units (Binary64.ofNat (Nat.pow 10 e.natAbs)))
  else if units = 0 then some 0
  else if 0 ≤ e then none
  else scale (Binary64.div units (Binary64.ofNat (Nat.pow 10 308))) (e + 308)
termination_by e.natAbs

/-- Written without point and exponent. -/
def isInteger (n : Numeral) : Bool := n.fraction.isEmpty && n.exponent.isNone

/-- The significand and the power of ten that goes with it, the written exponent left aside. Digits
    before the point that do not fit raise the power, digits after it that fit lower it. -/
def significand (n : Numeral) : Nat × Int :=
  let (w, beyond) := gather maxSignificand 0 n.whole
  let (f, rest) := gather maxSignificand w n.fraction
  (f, beyond.length - (n.fraction.length - rest.length : Nat))

/-- The digits after the one that makes the exponent too large to hold. -/
def exponentExcess? (ds : List Char) : Option (List Char) := (gather maxExponent 0 ds).2.tail?

/-- The value as a float; `rest` is the text after the number. -/
def toFloat (n : Numeral) (rest : List Char) : Except Fault Number :=
  let (f, power) := n.significand
  let (down, ds) := n.exponent.getD (false, [])
  match exponentExcess? ds with
  | some excess =>
    if f ≠ 0 ∧ !down then .error (.before .numberOutOfRange (excess ++ rest))
    else .ok (.float ⟨n.negative, 0⟩)
  | none        =>
    let written : Int := Decimal.digitsValue ds
    match scale (Binary64.ofNat f) (if down then power - written else power + written) with
    | some units => .ok (.float ⟨n.negative, units⟩)
    | none       => .error (.before .numberOutOfRange rest)

/-- The value: an integer if it is written as one and fits 64 bits, signed or not, else a float. A
    negative zero is a float, as no integer is that. -/
def value (n : Numeral) (rest : List Char) : Except Fault Number :=
  let whole := Decimal.digitsValue n.whole
  if n.isInteger ∧ whole ≤ maxSignificand then
    if !n.negative then .ok (.int whole)
    else if whole = 0 ∨ 0x8000000000000000 < whole then .ok (.float ⟨true, Binary64.ofNat whole⟩)
    else .ok (.int (-whole))
  else n.toFloat rest

end Numeral

end FlowLint.Json
