/-!
Binary floating point of 64 bits, without infinities and not-a-numbers. A number is a sign and a
whole count of the least positive number, 2^-1074, so sums and comparisons are those of integers and
rounding is the only thing left to define. The operations give only counts that 64 bits can hold.
-/

namespace FlowLint

/-- The number ± `units` · 2^-1074. -/
structure Binary64 where
  negative : Bool
  units    : Nat
  deriving DecidableEq, Repr

namespace Binary64

/-- The units of the number one. -/
def one : Nat := Nat.pow 2 1074

/-- The first count of units beyond all numbers: 2^1024. -/
def limit : Nat := Nat.pow 2 2098

/-- The distance between neighbours around `units`: 53 significant bits are kept. -/
def gap (units : Nat) : Nat := Nat.pow 2 (units.log2 - 52)

/-- `num / den` to the nearest whole number, a half to the even neighbour. -/
def roundHalfEven (num den : Nat) : Nat :=
  let q := num / den
  let r := 2 * (num % den)
  if r < den then q else if den < r then q + 1 else q + q % 2

/-- `num / den` units to the nearest number, a half to the one with an even significand. -/
def roundUnits (num den : Nat) : Nat :=
  let step := gap (num / den)
  roundHalfEven num (den * step) * step

/-- As `roundUnits`, and none where that is beyond all numbers. -/
def roundUnits? (num den : Nat) : Option Nat :=
  let units := roundUnits num den
  if units < limit then some units else none

/-- The units of the number nearest to `n`, for `n` below 2^1023. -/
def ofNat (n : Nat) : Nat := roundUnits (n * one) 1

/-- The number nearest to `n`. -/
def ofInt (n : Int) : Binary64 := ⟨n < 0, ofNat n.natAbs⟩

/-- The units of a product, none if it is beyond all numbers. -/
def mul? (a b : Nat) : Option Nat := roundUnits? (a * b) one

/-- The units of a quotient. -/
def div (a b : Nat) : Nat := roundUnits (a * one) b

/-- The units with their sign. -/
def signed (x : Binary64) : Int := if x.negative then -x.units else x.units

/-- The order of the numbers; the two zeros are equal. -/
def lt (x y : Binary64) : Bool := x.signed < y.signed

/-- A whole number. -/
def isWhole (x : Binary64) : Bool := x.units % one == 0

/-- The binary interchange format: sign, 11 bits of exponent, 52 bits of significand. -/
def bits (x : Binary64) : Nat :=
  let shift := x.units.log2 - 52
  (if x.negative then Nat.pow 2 63 else 0) + shift * Nat.pow 2 52 + x.units / Nat.pow 2 shift

end Binary64

end FlowLint
