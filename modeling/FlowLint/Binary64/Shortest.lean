import FlowLint.Binary64.Basic

/-!
The shortest decimal that reads back as a given 64-bit number, written without an exponent. The
reals that round to the number form an interval, which holds its ends when the significand is even;
the coarsest decimal grid with a point in that interval gives the digits, and of two such points the
nearer one, the upper on a tie.
-/

namespace FlowLint.Binary64

/-- The grids tried have the steps 10^(j − `finest`); no number needs a finer one. -/
def finest : Nat := 1100

/-- A number and the interval of the reals that round to it, as counts of one common unit, and the
    count that makes up the finest grid's step. -/
structure Neighbourhood where
  low    : Nat
  value  : Nat
  high   : Nat
  closed : Bool
  step   : Nat

/-- The neighbourhood of a positive number, in quarters of 2^-1074 · 10^-`finest`. Below a power of
    two the neighbours are half as far apart as above it. -/
def neighbourhood (units : Nat) : Neighbourhood :=
  let gap := gap units
  let scale := Nat.pow 10 finest
  { low    := (4 * units - if units = Nat.pow 2 52 * gap then gap else 2 * gap) * scale
    value  := 4 * units * scale
    high   := (4 * units + 2 * gap) * scale
    closed := units / gap % 2 == 0
    step   := 4 * one }

namespace Neighbourhood

/-- Whether a real between the neighbours rounds to the number. -/
def holds (v : Neighbourhood) (x : Nat) : Bool :=
  if v.closed then v.low ≤ x && x ≤ v.high else v.low < x && x < v.high

/-- The multiple of `step` that the grid offers: of the two around the value those that the
    neighbourhood holds, the nearer one, the upper on a tie. -/
def onGrid? (v : Neighbourhood) (step : Nat) : Option Nat :=
  let k := v.value / step
  let up := v.holds ((k + 1) * step)
  if v.holds (k * step) then some (if up && step ≤ 2 * (v.value % step) then k + 1 else k)
  else if up then some (k + 1)
  else none

/-- The first hit from grid `j` down to the finest: the multiple and its grid. -/
def shortest (v : Neighbourhood) : Nat → Nat × Nat
  | 0     => (v.value / v.step, 0)
  | j + 1 =>
    match v.onGrid? (Nat.pow 10 (j + 1) * v.step) with
    | some k => (k, j + 1)
    | none   => v.shortest j

end Neighbourhood

/-- The digits of `k` · 10^(`j` − `finest`) with a point only where digits follow it. -/
def positional (k j : Nat) : List Char :=
  let ds := Nat.toDigits 10 k
  if finest ≤ j then ds ++ List.replicate (j - finest) '0'
  else
    let places := finest - j
    let padded := List.replicate (places + 1 - ds.length) '0' ++ ds
    let whole := padded.length - places
    padded.take whole ++ '.' :: padded.drop whole

/-- The text of a number: the fewest digits that read back, positional, with a minus sign also on a
    negative zero. -/
def toText (x : Binary64) : List Char :=
  let magnitude :=
    if x.units = 0 then ['0']
    else
      let top := finest + (Nat.toDigits 10 (x.units / one)).length + 1
      let (k, j) := (neighbourhood x.units).shortest top
      positional k j
  if x.negative then '-' :: magnitude else magnitude

end FlowLint.Binary64
