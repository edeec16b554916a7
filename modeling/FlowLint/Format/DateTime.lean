import FlowLint.Binary64.Decimal

/-!
Dates and times with an offset from universal time, as in `2016-03-14T01:59:00Z`.
-/

namespace FlowLint.Format.DateTime

/-- Exactly `n` digits, as a number. -/
def digits? : Nat → Nat → List Char → Option (Nat × List Char)
  | 0,     v, cs      => some (v, cs)
  | n + 1, v, c :: cs => if c.isDigit then digits? n (10 * v + (c.toNat - '0'.toNat)) cs else none
  | _ + 1, _, []      => none

/-- One of the given characters. -/
def mark? (marks : List Char) : List Char → Option (List Char)
  | c :: cs => if marks.contains c then some cs else none
  | []      => none

/-- A year of 366 days in the Gregorian calendar, which is taken to hold for all years. -/
def isLeapYear (year : Nat) : Bool := year % 4 == 0 && (year % 100 != 0 || year % 400 == 0)

/-- The days of a month, none in a month that does not exist. -/
def daysInMonth (year month : Nat) : Nat :=
  if month ∈ [1, 3, 5, 7, 8, 10, 12] then 31
  else if month ∈ [4, 6, 9, 11] then 30
  else if month = 2 then if isLeapYear year then 29 else 28
  else 0

/-- A date of the calendar, and what follows it. -/
def date? (cs : List Char) : Option (List Char) := do
  let (year, cs) ← digits? 4 0 cs
  let cs ← mark? ['-'] cs
  let (month, cs) ← digits? 2 0 cs
  let cs ← mark? ['-'] cs
  let (day, cs) ← digits? 2 0 cs
  if 1 ≤ day ∧ day ≤ daysInMonth year month then some cs else none

/-- A time of the day, of which any minute may have a second 60, and what follows it. -/
def time? (cs : List Char) : Option (List Char) := do
  let (hour, cs) ← digits? 2 0 cs
  let cs ← mark? [':'] cs
  let (minute, cs) ← digits? 2 0 cs
  let cs ← mark? [':'] cs
  let (second, cs) ← digits? 2 0 cs
  if hour ≤ 23 ∧ minute ≤ 59 ∧ second ≤ 60 then some cs else none

/-- What follows a fraction of a second, which need not be there. -/
def fraction? : List Char → Option (List Char)
  | '.' :: cs => if (Decimal.digitRun cs).1.isEmpty then none else some (Decimal.digitRun cs).2
  | cs        => some cs

/-- An offset from universal time of less than a day; the minus sign may be U+2212. -/
def isOffset (cs : List Char) : Bool :=
  cs == ['Z'] || cs == ['z'] || Option.isSome do
    let cs ← mark? ['+', '-', '\u2212'] cs
    let (hour, cs) ← digits? 2 0 cs
    let cs ← mark? [':'] cs
    let (minute, cs) ← digits? 2 0 cs
    if hour ≤ 23 ∧ minute ≤ 59 ∧ cs = [] then some () else none

/-- A date, a time and an offset. -/
def isValid (s : String) : Bool :=
  match date? s.toList >>= mark? ['T', 't', ' '] >>= time? >>= fraction? with
  | some cs => isOffset cs
  | none    => false

end FlowLint.Format.DateTime
