import FlowLint.Json.Fault
import FlowLint.Text.Digit

/-!
The characters of a string literal, from after its opening quote to its closing quote. A character
is written as itself, as a backslash and a letter, or as its code in four hex digits; a code beyond
U+FFFF takes a pair of such escapes.
-/

namespace FlowLint.Json.Literal

/-- The number that four hex digits stand for. -/
def code? (a b c d : Char) : Option Nat := do
  let a ← Text.hexDigit? a
  let b ← Text.hexDigit? b
  let c ← Text.hexDigit? c
  let d ← Text.hexDigit? d
  return ((a * 16 + b) * 16 + c) * 16 + d

/-- A fault where four hex digits should be: the text ends within the next four bytes, or those are
    read and found wrong. -/
def codeFault (s : List Char) : Fault :=
  if Text.byteLength (s.take 4) < 4 then .before .endOfString [] else ⟨.invalidEscape, s, 4⟩

/-- Reads four hex digits. -/
def readCode : Reader Nat
  | a :: b :: c :: d :: s =>
    match code? a b c d with
    | some n => .ok (n, .cons a (.cons b (.cons c (.tail d s))))
    | none   => .error (codeFault (a :: b :: c :: d :: s))
  | s                     => .error (codeFault s)

/-- The first half of a pair. -/
def isLeading (n : Nat) : Bool := 0xD800 ≤ n && n ≤ 0xDBFF

/-- The second half of a pair. -/
def isTrailing (n : Nat) : Bool := 0xDC00 ≤ n && n ≤ 0xDFFF

/-- The character that a pair stands for. -/
def pairChar (lead trail : Nat) : Char :=
  .ofNat (0x10000 + (lead - 0xD800) * 0x400 + (trail - 0xDC00))

/-- The second half of a pair, with its escape. -/
def readTrailing : Reader Nat
  | '\\' :: 'u' :: s => do
    let (n, r) ← readCode s
    if isTrailing n then return (n, ⟨r.val, by grind⟩) else .error (.before .loneSurrogate r.val)
  | '\\' :: c :: s   => .error (.onNext .unfinishedPair (c :: s))
  | ['\\']           => .error (.before .endOfString [])
  | c :: s           => .error (.onNext .unfinishedPair (c :: s))
  | []               => .error (.before .endOfString [])

/-- The character that stands after a backslash and a `u`: one code, or a pair. -/
def readCodePoint : Reader Char := fun s => do
  let (n, r) ← readCode s
  if isTrailing n then .error (.before .loneSurrogate r.val)
  else if isLeading n then do
    let (m, t) ← readTrailing r.val
    return (pairChar n m, r.trans t)
  else return (.ofNat n, r)

/-- The character that a backslash and a letter stand for. -/
def ofLetter? : Char → Option Char
  | '"'  => some '"'
  | '\\' => some '\\'
  | '/'  => some '/'
  | 'b'  => some '\x08'
  | 'f'  => some '\x0c'
  | 'n'  => some '\n'
  | 'r'  => some '\r'
  | 't'  => some '\t'
  | _    => none

/-- What stands after a backslash; `coded` reads what follows a `u`. -/
def readEscape (coded : Reader Char) : Reader Char
  | []       => .error (.before .endOfString [])
  | 'u' :: s => (coded s).map fun (c, r) => (c, (Rest.tail 'u' s).trans r)
  | e :: s   =>
    match ofLetter? e with
    | some c => .ok (c, .tail e s)
    | none   => .error (.onNext .invalidEscape (e :: s))

/-- The characters up to the closing quote, which is read too. -/
def readBody (coded : Reader Char) (s : List Char) : Except Fault (List Char × Rest s) :=
  match s with
  | []        => .error (.before .endOfString [])
  | '"' :: s  => .ok ([], .tail '"' s)
  | '\\' :: s => do
    let (c, r) ← readEscape coded s
    let (cs, t) ← readBody coded r.val
    return (c :: cs, (Rest.tail '\\' s).trans (r.trans t))
  | c :: s    =>
    if c.toNat < 0x20 then .error (.onNext .controlCharacter (c :: s))
    else do
      let (cs, r) ← readBody coded s
      return (c :: cs, (Rest.tail c s).trans r)
termination_by s.length

/-- The text of a literal. -/
def read : Reader String := fun s => do
  let (cs, r) ← readBody readCodePoint s
  return (.ofList cs, r)

/-- Passes over a literal whose text is not wanted: a code may be any four hex digits. -/
def skip : Reader Unit := fun s => do
  let (_, r) ← readBody (fun t => (readCode t).map fun (n, u) => (.ofNat n, u)) s
  return ((), r)

end FlowLint.Json.Literal
