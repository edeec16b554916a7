import FlowLint.Binary64.Decimal
import FlowLint.Text.Digit
import FlowLint.Text.Pieces

/-!
Hosts of URIs: numeric addresses, domains and opaque names. Only whether a host is acceptable is
decided, and for domains only as far as ASCII goes: the tables of internationalised names are not
consulted, so whatever is beyond ASCII is let through, and so is a label that encodes it.
-/

namespace FlowLint.Format.Host

/-! ### Addresses of version 6 -/

/-- One to four hex digits. -/
def isGroup (cs : List Char) : Bool :=
  1 ≤ cs.length && cs.length ≤ 4 && cs.all fun c => (Text.hexDigit? c).isSome

/-- A number up to 255 without leading zeros. -/
def isOctet (cs : List Char) : Bool :=
  !cs.isEmpty && cs.all Char.isDigit && Decimal.digitsValue cs ≤ 255
    && (cs.length == 1 || cs.head? != some '0')

/-- Four octets between points. -/
def isDotted (cs : List Char) : Bool :=
  let parts := Text.pieces '.' cs
  parts.length == 4 && parts.all isOctet

/-- How many groups a run of them has, none if it is not one. At the end of an address the last two
    may be written as four octets. -/
def groups? (atEnd : Bool) : List (List Char) → Option Nat
  | []      => some 0
  | [g]     => if isGroup g then some 1 else if atEnd && isDotted g then some 2 else none
  | g :: gs => if isGroup g then (groups? atEnd gs).map (· + 1) else none

/-- The groups of a run that may be empty. -/
def runGroups? (atEnd : Bool) (cs : List Char) : Option Nat :=
  if cs.isEmpty then some 0 else groups? atEnd (Text.pieces ':' cs)

/-- Eight groups, or fewer with one pair of colons in place of the others. -/
def isVersion6 (cs : List Char) : Bool :=
  match Text.cutAtPair? ':' cs with
  | none                 => runGroups? true cs == some 8
  | some (before, after) =>
    match runGroups? false before, runGroups? true after with
    | some m, some n => m + n ≤ 7
    | _,      _      => false

/-- An address in brackets. -/
def isBracketed (cs : List Char) : Bool := cs.getLast? == some ']' && isVersion6 cs.tail.dropLast

/-! ### Addresses of version 4 -/

/-- The number that digits spell in a base, none if one is no digit there. -/
def number? (base : Nat) (cs : List Char) : Option Nat :=
  cs.foldl (fun n c => do
    let n ← n
    let d ← Text.hexDigit? c
    if d < base then some (base * n + d) else none) (some 0)

/-- A part of an address: hexadecimal after `0x`, octal after another leading zero, else decimal. -/
def part? : List Char → Option Nat
  | []             => none
  | '0' :: 'x' :: cs => number? 16 cs
  | '0' :: 'X' :: cs => number? 16 cs
  | '0' :: c :: cs => number? 8 (c :: cs)
  | cs             => number? 10 cs

/-- The parts between points, less one empty part at the end. -/
def parts (cs : List Char) : List (List Char) :=
  let ps := Text.pieces '.' cs
  if 1 < ps.length ∧ ps.getLast? = some [] then ps.dropLast else ps

/-- A name whose last part is a number must be an address. -/
def endsInNumber (cs : List Char) : Bool :=
  match (parts cs).getLast? with
  | some p => (!p.isEmpty && p.all Char.isDigit) || (part? p).isSome
  | none   => false

/-- One to four numbers; all but the last are octets, and the last fills what they leave. -/
def isVersion4 (cs : List Char) : Bool :=
  match (parts cs).mapM part? with
  | some ns =>
    1 ≤ ns.length && ns.length ≤ 4 && ns.dropLast.all (· ≤ 255)
      && ns.getLast?.any (· < Nat.pow 256 (5 - ns.length))
  | none    => false

/-! ### Names -/

/-- What no name may hold. -/
def delimiters : List Char := "#/:<>?@[\\]^|".toList

/-- The bytes of a name, in which a `%` and two hex digits stand for a byte. -/
def percentBytes : List Char → List UInt8
  | []           => []
  | '%' :: a :: b :: cs =>
    match Text.hexDigit? a, Text.hexDigit? b with
    | some m, some n => .ofNat (16 * m + n) :: percentBytes cs
    | _,      _      => String.utf8EncodeChar '%' ++ percentBytes (a :: b :: cs)
  | c :: cs      => String.utf8EncodeChar c ++ percentBytes cs

/-- The characters of a name, none if its bytes are no text. -/
def percentDecoded? (cs : List Char) : Option (List Char) :=
  (String.fromUTF8? ⟨(percentBytes cs).toArray⟩).map String.toList

/-- A character that a domain may hold. The one that stands in for what is no text is none. -/
def isDomainChar (c : Char) : Bool :=
  0x20 < c.toNat && c.toNat != 0x7F && c != '%' && c != '\ufffd' && !delimiters.contains c

/-- A domain, or an address of version 4. -/
def isDomain (cs : List Char) : Bool :=
  match percentDecoded? cs with
  | some cs => cs.all isDomainChar && (!endsInNumber cs || isVersion4 cs)
  | none    => false

/-- A character that an opaque name may hold. -/
def isOpaqueChar (c : Char) : Bool :=
  !(['\x00', '\t', '\n', '\r', ' '].contains c) && !delimiters.contains c

/-- The host of a scheme with a network address. -/
def isNetworkHost (cs : List Char) : Bool :=
  if cs.head? == some '[' then isBracketed cs else isDomain cs

/-- The host of any other scheme. -/
def isOpaqueHost (cs : List Char) : Bool :=
  if cs.head? == some '[' then isBracketed cs else cs.all isOpaqueChar

end FlowLint.Format.Host
