/-!
The three notions of blank space that the formats use: what may stand between JSON tokens, what the
locator skips, and what is trimmed off a timestamp.
-/

namespace FlowLint.Text

/-- What JSON admits between tokens: space, tab, line feed and carriage return. -/
def isJsonBlank (c : Char) : Bool := c == ' ' || c == '\t' || c == '\n' || c == '\r'

/-- ASCII blank space: the JSON blanks and the form feed. -/
def isAsciiBlank (c : Char) : Bool := isJsonBlank c || c == '\x0c'

/-- The code points with the Unicode property White_Space. -/
def whiteSpace : List Nat :=
  [0x09, 0x0A, 0x0B, 0x0C, 0x0D, 0x20, 0x85, 0xA0, 0x1680,
   0x2000, 0x2001, 0x2002, 0x2003, 0x2004, 0x2005, 0x2006, 0x2007, 0x2008, 0x2009, 0x200A,
   0x2028, 0x2029, 0x202F, 0x205F, 0x3000]

/-- Blank in the sense of Unicode. -/
def isBlank (c : Char) : Bool := whiteSpace.contains c.toNat

theorem isAsciiBlank_of_isJsonBlank {c : Char} (h : isJsonBlank c) : isAsciiBlank c := by
  simp [isAsciiBlank, h]

/-- Drops the characters that satisfy `p` from both ends. -/
def trim (p : Char → Bool) (cs : List Char) : List Char :=
  ((cs.dropWhile p).reverse.dropWhile p).reverse

end FlowLint.Text
