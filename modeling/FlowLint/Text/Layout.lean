/-!
How a text is laid out: the bytes its characters take in UTF-8, the line and column on which a byte
falls, and the text of each line. Lines and columns start at 1.
-/

namespace FlowLint.Text

/-- The bytes that a run of characters takes. -/
def byteLength : List Char → Nat
  | []      => 0
  | c :: cs => c.utf8Size + byteLength cs

@[simp] theorem byteLength_nil : byteLength [] = 0 := rfl

@[simp] theorem byteLength_cons (c : Char) (cs : List Char) :
    byteLength (c :: cs) = c.utf8Size + byteLength cs := rfl

@[simp] theorem byteLength_append (cs ds : List Char) :
    byteLength (cs ++ ds) = byteLength cs + byteLength ds := by
  induction cs with
  | nil => simp
  | cons c cs ih => simp [ih, Nat.add_assoc]

/-- The characters that start before byte `n`. -/
def charsBefore : List Char → Nat → List Char
  | [],      _     => []
  | _,       0     => []
  | c :: cs, n + 1 => c :: charsBefore cs (n + 1 - c.utf8Size)

/-- A line and a column. -/
structure Position where
  line   : Nat
  column : Nat
  deriving DecidableEq, Repr

namespace Position

/-- The first line and column. -/
def start : Position := ⟨1, 1⟩

/-- Where the next character stands: a line feed starts a line, all else moves one column on. -/
def next (p : Position) (c : Char) : Position :=
  if c = '\n' then ⟨p.line + 1, 1⟩ else ⟨p.line, p.column + 1⟩

end Position

/-- Where byte `offset` falls, columns counted in characters. A character that starts before the
    offset is passed, so from the end of the text on the position stays the same. -/
def position (text : List Char) (offset : Nat) : Position :=
  (charsBefore text offset).foldl Position.next .start

/-- The bytes up to and including the last line feed. -/
def lineStart (cs : List Char) : Nat := byteLength (cs.reverse.dropWhile (· != '\n'))

/-- Where a reader stands that has taken `taken` bytes: the line feeds so far and the bytes since
    the last one, so that the column is 0 right after a line feed. -/
def readerPosition (text : List Char) (taken : Nat) : Position :=
  let before := charsBefore text taken
  ⟨1 + before.count '\n', taken - lineStart before⟩

/-- The lines of a text. A line feed ends a line, and so does a carriage return with its line feed;
    what follows the last of them is a line unless it is empty. -/
def lines : List Char → List (List Char)
  | []                => []
  | '\n' :: cs        => [] :: lines cs
  | '\r' :: '\n' :: cs => [] :: lines cs
  | c :: cs           =>
    match lines cs with
    | []      => [[c]]
    | l :: ls => (c :: l) :: ls

/-- The text of a line without its end. Line 0 is the first; a line that does not exist is empty. -/
def lineText (text : List Char) (line : Nat) : List Char := (lines text)[line - 1]?.getD []

end FlowLint.Text
