import FlowLint.Proofs.Locate.Seek
import FlowLint.Locate.Error
import FlowLint.Proofs.Text.Bytes

/-!
The walk with a cursor. It goes over the bytes of a text, and knows where characters start only when
it has to name one: a backslash takes the next byte with it, be that a part of a character, and a
scalar is any run of bytes.
-/

namespace FlowLint.Locate.Cursor

open Text (bytes byte)

/-- What is blank. -/
def blanks : List Char := [' ', '\t', '\n', '\r', '\x0c']

/-- What ends a scalar. -/
def delimiters : List Char := [',', '}', ']', ':'] ++ blanks

/-- The byte is one of those characters. -/
def isOneOf (cs : List Char) (b : UInt8) : Bool := cs.any (byte · == b)

section

variable (text : List Char) (path : Path)

/-- The byte under the cursor. -/
def peek (pos : Nat) : Option UInt8 := (bytes text)[pos]?

theorem lt_of_peek {text : List Char} {pos : Nat} {b : UInt8} (h : peek text pos = some b) :
    pos < (bytes text).length :=
  (List.getElem?_eq_some_iff.1 h).1

/-- The text ends where something is missing. -/
def ended (pos : Nat) : LocateError := .unexpectedEnd (min pos (bytes text).length) path

/-- The character under the cursor is not the one that must stand there. Where no character starts
    the text is taken to have ended. -/
def unexpected (pos : Nat) : LocateError :=
  match (Text.fromByte? text pos).bind List.head? with
  | some found => .unexpectedChar found pos path
  | none       => ended text path pos

/-- Further on in the text. -/
abbrev Ahead (pos : Nat) : Type := {q : Nat // pos < q ∧ q ≤ (bytes text).length}

/-- Further on in the text, or at the same place. -/
abbrev Onward (pos : Nat) : Type := {q : Nat // q = pos ∨ pos < q ∧ q ≤ (bytes text).length}

variable {text} in
/-- Further on from a place that is further on. -/
def Ahead.trans {pos : Nat} (q : Ahead text pos) (r : Ahead text q.val) : Ahead text pos :=
  ⟨r.val, Nat.lt_trans q.property.1 r.property.1, r.property.2⟩

variable {text} in
/-- Further on from a place that is further on by that many bytes. -/
def Ahead.back {pos n : Nat} (q : Ahead text (pos + n)) : Ahead text pos :=
  ⟨q.val, by have := q.property; omega⟩

variable {text} in
def Onward.trans {pos : Nat} (q : Onward text pos) (r : Ahead text q.val) : Ahead text pos :=
  ⟨r.val, by have := q.property; have := r.property; omega⟩

/-- The next byte. -/
def next {text : List Char} {pos : Nat} {b : UInt8} (h : peek text pos = some b) :
    Ahead text pos :=
  ⟨pos + 1, Nat.lt_succ_self pos, lt_of_peek h⟩

/-- Goes on as long as the bytes are of that kind. -/
def passWhile (p : UInt8 → Bool) (pos : Nat) : Onward text pos :=
  match h : peek text pos with
  | none   => ⟨pos, .inl rfl⟩
  | some b =>
    if p b then
      let q := passWhile p (pos + 1)
      ⟨q.val, by have := lt_of_peek h; have := q.property; omega⟩
    else ⟨pos, .inl rfl⟩
termination_by (bytes text).length - pos
decreasing_by have := lt_of_peek h; omega

def skipSpace (pos : Nat) : Onward text pos := passWhile text (isOneOf blanks) pos

variable {text} in
/-- The place after the blanks. -/
def Ahead.skipSpace {pos : Nat} (q : Ahead text pos) : Ahead text pos :=
  let r := Cursor.skipSpace text q.val
  ⟨r.val, by have := q.property; have := r.property; omega⟩

def expect (wanted : Char) (pos : Nat) : Except LocateError (Ahead text pos) :=
  match h : peek text pos with
  | none   => .error (ended text path pos)
  | some b => if b = byte wanted then .ok (next h) else .error (unexpected text path pos)

/-- Goes on to after the next quote that no backslash takes with it. -/
def afterQuote (pos : Nat) : Except LocateError (Ahead text pos) :=
  match h : peek text pos with
  | none   => .error (ended text path pos)
  | some b =>
    if b = byte '\\' then do
      let q ← afterQuote (pos + 2)
      return q.back
    else if b = byte '"' then .ok (next h)
    else do
      let q ← afterQuote (pos + 1)
      return (next h).trans q
termination_by (bytes text).length - pos
decreasing_by all_goals have := lt_of_peek h; omega

def skipLiteral (pos : Nat) : Except LocateError (Ahead text pos) := do
  let q ← expect text path '"' pos
  let r ← afterQuote text path q.val
  return q.trans r

def skipScalar (pos : Nat) : Except LocateError (Ahead text pos) :=
  let q := passWhile text (!isOneOf delimiters ·) pos
  if h : q.val = pos then .error (unexpected text path pos)
  else .ok ⟨q.val, q.property.resolve_left h⟩

def skipColon (pos : Nat) : Except LocateError (Ahead text pos) := do
  let q := skipSpace text pos
  let r ← expect text path ':' q.val
  return q.trans r.skipSpace

/-- The name and the colon before a value in a record. -/
def skipName (k : Container) (pos : Nat) : Except LocateError (Onward text pos) :=
  match k with
  | .list   => .ok ⟨pos, .inl rfl⟩
  | .record => do
    let q ← skipLiteral text path pos
    let r ← skipColon text path q.val
    return ⟨r.val, .inr (q.trans r).property⟩

/-- What stands behind an entry that ends at `v`: a comma, and more entries, or the closing bracket.
    A text that ends there is reported as `missing` says. -/
def behind {α : Type} {pos : Nat} (close : Char) (missing : Nat → LocateError) (v : Ahead text pos)
    (more closed : Ahead text pos → Except LocateError α) : Except LocateError α :=
  let q := v.skipSpace
  match h : peek text q.val with
  | none   => .error (missing q.val)
  | some b =>
    if b = byte ',' then more (q.trans (next h)).skipSpace
    else if b = byte close then closed (q.trans (next h))
    else .error (unexpected text path q.val)

mutual

def skipValue (pos : Nat) : Except LocateError (Ahead text pos) :=
  match peek text pos with
  | none   => .error (ended text path pos)
  | some b =>
    if b = byte '{' then skipContainer .record pos
    else if b = byte '[' then skipContainer .list pos
    else if b = byte '"' then skipLiteral text path pos
    else skipScalar text path pos
termination_by 3 * ((bytes text).length - pos) + 1

def skipContainer (k : Container) (pos : Nat) : Except LocateError (Ahead text pos) := do
  let q ← expect text path k.opening pos
  let r := q.skipSpace
  if h : peek text r.val = some (byte k.close) then return r.trans (next h)
  else return r.trans (← skipEntries k r.val)
termination_by 3 * ((bytes text).length - pos)
decreasing_by
  have := q.skipSpace.property
  omega

def skipEntries (k : Container) (pos : Nat) : Except LocateError (Ahead text pos) := do
  let n ← skipName text path k pos
  let v ← skipValue n.val
  behind text path k.close (ended text path) v
    (fun r => do
      let t ← skipEntries k r.val
      return n.trans (r.trans t))
    (fun r => return n.trans r)
termination_by 3 * ((bytes text).length - pos) + 2
decreasing_by
  · have := n.property
    omega
  · have := n.property
    have := r.property
    omega

end

/-- Reads the name that starts a member. Where the literal is not cut out whole, there is none. -/
def readName (pos : Nat) : Except LocateError (String × Ahead text pos) := do
  let q ← skipLiteral text path pos
  match Json.literal? ((Text.slice? text pos q.val).getD []) with
  | .ok name      => return (name, q)
  | .error reason => .error (.invalidString pos reason)

/-- From the start of a member to the one of that name: where it starts, and its value. -/
def seekMember (name : String) (pos : Nat) : Except LocateError (Option (Nat × Nat)) := do
  let (found, n) ← readName text path pos
  let v ← skipColon text path n.val
  if found = name then return some (pos, v.val)
  else do
    let e ← skipValue text path v.val
    behind text path '}' (unexpected text path) e (fun r => seekMember name r.val)
      (fun _ => return none)
termination_by (bytes text).length - pos
decreasing_by
  have := n.property
  have := v.property
  have := r.property
  omega

/-- From the start of an item to the one that many items on. -/
def seekItem : Nat → Nat → Except LocateError (Option (Nat × Nat))
  | 0,     pos => .ok (some (pos, pos))
  | i + 1, pos => do
    let e ← skipValue text path pos
    behind text path ']' (unexpected text path) e (fun r => seekItem i r.val)
      (fun _ => return none)

/-- The walk to an entry from the start of the first one. -/
def seek : Segment → Nat → Except LocateError (Option (Nat × Nat))
  | .key name => seekMember text path name
  | .index i  => seekItem text path i

/-- One step down from a value. -/
def enter (step : Segment) (pos : Nat) : Except LocateError (Option (Nat × Nat)) :=
  if peek text pos = some (byte step.container.opening) then do
    let q ← expect text path step.container.opening pos
    let r := q.skipSpace
    if peek text r.val = some (byte step.container.close) then return none
    else seek text path step r.val
  else .ok none

/-- All steps down from a place. -/
def descend : Path → Nat × Nat → Except LocateError (Option (Nat × Nat))
  | [],           place => .ok (some place)
  | step :: steps, (_, pos) => do
    match ← enter text path step pos with
    | some place => descend steps place
    | none       => return none

end

/-- Where the value at a path starts and ends. -/
def find (text : List Char) (path : Path) : Except LocateError (Option (Nat × Nat)) := do
  let root := (skipSpace text 0).val
  match ← descend text path path (root, root) with
  | some (start, pos) => return some (start, (← skipValue text path pos).val)
  | none              => return none

end FlowLint.Locate.Cursor
