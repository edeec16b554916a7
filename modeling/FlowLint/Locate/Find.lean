import FlowLint.Locate.Error

/-!
The walk to the value at a path. It goes down one step at a time, passing over what comes first, and
builds no values. Of a repeated name the first counts. A member starts at its name, an item at
itself; both end where their value ends.
-/

namespace FlowLint.Locate

open Json (Rest)

/-- Reads the name that starts a member. -/
def readName (s : List Char) : Except Snag (String × Rest s) := do
  let r ← skipLiteral s
  match Json.literal? (s.take (s.length - r.val.length)) with
  | .ok name      => return (name, r)
  | .error reason => .error (.invalidName s reason)

/-- A place on the way: the text from where it starts, and the text from its value on. -/
structure Place where
  start : List Char
  value : List Char
  deriving DecidableEq, Repr

/-- A separator is taken from what is left. -/
theorem length_skipSpace_lt {s t r : List Char} {c : Char} (left : t.length < s.length)
    (h : skipSpace t = c :: r) : (skipSpace r).length < s.length := by
  have after := length_skipSpace_le t
  have next := length_skipSpace_le r
  rw [h, List.length_cons] at after
  omega

/-- Walks to a member of that name, from the start of a member. None if the object ends before. -/
def seekMember (name : String) (s : List Char) : Except Snag (Option Place) := do
  let (found, n) ← readName s
  let v ← skipColon n.val
  if found = name then return some ⟨s, v.val⟩
  else do
    let e ← skipValue v.val
    match h : skipSpace e.val with
    | []       => .error .ended
    | ',' :: r =>
      have : (skipSpace r).length < s.length :=
        length_skipSpace_lt (Nat.lt_trans e.2 (Nat.lt_trans v.2 n.2)) h
      seekMember name (skipSpace r)
    | '}' :: _ => return none
    | c :: r   => .error (.unexpected c r)
termination_by s.length

/-- Walks to the item that many items on, from the start of an item. None if the array ends
    before. -/
def seekItem : Nat → List Char → Except Snag (Option Place)
  | 0,     s => .ok (some ⟨s, s⟩)
  | i + 1, s => do
    let e ← skipValue s
    match skipSpace e.val with
    | []       => .error .ended
    | ',' :: r => seekItem i (skipSpace r)
    | ']' :: _ => return none
    | c :: r   => .error (.unexpected c r)

/-- One step down from a value. None if the value is no container of that kind or lacks the
    entry. -/
def enter : Segment → List Char → Except Snag (Option Place)
  | .key name, '{' :: s =>
    match skipSpace s with
    | '}' :: _ => .ok none
    | r        => seekMember name r
  | .index i,  '[' :: s =>
    match skipSpace s with
    | ']' :: _ => .ok none
    | r        => seekItem i r
  | _,         _        => .ok none

/-- All steps down from a place. -/
def descend : Path → Place → Except Snag (Option Place)
  | [],           place => .ok (some place)
  | step :: path, place => do
    match ← enter step place.value with
    | some next => descend path next
    | none      => return none

/-- A stretch of a text: its first byte, the byte after it, and its characters. -/
structure Span where
  start : Nat
  stop  : Nat
  text  : List Char
  deriving DecidableEq, Repr

/-- The stretch of `text` from a place to the end of its value. -/
def Place.span (text : List Char) (p : Place) : Except Snag Span := do
  let e ← skipValue p.value
  return ⟨offsetOf text p.start, offsetOf text e.val, p.start.take (p.start.length - e.val.length)⟩

/-- The walk over a whole text. -/
def walk (text : List Char) (path : Path) : Except Snag (Option Span) := do
  match ← descend path ⟨skipSpace text, skipSpace text⟩ with
  | some place => return some (← place.span text)
  | none       => return none

/-- The stretch of `text` that `path` leads to, none if the path does not exist. -/
def find (text : List Char) (path : Path) : Except LocateError (Option Span) :=
  (walk text path).mapError (·.toError text path)

end FlowLint.Locate
