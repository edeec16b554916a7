import FlowLint.Json.Parse

/-!
Passing over values in a text without reading them. Only as much of the form is looked at as it
takes to find the end of a value: quotes, brackets and separators. What a scalar says does not
matter.
-/

namespace FlowLint.Locate

open Json (Remainder Rest SyntaxError)

/-- Why a walk over a text stops: the text ends, a character is not the one that must stand there,
    or a name is no string. -/
inductive Snag where
  | ended
  | unexpected (found : Char) (after : List Char)
  | invalidName (start : List Char) (reason : SyntaxError)
  deriving DecidableEq, Repr

/-- The text from the next character on that is not blank. -/
def skipSpace (s : List Char) : List Char := s.dropWhile Text.isAsciiBlank

theorem length_skipSpace_le (s : List Char) : (skipSpace s).length ≤ s.length :=
  (List.dropWhile_suffix _).length_le

/-- Passes over the given character. -/
def expect (wanted : Char) : (s : List Char) → Except Snag (Rest s)
  | []     => .error .ended
  | c :: s => if c = wanted then .ok (.tail c s) else .error (.unexpected c s)

/-- The text after the next quote that no backslash precedes. -/
def afterQuote : (s : List Char) → Except Snag (Rest s)
  | []             => .error .ended
  | '"' :: s       => .ok (.tail '"' s)
  | ['\\']         => .error .ended
  | '\\' :: c :: s => (afterQuote s).map fun r => ⟨r.val, by grind⟩
  | c :: s         => (afterQuote s).map (Rest.tail c s).trans

/-- Passes over a string literal. -/
def skipLiteral (s : List Char) : Except Snag (Rest s) := do
  let r ← expect '"' s
  let t ← afterQuote r.val
  return r.trans t

/-- What ends a scalar. -/
def isDelimiter (c : Char) : Bool :=
  c == ',' || c == '}' || c == ']' || c == ':' || Text.isAsciiBlank c

/-- Passes over a number or a word: at least one character up to the next delimiter. -/
def skipScalar : (s : List Char) → Except Snag (Rest s)
  | []     => .error .ended
  | c :: s =>
    if isDelimiter c then .error (.unexpected c s)
    else .ok ⟨s.dropWhile (!isDelimiter ·), Nat.lt_succ_of_le (List.dropWhile_suffix _).length_le⟩

/-- The two containers. -/
inductive Container where
  | list | record
  deriving DecidableEq, Repr

/-- The bracket that ends a container. -/
def Container.close : Container → Char
  | .list   => ']'
  | .record => '}'

/-- The colon between a name and a value, with the blanks around it. -/
def skipColon (s : List Char) : Except Snag (Rest s) := do
  let r ← expect ':' (skipSpace s)
  return ⟨skipSpace r.val, by
    have := length_skipSpace_le s
    have := length_skipSpace_le r.val
    grind⟩

/-- What stands before the value of an entry: nothing in a list, a name and a colon in a record. -/
def skipName (k : Container) (s : List Char) : Except Snag (Remainder s) :=
  match k with
  | .list   => .ok (.all s)
  | .record => do
    let r ← skipLiteral s
    let t ← skipColon r.val
    return (r.trans t).remainder

mutual

/-- Passes over a value. -/
def skipValue (s : List Char) : Except Snag (Rest s) :=
  match s with
  | '{' :: r => do
    let t ← skipContainer .record r
    return (Rest.tail '{' r).trans t
  | '[' :: r => do
    let t ← skipContainer .list r
    return (Rest.tail '[' r).trans t
  | '"' :: r => (afterQuote r).map (Rest.tail '"' r).trans
  | r        => skipScalar r
termination_by 3 * s.length

/-- The entries after an opening bracket, and the closing one. -/
def skipContainer (k : Container) (s : List Char) : Except Snag (Rest s) :=
  match h : skipSpace s with
  | []     => .error .ended
  | c :: r =>
    if c = k.close then .ok ⟨r, by have := length_skipSpace_le s; grind⟩
    else do
      let t ← skipEntries k (c :: r)
      return ⟨t.val, by have := length_skipSpace_le s; grind⟩
termination_by 3 * s.length + 2
decreasing_by all_goals have := length_skipSpace_le s; grind

/-- One entry, and either the closing bracket or a comma and more entries. -/
def skipEntries (k : Container) (s : List Char) : Except Snag (Rest s) := do
  let n ← skipName k s
  let v ← skipValue n.val
  match h : skipSpace v.val with
  | []       => .error .ended
  | ',' :: r => do
    have : (skipSpace r).length < s.length := by
      have := length_skipSpace_le v.val
      have := length_skipSpace_le r
      grind
    let t ← skipEntries k (skipSpace r)
    return ⟨t.val, by grind⟩
  | c :: r   =>
    if c = k.close then .ok ⟨r, by have := length_skipSpace_le v.val; grind⟩
    else .error (.unexpected c r)
termination_by 3 * s.length + 1
decreasing_by all_goals grind

end

end FlowLint.Locate
