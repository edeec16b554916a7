import FlowLint.Json.Parse
import FlowLint.Proofs.Json.Literal
import FlowLint.Proofs.Json.Numeral

/-!
The grammar of JSON as a type: a `Spelling` is a value the way a text writes it, with every blank,
quote and bracket in its place, so it has both a text and a value. The reader of values and this
type describe the same texts (`tree?_eq_ok_iff`), which makes a spelling the map of a text in which
the place of each member and item can be told.
-/

namespace FlowLint.Json

/-! ### Tokens -/

/-- The blanks between two tokens. -/
structure Blanks where
  text  : List Char
  blank : ∀ c ∈ text, Text.isJsonBlank c

/-- The words and numbers with their values. -/
inductive IsScalar : List Char → Json → Prop
  | null : IsScalar "null".toList .null
  | true : IsScalar "true".toList (.bool true)
  | false : IsScalar "false".toList (.bool false)
  | number {t : List Char} {n : Numeral} {x : Number} (h : n.Spelled t)
      (value : n.value [] = .ok x) : IsScalar t (.number x)

/-- A word or a number. -/
structure Scalar where
  text    : List Char
  value   : Json
  spelled : IsScalar text value

/-- A string literal: all of it but the opening quote, and the characters that it spells. -/
structure Quoted where
  body    : List Char
  chars   : List Char
  spelled : Literal.Body body chars

namespace Quoted

def text (q : Quoted) : List Char := '"' :: q.body

def value (q : Quoted) : String := .ofList q.chars

end Quoted

/-- What stands before the value of a member: its name and the colon. -/
structure Label where
  quoted : Quoted
  before : Blanks
  after  : Blanks

namespace Label

def name (l : Label) : String := l.quoted.value

def text (l : Label) : List Char := l.quoted.text ++ (l.before.text ++ ':' :: l.after.text)

end Label

/-! ### Values -/

mutual

/-- A value without the blanks around it. -/
inductive Spelling where
  | scalar (s : Scalar)
  | string (q : Quoted)
  | emptyArray (inside : Blanks)
  | array (items : ItemSpellings)
  | emptyObject (inside : Blanks)
  | object (members : MemberSpellings)

/-- What stands between the brackets of an array, with a comma after each item but the last. -/
inductive ItemSpellings where
  | last (before : Blanks) (item : Spelling) (after : Blanks)
  | more (before : Blanks) (item : Spelling) (after : Blanks) (others : ItemSpellings)

/-- What stands between the braces of an object, with a comma after each member but the last. -/
inductive MemberSpellings where
  | last (before : Blanks) (label : Label) (value : Spelling) (after : Blanks)
  | more (before : Blanks) (label : Label) (value : Spelling) (after : Blanks)
      (others : MemberSpellings)

end

mutual

/-- The text of a value. -/
def Spelling.text : Spelling → List Char
  | .scalar s      => s.text
  | .string q      => q.text
  | .emptyArray b  => '[' :: (b.text ++ [']'])
  | .array items   => '[' :: (items.text ++ [']'])
  | .emptyObject b => '{' :: (b.text ++ ['}'])
  | .object ms     => '{' :: (ms.text ++ ['}'])

def ItemSpellings.text : ItemSpellings → List Char
  | .last b v a        => b.text ++ (v.text ++ a.text)
  | .more b v a others => b.text ++ (v.text ++ (a.text ++ ',' :: others.text))

def MemberSpellings.text : MemberSpellings → List Char
  | .last b l v a        => b.text ++ (l.text ++ (v.text ++ a.text))
  | .more b l v a others => b.text ++ (l.text ++ (v.text ++ (a.text ++ ',' :: others.text)))

end

section

variable (b a : Blanks) (l : Label) (v : Spelling) (r : List Char)

/-- A label token by token, with what follows it. -/
theorem Label.text_append : l.text ++ r =
    '"' :: (l.quoted.body ++ (l.before.text ++ ':' :: (l.after.text ++ r))) := by
  simp [Label.text, Quoted.text]

theorem Spelling.emptyArray_append :
    (Spelling.emptyArray b).text ++ r = '[' :: (b.text ++ ']' :: r) := by
  simp [Spelling.text]

/-- What follows an array follows its closing bracket. -/
theorem Spelling.array_append (items : ItemSpellings) :
    (Spelling.array items).text ++ r = '[' :: (items.text ++ ']' :: r) := by
  simp [Spelling.text]

theorem Spelling.emptyObject_append :
    (Spelling.emptyObject b).text ++ r = '{' :: (b.text ++ '}' :: r) := by
  simp [Spelling.text]

/-- What follows an object follows its closing brace. -/
theorem Spelling.object_append (ms : MemberSpellings) :
    (Spelling.object ms).text ++ r = '{' :: (ms.text ++ '}' :: r) := by
  simp [Spelling.text]

theorem ItemSpellings.last_append :
    (ItemSpellings.last b v a).text ++ r = b.text ++ (v.text ++ (a.text ++ r)) := by
  simp [ItemSpellings.text]

/-- Any item but the last has a comma behind it. -/
theorem ItemSpellings.more_append (others : ItemSpellings) :
    (ItemSpellings.more b v a others).text ++ r =
      b.text ++ (v.text ++ (a.text ++ ',' :: (others.text ++ r))) := by
  simp [ItemSpellings.text]

theorem MemberSpellings.last_append :
    (MemberSpellings.last b l v a).text ++ r = b.text ++ (l.text ++ (v.text ++ (a.text ++ r))) := by
  simp [MemberSpellings.text]

/-- The same for members. -/
theorem MemberSpellings.more_append (others : MemberSpellings) :
    (MemberSpellings.more b l v a others).text ++ r =
      b.text ++ (l.text ++ (v.text ++ (a.text ++ ',' :: (others.text ++ r)))) := by
  simp [MemberSpellings.text]

end

mutual

/-- The value that is spelled, repeated names included. -/
def Spelling.tree : Spelling → Json
  | .scalar s      => s.value
  | .string q      => .string q.value
  | .emptyArray _  => .array []
  | .array items   => .array items.trees
  | .emptyObject _ => .object []
  | .object ms     => .object ms.trees

def ItemSpellings.trees : ItemSpellings → List Json
  | .last _ v _        => [v.tree]
  | .more _ v _ others => v.tree :: others.trees

def MemberSpellings.trees : MemberSpellings → List (String × Json)
  | .last _ l v _        => [(l.name, v.tree)]
  | .more _ l v _ others => (l.name, v.tree) :: others.trees

end

mutual

/-- How many containers stand within each other. -/
def Spelling.depth : Spelling → Nat
  | .scalar _      => 0
  | .string _      => 0
  | .emptyArray _  => 1
  | .array items   => items.depth + 1
  | .emptyObject _ => 1
  | .object ms     => ms.depth + 1

def ItemSpellings.depth : ItemSpellings → Nat
  | .last _ v _        => v.depth
  | .more _ v _ others => max v.depth others.depth

def MemberSpellings.depth : MemberSpellings → Nat
  | .last _ _ v _        => v.depth
  | .more _ _ v _ others => max v.depth others.depth

end

/-! ### Characters -/

/-- The characters of words and numbers. -/
def isWordChar (c : Char) : Bool := c.isAlphanum || ['+', '-', '.'].contains c

/-- A word or a number holds nothing that could end it. -/
theorem IsScalar.wordChar {t : List Char} {v : Json} (h : IsScalar t v) :
    ∀ c ∈ t, isWordChar c := by
  cases h with
  | null => exact List.all_eq_true.1 rfl
  | true => exact List.all_eq_true.1 rfl
  | false => exact List.all_eq_true.1 rfl
  | number h _ =>
    intro c hc
    rcases h.isPart c hc with digit | other
    · simp [isWordChar, Char.isAlphanum, digit]
    · have marks : ∀ c ∈ ['+', '-', '.', 'e', 'E'], isWordChar c := List.all_eq_true.1 rfl
      exact marks c other

/-- The text ends, or a blank or the end of an entry follows. -/
def Delimited (r : List Char) : Prop :=
  ∀ c ∈ r.head?, c = ',' ∨ c = ']' ∨ c = '}' ∨ Text.isJsonBlank c

theorem delimited_nil : Delimited [] := by simp [Delimited]

theorem delimited_cons {c : Char} {r : List Char} (h : c = ',' ∨ c = ']' ∨ c = '}') :
    Delimited (c :: r) := by
  simp only [Delimited, List.head?_cons, Option.mem_def, Option.some.injEq, forall_eq']
  grind

/-- Blanks may follow a value wherever what comes after them may. -/
theorem Delimited.append {r : List Char} (h : Delimited r) (b : Blanks) :
    Delimited (b.text ++ r) := by
  obtain ⟨text, blank⟩ := b
  cases text with
  | nil => exact h
  | cons c s =>
    have := blank c List.mem_cons_self
    simp [Delimited, this]

/-- The four blanks of JSON. -/
theorem isJsonBlank_iff {c : Char} :
    Text.isJsonBlank c ↔ c = ' ' ∨ c = '\t' ∨ c = '\n' ∨ c = '\r' := by
  simp [Text.isJsonBlank, or_assoc]

/-- What may follow a value does not go on with a number. -/
theorem Delimited.stops {r : List Char} (h : Delimited r) : Numeral.Stops r := by
  intro c hc
  rcases h c hc with rfl | rfl | rfl | blank
  · decide
  · decide
  · decide
  · rcases isJsonBlank_iff.1 blank with rfl | rfl | rfl | rfl <;> decide

/-- A value and the blanks around it. -/
structure Document where
  before : Blanks
  root   : Spelling
  after  : Blanks

namespace Document

def text (d : Document) : List Char := d.before.text ++ (d.root.text ++ d.after.text)

def tree (d : Document) : Json := d.root.tree

end Document

end FlowLint.Json
