import FlowLint.Json.Numeral

/-!
The grammar of JSON, whatever is made of a text: a `Builder` says how names, strings and numbers
read and what the values become. A reader for one depth of nesting is built from the reader for the
depth below it, so a depth bounds the containers within containers.
-/

namespace FlowLint.Json

/-- What a reading makes of a text: `name` and `text` read a literal after its opening quote,
    `number` takes the text after the number, and the rest puts values together. -/
structure Builder (κ α : Type) where
  name   : Reader κ
  text   : Reader α
  number : Numeral → List Char → Except Fault α
  null   : α
  bool   : Bool → α
  array  : List α → α
  object : List (κ × α) → α

variable {κ α : Type}

/-- What is left when the next token is a character that was read. -/
def Rest.ofToken {s r : List Char} {c : Char} (h : skipBlank s = c :: r) : Rest s :=
  ⟨r, by have := length_skipBlank_le s; grind⟩

/-- What is left when the next token is a character and more was read after it. -/
def Rest.ofWord {s r : List Char} {c : Char} (h : skipBlank s = c :: r)
    (t : { u : List Char // u.length ≤ r.length }) : Rest s :=
  ⟨t.val, by have := length_skipBlank_le s; grind⟩

/-- Reads the given characters, of which none may be missing or different. -/
def readWord : List Char → (s : List Char) → Except Fault (Remainder s)
  | [],      s      => .ok (.all s)
  | _ :: _,  []     => .error (.before .endOfValue [])
  | w :: ws, c :: s =>
    if c = w then (readWord ws s).map (.cons c)
    else .error (.onNext .expectedKeyword (c :: s))

/-! ### Arrays -/

/-- What follows an item: the end of the array, or a comma and an item. -/
def readMoreItems (value : Reader α) (s : List Char) : Except Fault (List α × Rest s) :=
  match h : skipBlank s with
  | []       => .error (.onNext .endOfList [])
  | ']' :: _ => .ok ([], .ofToken h)
  | ',' :: r =>
    match skipBlank r with
    | []       => .error (.onNext .endOfValue [])
    | ']' :: t => .error (.onNext .trailingComma (']' :: t))
    | _        => do
      let (v, t) ← value r
      have : t.val.length < s.length := by have := length_skipBlank_le s; grind
      let (vs, u) ← readMoreItems value t.val
      return (v :: vs, (Rest.ofToken h).trans (t.trans u))
  | c :: r   => .error (.onNext .expectedListSeparator (c :: r))
termination_by s.length

/-- The items after an opening bracket, and the closing one. -/
def readItems (value : Reader α) : Reader (List α) := fun s =>
  match h : skipBlank s with
  | []       => .error (.onNext .endOfList [])
  | ']' :: _ => .ok ([], .ofToken h)
  | _        => do
    let (v, t) ← value s
    let (vs, u) ← readMoreItems value t.val
    return (v :: vs, t.trans u)

/-! ### Objects -/

/-- A member from after the opening quote of its name. -/
def readMember (name : Reader κ) (value : κ → Reader α) : Reader (κ × α) := fun s => do
  let (k, r) ← name s
  match h : skipBlank r.val with
  | []       => .error (.onNext .endOfObject [])
  | ':' :: t => do
    let (v, u) ← value k t
    return ((k, v), r.trans ((Rest.ofToken h).trans u))
  | c :: t   => .error (.onNext .expectedColon (c :: t))

/-- What follows a member: the end of the object, or a comma and a member. -/
def readMoreMembers (name : Reader κ) (value : κ → Reader α) (s : List Char) :
    Except Fault (List (κ × α) × Rest s) :=
  match h : skipBlank s with
  | []       => .error (.onNext .endOfObject [])
  | '}' :: _ => .ok ([], .ofToken h)
  | ',' :: r =>
    match h' : skipBlank r with
    | []       => .error (.onNext .endOfValue [])
    | '"' :: t => do
      let (m, u) ← readMember name value t
      have : u.val.length < s.length := by
        have := length_skipBlank_le s
        have := length_skipBlank_le r
        grind
      let (ms, w) ← readMoreMembers name value u.val
      return (m :: ms, (Rest.ofToken h).trans ((Rest.ofToken h').trans (u.trans w)))
    | '}' :: t => .error (.onNext .trailingComma ('}' :: t))
    | c :: t   => .error (.onNext .keyNotString (c :: t))
  | c :: r   => .error (.onNext .expectedObjectSeparator (c :: r))
termination_by s.length

/-- The members after an opening brace, and the closing one. How a value reads may hang on its
    name. -/
def readMembers (name : Reader κ) (value : κ → Reader α) : Reader (List (κ × α)) := fun s =>
  match h : skipBlank s with
  | []       => .error (.onNext .endOfObject [])
  | '}' :: _ => .ok ([], .ofToken h)
  | '"' :: r => do
    let (m, t) ← readMember name value r
    let (ms, u) ← readMoreMembers name value t.val
    return (m :: ms, (Rest.ofToken h).trans (t.trans u))
  | c :: r   => .error (.onNext .keyNotString (c :: r))

/-! ### Values -/

/-- A value whose items and members are read by `nested`; without it no container may start. -/
def readValueWith (b : Builder κ α) (nested : Option (Reader α)) : Reader α := fun s =>
  match h : skipBlank s with
  | []       => .error (.onNext .endOfValue [])
  | 'n' :: r => (readWord "ull".toList r).map fun t => (b.null, .ofWord h t)
  | 't' :: r => (readWord "rue".toList r).map fun t => (b.bool true, .ofWord h t)
  | 'f' :: r => (readWord "alse".toList r).map fun t => (b.bool false, .ofWord h t)
  | '"' :: r => (b.text r).map fun (v, t) => (v, (Rest.ofToken h).trans t)
  | '[' :: r =>
    match nested with
    | none      => .error (.onNext .tooDeep ('[' :: r))
    | some read => (readItems read r).map fun (vs, t) => (b.array vs, (Rest.ofToken h).trans t)
  | '{' :: r =>
    match nested with
    | none      => .error (.onNext .tooDeep ('{' :: r))
    | some read =>
      (readMembers b.name (fun _ => read) r).map fun (ms, t) =>
        (b.object ms, (Rest.ofToken h).trans t)
  | c :: r   =>
    if c == '-' || c.isDigit then do
      let (n, t) ← Numeral.read (c :: r)
      let v ← b.number n t.val
      return (v, ⟨t.val, by have := length_skipBlank_le s; grind⟩)
    else .error (.onNext .expectedValue (c :: r))

/-- A value with at most `depth` containers within each other. -/
def readValue (b : Builder κ α) : Nat → Reader α
  | 0         => readValueWith b none
  | depth + 1 => readValueWith b (some (readValue b depth))

/-- Reads a whole text, after which only blanks may follow. -/
def readText (read : Reader α) (text : List Char) : Except Fault α := do
  let (v, r) ← read text
  match skipBlank r.val with
  | []     => return v
  | c :: t => .error (.onNext .trailingCharacters (c :: t))

end FlowLint.Json
