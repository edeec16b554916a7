import FlowLint.Binary64.Basic

/-!
JSON values. An object keeps its members in order and may hold a name twice, as a text may;
`settled` resolves that: a name keeps its first place and takes its last value.
-/

namespace FlowLint

/-- A number is held exactly where it is written as a 64-bit integer and as a float elsewhere. -/
inductive Number where
  | int (n : Int)
  | float (x : Binary64)
  deriving DecidableEq, Repr

/-- The float nearest to a number. -/
def Number.toBinary64 : Number → Binary64
  | .int n   => .ofInt n
  | .float x => x

inductive Json where
  | null
  | bool (b : Bool)
  | number (n : Number)
  | string (s : String)
  | array (items : List Json)
  | object (members : List (String × Json))
  deriving Repr, Inhabited

/-- Gives a name a value: in its place if the name is there, else at the end. -/
def put (name : String) (v : α) : List (String × α) → List (String × α)
  | []           => [(name, v)]
  | (k, w) :: ms => if k = name then (name, v) :: ms else (k, w) :: put name v ms

/-- Each name once, in its first place and with its last value. -/
def unrepeated (members : List (String × α)) : List (String × α) :=
  members.foldl (fun done m => put m.1 m.2 done) []

namespace Json

/-- The members of an object. -/
def members? : Json → Option (List (String × Json))
  | .object members => some members
  | _               => none

/-- The items of an array. -/
def items? : Json → Option (List Json)
  | .array items => some items
  | _            => none

/-- The text of a string. -/
def text? : Json → Option String
  | .string s => some s
  | _         => none

/-- The first member of that name, none if there is none or the value is no object. -/
def get? (v : Json) (name : String) : Option Json := v.members?.bind (·.lookup name)

mutual

/-- The value with no name repeated in any object. -/
def settled : Json → Json
  | .array items    => .array (settledItems items)
  | .object members => .object (unrepeated (settledMembers members))
  | v               => v

def settledItems : List Json → List Json
  | []      => []
  | v :: vs => settled v :: settledItems vs

def settledMembers : List (String × Json) → List (String × Json)
  | []           => []
  | (k, v) :: ms => (k, settled v) :: settledMembers ms

end

/-! ### Equality -/

mutual

/-- Whether two values are the same, members in the same order. -/
def same : Json → Json → Bool
  | .null,      .null      => true
  | .bool a,    .bool b    => a = b
  | .number m,  .number n  => m = n
  | .string s,  .string t  => s = t
  | .array vs,  .array ws  => sameItems vs ws
  | .object ms, .object ns => sameMembers ms ns
  | _,          _          => false

def sameItems : List Json → List Json → Bool
  | [],      []      => true
  | v :: vs, w :: ws => same v w && sameItems vs ws
  | _,       _       => false

def sameMembers : List (String × Json) → List (String × Json) → Bool
  | [],           []           => true
  | (k, v) :: ms, (l, w) :: ns => k = l && same v w && sameMembers ms ns
  | _,            _            => false

end

mutual

theorem same_iff : ∀ v w : Json, same v w ↔ v = w
  | .null,      w => by cases w <;> simp [same]
  | .bool b,    w => by cases w <;> simp [same]
  | .number n,  w => by cases w <;> simp [same]
  | .string s,  w => by cases w <;> simp [same]
  | .array vs,  w => by cases w <;> simp [same, sameItems_iff vs]
  | .object ms, w => by cases w <;> simp [same, sameMembers_iff ms]

theorem sameItems_iff : ∀ vs ws : List Json, sameItems vs ws ↔ vs = ws
  | [],      ws => by cases ws <;> simp [sameItems]
  | v :: vs, ws => by cases ws <;> simp [sameItems, same_iff v, sameItems_iff vs]

theorem sameMembers_iff : ∀ ms ns : List (String × Json), sameMembers ms ns ↔ ms = ns
  | [],           ns => by cases ns <;> simp [sameMembers]
  | (k, v) :: ms, ns => by
    cases ns <;> simp [sameMembers, same_iff v, sameMembers_iff ms, Prod.ext_iff]

end

instance : DecidableEq Json := fun v w => decidable_of_iff _ (same_iff v w)

end Json

end FlowLint
