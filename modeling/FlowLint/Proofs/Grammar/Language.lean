import FlowLint.Format.Timestamp
import FlowLint.Grammar.StateKind
import FlowLint.Proofs.Binary64.Exact

/-!
The language of workflow documents: which members an object may have, what each of them must be, and
which must be there. It is given by rules alone, without a word on how a document is checked. There
is one such language for each notion of what a URI is and what a date and a time are.
-/

namespace FlowLint.Workflow

variable [Formats]

/-! ### Values -/

/-- A text that is not empty. -/
def IsText (v : Json) : Prop := ∃ s, v = .string s ∧ s ≠ ""

/-- One of the given names. -/
def IsOneOf (names : List String) (v : Json) : Prop := ∃ s ∈ names, v = .string s

def IsFlag (v : Json) : Prop := ∃ b, v = .bool b

def IsNumber (v : Json) : Prop := ∃ n, v = .number n

/-- A number of at least one. -/
def IsPositive (v : Json) : Prop := ∃ n, v = .number n ∧ 1 ≤ n.exact

/-- An integer from `least` on. -/
def IsIntegerFrom (least : ℤ) (v : Json) : Prop :=
  ∃ n, v = .number n ∧ ∃ k : ℤ, n.exact = k ∧ least ≤ k

/-- An integer from `least` to the largest count. -/
def IsCount (least : ℤ) (v : Json) : Prop :=
  ∃ n, v = .number n ∧ ∃ k : ℤ, n.exact = k ∧ least ≤ k ∧ k ≤ 99999998

/-- An absolute URI. -/
def IsUri (v : Json) : Prop := ∃ s, v = .string s ∧ s ≠ "" ∧ Formats.isUri s

/-- Between blanks there is a finite number or a date and a time. -/
def SaysTime (s : String) : Prop :=
  ∃ cs, Text.trim Text.isBlank s.toList = cs ∧ cs ≠ [] ∧
    (Format.Timestamp.isFiniteNumber cs ∨ Formats.isDateTime (.ofList cs))

/-- A number of milliseconds or a text that says a time. -/
def IsTimestamp (v : Json) : Prop := IsNumber v ∨ ∃ s, v = .string s ∧ SaysTime s

/-- An array of at least so many items of a sort. -/
def IsArrayOf (IsItem : Json → Prop) (atLeast : Nat) (v : Json) : Prop :=
  ∃ items, v = .array items ∧ atLeast ≤ items.length ∧ ∀ i ∈ items, IsItem i

/-- The names of members. -/
abbrev names (members : List (String × Json)) : List String := members.map Prod.fst

/-- An object with no other members than those of a sort, and with all that are needed. -/
def IsRecord (IsMember : String → Json → Prop) (needed : List String) (v : Json) : Prop :=
  ∃ members, v = .object members ∧ (∀ m ∈ members, IsMember m.1 m.2) ∧
    ∀ k ∈ needed, k ∈ names members

/-- Of the first names just one is among the others. -/
def ExactlyOne (some : List String) (present : List String) : Prop :=
  ∃ k ∈ some, k ∈ present ∧ ∀ l ∈ some, l ∈ present → l = k

/-! ### Errors -/

inductive RetrierMember : String → Json → Prop
  | errors {v} (h : IsArrayOf IsText 1 v) : RetrierMember "ErrorEquals" v
  | interval {v} (h : IsIntegerFrom 1 v) : RetrierMember "IntervalSeconds" v
  | attempts {v} (h : IsCount 0 v) : RetrierMember "MaxAttempts" v
  | rate {v} (h : IsPositive v) : RetrierMember "BackoffRate" v

/-- What tries a state again. -/
def IsRetrier : Json → Prop := IsRecord RetrierMember ["ErrorEquals"]

inductive CatcherMember (siblings : List String) : String → Json → Prop
  | errors {v} (h : IsArrayOf IsText 1 v) : CatcherMember siblings "ErrorEquals" v
  | next {v} (h : IsOneOf siblings v) : CatcherMember siblings "Next" v
  | result {v} (h : IsText v) : CatcherMember siblings "ResultPath" v

/-- What goes on elsewhere after an error. -/
def IsCatcher (siblings : List String) : Json → Prop :=
  IsRecord (CatcherMember siblings) ["ErrorEquals", "Next"]

/-! ### Choice rules -/

def textComparators : List String :=
  ["StringEquals", "StringLessThan", "StringGreaterThan", "StringLessThanEquals",
   "StringGreaterThanEquals"]

def numberComparators : List String :=
  ["NumericEquals", "NumericLessThan", "NumericGreaterThan", "NumericLessThanEquals",
   "NumericGreaterThanEquals"]

def timeComparators : List String :=
  ["TimestampEquals", "TimestampLessThan", "TimestampGreaterThan", "TimestampLessThanEquals",
   "TimestampGreaterThanEquals"]

def comparators : List String :=
  textComparators ++ numberComparators ++ ["BooleanEquals"] ++ timeComparators

def combinators : List String := ["And", "Or", "Not"]

/-- A comparison of a variable with a value. -/
inductive Comparison : String → Json → Prop
  | text {k v} (name : k ∈ textComparators) (h : IsText v) : Comparison k v
  | number {k v} (name : k ∈ numberComparators) (h : IsNumber v) : Comparison k v
  | flag {v} (h : IsFlag v) : Comparison "BooleanEquals" v
  | time {k v} (name : k ∈ timeComparators) (h : IsTimestamp v) : Comparison k v

/-- A variable is compared once and with nothing combined; else one thing is compared or combined.
    -/
def HasOneTest (present : List String) : Prop :=
  if "Variable" ∈ present then (∀ k ∈ combinators, k ∉ present) ∧ ExactlyOne comparators present
  else ExactlyOne (comparators ++ combinators) present

mutual

/-- The members of rules within rules, which all rules may have. -/
inductive RuleMember : String → Json → Prop
  | all {rules : List Json} (some : rules ≠ []) (each : ∀ r ∈ rules, IsNestedRule r) :
      RuleMember "And" (.array rules)
  | any {rules : List Json} (some : rules ≠ []) (each : ∀ r ∈ rules, IsNestedRule r) :
      RuleMember "Or" (.array rules)
  | not {v : Json} (rule : IsNestedRule v) : RuleMember "Not" v
  | subject {v : Json} (h : IsText v) : RuleMember "Variable" v
  | comparison {k : String} {v : Json} (h : Comparison k v) : RuleMember k v

/-- A rule within a rule. -/
inductive IsNestedRule : Json → Prop
  | rule {members : List (String × Json)} (each : ∀ m ∈ members, RuleMember m.1 m.2)
      (test : HasOneTest (names members)) : IsNestedRule (.object members)

end

/-- A rule of a state, which must say where to go. -/
inductive IsRule (siblings : List String) : Json → Prop
  | rule {members : List (String × Json)}
      (each : ∀ m ∈ members, RuleMember m.1 m.2 ∨ m.1 = "Next" ∧ IsOneOf siblings m.2)
      (next : "Next" ∈ names members) (test : HasOneTest (names members)) :
      IsRule siblings (.object members)

/-! ### States and machines -/

/-- The kinds of states that may go on to a next one or end the run. -/
def steps : List StateKind := [.pass, .task, .wait, .parallel]

/-- The kinds of states that may fail in a way that can be handled. -/
def fallible : List StateKind := [.task, .parallel]

/-- The state goes on to a next one: its kind may, and it does not say that it ends the run. -/
def GoesOn (kind : StateKind) (members : List (String × Json)) : Prop :=
  kind ∈ steps ∧ (members.lookup "End" = none ∨ members.lookup "End" = some (.bool false))

mutual

/-- The members of a state of a kind that goes on or not, among its siblings. -/
inductive StateMember : StateKind → Prop → List String → String → Json → Prop
  | type {kind on siblings} : StateMember kind on siblings "Type" (.string kind.name)
  | comment {kind on siblings v} (h : IsText v) : StateMember kind on siblings "Comment" v
  | ending {kind on siblings v} (h : kind ∈ steps) (flag : IsFlag v) :
      StateMember kind on siblings "End" v
  | next {kind siblings v} {on : Prop} (h : on) (target : IsOneOf siblings v) :
      StateMember kind on siblings "Next" v
  | input {kind on siblings v} (h : kind ≠ .fail) (path : IsText v) :
      StateMember kind on siblings "InputPath" v
  | resultPath {kind on siblings v} (h : kind ≠ .fail) (path : IsText v) :
      StateMember kind on siblings "ResultPath" v
  | output {kind on siblings v} (h : kind ≠ .fail) (path : IsText v) :
      StateMember kind on siblings "OutputPath" v
  | cause {on siblings v} (h : IsText v) : StateMember .fail on siblings "Cause" v
  | error {on siblings v} (h : IsText v) : StateMember .fail on siblings "Error" v
  | result {on siblings v} : StateMember .pass on siblings "Result" v
  | retry {kind on siblings v} (h : kind ∈ fallible) (each : IsArrayOf IsRetrier 0 v) :
      StateMember kind on siblings "Retry" v
  | catching {kind on siblings v} (h : kind ∈ fallible)
      (each : IsArrayOf (IsCatcher siblings) 0 v) : StateMember kind on siblings "Catch" v
  | resource {on siblings v} (h : IsUri v) : StateMember .task on siblings "Resource" v
  | heartbeat {on siblings v} (h : IsCount 1 v) :
      StateMember .task on siblings "HeartbeatSeconds" v
  | timeout {on siblings v} (h : IsCount 1 v) : StateMember .task on siblings "TimeoutSeconds" v
  | choices {on siblings v} (h : IsArrayOf (IsRule siblings) 1 v) :
      StateMember .choice on siblings "Choices" v
  | otherwise {on siblings v} (h : IsOneOf siblings v) :
      StateMember .choice on siblings "Default" v
  | seconds {on siblings v} (h : IsPositive v) : StateMember .wait on siblings "Seconds" v
  | secondsPath {on siblings v} (h : IsText v) : StateMember .wait on siblings "SecondsPath" v
  | timestamp {on siblings v} (h : IsTimestamp v) : StateMember .wait on siblings "Timestamp" v
  | timestampPath {on siblings v} (h : IsText v) :
      StateMember .wait on siblings "TimestampPath" v
  | branches {on siblings} {items : List Json} (some : items ≠ [])
      (each : ∀ b ∈ items, IsBranch b) : StateMember .parallel on siblings "Branches" (.array items)

/-- A state among its siblings. Each kind needs what it cannot do without, and waits for one
    thing. -/
inductive IsState : List String → Json → Prop
  | state {siblings : List String} {members : List (String × Json)} (kind : StateKind)
      (type : members.lookup "Type" = some (.string kind.name))
      (each : ∀ m ∈ members, StateMember kind (GoesOn kind members) siblings m.1 m.2)
      (next : GoesOn kind members → "Next" ∈ names members)
      (resource : kind = .task → "Resource" ∈ names members)
      (choices : kind = .choice → "Choices" ∈ names members)
      (branches : kind = .parallel → "Branches" ∈ names members)
      (waits : kind = .wait →
        ExactlyOne ["Seconds", "SecondsPath", "Timestamp", "TimestampPath"] (names members)) :
      IsState siblings (.object members)

/-- The members of a branch of which these are the states. -/
inductive BranchMember : List (String × Json) → String → Json → Prop
  | start {states v} (h : IsOneOf (names states) v) : BranchMember states "StartAt" v
  | comment {states v} (h : IsText v) : BranchMember states "Comment" v
  | states {states : List (String × Json)} (each : ∀ s ∈ states, IsState (names states) s.2) :
      BranchMember states "States" (.object states)

/-- A branch: states of its own, and the one it starts at. -/
inductive IsBranch : Json → Prop
  | branch {members states : List (String × Json)}
      (lists : members.lookup "States" = some (.object states))
      (each : ∀ m ∈ members, BranchMember states m.1 m.2)
      (start : "StartAt" ∈ names members) : IsBranch (.object members)

end

/-- The members of a document of which these are the states. -/
inductive DocumentMember (states : List (String × Json)) : String → Json → Prop
  | branch {k v} (h : BranchMember states k v) : DocumentMember states k v
  | version {v} (h : IsText v) : DocumentMember states "Version" v
  | timeout {v} (h : IsCount 1 v) : DocumentMember states "TimeoutSeconds" v

/-- A whole document. -/
inductive IsDocument : Json → Prop
  | document {members states : List (String × Json)}
      (lists : members.lookup "States" = some (.object states))
      (each : ∀ m ∈ members, DocumentMember states m.1 m.2)
      (start : "StartAt" ∈ names members) : IsDocument (.object members)

end FlowLint.Workflow
