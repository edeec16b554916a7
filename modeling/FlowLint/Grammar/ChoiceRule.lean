import FlowLint.Grammar.Constraint

/-!
Choice rules. A rule compares a variable with one value or combines other rules by `And`, `Or` and
`Not`; the rules in a state's list also say where to go next.
-/

namespace FlowLint.ChoiceRule

/-- The members that combine rules. -/
def combinators : List String := ["And", "Or", "Not"]

/-- The members that compare a variable with a value. -/
def comparators : List String :=
  ["StringEquals", "StringLessThan", "StringGreaterThan",
   "StringLessThanEquals", "StringGreaterThanEquals",
   "NumericEquals", "NumericLessThan", "NumericGreaterThan",
   "NumericLessThanEquals", "NumericGreaterThanEquals",
   "BooleanEquals",
   "TimestampEquals", "TimestampLessThan", "TimestampGreaterThan",
   "TimestampLessThanEquals", "TimestampGreaterThanEquals"]

/-- What a comparator compares with, told by how its name starts. -/
def operand (name : String) : Constraint :=
  let startsWith (word : String) := word.toList.isPrefixOf name.toList
  if startsWith "Numeric" then .number ⟨false, none, none⟩
  else if startsWith "Boolean" then .boolean
  else if startsWith "Timestamp" then .timestamp
  else .anyText

/-- A rule that compares has no combinator and one comparator; any other has one member of both
    kinds. -/
def peerRules : List PeerRule :=
  [.excludes "Variable" combinators,
   .keyed "Variable" (.exactlyOneOf comparators) (.exactlyOneOf (comparators ++ combinators))]

/-- The members of a rule apart from where it leads. -/
def commonFields : List (Field Constraint) :=
  [.optional "And" (.list (some .choiceRule) 1),
   .optional "Or" (.list (some .choiceRule) 1),
   .optional "Not" .choiceRule,
   .optional "Variable" .anyText]
  ++ comparators.map fun name => .optional name (operand name)

/-- A rule within a rule, which leads nowhere itself. -/
def nestedShape : Shape Constraint := ⟨commonFields, peerRules⟩

/-- A rule in a state's list, which leads to one of the `siblings`. -/
def topShape (siblings : List String) : Shape Constraint :=
  ⟨commonFields ++ [.required "Next" (.oneOf siblings)], peerRules⟩

end FlowLint.ChoiceRule
