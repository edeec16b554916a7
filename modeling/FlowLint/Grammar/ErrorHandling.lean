import FlowLint.Grammar.Constraint

/-!
What a state does about errors: try again, or go on elsewhere.
-/

namespace FlowLint.ErrorHandling

/-- The names of the errors meant, of which there is at least one. -/
def errorEquals : Field Constraint := .required "ErrorEquals" (.list (some .anyText) 1)

/-- How often and how soon a state is tried again. -/
def retrierShape : Shape Constraint :=
  ⟨[errorEquals,
    .optional "IntervalSeconds" (.number ⟨true, some (.ofInt 1), none⟩),
    .optional "MaxAttempts" (.count 0),
    .optional "BackoffRate" .positive], []⟩

/-- Which of the `siblings` goes on after an error. -/
def catcherShape (siblings : List String) : Shape Constraint :=
  ⟨[errorEquals,
    .required "Next" (.oneOf siblings),
    .optional "ResultPath" .anyText], []⟩

end FlowLint.ErrorHandling
