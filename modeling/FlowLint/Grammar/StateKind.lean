/-!
The kinds of states and what sets them apart.
-/

namespace FlowLint

inductive StateKind where
  | pass | succeed | fail | task | choice | wait | parallel
  deriving DecidableEq, Repr

namespace StateKind

/-- The kinds in the order in which messages list them. -/
def all : List StateKind := [.pass, .succeed, .fail, .task, .choice, .wait, .parallel]

/-- The value of a state's `Type`. -/
def name : StateKind → String
  | .pass     => "Pass"
  | .succeed  => "Succeed"
  | .fail     => "Fail"
  | .task     => "Task"
  | .choice   => "Choice"
  | .wait     => "Wait"
  | .parallel => "Parallel"

/-- The kind of that name. -/
def ofName? (s : String) : Option StateKind := all.find? (·.name == s)

/-- Whether a state may say that it ends the run. -/
def declaresEnd : StateKind → Bool
  | .pass | .task | .wait | .parallel => true
  | .succeed | .fail | .choice        => false

/-- Whether a state may retry and catch. -/
def handlesErrors : StateKind → Bool
  | .task | .parallel => true
  | _                 => false

/-- Whether a run ends in a state: it ends by its kind, or `ends` says so. -/
def isTerminal (k : StateKind) (ends : Bool) : Bool := k == .succeed || k == .fail || ends

/-- Whether a state must name the one after it; a choice names it in its rules. -/
def requiresNext (k : StateKind) (ends : Bool) : Bool := !k.isTerminal ends && k != .choice

end StateKind

end FlowLint
