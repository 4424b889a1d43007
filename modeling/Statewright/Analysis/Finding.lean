import Statewright.Fault

namespace Statewright

inductive Issue
  | emptyInit (family : Family) (name : Text)
  | reservedVariable (name : Text)
  | duplicateVariable (name : Text) (first : Variable)
  | duplicateTimer (name : Text) (first : Timer)
  | duplicateState (name : Text) (first : State)
  | stateClash (name machine : Text)
  | noStart
  | manyStarts (name : Text) (first : State)
  | noEnd
  | alsoErr (name first : Text)
  | repeatedFlag (name : Text) (flag : Flag)
  | zeroBound (bound : Text)
  | emptyBlock
  | unknownState (name : Text)
  | unknownTimer (name : Text)
  | noneLabel
  | labelClash (label machine : Text)
  | noErrState (label : Text)
  | strayRetry
  | emptyOut (name : Text)
  | unknownOutput (name : Text)
  | notOutput (name : Text) (family : Family)
  | emptyCondition
  | outputRead (name : Text)
  | hidden (name : Text) (family : Family)
  | unreachable (name : Text)
  deriving DecidableEq

namespace Issue

def severity : Issue → Severity
  | alsoErr .. | unreachable _ => .warning
  | _ => .error

def message : Issue → Text
  | emptyInit family name => family.word ++ " " ++ name ++ " has an empty initializer"
  | reservedVariable name => "variable name '" ++ name ++ "' is reserved"
  | duplicateVariable name first =>
    "duplicate variable '" ++ name ++ "' (already declared as " ++ first.family.word ++
      " on line " ++ Text.ofInt first.place.line ++ ")"
  | duplicateTimer name first =>
    "duplicate timer '" ++ name ++ "' (already declared on line " ++
      Text.ofInt first.place.line ++ ")"
  | duplicateState name first =>
    "duplicate state '" ++ name ++ "' (already declared on line " ++
      Text.ofInt first.place.line ++ ")"
  | stateClash name machine =>
    "state name '" ++ name ++ "' clashes with the generated name " ++ machine ++ "_state_" ++ name
  | noStart => "no start state; flag exactly one state [start]"
  | manyStarts name first =>
    "multiple start states: '" ++ name ++ "' and '" ++ first.name ++ "' (line " ++
      Text.ofInt first.place.line ++ ")"
  | noEnd => "no end state; flag at least one state [end]"
  | alsoErr name first =>
    "'" ++ name ++ "' is also flagged err; err actions go to '" ++ first ++ "'"
  | repeatedFlag name flag =>
    "state '" ++ name ++ "' is flagged " ++ flag.word ++ " more than once"
  | zeroBound bound => "until bound must be a positive integer, not " ++ bound
  | emptyBlock => "until block has no states to retry"
  | unknownState name => "unknown state '" ++ name ++ "'"
  | unknownTimer name => "unknown timer '" ++ name ++ "'"
  | noneLabel => "err none: 'none' means no error and cannot be a label"
  | labelClash label machine =>
    "err " ++ label ++ " clashes with the generated name " ++ machine ++ "_err_" ++ label
  | noErrState label => "err " ++ label ++ " needs a state flagged err to go to"
  | strayRetry => "retry is only allowed inside an until block"
  | emptyOut name => "out " ++ name ++ " has an empty expression"
  | unknownOutput name => "unknown output '" ++ name ++ "'"
  | notOutput name family =>
    "'" ++ name ++ "' is declared " ++ family.word ++ ", only outputs can be assigned by out"
  | emptyCondition => "empty condition"
  | outputRead name => "condition reads output '" ++ name ++ "'; outputs are write-only"
  | hidden name family =>
    "local '" ++ name ++ "' hides the " ++ family.word ++ " of the same name"
  | unreachable name => "state '" ++ name ++ "' is unreachable"

end Issue

structure Finding where
  issue : Issue
  place : Position
  deriving DecidableEq

def Finding.diagnostic (f : Finding) (file : Option Text) : Diagnostic :=
  let kind := if f.issue.severity = .error then .semantic else .caution
  ⟨f.issue.severity, kind, f.issue.message, file, f.place⟩

end Statewright
