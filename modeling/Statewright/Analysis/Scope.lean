import Statewright.Machine
import Statewright.Code.Piece

namespace Statewright

/-- Names that the generated data and step function use for themselves. -/
def reservedNames : List Text :=
  ["fsm", "this", "state", "err", "timers", "running", "retries", "last_time"]

/-- Endings that generated names have anyway, which states and labels cannot have. -/
def generatedEndings : List Text :=
  ["t", "name", "names"]

namespace Machine

def declared? (m : Machine) (name : Text) : Option Variable :=
  if reservedNames.contains name then none else m.vars.find? (·.name = name)

/-- The number of a state. -/
def stateNumber? (m : Machine) (name : Text) : Option Nat :=
  m.states.findIdx? (·.name = name)

/-- The number of a timer. -/
def timerNumber? (m : Machine) (name : Text) : Option Nat :=
  m.timers.findIdx? (·.name = name)

/-- The number of the first state with a flag. -/
def flagged? (m : Machine) (flag : Flag) : Option Nat :=
  m.states.findIdx? (·.has flag)

/-- The references of a code that are to declared variables, with their offsets. -/
def uses (m : Machine) (code : Text) : List (Nat × Variable) :=
  (Code.references code).filterMap fun r => (m.declared? r.2).map (r.1, ·)

/-- The declared variables that a code declares again, with their offsets. -/
def hides (m : Machine) (code : Text) : List (Nat × Variable) :=
  (Code.declarations code).filterMap fun r => (m.declared? r.2).map (r.1, ·)

end Machine
end Statewright
