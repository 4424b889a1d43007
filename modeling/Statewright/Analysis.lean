import Statewright.Analysis.Check
import Statewright.Analysis.Reachable
import Statewright.Analysis.Resolve

namespace Statewright
namespace Analysis

/-- What ends an analysis before its last check. -/
inductive Abort
  /-- A bound has too many digits to take its value. -/
  | longBound
  /-- A number that was put into the machine is that of no state. -/
  | strayTarget
  deriving DecidableEq

structure Outcome where
  machine : Machine
  findings : List Finding
  abort : Option Abort

/-- The findings about states that cannot be reached; there are none without a start state. -/
def unreachable (m : Machine) : List Finding :=
  match m.start with
  | none => []
  | some start => (m.unreached start).map fun s => ⟨.unreachable s.name, s.place⟩

def run (m : Machine) : Outcome :=
  let numbered := m.number
  if m.untils.any (·.bound.isLong) then
    ⟨numbered, m.checkDeclarations, some .longBound⟩
  else
    let resolved := numbered.resolve
    let findings := m.checkDeclarations ++ m.checkItems
    if resolved.start.any resolved.strays then ⟨resolved, findings, some .strayTarget⟩
    else ⟨resolved, findings ++ unreachable resolved, none⟩

end Analysis
end Statewright
