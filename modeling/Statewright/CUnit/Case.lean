import Statewright.CUnit.Actuation
import Statewright.Code.Expand

namespace Statewright
namespace CUnit

/-- The names that stand for the machine's own data in its code. -/
def names (m : Machine) : List Text :=
  m.vars.map Variable.name

/-- A fragment as a block, unless it is blank. -/
def blockLines (m : Machine) (n : Nat) (f : Option Fragment) : List Text :=
  match f with
  | none => []
  | some f =>
    if f.text.allBlank then []
    else
      [Text.spaces n ++ "\x7b", Code.layout (n + 4) (Code.expand (names m) f.text),
       Text.spaces n ++ "\x7d"]

def condition (m : Machine) (stem : Text) : Trigger → Except Misfit Text
  | .when f => .ok (Code.expression (names m) f.text)
  | .timeout r => do
    let name := timerName stem (← m.timerAt r.index).name
    return "fsm->running[" ++ name ++ "] && fsm->timers[" ++ name ++ "] <= 0"

def assign (m : Machine) (name : Text) (value : Fragment) : Text :=
  "fsm->" ++ name ++ " = (" ++ Code.expression (names m) value.text ++ ");"

def outLines (m : Machine) (s : State) : List Text :=
  s.outs.map fun a => assign m a.name a.value

def transitionLines (m : Machine) (stem : Text) (site : Site) (t : Transition) :
    Except Misfit (List Text) := do
  let condition ← condition m stem t.trigger
  let actuation ← Actuation.ofTransition m site.block t
  return List.flatten
    [["if (" ++ condition ++ ") \x7b"],
     blockLines m 4 t.code,
     Code.indent 4 (outLines m site.state),
     Code.indent 4 (actuation.lines stem),
     ["    break;", "\x7d"]]

def caseLines (m : Machine) (stem : Text) (site : Site) : Except Misfit (List Text) := do
  let transitions ← site.state.transitions.mapM (transitionLines m stem site)
  return blockLines m 0 site.state.entry ++ transitions.flatten ++ outLines m site.state

end CUnit
end Statewright
