import Statewright.CUnit.Names
import Statewright.Code.Layout

namespace Statewright

/-- What a number in the machine stands for. -/
inductive Noun
  | state | timer
  deriving DecidableEq

def Noun.word : Noun → Text
  | state => "state"
  | timer => "timer"

/-- A machine that no code can be written for. -/
inductive Misfit
  /-- Analysis did not find a start state. -/
  | unanalyzed
  /-- There is no number, or nothing has it. -/
  | outOfRange (noun : Noun) (index : Option Int) (size : Nat)
  /-- A retry stands outside any until block. -/
  | strayRetry
  deriving DecidableEq

namespace Misfit

/-- An index that may be missing. -/
def indexText : Option Int → Text
  | some i => Text.ofInt i
  | none => "None"

def message : Misfit → Text
  | unanalyzed => "program has not been analyzed"
  | outOfRange noun index size =>
    noun.word ++ " index " ++ indexText index ++ " out of range 0.." ++
      Text.ofInt ((size : Int) - 1)
  | strayRetry => "retry outside an until block"

end Misfit

/-- The position that an index stands for in a list of the given size. -/
def position? (size : Nat) : Option Int → Option Nat
  | some (.ofNat n) => if n < size then some n else none
  | _ => none

namespace Machine

def timerAt (m : Machine) (index : Option Int) : Except Misfit Timer :=
  match (position? m.timers.length index).bind (m.timers[·]?) with
  | some timer => .ok timer
  | none => .error (.outOfRange .timer index m.timers.length)

/-- The number and the name of a state. -/
def stateAt (m : Machine) (index : Option Int) : Except Misfit (Nat × Text) :=
  match (position? m.states.length index).bind fun n => m.states[n]?.map (n, ·.name) with
  | some state => .ok state
  | none => .error (.outOfRange .state index m.states.length)

end Machine

/-- A change of state: the counters it clears, the error it sets, the number and the name of the
state it goes to. -/
structure Move where
  cleared : List Nat
  label : Option Text
  target : Nat
  state : Text
  deriving DecidableEq

inductive Change
  | move (move : Move)
  /-- Counts a try of a block; at the bound the overflow is taken, before it the block starts over
  in its first state. -/
  | retry (block : Nat) (bound : Text) (overflow : Move) (target : Nat) (state : Text)
  deriving DecidableEq

structure Actuation where
  starts : List Timer
  change : Change
  deriving DecidableEq

namespace Actuation

/-- The move of a jump with its link. -/
def moveOf (m : Machine) (jump : Jump) (link : Link) : Except Misfit Move := do
  let (target, state) ← m.stateAt link.target
  let label :=
    match jump with
    | .go _ => none
    | .err r => some r.name
  return { cleared := link.leaves, label, target, state }

def changeOf (m : Machine) (block : Option (Nat × Until)) (t : Transition) :
    Except Misfit Change :=
  match t.action, block with
  | .jump jump, _ => .move <$> moveOf m jump t.link
  | .retry, none => .error .strayRetry
  | .retry, some (k, u) => do
    let overflow ← moveOf m u.overflow u.link
    let (target, state) ← m.stateAt t.link.target
    return .retry k u.bound.text overflow target state

/-- The actuation of a transition out of a state in `block`. -/
def ofTransition (m : Machine) (block : Option (Nat × Until)) (t : Transition) :
    Except Misfit Actuation := do
  let starts ← t.starts.mapM fun r => m.timerAt r.index
  return { starts, change := ← changeOf m block t }

end Actuation

def setState (stem name : Text) : Text :=
  "fsm->state = " ++ CUnit.stateName stem name ++ ";"

def Move.lines (stem : Text) (m : Move) : List Text :=
  m.cleared.map (fun n => "fsm->retries[" ++ Text.ofNat n ++ "] = 0;") ++
    m.label.toList.map (fun l => "fsm->err = " ++ CUnit.labelName stem l ++ ";") ++
    [setState stem m.state]

def Change.lines (stem : Text) : Change → List Text
  | move m => m.lines stem
  | retry block bound overflow _ state =>
    List.flatten
      [["if (++fsm->retries[" ++ Text.ofNat block ++ "] >= (" ++ bound ++ ")) \x7b"],
       Code.indent 4 (overflow.lines stem),
       ["\x7d else \x7b", "    " ++ setState stem state, "\x7d"]]

def startLines (stem : Text) (t : Timer) : List Text :=
  ["fsm->timers[" ++ CUnit.timerName stem t.name ++ "] = " ++ t.duration ++ ";",
   "fsm->running[" ++ CUnit.timerName stem t.name ++ "] = 1;"]

def Actuation.lines (stem : Text) (a : Actuation) : List Text :=
  a.starts.flatMap (startLines stem) ++ a.change.lines stem

end Statewright
