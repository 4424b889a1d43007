import Statewright.Analysis.Finding
import Statewright.Analysis.Scope

namespace Statewright

/-- The findings about each member of a list, given those before it. -/
def survey {α : Type} (check : List α → α → List Finding) (earlier : List α) :
    List α → List Finding
  | [] => []
  | a :: as => check earlier a ++ survey check (earlier ++ [a]) as

/-- The most digits that the value of a bound is taken of. -/
def digitLimit : Nat := 4300

namespace Bound

/-- A bound whose value is not taken: a literal with too many digits. -/
def isLong : Bound → Bool
  | literal digits => digitLimit < digits.length
  | named _ => false

def isZero : Bound → Bool
  | literal digits => digits.all (· == '0')
  | named _ => false

end Bound

namespace Machine

def checkVariable (earlier : List Variable) (v : Variable) : List Finding :=
  (if v.init.text.allBlank then [⟨.emptyInit v.family v.name, v.place⟩] else []) ++
    if reservedNames.contains v.name then [⟨.reservedVariable v.name, v.place⟩]
    else
      match earlier.find? (·.name = v.name) with
      | some first => [⟨.duplicateVariable v.name first, v.place⟩]
      | none => []

def checkTimer (earlier : List Timer) (t : Timer) : List Finding :=
  match earlier.find? (·.name = t.name) with
  | some first => [⟨.duplicateTimer t.name first, t.place⟩]
  | none => []

def checkStateName (m : Machine) (earlier : List State) (s : State) : List Finding :=
  match earlier.find? (·.name = s.name) with
  | some first => [⟨.duplicateState s.name first, s.place⟩]
  | none =>
    if generatedEndings.contains s.name then [⟨.stateClash s.name m.name, s.place⟩] else []

def checkStarts (m : Machine) : List Finding :=
  match m.states.filter (·.has .start) with
  | [] => [⟨.noStart, m.place⟩]
  | first :: others => others.map fun s => ⟨.manyStarts s.name first, s.place⟩

def checkEnds (m : Machine) : List Finding :=
  if m.states.any (·.has .final) then [] else [⟨.noEnd, m.place⟩]

def checkErrs (m : Machine) : List Finding :=
  match m.states.filter (·.has .err) with
  | [] => []
  | first :: others => others.map fun s => ⟨.alsoErr s.name first.name, s.place⟩

def checkFlags (s : State) : List Finding :=
  let check earlier flag :=
    if List.contains earlier flag then [⟨.repeatedFlag s.name flag, s.place⟩] else []
  survey check [] s.flags

def checkBlock (u : Until) : List Finding :=
  (if u.bound.isZero then [⟨.zeroBound u.bound.text, u.place⟩] else []) ++
    if u.states.isEmpty then [⟨.emptyBlock, u.place⟩] else []

/-- The findings about declarations, before any name is looked up. A bound that is too long ends
them. -/
def checkDeclarations (m : Machine) : List Finding :=
  survey checkVariable [] m.vars ++ survey checkTimer [] m.timers ++
    survey m.checkStateName [] m.states ++ m.checkStarts ++ m.checkEnds ++ m.checkErrs ++
    m.states.flatMap checkFlags ++
    (m.untils.takeWhile (!·.bound.isLong)).flatMap checkBlock

def checkTimerRef (m : Machine) (r : Ref) : List Finding :=
  if (m.timerNumber? r.name).isSome then [] else [⟨.unknownTimer r.name, r.place⟩]

def checkLabel (m : Machine) (r : Ref) : List Finding :=
  if r.name = "none".toList then [⟨.noneLabel, r.place⟩]
  else if generatedEndings.contains r.name then [⟨.labelClash r.name m.name, r.place⟩]
  else []

def checkJump (m : Machine) : Jump → List Finding
  | .go r => if (m.stateNumber? r.name).isSome then [] else [⟨.unknownState r.name, r.place⟩]
  | .err r =>
    m.checkLabel r ++ if (m.flagged? .err).isSome then [] else [⟨.noErrState r.name, r.place⟩]

def checkTransition (m : Machine) (nested : Bool) (t : Transition) : List Finding :=
  (match t.action with
    | .jump j => m.checkJump j
    | .retry => if nested then [] else [⟨.strayRetry, t.place⟩]) ++
  (match t.trigger with
    | .timeout r => m.checkTimerRef r
    | .when _ => []) ++
  t.starts.flatMap m.checkTimerRef

def checkOut (m : Machine) (a : Assignment) : List Finding :=
  (if a.value.text.allBlank then [⟨.emptyOut a.name, a.place⟩] else []) ++
    match m.declared? a.name with
    | none => [⟨.unknownOutput a.name, a.place⟩]
    | some v => if v.family = .output then [] else [⟨.notOutput a.name v.family, a.place⟩]

def checkCondition (m : Machine) (t : Transition) : List Finding :=
  match t.trigger with
  | .timeout _ => []
  | .when condition =>
    (if condition.text.allBlank then [⟨.emptyCondition, t.place⟩] else []) ++
      ((m.uses condition.text).filter (·.2.family = .output)).map fun u =>
        ⟨.outputRead u.2.name, condition.placeAt u.1⟩

def checkCode (m : Machine) (f : Fragment) : List Finding :=
  (m.hides f.text).map fun u => ⟨.hidden u.2.name u.2.family, f.placeAt u.1⟩

/-- The fragments of a state that are statements or stand in one. -/
def codeOf (s : State) : List Fragment :=
  s.entry.toList ++ s.transitions.filterMap Transition.code ++ s.outs.map Assignment.value

def checkState (m : Machine) (nested : Bool) (s : State) : List Finding :=
  s.transitions.flatMap (m.checkTransition nested) ++ s.outs.flatMap m.checkOut ++
    s.transitions.flatMap m.checkCondition ++ (codeOf s).flatMap m.checkCode

def checkItem (m : Machine) : Item → List Finding
  | .state s => m.checkState false s
  | .block u => u.states.flatMap (m.checkState true) ++ m.checkJump u.overflow

/-- The findings about the uses of names, in source order. -/
def checkItems (m : Machine) : List Finding :=
  m.items.flatMap m.checkItem

end Machine
end Statewright
