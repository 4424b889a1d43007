import Statewright.Machine

namespace Statewright
namespace CUnit

def stateTag (stem : Text) : Text := stem ++ "_state"

def stateType (stem : Text) : Text := stem ++ "_state_t"

def stateName (stem name : Text) : Text := stem ++ "_state_" ++ name

def errTag (stem : Text) : Text := stem ++ "_err"

def errType (stem : Text) : Text := stem ++ "_err_t"

def labelName (stem label : Text) : Text := stem ++ "_err_" ++ label

/-- The label of a machine that met no error. -/
def noError : Text := "none"

def timerTag (stem : Text) : Text := stem ++ "_timer"

def timerName (stem name : Text) : Text := stem ++ "_timer_" ++ name

def machineType (stem : Text) : Text := stem ++ "_t"

def timeFunction (stem : Text) : Text := stem ++ "_time"

def periodFunction (stem : Text) : Text := stem ++ "_period"

def stateTable (stem : Text) : Text := stem ++ "_state_names"

def errTable (stem : Text) : Text := stem ++ "_err_names"

def stateFunction (stem : Text) : Text := stem ++ "_state_name"

def errFunction (stem : Text) : Text := stem ++ "_err_name"

def doneFunction (stem : Text) : Text := stem ++ "_done"

def initFunction (stem : Text) : Text := stem ++ "_init"

def stepFunction (stem : Text) : Text := stem ++ "_step"

def isTimed (p : Program) : Bool :=
  match p.clock with
  | some (.time _) => true
  | _ => false

/-- The function that tells the time. -/
def clockFunction (p : Program) (stem : Text) : Text :=
  if isTimed p then timeFunction stem else periodFunction stem

/-- A member of the structure; one with a size is an array. -/
structure Member where
  type : Text
  name : Text
  size : Option Nat := none
  comment : Option Text := none
  deriving DecidableEq

namespace Member

def ofVariable (v : Variable) : Member where
  type := v.type
  name := v.name
  comment := some v.family.word

def line (m : Member) : Text :=
  List.flatten
    ["    ", m.type, " ", m.name,
     match m.size with
     | some n => "[" ++ Text.ofNat n ++ "]"
     | none => [],
     ";",
     match m.comment with
     | some c => " /* " ++ c ++ " */"
     | none => []]

end Member

/-- The time left of each timer, and whether it runs. -/
def timerMembers (n : Nat) : List Member :=
  if n = 0 then []
  else
    [{ type := "long", name := "timers", size := some n,
       comment := some "time left until timeout" },
     { type := "unsigned char", name := "running", size := some n }]

/-- The tries of each until block. -/
def retryMembers (n : Nat) : List Member :=
  if n = 0 then []
  else
    [{ type := "unsigned int", name := "retries", size := some n,
       comment := some "per until block" }]

def members (p : Program) (stem : Text) : List Member :=
  List.flatten
    [[{ type := stateType stem, name := "state" }, { type := errType stem, name := "err" }],
     p.machine.vars.map .ofVariable,
     timerMembers p.machine.timers.length,
     retryMembers p.machine.untils.length,
     if isTimed p then [{ type := "long", name := "last_time" }] else []]

end CUnit
end Statewright
