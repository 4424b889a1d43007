import Statewright.CUnit.Case

namespace Statewright
namespace CUnit

def quotedName (name : Text) : Text :=
  "    \"" ++ name ++ "\","

def heading (file : Option Text) (stem : Text) : List Text :=
  let origin : Text :=
    match file with
    | none | some [] => "<input>"
    | some name => name
  ["/*",
   " * Generated by fsmlc from " ++ origin ++ "; do not edit.",
   " *",
   " * Call " ++ initFunction stem ++ "() once, then " ++ stepFunction stem ++ "() from the polling",
   " * loop; each call performs at most one transition.",
   " */"]

def declLines : Option Fragment → List Text
  | none => []
  | some f => ["", Code.layout 0 f.text]

/-- The lines of a function, by its first line and its body. -/
def functionLines (head : Text) (body : List Text) : List Text :=
  List.flatten [["", head, "\x7b"], body, ["\x7d"]]

/-- The flags of a state as its enumerator has them beside it. -/
def flagsComment (s : State) : Text :=
  if s.flags.isEmpty then [] else " /* " ++ Text.join ", " (s.flags.map Flag.word) ++ " */"

def stateEntry (stem : Text) (s : State) : Text :=
  "    " ++ stateName stem s.name ++ "," ++ flagsComment s

def stateEnum (m : Machine) (stem : Text) : List Text :=
  List.flatten
    [["", "typedef enum " ++ stateTag stem ++ " \x7b"],
     m.states.map (stateEntry stem),
     ["\x7d " ++ stateType stem ++ ";"]]

def errEnum (m : Machine) (stem : Text) : List Text :=
  List.flatten
    [["", "typedef enum " ++ errTag stem ++ " \x7b",
      "    " ++ labelName stem noError ++ " = 0,"],
     m.labels.map fun l => "    " ++ labelName stem l ++ ",",
     ["\x7d " ++ errType stem ++ ";"]]

def timerEnum (m : Machine) (stem : Text) : List Text :=
  if m.timers.isEmpty then []
  else
    List.flatten
      [["", "enum " ++ timerTag stem ++ " \x7b"],
       m.timers.map fun t => "    " ++ timerName stem t.name ++ ",",
       ["\x7d;"]]

def structLines (p : Program) (stem : Text) : List Text :=
  List.flatten
    [["", "typedef struct " ++ stem ++ " \x7b"],
     (members p stem).map Member.line,
     ["\x7d " ++ machineType stem ++ ";"]]

/-- The body of the function that tells the time; without a clock each call is one unit after the
last. -/
def clockBody (p : Program) : Text :=
  match p.clock with
  | some clock => Code.layout 4 clock.body.text
  | none => "    return 1;"

def clockLines (p : Program) (stem : Text) : List Text :=
  functionLines ("static long " ++ clockFunction p stem ++ "(void)") [clockBody p]

def tableLines (table : Text) (names : List Text) : List Text :=
  List.flatten
    [["", "static const char *const " ++ table ++ "[] = \x7b"],
     names.map quotedName,
     ["\x7d;"]]

/-- A function that looks up the name of a field in a table. -/
def lookupLines (stem function table field : Text) : List Text :=
  functionLines ("const char *" ++ function ++ "(const " ++ machineType stem ++ " *fsm)")
    ["    return " ++ table ++ "[fsm->" ++ field ++ "];"]

def doneLines (m : Machine) (stem : Text) : List Text :=
  functionLines ("int " ++ doneFunction stem ++ "(const " ++ machineType stem ++ " *fsm)")
    (List.flatten
      [["    switch (fsm->state) \x7b"],
       (m.states.filter (·.has .final)).map fun s => "    case " ++ stateName stem s.name ++ ":",
       ["        return 1;", "    default:", "        return 0;", "    \x7d"]])

/-- A loop that clears arrays of the given size. -/
def clearLines (size : Nat) (fields : List Text) : List Text :=
  if size = 0 then []
  else
    List.flatten
      [["    for (i = 0; i < " ++ Text.ofNat size ++ "; i++) \x7b"],
       fields.map fun f => "        fsm->" ++ f ++ "[i] = 0;",
       ["    \x7d"]]

/-- What sets up a machine before its first step. -/
def initBody (p : Program) (stem start : Text) : List Text :=
  let m := p.machine
  List.flatten
    [if m.timers.isEmpty && m.untils.isEmpty then [] else ["    int i;"],
     ["    " ++ setState stem start, "    fsm->err = " ++ labelName stem noError ++ ";"],
     m.vars.map fun v => "    " ++ assign m v.name v.init,
     clearLines m.timers.length ["timers", "running"],
     clearLines m.untils.length ["retries"],
     if isTimed p then ["    fsm->last_time = " ++ timeFunction stem ++ "();"] else []]

def initLines (p : Program) (stem start : Text) : List Text :=
  functionLines ("void " ++ initFunction stem ++ "(" ++ machineType stem ++ " *fsm)")
    (initBody p stem start)

/-- The time that went by is taken from every running timer. -/
def elapseLines (p : Program) (stem : Text) : List Text :=
  if p.machine.timers.isEmpty then []
  else
    List.flatten
      [["    long elapsed;", "    int i;"],
       if isTimed p then
         ["    long now;", "", "    now = " ++ timeFunction stem ++ "();",
          "    elapsed = now - fsm->last_time;", "    fsm->last_time = now;"]
       else ["", "    elapsed = " ++ periodFunction stem ++ "();"],
       ["    for (i = 0; i < " ++ Text.ofNat p.machine.timers.length ++ "; i++) \x7b",
        "        if (fsm->running[i] && fsm->timers[i] > 0) \x7b",
        "            fsm->timers[i] -= elapsed;", "        \x7d", "    \x7d"]]

def stepCase (m : Machine) (stem : Text) (site : Site) : Except Misfit (List Text) := do
  let body ← caseLines m stem site
  return List.flatten
    [["    case " ++ stateName stem site.state.name ++ ":"],
     Code.indent 8 body,
     ["        break;"]]

def stepLines (p : Program) (stem : Text) : Except Misfit (List Text) := do
  let cases ← p.machine.sites.mapM (stepCase p.machine stem)
  return functionLines ("void " ++ stepFunction stem ++ "(" ++ machineType stem ++ " *fsm)")
    (List.flatten
      [elapseLines p stem,
       ["    switch (fsm->state) \x7b"],
       cases.flatten,
       ["    default:", "        break;", "    \x7d"]])

/-- Every state is to carry a number that a state can have. -/
def checkStates (m : Machine) : Except Misfit Unit :=
  m.states.forM fun s => do
    let _ ← m.stateAt s.index

/-- The lines of the unit; a line that comes from foreign code can hold line breaks. -/
def lines (p : Program) (stem start : Text) : Except Misfit (List Text) := do
  let m := p.machine
  checkStates m
  let step ← stepLines p stem
  return heading p.file stem ++ declLines p.decl ++ stateEnum m stem ++ errEnum m stem ++
    timerEnum m stem ++ structLines p stem ++ clockLines p stem ++
    tableLines (stateTable stem) (m.states.map State.name) ++
    tableLines (errTable stem) (noError :: m.labels) ++
    lookupLines stem (stateFunction stem) (stateTable stem) "state" ++
    lookupLines stem (errFunction stem) (errTable stem) "err" ++ doneLines m stem ++
    initLines p stem start ++ step

/-- The start state of a machine that was analyzed. -/
def start (m : Machine) : Except Misfit State :=
  match m.start.bind (m.states[·]?) with
  | some s => .ok s
  | none => .error .unanalyzed

/-- The unit, with a stem for its names. -/
def text (p : Program) (stem : Text) : Except Misfit Text := do
  let start ← start p.machine
  let lines ← lines p stem start.name
  return Text.join "\n" lines ++ "\n"

end CUnit
end Statewright
