import Statewright.Diagnostic
import Statewright.Document.Node
import Statewright.Machine

namespace Statewright
namespace Document

open Node

def fragment (f : Fragment) : Node :=
  object "Fragment"
    [("column", int f.place.column), ("line", int f.place.line),
     ("references", list (f.references.map text)), ("text", text f.text)]

def ref (r : Ref) : Node :=
  object "Name"
    [("column", int r.place.column), ("index", ofOption int r.index), ("line", int r.place.line),
     ("name", text r.name)]

def variableNode (v : Variable) : Node :=
  object "Variable"
    [("column", int v.place.column), ("family", text v.family.word), ("init", fragment v.init),
     ("line", int v.place.line), ("name", text v.name), ("type", text v.type)]

/-- A number that things have once the machine is numbered. -/
def number (m : Machine) (n : Nat) : Node :=
  if m.numbered then nat n else null

def timer (m : Machine) (t : Timer × Nat) : Node :=
  object "Timer"
    [("column", int t.1.place.column), ("duration", text t.1.duration),
     ("index", number m t.2), ("line", int t.1.place.line), ("name", text t.1.name)]

def assignment (a : Assignment) : Node :=
  object "OutAssignment"
    [("column", int a.place.column), ("expr", fragment a.value), ("line", int a.place.line),
     ("name", text a.name)]

def actionWord : Action → Text
  | .jump (.go _) => "go"
  | .jump (.err _) => "err"
  | .retry => "retry"

def actionRef? : Action → Option Ref
  | .jump j => some j.ref
  | .retry => none

/-- A transition, or the overflow of a block, which has neither trigger nor code. -/
def link (overflow : Bool) (place : Position) (trigger : Option Trigger) (code : Option Fragment)
    (action : Action) (starts : List Ref) (l : Link) : Node :=
  let condition :=
    match trigger with
    | some (.when f) => fragment f
    | _ => null
  let timeout :=
    match trigger with
    | some (.timeout r) => ref r
    | _ => null
  object "Transition"
    [("actuator", text (actionWord action)), ("code", ofOption fragment code),
     ("column", int place.column), ("condition", condition), ("error_index", ofOption nat l.label),
     ("leaves", list (l.leaves.map nat)), ("line", int place.line), ("overflow", bool overflow),
     ("starts", list (starts.map ref)), ("target", ofOption ref (actionRef? action)),
     ("target_index", ofOption int l.target), ("timeout", timeout)]

def transition (t : Transition) : Node :=
  link false t.place (some t.trigger) t.code t.action t.starts t.link

/-- A state; its key is twice its number. -/
def state (s : State × Nat) : Node :=
  shared (2 * s.2) <| object "State"
    [("column", int s.1.place.column), ("entry", ofOption fragment s.1.entry),
     ("flags", list (s.1.flags.map fun f => text f.word)), ("index", ofOption int s.1.index),
     ("line", int s.1.place.line), ("name", text s.1.name),
     ("outs", list (s.1.outs.map assignment)),
     ("transitions", list (s.1.transitions.map transition))]

/-- An until block; its key is odd. -/
def block (m : Machine) (first k : Nat) (u : Until) : Node :=
  let literal :=
    match u.bound with
    | .literal _ => true
    | .named _ => false
  shared (2 * k + 1) <| object "UntilBlock"
    [("bound", text u.bound.text), ("bound_is_literal", bool literal),
     ("column", int u.place.column), ("index", number m k), ("line", int u.place.line),
     ("overflow", link true u.place none none (.jump u.overflow) [] u.link),
     ("states", list ((u.states.zipIdx first).map state))]

/-- The nodes of some items, the next state having the number `n` and the next block `k`. -/
def items (m : Machine) (n k : Nat) : List Item → List Node
  | [] => []
  | .state s :: rest => state (s, n) :: items m (n + 1) k rest
  | .block u :: rest => block m n k u :: items m (n + u.states.length) (k + 1) rest

/-- The states as analysis lists them. -/
def states (m : Machine) : List Node :=
  if m.numbered then m.states.zipIdx.map state else []

/-- The until blocks as analysis lists them. -/
def blocks (m : Machine) : List Node :=
  if m.numbered then
    (m.items.zip (items m 0 0 m.items)).filterMap fun i => i.1.until?.map fun _ => i.2
  else []

def stateAt (m : Machine) (n : Option Nat) : Node :=
  ofOption state (n.bind fun n => m.states[n]?.map (·, n))

def machine (m : Machine) : Node :=
  object "Fsm"
    [("column", int m.place.column), ("err_state", stateAt m m.err),
     ("error_labels", list (m.labels.map text)), ("items", list (items m 0 0 m.items)),
     ("line", int m.place.line), ("name", text m.name), ("start_state", stateAt m m.start),
     ("states", list (states m)), ("timers", list (m.timers.zipIdx.map (timer m))),
     ("untils", list (blocks m)), ("variables", list (m.vars.map variableNode))]

def diagnostic (d : Diagnostic) : Node :=
  object "Diagnostic"
    [("column", int d.place.column), ("filename", ofOption text d.file),
     ("kind", text d.kind.label), ("line", int d.place.line), ("message", text d.message),
     ("severity", text d.severity.word)]

/-- The text of a program's document, with the diagnostics that came with it. -/
def ofProgram (p : Program) (diagnostics : List Diagnostic) : Text :=
  Node.document "Program"
    [("clock", ofOption (fun c => text (Clock.word c)) p.clock),
     ("clock_body", ofOption (fun c => fragment (Clock.body c)) p.clock),
     ("decl", ofOption fragment p.decl), ("diagnostics", list (diagnostics.map diagnostic)),
     ("fsm", machine p.machine), ("source_name", ofOption text p.file)]

end Document
end Statewright
