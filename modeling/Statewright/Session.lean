import Statewright.Compilation
import Statewright.Diagram
import Statewright.Document

namespace Statewright

/-- One transition of a machine: the overflow of an until block, or a transition of a state. Blocks
and states are counted over the whole machine. -/
inductive Address
  | overflow (block : Int)
  | transition (state transition : Int)

namespace Session

inductive Step
  | newCompilation (file : Option Text)
  | parse (source : Text) (file : Option Text) (inside : Bool)
  | analyze (inside : Bool)
  | generate (stem : Option Text)
  | diagram
  | document
  | tree
  | label (address : Address)
  | complain (diagnostic : Diagnostic)
  | check
  | count
  | setTarget (address : Address) (value : Option Int)
  | setState (state : Int) (value : Option Int)
  | setStart (address : Address) (start : Int) (value : Option Int)
  | setTimeout (address : Address) (value : Option Int)
  | clearStart

/-- Why a step gives no result. -/
inductive Refusal
  | noProgram
  | failure (failure : Failure)
  | diagram (misfit : Diagram.Misfit)
  /-- An address, or a timer start, that the program does not have. -/
  | missing
  /-- A transition that does not wait for a timer. -/
  | noTimeout

inductive Reply
  | done
  | text (text : Text)
  | tree (program : Program)
  | diagnostics (diagnostics : List Diagnostic)
  | counts (hasErrors : Bool) (errors warnings : Nat)
  | refused (refusal : Refusal)

end Session

/-- The diagnostics that came with a program: its own, or those of the session's compilation, which
may still grow. -/
inductive Notes
  | own (diagnostics : List Diagnostic)
  | compilation

structure Session where
  compilation : Compilation := {}
  program : Option (Program × Notes) := none

namespace Machine

/-- Changes the state with a number, among some items. -/
def modifyStateIn (f : State → State) (n : Nat) : List Item → List Item
  | [] => []
  | .state s :: items =>
    match n with
    | 0 => .state (f s) :: items
    | n + 1 => .state s :: modifyStateIn f n items
  | .block u :: items =>
    if n < u.states.length then .block { u with states := u.states.modify n f } :: items
    else .block u :: modifyStateIn f (n - u.states.length) items

/-- Changes the until block with a number, among some items. -/
def modifyBlockIn (f : Until → Until) (n : Nat) : List Item → List Item
  | [] => []
  | .state s :: items => .state s :: modifyBlockIn f n items
  | .block u :: items =>
    match n with
    | 0 => .block (f u) :: items
    | n + 1 => .block u :: modifyBlockIn f n items

def modifyState (m : Machine) (n : Nat) (f : State → State) : Machine :=
  { m with items := modifyStateIn f n m.items }

def modifyBlock (m : Machine) (n : Nat) (f : Until → Until) : Machine :=
  { m with items := modifyBlockIn f n m.items }

/-- The numbers of a state and of one of its transitions. -/
def transitionAt? (m : Machine) (state transition : Int) : Option (Nat × Nat × Transition) := do
  let n ← wrappedIndex? m.states.length state
  let s ← m.states[n]?
  let k ← wrappedIndex? s.transitions.length transition
  let t ← s.transitions[k]?
  return (n, k, t)

def blockAt? (m : Machine) (block : Int) : Option (Nat × Until) := do
  let n ← wrappedIndex? m.untils.length block
  let u ← m.untils[n]?
  return (n, u)

def modifyTransition (m : Machine) (n k : Nat) (f : Transition → Transition) : Machine :=
  m.modifyState n fun s => { s with transitions := s.transitions.modify k f }

/-- Puts a target into the link at an address. -/
def setTarget (m : Machine) (value : Option Int) : Address → Option Machine
  | .overflow block => do
    let (n, _) ← m.blockAt? block
    return m.modifyBlock n fun u => { u with link := { u.link with target := value } }
  | .transition state transition => do
    let (n, k, _) ← m.transitionAt? state transition
    return m.modifyTransition n k fun t => { t with link := { t.link with target := value } }

def setStart (m : Machine) (start : Int) (value : Option Int) : Address → Option Machine
  | .overflow _ => none
  | .transition state transition => do
    let (n, k, t) ← m.transitionAt? state transition
    let i ← wrappedIndex? t.starts.length start
    return m.modifyTransition n k fun t =>
      { t with starts := t.starts.modify i fun r => { r with index := value } }

def setStateIndex (m : Machine) (state : Int) (value : Option Int) : Option Machine := do
  let n ← wrappedIndex? m.states.length state
  return m.modifyState n fun s => { s with index := value }

def label? (m : Machine) : Address → Option Text
  | .overflow block => (m.blockAt? block).map fun b => Diagram.overflowLabel b.2.overflow
  | .transition state transition =>
    (m.transitionAt? state transition).map fun t => Diagram.label t.2.2

/-- Puts a number into the timer that a transition waits for. -/
def setTimeout (m : Machine) (value : Option Int) : Address → Except Session.Refusal Machine
  | .overflow block =>
    match m.blockAt? block with
    | none => .error .missing
    | some _ => .error .noTimeout
  | .transition state transition =>
    match m.transitionAt? state transition with
    | none => .error .missing
    | some (n, k, t) =>
      match t.trigger with
      | .when _ => .error .noTimeout
      | .timeout _ =>
        .ok <| m.modifyTransition n k fun t =>
          match t.trigger with
          | .timeout r => { t with trigger := .timeout { r with index := value } }
          | .when _ => t

/-- A state with the cleared counters of a later version of it. -/
def settleState (s late : State) : State :=
  let settle (t u : Transition) := { t with link := { t.link with leaves := u.link.leaves } }
  { s with transitions := List.zipWith settle s.transitions late.transitions }

def settleItem : Item → Item → Item
  | .state s, .state late => .state (settleState s late)
  | .block u, .block late =>
    .block { u with
      states := List.zipWith settleState u.states late.states
      link := { u.link with leaves := late.link.leaves } }
  | i, _ => i

/-- A machine with the error labels and cleared counters of a later version of it. These lists only
grow, and a tree that is shown keeps up with them. -/
def settle (m late : Machine) : Machine :=
  { m with items := List.zipWith settleItem m.items late.items, labels := late.labels }

end Machine

namespace Session

/-- The diagnostics that came with a program. -/
def notes (s : Session) : Notes → List Diagnostic
  | .own ds => ds
  | .compilation => s.compilation.diagnostics

def parse (s : Session) (source : Text) (file : Option Text) (inside : Bool) : Session × Reply :=
  if inside then
    match s.compilation.parse source with
    | (c, .ok p) => ({ compilation := c, program := some (p, .compilation) }, .done)
    | (c, .error failure) => ({ s with compilation := c }, .refused (.failure failure))
  else
    match ({ file } : Compilation).parse source with
    | (c, .ok p) => ({ s with program := some (p, .own c.diagnostics) }, .done)
    | (_, .error failure) => (s, .refused (.failure failure))

def analyze (s : Session) (p : Program) (before : Notes) (inside : Bool) : Session × Reply :=
  if inside then
    match s.compilation.analyze p with
    | (c, p, .ok ()) =>
      ({ compilation := c, program := some (p, .compilation) }, .diagnostics c.diagnostics)
    | (c, p, .error failure) =>
      ({ compilation := c, program := some (p, before) }, .refused (.failure failure))
  else
    match ({ file := p.file } : Compilation).analyze p with
    | (c, p, .ok ()) =>
      ({ s with program := some (p, .own c.diagnostics) }, .diagnostics c.diagnostics)
    | (_, p, .error failure) =>
      ({ s with program := some (p, before) }, .refused (.failure failure))

/-- Puts another machine into the program, or refuses. -/
def change (s : Session) (p : Program) (notes : Notes) :
    Except Refusal Machine → Session × Reply
  | .ok machine => ({ s with program := some ({ p with machine }, notes) }, .done)
  | .error refusal => (s, .refused refusal)

def found {α : Type} : Option α → Except Refusal α
  | some a => .ok a
  | none => .error .missing

/-- A step that works on the program. -/
def onProgram (s : Session) (p : Program) (notes : Notes) : Step → Session × Reply
  | .analyze inside => s.analyze p notes inside
  | .generate stem =>
    match (({} : Compilation).generate p stem).2 with
    | .ok text => (s, .text text)
    | .error failure => (s, .refused (.failure failure))
  | .diagram =>
    match Diagram.text p.machine with
    | .ok text => (s, .text text)
    | .error misfit => (s, .refused (.diagram misfit))
  | .document => (s, .text (Document.ofProgram p (s.notes notes)))
  | .tree => (s, .tree p)
  | .label address =>
    match p.machine.label? address with
    | some text => (s, .text text)
    | none => (s, .refused .missing)
  | .setTarget address value => s.change p notes (found (p.machine.setTarget value address))
  | .setState state value => s.change p notes (found (p.machine.setStateIndex state value))
  | .setStart address start value =>
    s.change p notes (found (p.machine.setStart start value address))
  | .setTimeout address value => s.change p notes (p.machine.setTimeout value address)
  | .clearStart => s.change p notes (.ok { p.machine with start := none })
  | _ => (s, .done)

/-- A new compilation; a program that came with the old one keeps that one's diagnostics. -/
def renew (s : Session) (file : Option Text) : Session :=
  { compilation := { file }
    program := s.program.map fun p => (p.1, .own (s.notes p.2)) }

def step (s : Session) : Step → Session × Reply
  | .newCompilation file => (s.renew file, .done)
  | .parse source file inside => s.parse source file inside
  | .complain d =>
    let d := { d with file := s.compilation.file }
    ({ s with compilation := s.compilation.report d }, .done)
  | .check =>
    match s.compilation.check with
    | .ok () => (s, .done)
    | .error failure => (s, .refused (.failure failure))
  | .count =>
    let ds := s.compilation.diagnostics
    let errors := (Diagnostic.errors ds).length
    (s, .counts s.compilation.hasErrors errors (Diagnostic.warnings ds).length)
  | other =>
    match s.program with
    | none => (s, .refused .noProgram)
    | some (p, notes) => s.onProgram p notes other

/-- Whether a step put another program in place of the one before. -/
def replaces : Step → Reply → Bool
  | .parse .., .done => true
  | _, _ => false

/-- Runs the steps of a session. Beside the replies, each with the number of diagnostics then in the
compilation, stands the last version of the machine that the session begins with. -/
def run (s : Session) : List Step → List (Reply × Nat) × Option Machine
  | [] => ([], s.program.map (·.1.machine))
  | first :: steps =>
    let (s', reply) := s.step first
    let (replies, last) := run s' steps
    let reply :=
      match reply, last with
      | .tree p, some late => .tree { p with machine := p.machine.settle late }
      | _, _ => reply
    let last := if replaces first reply then s.program.map (·.1.machine) else last
    ((reply, s'.compilation.diagnostics.length) :: replies, last)

end Session
end Statewright
