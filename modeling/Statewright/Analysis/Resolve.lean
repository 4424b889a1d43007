import Statewright.Analysis.Scope

namespace Statewright

/-- Numbers the states of some items, from `n` on. -/
def Item.numberFrom (n : Nat) : List Item → List Item
  | [] => []
  | .state s :: items => .state { s with index := some n } :: numberFrom (n + 1) items
  | .block u :: items =>
    .block { u with states := u.states.mapIdx fun i s => { s with index := some (n + i : Nat) } } ::
      numberFrom (n + u.states.length) items

/-- An until block by its number and by the numbers of its states, `size` of them from `first`. -/
structure Frame where
  number : Nat
  first : Nat
  size : Nat

def Frame.has (f : Frame) (n : Nat) : Bool :=
  f.first ≤ n && n < f.first + f.size

/-- Appends a label unless it is there. -/
def addLabel (labels : List Text) (label : Text) : List Text :=
  if labels.contains label then labels else labels ++ [label]

/-- The number of a label; 0 is for no error. -/
def labelNumber (labels : List Text) (label : Text) : Nat :=
  labels.idxOf label + 1

namespace Jump

def label? : Jump → Option Text
  | go _ => none
  | err r => some r.name

end Jump

namespace Transition

def label? (t : Transition) : Option Text :=
  match t.action with
  | .jump j => j.label?
  | .retry => none

end Transition

namespace Item

/-- The error labels used in an item, in source order. -/
def labels : Item → List Text
  | state s => s.transitions.filterMap Transition.label?
  | block u =>
    u.states.flatMap (fun s => s.transitions.filterMap Transition.label?) ++
      u.overflow.label?.toList

end Item

namespace Machine

/-- Numbers states and blocks, and finds the start state and the state errors go to. -/
def number (m : Machine) : Machine :=
  { m with
    items := Item.numberFrom 0 m.items
    numbered := true
    start := (m.flagged? .start).or m.start
    err := (m.flagged? .err).or m.err }

/-- The labels that a machine has after its own uses are added. -/
def allLabels (m : Machine) : List Text :=
  (m.items.flatMap Item.labels).foldl addLabel m.labels

def resolveTimer (m : Machine) (r : Ref) : Ref :=
  match m.timerNumber? r.name with
  | some n => { r with index := some n }
  | none => r

def resolveJump (m : Machine) (labels : List Text) : Jump → Jump
  | .go r =>
    match m.stateNumber? r.name with
    | some n => .go { r with index := some n }
    | none => .go r
  | .err r => .err { r with index := some (labelNumber labels r.name : Nat) }

/-- The state a jump goes to: the one it names, or the one that errors go to. -/
def jumpTarget? (m : Machine) : Jump → Option Nat
  | .go r => m.stateNumber? r.name
  | .err _ => m.flagged? .err

/-- The link of a jump out of a state in `block`, or of the overflow of `block`. A jump that leaves
the block clears its counter, and so does every overflow. -/
def linkJump (m : Machine) (labels : List Text) (block : Option Frame) (overflow : Bool)
    (jump : Jump) (link : Link) : Link :=
  let label := (jump.label?.map (labelNumber labels)).or link.label
  match m.jumpTarget? jump with
  | none => { link with label }
  | some n =>
    let left := (block.toList.filter fun b => overflow || !b.has n).map Frame.number
    { target := some n, label, leaves := link.leaves ++ left }

def linkRetry (block : Option Frame) (link : Link) : Link :=
  match block with
  | some b => { link with target := some b.first }
  | none => link

/-- The declared variables that a fragment refers to, sorted. -/
def resolveFragment (m : Machine) (f : Fragment) : Fragment :=
  let names := ((m.uses f.text).map (·.2.name)).eraseDups
  { f with references := names.mergeSort fun a b => !decide (b < a) }

def resolveTrigger (m : Machine) : Trigger → Trigger
  | .when condition => .when (m.resolveFragment condition)
  | .timeout r => .timeout (m.resolveTimer r)

def resolveTransition (m : Machine) (labels : List Text) (block : Option Frame)
    (t : Transition) : Transition :=
  { t with
    trigger := m.resolveTrigger t.trigger
    code := t.code.map m.resolveFragment
    starts := t.starts.map m.resolveTimer
    action :=
      match t.action with
      | .jump j => .jump (m.resolveJump labels j)
      | .retry => .retry
    link :=
      match t.action with
      | .jump j => m.linkJump labels block false j t.link
      | .retry => linkRetry block t.link }

def resolveState (m : Machine) (labels : List Text) (block : Option Frame) (s : State) : State :=
  { s with
    entry := s.entry.map m.resolveFragment
    transitions := s.transitions.map (m.resolveTransition labels block)
    outs := s.outs.map fun a => { a with value := m.resolveFragment a.value } }

/-- Resolves some items, the next state having the number `n` and the next block `k`. -/
def resolveItems (m : Machine) (labels : List Text) (n k : Nat) : List Item → List Item
  | [] => []
  | .state s :: items =>
    .state (m.resolveState labels none s) :: m.resolveItems labels (n + 1) k items
  | .block u :: items =>
    let frame := some ⟨k, n, u.states.length⟩
    .block { u with
      states := u.states.map (m.resolveState labels frame)
      overflow := m.resolveJump labels u.overflow
      link := m.linkJump labels frame true u.overflow u.link } ::
      m.resolveItems labels (n + u.states.length) (k + 1) items

/-- A machine with every name resolved that can be. -/
def resolve (m : Machine) : Machine :=
  let labels := m.allLabels
  { m with items := m.resolveItems labels 0 0 m.items, labels }

end Machine
end Statewright
