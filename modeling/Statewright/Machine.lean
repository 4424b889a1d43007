import Statewright.Token

namespace Statewright

inductive Family
  | var | input | output
  deriving DecidableEq

def Family.word : Family → Text
  | var => "var"
  | input => "input"
  | output => "output"

inductive Flag
  | start | final | err
  deriving DecidableEq

namespace Flag

def word : Flag → Text
  | start => "start"
  | final => "end"
  | err => "err"

def all : List Flag := [start, final, err]

def ofWord? (w : Text) : Option Flag :=
  all.find? (·.word = w)

end Flag

/-- Foreign code, copied as it stands; `references` are the declared variables it refers to. -/
structure Fragment where
  text : Text
  place : Position
  references : List Text := []
  deriving DecidableEq

/-- The place of the character at an offset of the fragment, by the line breaks before it. -/
def Fragment.placeAt (f : Fragment) (offset : Int) : Position :=
  let before := f.text.upTo offset
  let breaks := before.count '\n'
  if breaks = 0 then ⟨f.place.line, f.place.column + offset⟩
  else ⟨f.place.line + breaks, offset - before.length + before.lastLine.length + 1⟩

/-- The use of a name: of a state, a timer or an error label. -/
structure Ref where
  name : Text
  place : Position
  index : Option Int := none
  deriving DecidableEq

structure Variable where
  family : Family
  type : Text
  name : Text
  place : Position
  init : Fragment
  deriving DecidableEq

structure Timer where
  name : Text
  duration : Text
  place : Position
  deriving DecidableEq

/-- The number of tries an until block allows. -/
inductive Bound
  | literal (digits : Text)
  | named (name : Text)
  deriving DecidableEq

def Bound.text : Bound → Text
  | literal digits => digits
  | named name => name

/-- What analysis says about a transition: the number of the state it goes to, the number of its
error label, and the until blocks whose counters it clears. -/
structure Link where
  target : Option Int := none
  label : Option Nat := none
  leaves : List Nat := []
  deriving DecidableEq

inductive Jump
  | go (state : Ref)
  | err (label : Ref)
  deriving DecidableEq

def Jump.ref : Jump → Ref
  | go state => state
  | err label => label

inductive Action
  | jump (jump : Jump)
  | retry
  deriving DecidableEq

inductive Trigger
  | when (condition : Fragment)
  | timeout (timer : Ref)
  deriving DecidableEq

structure Transition where
  place : Position
  trigger : Trigger
  code : Option Fragment
  action : Action
  starts : List Ref
  link : Link := {}
  deriving DecidableEq

structure Assignment where
  name : Text
  place : Position
  value : Fragment
  deriving DecidableEq

structure State where
  name : Text
  place : Position
  flags : List Flag
  entry : Option Fragment
  transitions : List Transition
  outs : List Assignment
  index : Option Int := none
  deriving DecidableEq

/-- States that may retry, up to a bound; then the overflow jump is taken. -/
structure Until where
  bound : Bound
  place : Position
  states : List State
  overflow : Jump
  link : Link := {}
  deriving DecidableEq

inductive Item
  | state (state : State)
  | block (block : Until)
  deriving DecidableEq

/-- Once numbered, states and until blocks are known by their position in source order; `start`
and `err` are such positions. `labels` are the error labels, numbered from 1. -/
structure Machine where
  name : Text
  place : Position
  vars : List Variable
  timers : List Timer
  items : List Item
  numbered : Bool := false
  labels : List Text := []
  start : Option Nat := none
  err : Option Nat := none
  deriving DecidableEq

/-- Where the time comes from: the present time, or the time since the last call. -/
inductive Clock
  | time (body : Fragment)
  | period (body : Fragment)
  deriving DecidableEq

structure Program where
  file : Option Text
  decl : Option Fragment
  clock : Option Clock
  machine : Machine
  deriving DecidableEq

namespace Clock

def word : Clock → Text
  | time _ => "time"
  | period _ => "period"

def body : Clock → Fragment
  | time body => body
  | period body => body

end Clock

def State.has (s : State) (flag : Flag) : Bool :=
  s.flags.contains flag

namespace Item

def states : Item → List State
  | state s => [s]
  | block u => u.states

def until? : Item → Option Until
  | state _ => none
  | block u => some u

end Item

/-- A state and the until block around it, with the block's number. -/
structure Site where
  state : State
  block : Option (Nat × Until)

namespace Machine

/-- All states in source order. -/
def states (m : Machine) : List State :=
  m.items.flatMap Item.states

/-- All until blocks in source order. -/
def untils (m : Machine) : List Until :=
  m.items.filterMap Item.until?

/-- The sites of some items, the next until block having the number `n`. -/
def sitesFrom (n : Nat) : List Item → List Site
  | [] => []
  | .state s :: items => ⟨s, none⟩ :: sitesFrom n items
  | .block u :: items => u.states.map (⟨·, some (n, u)⟩) ++ sitesFrom (n + 1) items

def sites (m : Machine) : List Site :=
  sitesFrom 0 m.items

end Machine
end Statewright
