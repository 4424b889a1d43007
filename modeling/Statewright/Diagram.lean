import Statewright.Machine

namespace Statewright

/-- The position that an index stands for in a list of the given size; a negative one counts from
the end. -/
def wrappedIndex? (size : Nat) (i : Int) : Option Nat :=
  let n := if 0 ≤ i then i else size + i
  if 0 ≤ n ∧ n < size then some n.toNat else none

namespace Diagram

/-- What keeps a machine from being drawn. -/
inductive Misfit
  /-- An until block has no number yet. -/
  | unnumbered
  /-- A transition goes to a number that no state has. -/
  | strayTarget
  deriving DecidableEq

def jumpLabel : Jump → List Text
  | .go _ => []
  | .err r => ["/ err " ++ r.name]

def actionLabel : Action → List Text
  | .jump j => jumpLabel j
  | .retry => ["/ retry"]

def triggerLabel : Trigger → Text
  | .when condition => "[" ++ Text.join " " condition.text.words ++ "]"
  | .timeout r => "timeout(" ++ r.name ++ ")"

def startLabel (r : Ref) : Text :=
  "/ start(" ++ r.name ++ ")"

/-- What an edge of the diagram says about its transition. -/
def label (t : Transition) : Text :=
  Text.join " " ([triggerLabel t.trigger] ++ actionLabel t.action ++ t.starts.map startLabel)

def overflowLabel (j : Jump) : Text :=
  Text.join " " (jumpLabel j)

def edge (source target label : Text) : Text :=
  let note : Text := if label.isEmpty then [] else " : " ++ label
  source ++ " --> " ++ target ++ note

def stateLines (indent : Text) (s : State) : List Text :=
  let flags := s.flags.filter (· ≠ .start)
  let note : Text :=
    if flags.isEmpty then [] else " : " ++ Text.join ", " (flags.map Flag.word)
  (if s.has .start then [indent ++ "[*] --> " ++ s.name] else []) ++
    [indent ++ "state " ++ s.name ++ note] ++
    if s.has .final then [indent ++ s.name ++ " --> [*]"] else []

def blockName (k : Nat) : Text :=
  "until_" ++ Text.ofNat k

/-- The lines of some items, the next until block having the number `k`. -/
def itemLines (k : Nat) : List Item → List Text
  | [] => []
  | .state s :: items => stateLines [] s ++ itemLines k items
  | .block u :: items =>
    List.flatten
      [["state \"until(" ++ u.bound.text ++ ")\" as " ++ blockName k ++ " \x7b"],
       u.states.flatMap (stateLines "    "),
       ["\x7d"],
       itemLines (k + 1) items]

/-- The edge of a link, if it goes anywhere. -/
def linkLines (m : Machine) (source label : Text) (link : Link) : Except Misfit (List Text) :=
  match link.target with
  | none => .ok []
  | some i =>
    match (wrappedIndex? m.states.length i).bind (m.states[·]?) with
    | some target => .ok [edge source target.name label]
    | none => .error .strayTarget

def stateEdges (m : Machine) (s : State) : Except Misfit (List Text) :=
  List.flatten <$> s.transitions.mapM fun t => linkLines m s.name (label t) t.link

def overflowEdges (m : Machine) (u : Until × Nat) : Except Misfit (List Text) :=
  linkLines m (blockName u.2) (overflowLabel u.1.overflow) u.1.link

/-- The edges; there are none before the states are numbered. -/
def edgeLines (m : Machine) : Except Misfit (List Text) :=
  if m.numbered then do
    let edges ← m.states.mapM (stateEdges m)
    let overflows ← m.untils.zipIdx.mapM (overflowEdges m)
    return edges.flatten ++ overflows.flatten
  else if m.untils.isEmpty then .ok []
  else .error .unnumbered

def lines (m : Machine) : Except Misfit (List Text) := do
  let edges ← edgeLines m
  return List.flatten
    [["@startuml", "title " ++ m.name], itemLines 0 m.items, edges, ["@enduml"]]

def text (m : Machine) : Except Misfit Text := do
  return Text.join "\n" (← lines m) ++ "\n"

end Diagram
end Statewright
