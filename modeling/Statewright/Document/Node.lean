import Statewright.Document.Scalar

namespace Statewright

inductive Node
  | null
  | bool (value : Bool)
  | int (value : Int)
  | text (value : Text)
  | list (items : List Node)
  | object (tag : Text) (fields : List (Text × Node))
  /-- An object that can stand in several places of one document, known by its key. -/
  | shared (key : Nat) (node : Node)

namespace Node

def ofOption {α : Type} (f : α → Node) : Option α → Node
  | some a => f a
  | none => null

def nat (n : Nat) : Node :=
  int n

/-- The keys met so far, and those met again, in the order of their second meeting. -/
structure Meetings where
  seen : List Nat := []
  again : List Nat := []

namespace Meetings

def meet (m : Meetings) (key : Nat) : Meetings :=
  if !m.seen.contains key then { m with seen := key :: m.seen }
  else if m.again.contains key then m
  else { m with again := m.again ++ [key] }

end Meetings

mutual

/-- Walks a document; only the first meeting of an object goes into it. -/
def walk (m : Meetings) : Node → Meetings
  | null | bool _ | int _ | text _ => m
  | list items => walkList m items
  | object _ fields => walkFields m fields
  | shared key node => if m.seen.contains key then m.meet key else walk (m.meet key) node

def walkList (m : Meetings) : List Node → Meetings
  | [] => m
  | n :: ns => walkList (walk m n) ns

def walkFields (m : Meetings) : List (Text × Node) → Meetings
  | [] => m
  | (_, n) :: fs => walkFields (walk m n) fs

end

/-- The name of an anchor: its number with at least three digits. -/
def anchorName (n : Nat) : Text :=
  let digits := Text.ofNat n
  "id" ++ List.replicate (3 - digits.length) '0' ++ digits

/-- The anchor of a key among those that are met again. -/
def anchor? (again : List Nat) (key : Nat) : Option Text :=
  (again.idxOf? key).map fun i => anchorName (i + 1)

mutual

/-- What stands after a key or a dash, which ends at `column`, and the keys written so far. Members
of an object are indented by `indent + 2`, dashes by `dash`. -/
def render (again : List Nat) (indent dash column : Nat) (seen : List Nat) :
    (anchor : Text) → Node → Text × List Nat
  | _, null => (" null\n", seen)
  | _, bool b => (if b then " true\n" else " false\n", seen)
  | _, int i => (" " ++ Text.ofInt i ++ "\n", seen)
  | _, text t => (" " ++ Scalar.write (indent + 2) (column + 1) t ++ "\n", seen)
  | _, list [] => (" []\n", seen)
  | _, list (item :: items) =>
    let (body, seen) := renderList again dash seen (item :: items)
    ("\n" ++ body, seen)
  | anchor, object tag fields =>
    let (body, seen) := renderFields again (indent + 2) seen fields
    (anchor ++ " !!python/object:" ++ tag ++ "\n" ++ body, seen)
  | _, shared key node =>
    match anchor? again key with
    | none => render again indent dash column (key :: seen) [] node
    | some name =>
      if seen.contains key then (" *" ++ name ++ "\n", seen)
      else render again indent dash column (key :: seen) (" &" ++ name) node

def renderList (again : List Nat) (dash : Nat) (seen : List Nat) : List Node → Text × List Nat
  | [] => ([], seen)
  | n :: ns =>
    let (first, seen) := render again dash (dash + 2) (dash + 1) seen [] n
    let (others, seen) := renderList again dash seen ns
    (Text.spaces dash ++ "-" ++ first ++ others, seen)

def renderFields (again : List Nat) (indent : Nat) (seen : List Nat) :
    List (Text × Node) → Text × List Nat
  | [] => ([], seen)
  | (key, n) :: fs =>
    let (first, seen) := render again indent indent (indent + key.length + 1) seen [] n
    let (others, seen) := renderFields again indent seen fs
    (Text.spaces indent ++ key ++ ":" ++ first ++ others, seen)

end

/-- The text of a document that is one object. -/
def document (tag : Text) (fields : List (Text × Node)) : Text :=
  let again := (walkFields {} fields).again
  "!!python/object:" ++ tag ++ "\n" ++ (renderFields again 0 [] fields).1

end Node
end Statewright
