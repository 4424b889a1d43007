import Statewright.Reader.Recovery

namespace Statewright
namespace Grammar

open Reader

def fragment (token : Token) : Fragment :=
  { text := token.text, place := token.place }

def ref (token : Token) : Ref :=
  { name := token.text, place := token.place }

/-- A fragment of the given kind. -/
def scanFragment (kind : Kind) : Read Fragment :=
  fragment <$> scan kind

/-- A code block, if the next token, one of the expected, is one. -/
def optionalBlock (expected : List Kind) : Read (Option Fragment) := do
  if (← peek expected) = .block then some <$> scanFragment .block else return none

/-- A name in parentheses. -/
def argument : Read Ref := do
  let _ ← scan .openParen
  let name ← scan .name
  let _ ← scan .closeParen
  return ref name

def clock : Read (Option Clock) := do
  match ← peek [.time, .period, .fsm] with
  | .time =>
    let _ ← scan .time
    return some (.time (← scanFragment .block))
  | .period =>
    let _ ← scan .period
    return some (.period (← scanFragment .block))
  | _ => return none

def prologue : Read (Option Fragment × Option Clock) := do
  if (← peek [.decl, .time, .period, .fsm]) = .decl then
    let _ ← scan .decl
    let decl ← scanFragment .block
    return (some decl, ← clock)
  return (none, ← clock)

/-- An integer or a name. -/
def constant : Read Token := do
  scan (← peek [.int, .name])

def timer : Read Timer := do
  let _ ← scan .timer
  let name ← scan .name
  let _ ← scan .openParen
  let duration ← constant
  let _ ← scan .closeParen
  let _ ← scan .semicolon
  note (.timer name.text duration.text)
  return { name := name.text, duration := duration.text, place := name.place }

/-- The words of a variable are its type and, last, its name. -/
def variableDecl (family : Family) (kind : Kind) : Read Variable := do
  let _ ← scan kind
  let first ← scan .name
  let others ← collect do
    if (← peek [.expr, .name]) = .name then some <$> scan .name else return none
  let init ← scanFragment .expr
  let _ ← scan .semicolon
  let words := first :: others
  let name := others.getLast?.getD first
  if others.isEmpty then throw (.untyped family name.text name.place)
  let type := Text.join " " (words.dropLast.map Token.text)
  note (.declared family type name.text)
  return { family, type, name := name.text, place := name.place, init }

def declaration : Read (Option (Variable ⊕ Timer)) := do
  match ← peek [.timer, .var, .input, .output, .closeBrace, .state, .untilWord] with
  | .timer => return some (.inr (← timer))
  | .var => return some (.inl (← variableDecl .var .var))
  | .input => return some (.inl (← variableDecl .input .input))
  | .output => return some (.inl (← variableDecl .output .output))
  | _ => return none

/-- The machine up to its first item. -/
def header : Read Machine := do
  let _ ← scan .fsm
  let name ← scan .name
  let _ ← scan .openBrace
  let declarations ← collect declaration
  return {
    name := name.text
    place := name.place
    vars := declarations.filterMap Sum.getLeft?
    timers := declarations.filterMap Sum.getRight?
    items := [] }

def jump : Read Jump := do
  match ← peek [.go, .err, .retry] with
  | .go =>
    let _ ← scan .go
    return .go (ref (← scan .name))
  | .err =>
    let _ ← scan .err
    return .err (ref (← scan .name))
  | _ =>
    let retry ← scan .retry
    throw (.retryOverflow retry.place)

def action : Read Action := do
  if (← peek [.go, .err, .retry]) = .retry then
    let _ ← scan .retry
    return .retry
  return .jump (← jump)

def trigger : Read Trigger := do
  if (← peek [.expr, .timeout]) = .expr then
    return .when (← scanFragment .expr)
  let _ ← scan .timeout
  return .timeout (← argument)

def transition : Read Transition := do
  let on ← scan .on
  let trigger ← trigger
  let code ← optionalBlock [.block, .go, .err, .retry]
  let action ← action
  let starts ← collect do
    if (← peek [.semicolon, .start]) = .start then
      let _ ← scan .start
      some <$> argument
    else return none
  let _ ← scan .semicolon
  return { place := on.place, trigger, code, action, starts }

def assignment : Read Assignment := do
  let name ← scan .name
  let value ← scanFragment .expr
  return { name := name.text, place := name.place, value }

def outs : Read (List Assignment) := do
  let _ ← scan .out
  let first ← assignment
  let others ← collect do
    if (← peek [.semicolon, .comma]) = .comma then
      let _ ← scan .comma
      some <$> assignment
    else return none
  let _ ← scan .semicolon
  return first :: others

def flag : Read Token := do
  scan (← peek [.start, .err, .name])

/-- The words between the brackets before a state's name. -/
def flagWords : Read (List Token) := do
  if (← peek [.openBracket, .name]) = .openBracket then
    let _ ← scan .openBracket
    let first ← flag
    let others ← collect do
      if (← peek [.closeBracket, .comma]) = .comma then
        let _ ← scan .comma
        some <$> flag
      else return none
    let _ ← scan .closeBracket
    return first :: others
  return []

def checkFlag (word : Token) : Read Flag :=
  match Flag.ofWord? word.text with
  | some flag => return flag
  | none => throw (.unknownFlag word.text word.place)

def member : Read (Option (Transition ⊕ List Assignment)) := do
  match ← peek [.closeBrace, .on, .out] with
  | .on => return some (.inl (← transition))
  | .out => return some (.inr (← outs))
  | _ => return none

def state (nested : Bool) : Read State := do
  let _ ← scan .state
  let words ← flagWords
  let name ← scan .name
  let _ ← scan .openBrace
  let flags ← words.mapM checkFlag
  note (.state nested name.text flags)
  let entry ← optionalBlock [.block, .closeBrace, .on, .out]
  let members ← collect member
  let _ ← scan .closeBrace
  return {
    name := name.text
    place := name.place
    flags
    entry
    transitions := members.filterMap Sum.getLeft?
    outs := (members.filterMap Sum.getRight?).flatten }

def block : Read Until := do
  let word ← scan .untilWord
  let _ ← scan .openParen
  let constant ← constant
  let _ ← scan .closeParen
  let _ ← scan .openBrace
  let bound := if constant.kind = .int then Bound.literal constant.text else .named constant.text
  note (.block bound)
  let states ← collect do
    if (← peek [.closeBrace, .state, .untilWord]) = .state then some <$> state true
    else return none
  let _ ← scan .closeBrace
  let overflow ← jump
  let _ ← scan .semicolon
  return { bound, place := word.place, states, overflow }

def item : Read (Option Item) := do
  match ← peek [.state, .untilWord, .closeBrace] with
  | .state => return some (.state (← state false))
  | .untilWord => return some (.block (← block))
  | _ => return none

/-- What a run over the items gives: those that could be read, the faults of the others, and
whether the closing brace was reached. -/
structure Items where
  items : List Item := []
  faults : List Fault := []
  closed : Bool
  reader : Reader

def Items.addItem (rest : Items) (item : Item) : Items :=
  { rest with items := item :: rest.items }

def Items.addFault (rest : Items) (fault : Fault) : Items :=
  { rest with faults := fault :: rest.faults }

def report (file : Option Text) (fault : Fault) (r : Reader) : Reader :=
  r.push (.diagnosed (fault.diagnostic file))

/-- Reads items up to the closing brace, over the broken ones. Every round gets further. -/
def items (file : Option Text) (r : Reader) : Items :=
  let (start, marked) := r.mark
  match item marked with
  | .ok none r' => { closed := true, reader := r' }
  | .ok (some item) r' =>
    if r'.remaining < r.remaining then (items file r').addItem item
    else { closed := false, reader := r' }
  | .error fault r' =>
    let (ended, r') := ((report file fault r').recover start).atEnd
    if ended then { faults := [fault], closed := false, reader := r' }
    else if r'.remaining < r.remaining then (items file r').addFault fault
    else { faults := [fault], closed := false, reader := r' }
termination_by r.remaining

/-- What reading a source gives: the program if nothing was wrong, the faults, and what was noted
down, in order. -/
structure Outcome where
  program : Option Program
  faults : List Fault
  journal : List Event

/-- Ends the reading at a fault that cannot be recovered from. -/
def stop (file : Option Text) (faults : List Fault) (fault : Fault) (r : Reader) : Outcome :=
  ⟨none, faults ++ [fault], (report file fault r).journal.reverse⟩

def opening : Read (Option Fragment × Option Clock × Machine) := do
  let (decl, clock) ← prologue
  return (decl, clock, ← header)

def ending : Read Unit := do
  let _ ← scan .closeBrace
  let _ ← scan .eof

def read (file : Option Text) (source : Text) : Outcome :=
  match opening { source } with
  | .error fault r => stop file [] fault r
  | .ok (decl, clock, machine) r =>
    let body := items file r
    if !body.closed then ⟨none, body.faults, body.reader.journal.reverse⟩
    else
      match ending body.reader with
      | .error fault r => stop file body.faults fault r
      | .ok () r =>
        let program := { file, decl, clock, machine := { machine with items := body.items } }
        ⟨if body.faults.isEmpty then some program else none, body.faults, r.journal.reverse⟩

end Grammar
end Statewright
