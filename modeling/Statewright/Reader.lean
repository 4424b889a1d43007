import Statewright.Fault
import Statewright.Journal
import Statewright.Token.Lexeme

namespace Statewright

/-- `journal` has the newest event first. -/
structure Reader where
  source : Text
  offset : Nat := 0
  ahead : Option Token := none
  journal : List Event := []

/-- Reading may fail; what was read up to there stays read. -/
abbrev Read := EStateM Fault Reader

namespace Lexeme

def Flaw.fault (place : Position) : Flaw → Fault
  | unrecognized c => .unrecognized c place
  | unterminated kind opener closer => .unterminated kind opener closer place

end Lexeme

namespace Reader

/-- The text after the last token that was cut. -/
def rest (r : Reader) : Text :=
  r.source.drop r.offset

/-- How much is left to scan; only the end of the source leaves it as it is. -/
def remaining (r : Reader) : Nat :=
  r.rest.length + (r.ahead.toList.filter (·.kind ≠ .eof)).length

def skipGap (r : Reader) : Reader :=
  { r with offset := r.offset + gapLength r.rest }

def push (r : Reader) (event : Event) : Reader :=
  { r with journal := event :: r.journal }

def note (event : Event) : Read Unit :=
  modify (·.push event)

/-- Cuts the next token under the kinds expected. -/
def cut (expected : List Kind) : Read Token := fun r =>
  let r := r.skipGap
  match Lexeme.read expected r.rest with
  | .error flaw => .error (flaw.fault (.inSource r.source r.offset)) r
  | .ok l =>
    let place := Position.inSource r.source (r.offset + l.placeOffset)
    .ok ⟨l.kind, l.text, place, r.offset⟩ { r with offset := r.offset + l.length }

/-- The next token, cut now unless it already was. -/
def look (expected : List Kind) : Read Token := fun r =>
  match r.ahead with
  | some token => .ok token r
  | none =>
    match cut expected r with
    | .error fault r => .error fault r
    | .ok token r => .ok token ({ r with ahead := some token }.push (.looked expected token))

/-- The kind of the next token, which is to be one of the expected; with none expected any will
do. -/
def peek (expected : List Kind) : Read Kind := do
  let token ← look expected
  if expected.isEmpty || expected.contains token.kind then return token.kind
  throw (.unexpected expected token)

def scan (kind : Kind) : Read Token := do
  let _ ← peek [kind]
  let token ← look [kind]
  modify ({ · with ahead := none })
  return token

/-- The offset where the next token starts. -/
def mark (r : Reader) : Nat × Reader :=
  match r.ahead with
  | some token => (token.offset, r)
  | none => (r.skipGap.offset, r.skipGap)

def atEnd (r : Reader) : Bool × Reader :=
  match r.ahead with
  | some token => (token.kind = .eof, r)
  | none => (r.source.length ≤ r.skipGap.offset, r.skipGap)

/-- Runs `round` until it gives nothing more, and collects what it gave. A round that reads
nothing is the last. -/
def collect {α : Type} (round : Read (Option α)) : Read (List α) := fun r =>
  match round r with
  | .error fault r' => .error fault r'
  | .ok none r' => .ok [] r'
  | .ok (some a) r' =>
    if r'.remaining < r.remaining then
      match collect round r' with
      | .ok as r'' => .ok (a :: as) r''
      | .error fault r'' => .error fault r''
    else .ok [a] r'
termination_by r => r.remaining

/-- All tokens of a source, with no raw fragments; the last is the end. -/
def tokenize (source : Text) : Except Fault (List Token) :=
  let round : Read (Option Token) := do
    let kind ← peek []
    if kind = .eof then return none
    some <$> scan kind
  let all : Read (List Token) := do
    let tokens ← collect round
    return tokens ++ [← scan .eof]
  match all { source } with
  | .ok tokens _ => .ok tokens
  | .error fault _ => .error fault

end Reader
end Statewright
