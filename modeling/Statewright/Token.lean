import Statewright.Position
import Statewright.Text.Letter
import Statewright.Text.Quoted

namespace Statewright

inductive Kind
  | fsm | state | on | go | err | retry | untilWord | var | input | output | timer | decl | time
  | period | start | timeout | out
  | openBrace | closeBrace | openParen | closeParen | openBracket | closeBracket
  | comma | semicolon | dot
  | block | expr
  | name | int | eof
  /-- A kind known by its label alone; no token has it. -/
  | other (label : Text)
  deriving DecidableEq

namespace Kind

/-- The reserved words. -/
def words : List (Text × Kind) :=
  [("fsm", fsm), ("state", state), ("on", on), ("go", go), ("err", err), ("retry", retry),
   ("until", untilWord), ("var", var), ("input", input), ("output", output), ("timer", timer),
   ("decl", decl), ("time", time), ("period", period), ("start", start), ("timeout", timeout),
   ("out", out)]

def marks : List (Char × Kind) :=
  [('{', openBrace), ('}', closeBrace), ('(', openParen), (')', closeParen), ('[', openBracket),
   (']', closeBracket), (',', comma), (';', semicolon), ('.', dot)]

/-- The delimiters of the raw fragments. -/
def fragments : List (Kind × Char × Char) :=
  [(block, '{', '}'), (expr, '(', ')')]

def label : Kind → Text
  | fsm => "FSM" | state => "STATE" | on => "ON" | go => "GO" | err => "ERR" | retry => "RETRY"
  | untilWord => "UNTIL" | var => "VAR" | input => "INPUT" | output => "OUTPUT"
  | timer => "TIMER" | decl => "DECL" | time => "TIME" | period => "PERIOD" | start => "START"
  | timeout => "TIMEOUT" | out => "OUT"
  | openBrace => "LBRACE" | closeBrace => "RBRACE" | openParen => "LPAREN"
  | closeParen => "RPAREN" | openBracket => "LBRACKET" | closeBracket => "RBRACKET"
  | comma => "COMMA" | semicolon => "SEMI" | dot => "DOT"
  | block => "BLOCK" | expr => "EXPR" | name => "NAME" | int => "INT" | eof => "EOF"
  | other l => l

/-- Every kind a token can have. -/
def all : List Kind :=
  fragments.map (·.1) ++ [name, int, eof] ++ marks.map (·.2) ++ words.map (·.2)

def ofLabel (l : Text) : Kind :=
  (all.find? (·.label = l)).getD (other l)

/-- The kind of a word: its own if it is reserved, else a name. -/
def ofWord (w : Text) : Kind :=
  (words.lookup w).getD name

def delimiters? (k : Kind) : Option (Char × Char) :=
  fragments.lookup k

/-- The kind as messages name it. -/
def describe (k : Kind) : Text :=
  match k.delimiters?, marks.find? (·.2 = k), words.find? (·.2 = k), k with
  | some (o, c), _, _, _ => ['\'', o, '.', '.', '.', c, '\'']
  | _, some (c, _), _, _ => ['\'', c, '\'']
  | _, _, some (w, _), _ => '\'' :: w ++ ['\'']
  | _, _, _, name => "identifier"
  | _, _, _, int => "integer"
  | _, _, _, eof => "end of file"
  | _, _, _, k => k.label

end Kind

/-- The place of a raw fragment is that of its first character, the one after the opening
delimiter; its offset is that of the delimiter. -/
structure Token where
  kind : Kind
  text : Text
  place : Position
  offset : Nat
  deriving DecidableEq

namespace Token

def describe (t : Token) : Text :=
  match t.kind with
  | .name => "identifier '" ++ t.text ++ "'"
  | .int => "integer " ++ t.text
  | k => k.describe

/-- The token as the journal shows it. -/
def shown (t : Token) : Text :=
  "Token(" ++ t.kind.label ++ ", " ++ t.text.quoted ++ ", " ++ Text.ofInt t.place.line ++ ":" ++
    Text.ofInt t.place.column ++ ")"

end Token
end Statewright
