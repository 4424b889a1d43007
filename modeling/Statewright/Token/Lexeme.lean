import Statewright.Token

namespace Statewright

def isNameStart (c : Char) : Bool :=
  Text.isAsciiLetter c || c == '_'

def isNameChar (c : Char) : Bool :=
  isNameStart c || Text.isAsciiDigit c

/-- Length of the gap at the start of a text, which may begin inside a comment. A comment starts
with two slashes and goes up to the end of its line. -/
def gap : (inComment : Bool) → Text → Nat
  | _, [] => 0
  | true, c :: t => gap (c != '\n') t + 1
  | false, '/' :: '/' :: t => gap true t + 2
  | false, c :: t => if Text.isBlank c then gap false t + 1 else 0

def gapLength (t : Text) : Nat :=
  gap false t

/-- The text before the delimiter that closes a fragment, when `depth` further delimiters are
open. -/
def enclosed (opener closer : Char) : (depth : Nat) → Text → Option Text
  | _, [] => none
  | depth, c :: t =>
    if c = opener then (enclosed opener closer (depth + 1) t).map (c :: ·)
    else if c = closer then
      match depth with
      | 0 => some []
      | depth + 1 => (enclosed opener closer depth t).map (c :: ·)
    else (enclosed opener closer depth t).map (c :: ·)

structure Lexeme where
  kind : Kind
  text : Text
  /-- Number of characters it takes, delimiters included. -/
  length : Nat
  deriving DecidableEq

namespace Lexeme

inductive Flaw
  | unrecognized (c : Char)
  | unterminated (kind : Kind) (opener closer : Char)
  deriving DecidableEq

/-- The raw fragment that `opener` opens, if one is expected. -/
def fragment? (expected : List Kind) (opener : Char) : Option (Kind × Char × Char) :=
  Kind.fragments.find? fun f => f.2.1 = opener && expected.contains f.1

/-- The lexeme at the start of a text without a gap there. Braces and parentheses open a raw
fragment only where one is expected. -/
def read (expected : List Kind) : Text → Except Flaw Lexeme
  | [] => .ok ⟨.eof, [], 0⟩
  | c :: t =>
    match fragment? expected c with
    | some (kind, opener, closer) =>
      match enclosed opener closer 0 t with
      | some inner => .ok ⟨kind, inner, inner.length + 2⟩
      | none => .error (.unterminated kind opener closer)
    | none =>
      if isNameStart c then
        let word := c :: t.takeWhile isNameChar
        .ok ⟨Kind.ofWord word, word, word.length⟩
      else if Text.isAsciiDigit c then
        let digits := c :: t.takeWhile Text.isAsciiDigit
        .ok ⟨.int, digits, digits.length⟩
      else
        match Kind.marks.lookup c with
        | some kind => .ok ⟨kind, [c], 1⟩
        | none => .error (.unrecognized c)

/-- Raw fragments are placed at their first character. -/
def placeOffset (l : Lexeme) : Nat :=
  if l.kind.delimiters?.isSome then 1 else 0

end Lexeme
end Statewright
