import Statewright.Text.Blank
import Statewright.Token.Lexeme

namespace Statewright.Code

inductive Shape
  | string | character | lineComment | blockComment | arrow | word | number | blank | mark
  deriving DecidableEq

structure Piece where
  shape : Shape
  text : Text
  deriving DecidableEq

/-- The rest of a literal up to its closing quote; a literal does not go over the end of a line,
unless the line break is escaped. -/
def literalTail (quote : Char) : Text → Option Text
  | '\\' :: c :: t => (literalTail quote t).map ('\\' :: c :: ·)
  | c :: t =>
    if c = quote then some [c]
    else if c = '\\' ∨ c = '\n' then none
    else (literalTail quote t).map (c :: ·)
  | [] => none

/-- The rest of a comment up to its closing mark. -/
def commentTail : Text → Option Text
  | '*' :: '/' :: _ => some ['*', '/']
  | c :: t => (commentTail t).map (c :: ·)
  | [] => none

/-- The first piece of `c :: t`. A literal or comment that is not closed is no piece: its first
character stands alone. -/
def firstPiece (c : Char) (t : Text) : Piece :=
  let alone := Piece.mk .mark [c]
  if Text.isBlank c then ⟨.blank, [c]⟩
  else if isNameStart c then ⟨.word, c :: t.takeWhile isNameChar⟩
  else if Text.isAsciiDigit c then ⟨.number, c :: t.takeWhile fun d => isNameChar d || d == '.'⟩
  else if c = '"' then ((literalTail c t).map fun u => ⟨.string, c :: u⟩).getD alone
  else if c = '\'' then ((literalTail c t).map fun u => ⟨.character, c :: u⟩).getD alone
  else
    match c, t with
    | '/', '/' :: _ => ⟨.lineComment, c :: t.takeWhile (· != '\n')⟩
    | '/', '*' :: u => ((commentTail u).map fun v => ⟨.blockComment, '/' :: '*' :: v⟩).getD alone
    | '-', '>' :: _ => ⟨.arrow, ['-', '>']⟩
    | _, _ => alone

def pieces : Text → List Piece
  | [] => []
  | c :: t =>
    let p := firstPiece c t
    p :: pieces (t.drop (p.text.length - 1))
termination_by t => t.length
decreasing_by
  simp only [List.length_drop, List.length_cons]
  omega

namespace Piece

/-- Pieces spelled like a name: words, and single letters beyond ASCII. -/
def isName (p : Piece) : Bool :=
  p.shape = .word || (p.shape = .mark && p.text.any Text.isLetter)

/-- Blanks, comments, literals and loose quotes do not count as what stands before a piece. -/
def isTransparent (p : Piece) : Bool :=
  match p.shape with
  | .blank | .string | .character | .lineComment | .blockComment => true
  | _ => p.text = ['"'] || p.text = ['\'']

end Piece

/-- A piece where it stands, with the last piece before it that counts. -/
structure Placed where
  offset : Nat
  before : Option Text
  piece : Piece

def place (offset : Nat) (before : Option Text) : List Piece → List Placed
  | [] => []
  | p :: ps =>
    ⟨offset, before, p⟩ ::
      place (offset + p.text.length) (if p.isTransparent then before else some p.text) ps

def placed (t : Text) : List Placed :=
  place 0 none (pieces t)

namespace Placed

/-- A name that can refer to a declaration: neither a member of something else nor the machine
itself. -/
def isReference (p : Placed) : Bool :=
  p.piece.isName && !([some ['.'], some ['-', '>']].contains p.before) &&
    p.piece.text != "this".toList

/-- The words of types after which a name is declared. -/
def typeWords : List Text :=
  ["char", "short", "int", "long", "float", "double", "signed", "unsigned", "_Bool", "bool",
   "const", "volatile", "static", "register"]

def isDeclaration (p : Placed) : Bool :=
  p.isReference && p.before.any typeWords.contains

end Placed

/-- The names of a code that can refer to declarations, with their offsets. -/
def references (t : Text) : List (Nat × Text) :=
  ((placed t).filter Placed.isReference).map fun p => (p.offset, p.piece.text)

/-- The names that a code declares itself, with their offsets. -/
def declarations (t : Text) : List (Nat × Text) :=
  ((placed t).filter Placed.isDeclaration).map fun p => (p.offset, p.piece.text)

end Statewright.Code
