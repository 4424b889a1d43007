import Statewright.Document.Pattern
import Statewright.Text.Quoted

namespace Statewright.Scalar

open Pattern

def digit : Pattern := oneOf "0123456789"
def digitOrBar : Pattern := oneOf "0123456789_"
def sign : Pattern := optional (oneOf "-+")

/-- Minutes and seconds of a number in base 60. -/
def sixties : Pattern :=
  Pattern.some (sequence [word ":", optional (oneOf "012345"), digit])

def exponent : Pattern :=
  optional (sequence [oneOf "eE", oneOf "-+", Pattern.some digit])

/-- Texts that stand for a truth value, for nothing, for a merge or for a default. -/
def reservedWords : List Text :=
  ["yes", "Yes", "YES", "no", "No", "NO", "true", "True", "TRUE", "false", "False", "FALSE",
   "on", "On", "ON", "off", "Off", "OFF", "~", "null", "Null", "NULL", "", "=", "<<"]

def integer : Pattern :=
  sequence [sign, choice
    [sequence [word "0b", Pattern.some (oneOf "01_")],
     sequence [word "0", Pattern.some (oneOf "01234567_")],
     word "0",
     sequence [oneOf "123456789", many digitOrBar],
     sequence [word "0x", Pattern.some (oneOf "0123456789abcdefABCDEF_")],
     sequence [oneOf "123456789", many digitOrBar, sixties]]]

def fraction : Pattern :=
  choice
    [sequence [sign, digit, many digitOrBar, word ".", many digitOrBar, exponent],
     sequence [word ".", digit, many digitOrBar, exponent],
     sequence [sign, digit, many digitOrBar, sixties, word ".", many digitOrBar],
     sequence [sign, word ".", choice [word "inf", word "Inf", word "INF"]],
     sequence [word ".", choice [word "nan", word "NaN", word "NAN"]]]

def timestamp : Pattern :=
  let two := sequence [digit, digit]
  let oneOrTwo := sequence [digit, optional digit]
  let year := sequence [two, two, word "-"]
  let space := oneOf " \t"
  let zone := sequence
    [many space,
     choice [word "Z", sequence [oneOf "-+", oneOrTwo, optional (sequence [word ":", two])]]]
  choice
    [sequence [year, two, word "-", two],
     sequence [year, oneOrTwo, word "-", oneOrTwo, choice [oneOf "Tt", Pattern.some space],
       oneOrTwo, word ":", two, word ":", two, optional (sequence [word ".", many digit]),
       optional zone]]

/-- Whether a plain text would be read as something else than a text. -/
def isAmbiguous (t : Text) : Bool :=
  reservedWords.contains t || (choice [integer, fraction, timestamp]).accepts t

/-- Characters that only double quotes can hold. -/
def isSpecial (c : Char) : Bool :=
  c != '\n' && (c.toNat < 0x20 || 0x7E < c.toNat)

def isGap (c : Char) : Bool :=
  c == ' ' || c == '\n'

/-- First characters that stand for something else: brackets, quotes and other marks. -/
def indicators : Text :=
  "#,[]\x7b\x7d&*!|>'\"%@\x60"

/-- Whether a mark that needs a blank after it has one, or ends the text. -/
def endsMark (rest : Text) : Bool :=
  rest.head?.all isGap

/-- A colon before a blank, or a hash after one, past the first character. -/
def hasMark (before : Char) : Text → Bool
  | [] => false
  | c :: t => (c == ':' && endsMark t) || (c == '#' && isGap before) || hasMark c t

def startsMark : Text → Bool
  | [] => true
  | c :: t => indicators.contains c || ((c == '?' || c == ':' || c == '-') && endsMark t) || hasMark c t

def isPlain (t : Text) : Bool :=
  !(t.isEmpty || t.any isSpecial || t.contains '\n' || t.head? == some ' ' ||
    t.getLast? == some ' ' || List.isPrefixOf "---".toList t || List.isPrefixOf "...".toList t ||
    startsMark t || isAmbiguous t)

/-- A space beside a line break. -/
def hasLooseSpace : Text → Bool
  | a :: b :: t => (a == ' ' && b == '\n') || (a == '\n' && b == ' ') || hasLooseSpace (b :: t)
  | _ => false

def isQuotable (t : Text) : Bool :=
  !(t.any isSpecial || hasLooseSpace t)

/-- The width past which lines are folded. -/
def width : Nat := 80

def newLine (indent : Nat) : Text :=
  '\n' :: Text.spaces indent

/-- A plain text, from a column on; `before` is the character before it. -/
def plain (indent column : Nat) (before : Option Char) : Text → Text
  | [] => []
  | c :: t =>
    if c = ' ' ∧ before ≠ some ' ' ∧ t.head? ≠ some ' ' ∧ width < column then
      newLine indent ++ plain indent indent (some c) t
    else c :: plain indent (column + 1) (some c) t

/-- The inside of single quotes: a quote is written twice, a line break once more than it is
there. -/
def single (indent column : Nat) (before : Option Char) : Text → Text
  | [] => []
  | c :: t =>
    if c = '\'' then '\'' :: '\'' :: single indent (column + 2) (some c) t
    else if c = '\n' then
      (if before = some '\n' then [] else ['\n']) ++ ['\n'] ++
        (if t.head? = some '\n' then [] else Text.spaces indent) ++ single indent indent (some c) t
    else if c = ' ' ∧ before ≠ some ' ' ∧ t.head? ≠ some ' ' ∧ before.isSome ∧ t ≠ [] ∧
        width < column then
      newLine indent ++ single indent indent (some c) t
    else c :: single indent (column + 1) (some c) t

/-- The characters with a short escape. -/
def escapes : List (Char × Char) :=
  [('\x00', '0'), ('\x07', 'a'), ('\x08', 'b'), ('\t', 't'), ('\n', 'n'), ('\x0b', 'v'),
   ('\x0c', 'f'), ('\r', 'r'), ('\x1b', 'e'), ('"', '"'), ('\\', '\\'), ('\u0085', 'N'),
   ('\u00a0', '_'), ('\u2028', 'L'), ('\u2029', 'P')]

/-- The `width` last hexadecimal digits of `n`, in upper case. -/
def hexadecimal (width n : Nat) : Text :=
  (Text.hex width n).map Char.toUpper

def escape (c : Char) : Text :=
  match escapes.lookup c with
  | .some e => ['\\', e]
  | .none =>
    if c.toNat ≤ 0xFF then '\\' :: 'x' :: hexadecimal 2 c.toNat
    else if c.toNat ≤ 0xFFFF then '\\' :: 'u' :: hexadecimal 4 c.toNat
    else '\\' :: 'U' :: hexadecimal 8 c.toNat

def isEscaped (c : Char) : Bool :=
  c == '"' || c == '\\' || c.toNat < 0x20 || 0x7E < c.toNat

/-- The inside of double quotes. `pending` is not yet written and not yet counted in the column.
A line is folded before a space, or where nothing is pending, with a backslash at its end; a space
that then comes first has another before it. -/
def double (indent column : Nat) (first : Bool) (pending : Text) : Text → Text
  | [] => pending
  | c :: t =>
    if isEscaped c then
      let written := column + pending.length + (escape c).length
      if !first && !t.isEmpty && width + 1 < written then
        let guard : Text := if t.head? = some ' ' then ['\\'] else []
        pending ++ escape c ++ ['\\'] ++ newLine indent ++ guard ++
          double indent (indent + guard.length) false [] t
      else pending ++ escape c ++ double indent written false [] t
    else if !first && !t.isEmpty && (c = ' ' || pending.isEmpty) &&
        width < column + pending.length then
      let guard : Text := if c = ' ' then ['\\'] else []
      pending ++ ['\\'] ++ newLine indent ++ guard ++
        double indent (indent + guard.length) false [c] t
    else double indent column false (pending ++ [c]) t

/-- A text as a scalar that starts at a column, its further lines indented. -/
def write (indent column : Nat) (t : Text) : Text :=
  if isPlain t then plain indent column .none t
  else if isQuotable t then "'" ++ single indent (column + 1) .none t ++ "'"
  else "\"" ++ double indent (column + 1) true [] t ++ "\""

end Statewright.Scalar
