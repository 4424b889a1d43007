import Statewright.Text.Lines

namespace Statewright.Code

def tabWidth : Nat := 4

/-- Puts spaces in place of tabs, up to the next multiple of the tab width. -/
def expandTabs (column : Nat) : Text → Text
  | [] => []
  | c :: t =>
    if c = '\t' then
      let n := tabWidth - column % tabWidth
      Text.spaces n ++ expandTabs (column + n) t
    else c :: expandTabs (if c = '\n' ∨ c = '\r' then 0 else column + 1) t

def isSpaces (l : Text) : Bool :=
  l.all (· == ' ')

/-- The number of spaces before a line. -/
def indentation (l : Text) : Nat :=
  (l.takeWhile (· == ' ')).length

/-- The indentation that all lines share; lines of spaces do not count. -/
def margin (ls : List Text) : Nat :=
  ((ls.filter (!isSpaces ·)).map indentation).min?.getD 0

def dedent (ls : List Text) : List Text :=
  let n := margin ls
  ls.map fun l => if isSpaces l then [] else l.drop n

/-- Drops the blank lines at both ends. -/
def trimLines (ls : List Text) : List Text :=
  (((ls.dropWhile Text.allBlank).reverse).dropWhile Text.allBlank).reverse

/-- A line with `n` spaces before it; a blank line becomes empty. -/
def shiftLine (n : Nat) (l : Text) : Text :=
  if l.allBlank then [] else Text.spaces n ++ l.trimEnd

/-- The lines of a code block, indented by `n` spaces. -/
def layoutLines (n : Nat) (t : Text) : List Text :=
  (trimLines (dedent (Text.lines (expandTabs 0 t)))).map (shiftLine n)

def layout (n : Nat) (t : Text) : Text :=
  Text.join "\n" (layoutLines n t)

/-- Indents lines by `n` spaces, after cutting them at line breaks of any kind. Empty lines stay
empty. -/
def indent (n : Nat) (ls : List Text) : List Text :=
  (ls.flatMap Text.breakLines).map fun l => if l.isEmpty then [] else Text.spaces n ++ l

end Statewright.Code
