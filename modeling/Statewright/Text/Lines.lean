import Statewright.Text.Blank

namespace Statewright.Text

/-- Lines ended by a newline alone; a text that ends in one has an empty last line. -/
def lines (t : Text) : List Text :=
  split (· == '\n') t

/-- Lines ended by a newline alone, as a reader of the text meets them: after the last newline
there is one only if something is left. -/
def readLines (t : Text) : List Text :=
  let ls := lines t
  if ls.getLast? = some [] then ls.dropLast else ls

/-- The characters that end a line in any convention. -/
def isBreak (c : Char) : Bool :=
  let n := c.toNat
  (10 ≤ n && n ≤ 13) || (28 ≤ n && n ≤ 30) || n == 0x85 || n == 0x2028 || n == 0x2029

/-- The lines of `t` and a newline after it, ended by any break. A carriage return takes the
newline that follows it along. -/
def breakLines : Text → List Text
  | [] => [[]]
  | ['\r'] => [[]]
  | '\r' :: '\n' :: t => [] :: breakLines t
  | c :: t =>
    match breakLines t with
    | [] => [[c]]
    | first :: others => if isBreak c then [] :: first :: others else (c :: first) :: others

/-- Every carriage return, with the newline after it if there is one, becomes a newline. -/
def unifyNewlines : Text → Text
  | [] => []
  | '\r' :: '\n' :: t => '\n' :: unifyNewlines t
  | c :: t => (if c = '\r' then '\n' else c) :: unifyNewlines t

/-- The text of a file: strict UTF-8 with newlines unified; `none` if the bytes are no UTF-8. -/
def ofBytes? (bytes : ByteArray) : Option Text :=
  (String.fromUTF8? bytes).map fun s => unifyNewlines s.toList

end Statewright.Text
