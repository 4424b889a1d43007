namespace Statewright

/-- Offsets, columns and lengths of a text count its characters. -/
abbrev Text := List Char

instance : Coe String Text := ⟨String.toList⟩

namespace Text

/-- Blanks of any script, line breaks and the four information separators included. -/
def isBlank (c : Char) : Bool :=
  let n := c.toNat
  (9 ≤ n && n ≤ 13) || (28 ≤ n && n ≤ 32) || n == 0x85 || n == 0xA0 || n == 0x1680 ||
    (0x2000 ≤ n && n ≤ 0x200A) || n == 0x2028 || n == 0x2029 || n == 0x202F || n == 0x205F ||
    n == 0x3000

/-- A text of blanks only; the empty text is one. -/
def allBlank (t : Text) : Bool :=
  t.all isBlank

def trimStart (t : Text) : Text :=
  t.dropWhile isBlank

def trimEnd (t : Text) : Text :=
  (t.reverse.dropWhile isBlank).reverse

def trim (t : Text) : Text :=
  trimEnd (trimStart t)

/-- Cuts a text at the characters that satisfy `stop`, which are dropped. -/
def split (stop : Char → Bool) : Text → List Text
  | [] => [[]]
  | c :: t =>
    match split stop t with
    | [] => [[c]]
    | first :: others => if stop c then [] :: first :: others else (c :: first) :: others

/-- The runs of characters that are not blank. -/
def words (t : Text) : List Text :=
  (split isBlank t).filter (!·.isEmpty)

/-- The part of a text before an offset; a negative offset counts from the end. -/
def upTo (t : Text) : Int → Text
  | .ofNat n => t.take n
  | .negSucc n => t.take (t.length - (n + 1))

/-- The part of a text after its last line break. -/
def lastLine (t : Text) : Text :=
  (t.reverse.takeWhile (· != '\n')).reverse

def join (separator : Text) (parts : List Text) : Text :=
  List.intercalate separator parts

def spaces (n : Nat) : Text :=
  List.replicate n ' '

def ofNat (n : Nat) : Text :=
  Nat.toDigits 10 n

def ofInt : Int → Text
  | .ofNat n => ofNat n
  | .negSucc n => '-' :: ofNat (n + 1)

end Text
end Statewright
