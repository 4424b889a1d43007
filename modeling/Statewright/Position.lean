import Statewright.Text.Blank

namespace Statewright

structure Position where
  line : Int
  column : Int
  deriving DecidableEq

namespace Position

def unknown : Position := ⟨0, 0⟩

/-- The first character of a text. -/
def first : Position := ⟨1, 1⟩

/-- The place after `c` when `c` stands at `p`. -/
def after (p : Position) (c : Char) : Position :=
  if c = '\n' then ⟨p.line + 1, 1⟩ else ⟨p.line, p.column + 1⟩

/-- The place of the character at an offset of a text that starts at `p`. Past its end a text is
taken to go on in its last line. -/
def seek (p : Position) : Text → Nat → Position
  | _, 0 => p
  | [], n + 1 => ⟨p.line, p.column + (n + 1)⟩
  | c :: t, n + 1 => seek (p.after c) t n

/-- The place of an offset of a whole source. -/
def inSource (source : Text) (offset : Nat) : Position :=
  first.seek source offset

/-- The place of any offset. Before the source there is a line 0, whose columns are counted from the
start of the last line. -/
def locate (source : Text) : Int → Position
  | .ofNat n => inSource source n
  | .negSucc n => ⟨0, (source.lastLine.length : Int) - source.length - n⟩

end Position
end Statewright
