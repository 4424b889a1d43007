import Statewright.Text.Blank

namespace Statewright

inductive Pattern
  | none
  | empty
  | one (test : Char → Bool)
  | seq (first second : Pattern)
  | either (first second : Pattern)
  | many (pattern : Pattern)

namespace Pattern

/-- Whether a pattern matches the empty text. -/
def isNullable : Pattern → Bool
  | none | one _ => false
  | empty | many _ => true
  | seq p q => p.isNullable && q.isNullable
  | either p q => p.isNullable || q.isNullable

def mkSeq : Pattern → Pattern → Pattern
  | none, _ => none
  | empty, q => q
  | p, q => seq p q

def mkEither : Pattern → Pattern → Pattern
  | none, q => q
  | p, none => p
  | p, q => either p q

/-- The pattern of what may follow `c`. -/
def after (c : Char) : Pattern → Pattern
  | none | empty => none
  | one test => if test c then empty else none
  | seq p q =>
    if p.isNullable then mkEither (mkSeq (p.after c) q) (q.after c) else mkSeq (p.after c) q
  | either p q => mkEither (p.after c) (q.after c)
  | many p => mkSeq (p.after c) (many p)

def accepts (p : Pattern) (t : Text) : Bool :=
  (t.foldl (fun p c => p.after c) p).isNullable

def sequence (ps : List Pattern) : Pattern :=
  ps.foldr mkSeq empty

def choice (ps : List Pattern) : Pattern :=
  ps.foldr mkEither none

def word (t : Text) : Pattern :=
  sequence (t.map fun c => one (· == c))

/-- One of the characters of a text. -/
def oneOf (t : Text) : Pattern :=
  one t.contains

def optional (p : Pattern) : Pattern :=
  mkEither empty p

def some (p : Pattern) : Pattern :=
  mkSeq p (many p)

end Pattern
end Statewright
