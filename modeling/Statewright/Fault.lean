import Statewright.Diagnostic
import Statewright.Machine

namespace Statewright

inductive Fault
  | unrecognized (c : Char) (place : Position)
  | unterminated (kind : Kind) (opener closer : Char) (place : Position)
  | unexpected (expected : List Kind) (found : Token)
  | unknownFlag (word : Text) (place : Position)
  | untyped (family : Family) (name : Text) (place : Position)
  | retryOverflow (place : Position)
  deriving DecidableEq

namespace Fault

def place : Fault → Position
  | unrecognized _ place => place
  | unterminated _ _ _ place => place
  | unexpected _ found => found.place
  | unknownFlag _ place => place
  | untyped _ _ place => place
  | retryOverflow place => place

/-- Faults below the grammar: a text that is no token. -/
def isLexical : Fault → Bool
  | unrecognized .. | unterminated .. => true
  | _ => false

/-- The expected kinds, one or a choice. -/
def wanted : List Kind → Text
  | [k] => k.describe
  | ks => "one of " ++ Text.join ", " (ks.map Kind.describe)

def message : Fault → Text
  | unrecognized c _ => "unrecognized character " ++ Text.quoted [c]
  | unterminated kind opener closer _ =>
    "unterminated " ++ (if kind = .block then "code block" else "expression") ++
      "; no matching '" ++ [closer] ++ "' for this '" ++ [opener] ++ "'"
  | unexpected expected found =>
    "expected " ++ wanted expected ++ ", found " ++ found.describe
  | unknownFlag word _ =>
    "unknown state type '" ++ word ++ "' (expected one of " ++
      Text.join ", " (Flag.all.map Flag.word) ++ ")"
  | untyped family name _ => family.word ++ " " ++ name ++ " needs a type before its name"
  | retryOverflow _ => "retry cannot be used as an until-block's overflow action"

def kind (f : Fault) : Diagnostic.Kind :=
  if f.isLexical then .lexical else .grammatical

def diagnostic (f : Fault) (file : Option Text) : Diagnostic :=
  ⟨.error, f.kind, f.message, file, f.place⟩

end Fault
end Statewright
