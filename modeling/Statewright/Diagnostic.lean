import Statewright.Position
import Statewright.Text.Quoted

namespace Statewright

/-- How grave a diagnostic is; all that is not an error counts as a warning. -/
inductive Severity
  | error | warning
  | other (word : Text)
  deriving DecidableEq

namespace Severity

def word : Severity → Text
  | error => "error"
  | warning => "warning"
  | other w => w

def ofWord (w : Text) : Severity :=
  ([error, warning].find? (·.word = w)).getD (other w)

end Severity

namespace Diagnostic

/-- The stage a diagnostic comes from, by the label it is shown under. -/
inductive Kind
  | lexical | grammatical | semantic | caution | inner
  | other (label : Text)
  deriving DecidableEq

namespace Kind

def label : Kind → Text
  | lexical => "LexError"
  | grammatical => "SyntaxError"
  | semantic => "SemanticError"
  | caution => "SemanticWarning"
  | inner => "InternalError"
  | other l => l

def all : List Kind := [lexical, grammatical, semantic, caution, inner]

def ofLabel (l : Text) : Kind :=
  (all.find? (·.label = l)).getD (other l)

end Kind
end Diagnostic

structure Diagnostic where
  severity : Severity
  kind : Diagnostic.Kind
  message : Text
  file : Option Text := none
  place : Position := .unknown
  deriving DecidableEq

namespace Diagnostic

def isError (d : Diagnostic) : Bool :=
  d.severity = .error

/-- File, line and column, as far as they are known. -/
def location (d : Diagnostic) : List Text :=
  (d.file.toList.filter (!·.isEmpty)) ++
    if d.place.line = 0 then [] else [Text.ofInt d.place.line, Text.ofInt d.place.column]

def text (d : Diagnostic) : Text :=
  let location := Text.join ":" d.location
  let report := d.severity.word ++ ": " ++ d.message
  if location.isEmpty then report else location ++ ": " ++ report

/-- The diagnostic with its parts named. -/
def shown (d : Diagnostic) : Text :=
  "Diagnostic(" ++ d.severity.word ++ ", " ++ d.kind.label ++ ", " ++ d.message.quoted ++
    ", line=" ++ Text.ofInt d.place.line ++ ", column=" ++ Text.ofInt d.place.column ++ ")"

def errors (ds : List Diagnostic) : List Diagnostic :=
  ds.filter isError

def warnings (ds : List Diagnostic) : List Diagnostic :=
  ds.filter (!·.isError)

/-- What a failed compilation says: its errors, one on a line. -/
def summary (ds : List Diagnostic) : Text :=
  let report := Text.join "\n" ((errors ds).map text)
  if report.isEmpty then "compilation failed" else report

end Diagnostic
end Statewright
