import Statewright.Diagnostic
import Statewright.Machine

namespace Statewright

inductive Level
  | trace | debug | error
  deriving DecidableEq

def Level.word : Level → Text
  | trace => "TRACE"
  | debug => "DEBUG"
  | error => "ERROR"

inductive Event
  | looked (expected : List Kind) (found : Token)
  | recovered (place : Position)
  | declared (family : Family) (type name : Text)
  | timer (name duration : Text)
  | state (nested : Bool) (name : Text) (flags : List Flag)
  | block (bound : Bound)
  | readSection (file : Text)
  | readWhole (file : Text)
  | analyzed (machine : Text) (states labels : List Text)
  | generating (machine stem : Text)
  | diagnosed (diagnostic : Diagnostic)
  | said (level : Level) (message : Text)

namespace Event

/-- Several kinds as a row in parentheses; a single one keeps its comma. -/
def kindRow : List Kind → Text
  | [k] => "(" ++ k.label.quoted ++ ",)"
  | ks => "(" ++ Text.join ", " (ks.map fun k => k.label.quoted) ++ ")"

def textRow (ts : List Text) : Text :=
  "[" ++ Text.join ", " (ts.map Text.quoted) ++ "]"

def level : Event → Level
  | diagnosed _ => .debug
  | said level _ => level
  | _ => .trace

def message : Event → Text
  | looked expected found => "expect=" ++ kindRow expected ++ " token=" ++ found.shown ++ "."
  | recovered place =>
    "recovered at " ++ Text.ofInt place.line ++ ":" ++ Text.ofInt place.column ++ "."
  | declared family type name => "new " ++ family.word ++ " " ++ type ++ " " ++ name ++ "."
  | timer name duration => "new timer " ++ name ++ "=" ++ duration ++ "."
  | state nested name flags =>
    (if nested then "until state name=" else "state name=") ++ name ++ " flags=" ++
      textRow (flags.map Flag.word) ++ "."
  | block bound => "until bound=" ++ bound.text ++ "."
  | readSection file => "load_source filename=" ++ file
  | readWhole file => "load_fsml filename=" ++ file
  | analyzed machine states labels =>
    "analyzed " ++ machine ++ ": states=" ++ textRow states ++ ", errors=" ++ textRow labels ++ "."
  | generating machine stem => "generate_c fsm=" ++ machine ++ " prefix=" ++ stem ++ "."
  | diagnosed diagnostic => diagnostic.text
  | said _ message => message

def line (e : Event) : Text :=
  e.level.word ++ " -- " ++ e.message ++ "\n"

end Event

/-- Which levels are also shown to the user as they are noted; errors always are. -/
structure Journal.Shown where
  trace : Bool := false
  debug : Bool := false

namespace Journal

def Shown.has (shown : Shown) : Level → Bool
  | .trace => shown.trace
  | .debug => shown.debug
  | .error => true

/-- The transcript of all events. -/
def transcript (events : List Event) : Text :=
  events.flatMap Event.line

/-- The lines of the events that are shown. -/
def display (shown : Shown) (events : List Event) : Text :=
  (events.filter (shown.has ·.level)).flatMap Event.line

/-- What a log is asked to do. -/
inductive Request
  | showTrace (on : Bool)
  | showDebug (on : Bool)
  | say (level : Level) (message : Text)

/-- Carries out requests in order; returns what is shown and the transcript. -/
def serve (shown : Shown) : List Request → Text × Text
  | [] => ([], [])
  | .showTrace on :: requests => serve { shown with trace := on } requests
  | .showDebug on :: requests => serve { shown with debug := on } requests
  | .say level message :: requests =>
    let event := Event.said level message
    let rest := serve shown requests
    (display shown [event] ++ rest.1, transcript [event] ++ rest.2)

end Journal
end Statewright
