import Statewright.Command.Options
import Statewright.Command.Store
import Statewright.Compilation
import Statewright.Diagram
import Statewright.Document
import Statewright.Section

namespace Statewright.Command

/-- What ends a command other than by its own decision. -/
inductive Crash
  /-- The input is not UTF-8. -/
  | undecodable
  | longBound
  | strayTarget
  | strayRetry
  | diagram (misfit : Diagram.Misfit)
  | file (error : OpenError) (path : Text)
  /-- The unit has no place to go to. -/
  | noPlace

inductive Ending
  | status (code : Nat)
  /-- The command line asks for help or is misused. -/
  | usage (code : Nat)
  | crash (crash : Crash)

/-- The text of a file as a source, and what is noted about loading it. -/
def load (file host : Text) : Text × List Event :=
  let source := Section.load host
  let whole := (Section.extract {} host).allBlank
  (source, [.readSection file] ++ if whole then [.readWhole file] else [])

def report (ds : List Diagnostic) : Text :=
  ds.flatMap fun d => d.text ++ "\n"

/-- A text with the path it is to be written to. -/
structure Output where
  path : Option Text
  text : Except Diagram.Misfit Text

/-- The files that are asked for, in the order in which they are written. -/
def outputs (o : Options) (p : Program) (ds : List Diagnostic) (unit : Text) : List Output :=
  let wanted (path : Option Text) := path.toList.filter (!·.isEmpty)
  ⟨o.output, .ok unit⟩ ::
    (wanted o.yaml).map (⟨some ·, .ok (Document.ofProgram p ds)⟩) ++
    (wanted o.plantuml).map (⟨some ·, Diagram.text p.machine⟩)

/-- What compiling comes to: texts to write, or an ending. -/
structure Result where
  stderr : Text
  outputs : Except Ending (List Output)

/-- What is noted before an input is opened, as far as it is shown. -/
def opening (o : Options) (input : Text) : Text :=
  Journal.display { trace := o.verbose } [.readSection input]

/-- Compiles a source that was read from `file`; `before` was noted in reading it. -/
def compile (o : Options) (file source : Text) (before : List Event) : Result :=
  let shown := { trace := o.verbose }
  let (c, result) := ({ file := some file } : Compilation).compile source o.stem
  let trace := Journal.display shown (before ++ c.journal)
  match result with
  | .ok (p, unit) => ⟨trace ++ report c.diagnostics, .ok (outputs o p c.diagnostics unit)⟩
  | .error (.rejected ds) => ⟨trace ++ report ds, .error (.status 1)⟩
  | .error (.aborted .longBound) => ⟨trace, .error (.crash .longBound)⟩
  | .error (.aborted .strayTarget) => ⟨trace, .error (.crash .strayTarget)⟩
  | .error (.misfit .strayRetry) => ⟨trace, .error (.crash .strayRetry)⟩
  | .error (.misfit misfit) =>
    let event := Event.said .error ("internal compiler error: " ++ misfit.message)
    ⟨trace ++ Journal.display shown [event], .error (.status 2)⟩

/-- What a command leaves behind. -/
structure Trail where
  stdout : Text := []
  stderr : Text := []
  ending : Ending
  store : Store

/-- Writes one output after the other; a dash stands for the standard output. The first that
cannot be written ends the command, and a file that is in its place is removed. -/
def writeAll (stdout stderr : Text) (store : Store) : List Output → Trail
  | [] => { stdout, stderr, ending := .status 0, store }
  | ⟨_, .error misfit⟩ :: _ => { stdout, stderr, ending := .crash (.diagram misfit), store }
  | ⟨none, _⟩ :: _ => { stdout, stderr, ending := .crash .noPlace, store }
  | ⟨some path, .ok text⟩ :: others =>
    if path = ['-'] then writeAll (stdout ++ text) stderr store others
    else
      match store.write path text with
      | .ok store => writeAll stdout stderr store others
      | .error e =>
        { stdout, stderr, ending := .crash (.file e path), store := store.discard path }

def finish (r : Result) (store : Store) : Trail :=
  match r.outputs with
  | .ok outputs => writeAll [] r.stderr store outputs
  | .error ending => { stderr := r.stderr, ending, store }

/-- What the command says when its input cannot be opened. -/
def unreadable (e : OpenError) (path : Text) : Text :=
  "fsmlc: " ++ e.message path ++ "\n"

def standardInput : Text := "<stdin>"

/-- What the command says about a command line that it does not carry out. -/
def refuse : Refusal → Text × Text × Nat
  | .help => (helpText, [], 0)
  | .misused message => ([], usage ++ "fsmlc: error: " ++ message ++ "\n", 2)

/-- Runs a command line on a store. -/
def run (words : List Text) (stdin : ByteArray) (store : Store) : Trail :=
  match parse words with
  | .error refusal =>
    let (stdout, stderr, code) := refuse refusal
    { stdout, stderr, ending := .usage code, store }
  | .ok (o, input) =>
    if input = ['-'] then
      match Text.ofBytes? stdin with
      | none => { ending := .crash .undecodable, store }
      | some source => finish (compile o standardInput source []) store
    else
      match store.read input with
      | .error .malformed =>
        { stderr := opening o input, ending := .crash (.file .malformed input), store }
      | .error e =>
        { stderr := opening o input ++ unreadable e input, ending := .status 1, store }
      | .ok bytes =>
        match Text.ofBytes? bytes with
        | none => { stderr := opening o input, ending := .crash .undecodable, store }
        | some host =>
          let (source, events) := load input host
          finish (compile o input source events) store

end Statewright.Command
