import Statewright.Analysis
import Statewright.CUnit
import Statewright.Grammar

namespace Statewright

/-- `journal` is in order. -/
structure Compilation where
  file : Option Text := none
  diagnostics : List Diagnostic := []
  journal : List Event := []

/-- Why a stage gives no result. -/
inductive Failure
  /-- There are errors among the diagnostics. -/
  | rejected (diagnostics : List Diagnostic)
  | aborted (abort : Analysis.Abort)
  | misfit (misfit : Misfit)

namespace Compilation

def hasErrors (c : Compilation) : Bool :=
  c.diagnostics.any Diagnostic.isError

/-- Fails if there are errors. -/
def check (c : Compilation) : Except Failure Unit :=
  if c.hasErrors then .error (.rejected c.diagnostics) else .ok ()

def note (c : Compilation) (event : Event) : Compilation :=
  { c with journal := c.journal ++ [event] }

def report (c : Compilation) (d : Diagnostic) : Compilation :=
  { c.note (.diagnosed d) with diagnostics := c.diagnostics ++ [d] }

/-- Reads a source. Errors from before count: with any there is no program. -/
def parse (c : Compilation) (source : Text) : Compilation × Except Failure Program :=
  let outcome := Grammar.read c.file source
  let c := { c with
    diagnostics := c.diagnostics ++ outcome.faults.map (Fault.diagnostic · c.file)
    journal := c.journal ++ outcome.journal }
  match outcome.program, c.hasErrors with
  | some program, false => (c, .ok program)
  | _, _ => (c, .error (.rejected c.diagnostics))

/-- Analyzes a program. The program is annotated as far as it can be, whether the analysis
succeeds or not. -/
def analyze (c : Compilation) (p : Program) : Compilation × Program × Except Failure Unit :=
  let outcome := Analysis.run p.machine
  let c := outcome.findings.foldl (fun c f => c.report (f.diagnostic c.file)) c
  let m := outcome.machine
  let p := { p with machine := m }
  match outcome.abort with
  | some abort => (c, p, .error (.aborted abort))
  | none =>
    let c := c.note (.analyzed m.name (m.states.map State.name) m.labels)
    (c, p, c.check)

/-- Writes the unit. Its names begin with the stem, which is the machine's name if none is
given. -/
def generate (c : Compilation) (p : Program) (stem : Option Text) :
    Compilation × Except Failure Text :=
  match CUnit.start p.machine with
  | .error misfit => (c, .error (.misfit misfit))
  | .ok _ =>
    let stem := stem.getD p.machine.name
    let c := c.note (.generating p.machine.name stem)
    match CUnit.text p stem with
    | .error misfit => (c, .error (.misfit misfit))
    | .ok text => (c, .ok text)

/-- All stages on a source. -/
def compile (c : Compilation) (source : Text) (stem : Option Text) :
    Compilation × Except Failure (Program × Text) :=
  match c.parse source with
  | (c, .error failure) => (c, .error failure)
  | (c, .ok p) =>
    match c.analyze p with
    | (c, _, .error failure) => (c, .error failure)
    | (c, p, .ok ()) =>
      match c.generate p stem with
      | (c, .error failure) => (c, .error failure)
      | (c, .ok text) => (c, .ok (p, text))

end Compilation
end Statewright
