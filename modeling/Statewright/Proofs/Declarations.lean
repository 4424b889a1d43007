import Statewright.Proofs.Emission

namespace Statewright
namespace CUnit

/-- An enumerator, with the rest of its line. -/
structure Enumerator where
  name : Text
  rest : Text

def Enumerator.line (e : Enumerator) : Text :=
  "    " ++ e.name ++ e.rest

/-- A case of a switch over the current state. -/
structure Case where
  label : Text
  body : List Text

def Case.lines (c : Case) : List Text :=
  ("    case " ++ c.label ++ ":") :: c.body

/-- A switch, with what follows its cases. -/
structure Switch where
  cases : List Case
  rest : List Text

def Switch.lines (s : Switch) : List Text :=
  List.flatten
    [["    switch (fsm->state) \x7b"], s.cases.flatMap Case.lines, s.rest, ["    \x7d"]]

def Switch.labels (s : Switch) : List Text :=
  s.cases.map Case.label

/-- A declaration at file scope. -/
inductive Declaration
  | enumeration (tag : Text) (entries : List Enumerator) (typedef : Option Text)
  | record (tag : Text) (members : List Member) (typedef : Text)
  | table (name : Text) (entries : List Text)
  | function (result name parameters : Text) (body : List Text) (switch : Option Switch)

namespace Declaration

def lines : Declaration → List Text
  | enumeration tag entries none =>
    List.flatten [["", "enum " ++ tag ++ " \x7b"], entries.map Enumerator.line, ["\x7d;"]]
  | enumeration tag entries (some typedef) =>
    List.flatten
      [["", "typedef enum " ++ tag ++ " \x7b"], entries.map Enumerator.line,
       ["\x7d " ++ typedef ++ ";"]]
  | record tag members typedef =>
    List.flatten
      [["", "typedef struct " ++ tag ++ " \x7b"], members.map Member.line,
       ["\x7d " ++ typedef ++ ";"]]
  | table name entries =>
    List.flatten
      [["", "static const char *const " ++ name ++ "[] = \x7b"], entries.map quotedName, ["\x7d;"]]
  | function result name parameters body switch =>
    List.flatten
      [["", result ++ name ++ "(" ++ parameters ++ ")", "\x7b"], body,
       switch.toList.flatMap Switch.lines, ["\x7d"]]

/-- The ordinary identifiers that a declaration brings into file scope; tags are apart. -/
def identifiers : Declaration → List Text
  | enumeration _ entries typedef => entries.map Enumerator.name ++ typedef.toList
  | record _ _ typedef => [typedef]
  | table name _ => [name]
  | function _ name _ _ _ => [name]

/-- The names of the members of a structure. -/
def members : Declaration → List Text
  | record _ members _ => members.map Member.name
  | _ => []

/-- The switch in a function. -/
def switch? : Declaration → Option Switch
  | function _ _ _ _ switch => switch
  | _ => none

end Declaration

/-- The enumerators of the states, whose values are the numbers of the states. -/
def stateEntries (m : Machine) (stem : Text) : List Enumerator :=
  m.states.map fun s => ⟨stateName stem s.name, "," ++ flagsComment s⟩

/-- The enumerators of the errors, that of no error first. -/
def errorEntries (m : Machine) (stem : Text) : List Enumerator :=
  ⟨labelName stem noError, " = 0,"⟩ :: m.labels.map fun l => ⟨labelName stem l, ","⟩

def stateEnumeration (m : Machine) (stem : Text) : Declaration :=
  .enumeration (stateTag stem) (stateEntries m stem) (some (stateType stem))

def errorEnumeration (m : Machine) (stem : Text) : Declaration :=
  .enumeration (errTag stem) (errorEntries m stem) (some (errType stem))

/-- Without timers nothing is declared for them. -/
def timerDeclarations (m : Machine) (stem : Text) : List Declaration :=
  if m.timers.isEmpty then []
  else [.enumeration (timerTag stem) (m.timers.map fun t => ⟨timerName stem t.name, ","⟩) none]

/-- A function that looks up a name. -/
def lookupDeclaration (stem name : Text) (result : Text) : Declaration :=
  .function "const char *" name ("const " ++ machineType stem ++ " *fsm")
    ["    return " ++ result ++ ";"] none

/-- The function that tells whether a machine is done: its switch has the final states. -/
def doneDeclaration (m : Machine) (stem : Text) : Declaration :=
  .function "int " (doneFunction stem) ("const " ++ machineType stem ++ " *fsm") []
    (some ⟨(m.states.filter (·.has .final)).map fun s => ⟨stateName stem s.name, []⟩,
      ["        return 1;", "    default:", "        return 0;"]⟩)

def initDeclaration (p : Program) (stem start : Text) : Declaration :=
  .function "void " (initFunction stem) (machineType stem ++ " *fsm") (initBody p stem start) none

def stepDeclaration (p : Program) (stem : Text) (cases : List Case) : Declaration :=
  .function "void " (stepFunction stem) (machineType stem ++ " *fsm") (elapseLines p stem)
    (some ⟨cases, ["    default:", "        break;"]⟩)

/-- The declarations of a unit, by its start state and the cases of its last function. -/
def declarations (p : Program) (stem start : Text) (cases : List Case) : List Declaration :=
  let m := p.machine
  List.flatten
    [[stateEnumeration m stem, errorEnumeration m stem],
     timerDeclarations m stem,
     [.record stem (members p stem) (machineType stem),
      .function "static long " (clockFunction p stem) "void" [clockBody p] none,
      .table (stateTable stem) (m.states.map State.name),
      .table (errTable stem) (noError :: m.labels),
      lookupDeclaration stem (stateFunction stem) (stateTable stem ++ "[fsm->state]"),
      lookupDeclaration stem (errFunction stem) (errTable stem ++ "[fsm->err]"),
      doneDeclaration m stem, initDeclaration p stem start, stepDeclaration p stem cases]]

/-- The cases of the step function, each with its label. -/
theorem stepCases_labelled {m : Machine} {stem : Text} {sites : List Site}
    {ls : List (List Text)} (h : sites.mapM (stepCase m stem) = .ok ls) :
    ∃ cases : List Case,
      cases.map Case.label = sites.map (fun s => stateName stem s.state.name) ∧
      ls = cases.map Case.lines := by
  induction sites generalizing ls with
  | nil =>
    cases h
    exact ⟨[], rfl, rfl⟩
  | cons s sites ih =>
    rw [List.mapM_cons] at h
    cases hb : caseLines m stem s with
    | error e =>
      simp only [stepCase, hb] at h
      cases h
    | ok body =>
      cases hs : sites.mapM (stepCase m stem) with
      | error e =>
        simp only [hs, stepCase, hb] at h
        cases h
      | ok rest =>
        simp only [hs, stepCase, hb] at h
        cases h
        obtain ⟨cases, hlabels, rfl⟩ := ih hs
        refine ⟨⟨stateName stem s.state.name, Code.indent 8 body ++ [("        break;" : Text)]⟩ ::
          cases, by rw [List.map_cons, List.map_cons, hlabels], ?_⟩
        simp [Case.lines]

section Lines
variable (p : Program) (m : Machine) (stem : Text)

theorem stateEnum_eq : stateEnum m stem = (stateEnumeration m stem).lines := by
  have h : stateEntry stem =
      Enumerator.line ∘ fun s : State => ⟨stateName stem s.name, "," ++ flagsComment s⟩ := by
    funext s
    simp only [stateEntry, Function.comp_apply, Enumerator.line, List.append_assoc]
  simp only [stateEnum, stateEnumeration, stateEntries, Declaration.lines, List.map_map, h]

theorem errEnum_eq : errEnum m stem = (errorEnumeration m stem).lines := by
  simp [errEnum, errorEnumeration, errorEntries, Declaration.lines, Enumerator.line,
    Function.comp_def]

theorem timerEnum_eq :
    timerEnum m stem = (timerDeclarations m stem).flatMap Declaration.lines := by
  unfold timerEnum timerDeclarations
  split
  · rfl
  · simp [Declaration.lines, Enumerator.line, Function.comp_def]

theorem lookupLines_eq (function table field : Text) : lookupLines stem function table field =
    (lookupDeclaration stem function (table ++ "[fsm->" ++ field ++ "]")).lines := by
  simp [lookupLines, functionLines, lookupDeclaration, Declaration.lines]

theorem clockLines_eq : clockLines p stem =
    (Declaration.function "static long " (clockFunction p stem) "void" [clockBody p]
      none).lines := by
  simp [clockLines, functionLines, Declaration.lines]

theorem doneLines_eq : doneLines m stem = (doneDeclaration m stem).lines := by
  have h : ((m.states.filter (·.has .final)).map fun s : State =>
      ({ label := stateName stem s.name, body := [] } : Case)).flatMap Case.lines =
      (m.states.filter (·.has .final)).map fun s =>
        "    case " ++ stateName stem s.name ++ ":" := by
    rw [List.flatMap_map, List.map_eq_flatMap]
    rfl
  simp [doneLines, functionLines, doneDeclaration, Declaration.lines, Switch.lines, h]

theorem initLines_eq (start : Text) :
    initLines p stem start = (initDeclaration p stem start).lines := by
  simp [initLines, functionLines, initDeclaration, Declaration.lines]

/-- The step function has a case for every state. -/
theorem stepLines_eq {ls : List Text} (h : stepLines p stem = .ok ls) :
    ∃ cases, p.machine.sites.mapM (stepCase p.machine stem) = .ok (cases.map Case.lines) ∧
      cases.map Case.label = p.machine.states.map (fun s => stateName stem s.name) ∧
      ls = (stepDeclaration p stem cases).lines := by
  unfold stepLines at h
  cases hs : p.machine.sites.mapM (stepCase p.machine stem) with
  | error e =>
    rw [hs] at h
    cases h
  | ok step =>
    rw [hs] at h
    obtain ⟨cases, hlabels, rfl⟩ := stepCases_labelled hs
    refine ⟨cases, rfl, ?_, ?_⟩
    · rw [hlabels, ← Machine.sites_states, List.map_map]
      rfl
    · cases h
      simp [functionLines, stepDeclaration, Declaration.lines, Switch.lines, List.flatMap_def]

end Lines

/-- A unit consists of its declarations, after its heading and the foreign ones. -/
theorem lines_declarations {p : Program} {stem start : Text} {ls : List Text}
    (h : lines p stem start = .ok ls) :
    ∃ cases, p.machine.sites.mapM (stepCase p.machine stem) = .ok (cases.map Case.lines) ∧
      cases.map Case.label = p.machine.states.map (fun s => stateName stem s.name) ∧
      ls = heading p.file stem ++ declLines p.decl ++
        (declarations p stem start cases).flatMap Declaration.lines := by
  obtain ⟨step, hstep, rfl⟩ := lines_parts h
  obtain ⟨cases, hcases, hlabels, rfl⟩ := stepLines_eq p stem hstep
  refine ⟨cases, hcases, hlabels, ?_⟩
  rw [stateEnum_eq, errEnum_eq, timerEnum_eq, clockLines_eq, lookupLines_eq, lookupLines_eq,
    doneLines_eq, initLines_eq]
  simp only [declarations, List.flatten_cons, List.flatten_nil, List.flatMap_append,
    List.flatMap_cons, List.flatMap_nil, List.append_nil, List.append_assoc]
  rfl

/-- What is declared in a unit whatever its cases are. -/
theorem declaration_within {p : Program} {stem start : Text} {ls : List Text}
    (h : lines p stem start = .ok ls) {d : Declaration}
    (hd : ∀ cases, d ∈ declarations p stem start cases) : d.lines <:+: ls := by
  obtain ⟨cases, _, _, rfl⟩ := lines_declarations h
  obtain ⟨before, after, he⟩ := List.append_of_mem (hd cases)
  rw [he, List.flatMap_append, List.flatMap_cons]
  exact ⟨heading p.file stem ++ declLines p.decl ++ before.flatMap Declaration.lines,
    after.flatMap Declaration.lines, by simp only [List.append_assoc]⟩

end CUnit
end Statewright
