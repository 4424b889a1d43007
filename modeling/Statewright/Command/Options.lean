import Statewright.Text.Letter
import Statewright.Text.Quoted

namespace Statewright.Command

inductive Switch
  | help | verbose | output | stem | yaml | plantuml
  deriving DecidableEq

namespace Switch

/-- The names of the switches; a long one may be cut short while it stays the only one. -/
def names : List (Text × Switch) :=
  [("-h", help), ("--help", help), ("--verbose", verbose), ("-o", output), ("--output", output),
   ("--prefix", stem), ("--yaml", yaml), ("--plantuml", plantuml)]

def takesValue : Switch → Bool
  | help | verbose => false
  | output | stem | yaml | plantuml => true

/-- All names of a switch together. -/
def title (s : Switch) : Text :=
  Text.join "/" ((names.filter (·.2 = s)).map (·.1))

end Switch

structure Options where
  verbose : Bool := false
  /-- Where the unit goes; `none` is a place that nothing can be written to. -/
  output : Option Text := some "-"
  stem : Option Text := none
  yaml : Option Text := none
  plantuml : Option Text := none
  input : Option Text := none
  deriving DecidableEq

/-- A command line that is not carried out. -/
inductive Refusal
  | help
  | misused (message : Text)

/-- What one word is taken for. -/
inductive Role
  | plain
  /-- The two dashes after which every word is plain. -/
  | divider
  /-- A switch, and what is attached to it in the same word. -/
  | switch (switch : Switch) (short : Bool) (value : Option Text)
  | unknown

def isShort (name : Text) : Bool :=
  name[1]? ≠ some '-'

/-- The text before the first equals sign, and that after it. -/
def splitValue (word : Text) : Text × Option Text :=
  match word.dropWhile (· != '=') with
  | [] => (word, none)
  | _ :: value => (word.takeWhile (· != '='), some value)

/-- A dash and a number, with or without a point; a newline after it does not matter. -/
def isNegative (word : Text) : Bool :=
  let body := word.drop 1
  let body := if body.getLast? = some '\n' then body.dropLast else body
  match body.dropWhile Text.isDecimal with
  | [] => !body.isEmpty
  | '.' :: digits => !digits.isEmpty && digits.all Text.isDecimal
  | _ => false

/-- The switches that a word with no exact name may mean. -/
def candidates (word : Text) : List (Text × Role) :=
  if isShort word then
    (Switch.names.filter (·.1 = word.take 2)).map fun n =>
      (n.1, .switch n.2 true (some (word.drop 2)))
  else
    let (name, value) := splitValue word
    (Switch.names.filter (name.isPrefixOf ·.1)).map fun n =>
      (n.1, .switch n.2 (isShort n.1) value)

/-- The role of a word before any divider. -/
def roleOf (word : Text) : Except Refusal Role :=
  if word.head? ≠ some '-' then .ok .plain
  else if word = "--".toList then .ok .divider
  else
    match Switch.names.lookup word, splitValue word with
    | some s, _ => .ok (.switch s (isShort word) none)
    | none, (name, value) =>
      if word.length = 1 then .ok .plain
      else
        match Switch.names.lookup name, value with
        | some s, some value => .ok (.switch s (isShort name) (some value))
        | _, _ =>
          match candidates word with
          | [(_, role)] => .ok role
          | [] => .ok (if isNegative word || word.contains ' ' then .plain else .unknown)
          | several =>
            .error <| .misused <| "ambiguous option: " ++ word ++ " could match " ++
              Text.join ", " (several.map (·.1))

/-- The roles of all words. -/
def roles : List Text → Except Refusal (List (Text × Role))
  | [] => .ok []
  | word :: words => do
    let role ← roleOf word
    match role with
    | .divider => return (word, .divider) :: words.map (·, .plain)
    | _ => return (word, role) :: (← roles words)

def misused {α : Type} (s : Switch) (message : Text) : Except Refusal α :=
  .error (.misused ("argument " ++ s.title ++ ": " ++ message))

def ignored {α : Type} (s : Switch) (value : Text) : Except Refusal α :=
  misused s ("ignored explicit argument " ++ value.quoted)

/-- Switches as they are carried out, each with its values: one, or none. -/
structure Taken where
  actions : List (Switch × Option Text)
  /-- Whether the last switch needs the next word as its value. -/
  wants : Option Switch := none

/-- The value that is attached to a switch. Two dashes are dropped, and no value is left. -/
def valueOf (word : Text) : Option Text :=
  if word = "--".toList then none else some word

/-- Reads what is attached to a switch: its value, or after a short switch without a value more
short switches. -/
def attached (s : Switch) (short : Bool) : Text → Except Refusal Taken
  | [] => if s.takesValue then .ok { actions := [(s, some [])] } else ignored s []
  | c :: rest =>
    if s.takesValue then .ok { actions := [(s, valueOf (c :: rest))] }
    else if !short then ignored s (c :: rest)
    else
      match Switch.names.lookup ['-', c], rest with
      | none, _ => ignored s (c :: rest)
      | some t, [] =>
        if t.takesValue then .ok { actions := [(s, none)], wants := some t }
        else .ok { actions := [(s, none), (t, none)] }
      | some t, d :: tail => do
        let more ← attached t true (d :: tail)
        return { more with actions := (s, none) :: more.actions }

/-- How a list without values is written. -/
def noValues : Text := "[]"

/-- Carries out one switch. -/
def Options.act (o : Options) : Switch × Option Text → Except Refusal Options
  | (.help, _) => .error .help
  | (.verbose, _) => .ok { o with verbose := true }
  | (.output, value) => .ok { o with output := value }
  | (.stem, value) => .ok { o with stem := some (value.getD noValues) }
  | (.yaml, value) => .ok { o with yaml := value }
  | (.plantuml, value) => .ok { o with plantuml := value }

/-- What the word of a switch asks for. -/
def take (s : Switch) (short : Bool) : Option Text → Except Refusal Taken
  | some value => attached s short value
  | none =>
    if s.takesValue then .ok { actions := [], wants := some s } else .ok { actions := [(s, none)] }

/-- Goes through the words. The first plain word that no switch takes is the input; a divider right
before or right after it belongs to it. -/
def collect (o : Options) (extras : List Text) :
    List (Text × Role) → Except Refusal (Options × List Text)
  | [] => .ok (o, extras)
  | (word, .unknown) :: words => collect o (extras ++ [word]) words
  | (word, .plain) :: (mark, .divider) :: words =>
    match o.input with
    | none => collect { o with input := some word } extras words
    | some _ => collect o (extras ++ [word, mark]) words
  | (word, .plain) :: words =>
    match o.input with
    | none => collect { o with input := some word } extras words
    | some _ => collect o (extras ++ [word]) words
  | (mark, .divider) :: (word, .plain) :: words =>
    match o.input with
    | none => collect { o with input := some word } extras words
    | some _ => collect o (extras ++ [mark, word]) words
  | (mark, .divider) :: words => collect o (extras ++ [mark]) words
  | (_, .switch s short value) :: words => do
    let taken ← take s short value
    match taken.wants, words with
    | none, words =>
      let o ← taken.actions.foldlM Options.act o
      collect o extras words
    | some t, (word, .plain) :: words =>
      let o ← (taken.actions ++ [(t, some word)]).foldlM Options.act o
      collect o extras words
    | some t, _ => misused t "expected one argument"

/-- The options of a command line; the input is among them. -/
def parse (words : List Text) : Except Refusal (Options × Text) := do
  let (o, extras) ← collect {} [] (← roles words)
  match o.input with
  | none => .error (.misused "the following arguments are required: input")
  | some input =>
    if extras.isEmpty then return (o, input)
    else .error (.misused ("unrecognized arguments: " ++ Text.join " " extras))

def usage : Text :=
  "usage: fsmlc [-h] [--verbose] [-o OUTPUT] [--prefix PREFIX] [--yaml YAML]\n" ++
  "             [--plantuml PLANTUML]\n" ++
  "             input\n"

def helpText : Text :=
  usage ++
  "\nTranslate an FSML state machine to C.\n" ++
  "\npositional arguments:\n" ++
  "  input                 input script; use '-' for standard input.\n" ++
  "\noptions:\n" ++
  "  -h, --help            show this help message and exit\n" ++
  "  --verbose             Enable trace-level messages\n" ++
  "  -o OUTPUT, --output OUTPUT\n" ++
  "                        Write generated C code to the given filename; default\n" ++
  "                        is standard output\n" ++
  "  --prefix PREFIX       Prefix for generated C names; default is the fsm name\n" ++
  "  --yaml YAML           Yaml filename to write\n" ++
  "  --plantuml PLANTUML   Plantuml state machine filename to write\n"

end Statewright.Command
