import Statewright.Machine
import Statewright.Token.Lexeme

namespace Statewright
namespace Language

/-- The text does not go on with a character of the class. -/
def Ends (p : Char → Bool) (rest : Text) : Prop :=
  ∀ c ∈ rest.head?, p c = false

instance {p : Char → Bool} : (rest : Text) → Decidable (Ends p rest)
  | [] => .isTrue nofun
  | c :: _ => decidable_of_iff (p c = false) (by simp [Ends])

/-- Blanks and comments before `rest`. A comment goes up to the end of its line. -/
inductive Gap (rest : Text) : Text → Prop
  | nil : Gap rest []
  | blank : Text.isBlank c → Gap rest g → Gap rest (c :: g)
  | comment : '\n' ∉ body → Ends (· != '\n') (g ++ rest) → Gap rest g →
      Gap rest ('/' :: '/' :: (body ++ g))

/-- The shortest segment that opens and closes equally often. -/
structure Shortest (opener closer : Char) (segment : Text) : Prop where
  balanced : segment.count opener = segment.count closer
  first : ∀ s, s <+: segment → s ≠ [] → s.count opener = s.count closer → s = segment

/-- How a token of a kind is spelled before `rest`, and its value. Words and integers take all the
characters they can; a name is a word that is not reserved. -/
inductive Spelling (rest : Text) : Kind → (spelled value : Text) → Prop
  | word : (w, k) ∈ Kind.words → Ends isNameChar rest → Spelling rest k w w
  | name : isNameStart c → (∀ d ∈ w, isNameChar d) → (∀ k, (c :: w, k) ∉ Kind.words) →
      Ends isNameChar rest → Spelling rest .name (c :: w) (c :: w)
  | int : w ≠ [] → (∀ d ∈ w, Text.isAsciiDigit d) → Ends Text.isAsciiDigit rest →
      Spelling rest .int w w
  | mark : (c, k) ∈ Kind.marks → Spelling rest k [c] [c]
  | fragment : (k, o, c) ∈ Kind.fragments → Shortest o c (o :: (content ++ [c])) →
      Spelling rest k (o :: (content ++ [c])) content
  | eof : rest = [] → Spelling rest .eof [] []

/-- A token is placed where it starts, a raw fragment at the character after its delimiter. -/
def placeOf (source : Text) (k : Kind) (offset : Nat) : Position :=
  .inSource source (if k = .block ∨ k = .expr then offset + 1 else offset)

/-- The tokens stand in the source one after the other, from an offset on, a gap before each. -/
inductive Spelled (source : Text) : Nat → List Token → Prop
  | nil : Spelled source n []
  | cons : source.drop n = g ++ (w ++ rest) → Gap (w ++ rest) g → Spelling rest k w v →
      Spelled source (n + g.length + w.length) ts →
      Spelled source n (⟨k, v, placeOf source k (n + g.length), n + g.length⟩ :: ts)

/-- A rule's tokens or none. -/
inductive Opt {α : Type} (form : List Token → α → Prop) : List Token → Option α → Prop
  | none : Opt form [] none
  | some : form ts a → Opt form ts (some a)

/-- A rule's tokens any number of times. -/
inductive Many {α : Type} (form : List Token → α → Prop) : List Token → List α → Prop
  | nil : Many form [] []
  | cons : form ts a → Many form us as → Many form (ts ++ us) (a :: as)

/-- A raw fragment, verbatim. -/
inductive RawForm (kind : Kind) : List Token → Fragment → Prop
  | mk : t.kind = kind → RawForm kind [t] { text := t.text, place := t.place }

/-- A name in parentheses. -/
inductive ArgumentForm : List Token → Ref → Prop
  | mk : o.kind = .openParen → n.kind = .name → c.kind = .closeParen →
      ArgumentForm [o, n, c] { name := n.text, place := n.place }

/-- An integer or a name. -/
inductive ConstantForm : List Token → Token → Prop
  | int : t.kind = .int → ConstantForm [t] t
  | name : t.kind = .name → ConstantForm [t] t

/-- Declarations in C: `"decl" BLOCK`. -/
inductive DeclForm : List Token → Fragment → Prop
  | mk : k.kind = .decl → RawForm .block ts f → DeclForm (k :: ts) f

/-- A clock: `("time" | "period") BLOCK`. -/
inductive ClockForm : List Token → Clock → Prop
  | time : k.kind = .time → RawForm .block ts f → ClockForm (k :: ts) (.time f)
  | period : k.kind = .period → RawForm .block ts f → ClockForm (k :: ts) (.period f)

def familyKind : Family → Kind
  | .var => .var
  | .input => .input
  | .output => .output

/-- A variable: `family NAME NAME {NAME} EXPR ";"`. The last word is the name, those before it, of
which there is at least one, are the type. -/
inductive VariableForm : List Token → Variable → Prop
  | mk : k.kind = familyKind family → ws ≠ [] → (∀ w ∈ ws, w.kind = .name) → n.kind = .name →
      RawForm .expr ts init → s.kind = .semicolon →
      VariableForm (k :: (ws ++ n :: (ts ++ [s])))
        { family, type := Text.join " " (ws.map Token.text), name := n.text, place := n.place,
          init }

/-- A timer: `"timer" NAME "(" constant ")" ";"`. -/
inductive TimerForm : List Token → Timer → Prop
  | mk : k.kind = .timer → n.kind = .name → o.kind = .openParen → ConstantForm ts d →
      c.kind = .closeParen → s.kind = .semicolon →
      TimerForm (k :: n :: o :: (ts ++ [c, s]))
        { name := n.text, duration := d.text, place := n.place }

inductive DeclarationForm : List Token → Variable ⊕ Timer → Prop
  | var : VariableForm ts v → DeclarationForm ts (.inl v)
  | timer : TimerForm ts t → DeclarationForm ts (.inr t)

/-- A trigger: `EXPR | "timeout" "(" NAME ")"`. -/
inductive TriggerForm : List Token → Trigger → Prop
  | when : RawForm .expr ts f → TriggerForm ts (.when f)
  | timeout : k.kind = .timeout → ArgumentForm ts r → TriggerForm (k :: ts) (.timeout r)

/-- A jump: `"go" NAME | "err" NAME`. -/
inductive JumpForm : List Token → Jump → Prop
  | go : k.kind = .go → n.kind = .name → JumpForm [k, n] (.go { name := n.text, place := n.place })
  | err : k.kind = .err → n.kind = .name →
      JumpForm [k, n] (.err { name := n.text, place := n.place })

/-- An action: `jump | "retry"`. -/
inductive ActionForm : List Token → Action → Prop
  | jump : JumpForm ts j → ActionForm ts (.jump j)
  | retry : k.kind = .retry → ActionForm [k] .retry

/-- The start of a timer: `"start" "(" NAME ")"`. -/
inductive StartForm : List Token → Ref → Prop
  | mk : k.kind = .start → ArgumentForm ts r → StartForm (k :: ts) r

/-- A transition: `"on" trigger [BLOCK] action {start} ";"`. -/
inductive TransitionForm : List Token → Transition → Prop
  | mk : k.kind = .on → TriggerForm ts trigger → Opt (RawForm .block) us code →
      ActionForm vs action → Many StartForm ws starts → s.kind = .semicolon →
      TransitionForm (k :: (ts ++ (us ++ (vs ++ (ws ++ [s])))))
        { place := k.place, trigger, code, action, starts }

/-- An assignment: `NAME EXPR`. -/
inductive AssignmentForm : List Token → Assignment → Prop
  | mk : n.kind = .name → RawForm .expr ts value →
      AssignmentForm (n :: ts) { name := n.text, place := n.place, value }

/-- A rule's tokens after a comma. -/
inductive CommaForm {α : Type} (form : List Token → α → Prop) : List Token → α → Prop
  | mk : c.kind = .comma → form ts a → CommaForm form (c :: ts) a

/-- The outputs of a state: `"out" assignment {"," assignment} ";"`. -/
inductive OutsForm : List Token → List Assignment → Prop
  | mk : k.kind = .out → AssignmentForm ts a → Many (CommaForm AssignmentForm) us as →
      s.kind = .semicolon →
      OutsForm (k :: (ts ++ (us ++ [s]))) (a :: as)

/-- A flag: `"start" | "end" | "err"`, of which `end` is an ordinary name. -/
inductive FlagForm : List Token → Flag → Prop
  | mk : t.kind = .start ∨ t.kind = .err ∨ t.kind = .name → t.text = f.word → FlagForm [t] f

/-- The flags of a state, if it has any: `"[" flag {"," flag} "]"`. -/
inductive FlagsForm : List Token → List Flag → Prop
  | none : FlagsForm [] []
  | some : o.kind = .openBracket → FlagForm ts f → Many (CommaForm FlagForm) us fs →
      c.kind = .closeBracket →
      FlagsForm (o :: (ts ++ (us ++ [c]))) (f :: fs)

inductive MemberForm : List Token → Transition ⊕ List Assignment → Prop
  | transition : TransitionForm ts t → MemberForm ts (.inl t)
  | outs : OutsForm ts as → MemberForm ts (.inr as)

/-- A state: `"state" flags NAME "{" [BLOCK] {transition | outs} "}"`. -/
inductive StateForm : List Token → State → Prop
  | mk : k.kind = .state → FlagsForm ts flags → n.kind = .name → o.kind = .openBrace →
      Opt (RawForm .block) us entry → Many MemberForm vs members → c.kind = .closeBrace →
      StateForm (k :: (ts ++ n :: o :: (us ++ (vs ++ [c]))))
        { name := n.text, place := n.place, flags, entry,
          transitions := members.filterMap Sum.getLeft?,
          outs := (members.filterMap Sum.getRight?).flatten }

/-- A bound as it is written: an integer or a name. -/
def boundOf (t : Token) : Bound :=
  if t.kind = .int then .literal t.text else .named t.text

/-- An until block: `"until" "(" constant ")" "{" {state} "}" jump ";"`. -/
inductive BlockForm : List Token → Until → Prop
  | mk : k.kind = .untilWord → o.kind = .openParen → ConstantForm ts d → c.kind = .closeParen →
      e.kind = .openBrace → Many StateForm us states → t.kind = .closeBrace →
      JumpForm vs overflow → s.kind = .semicolon →
      BlockForm (k :: o :: (ts ++ c :: e :: (us ++ t :: (vs ++ [s]))))
        { bound := boundOf d, place := k.place, states, overflow }

inductive ItemForm : List Token → Item → Prop
  | state : StateForm ts s → ItemForm ts (.state s)
  | block : BlockForm ts u → ItemForm ts (.block u)

/-- A program: `[decl] [clock] "fsm" NAME "{" {declaration} {state | until} "}" EOF`. -/
inductive ProgramForm (file : Option Text) : List Token → Program → Prop
  | mk : Opt DeclForm ts decl → Opt ClockForm us clock → k.kind = .fsm → n.kind = .name →
      o.kind = .openBrace → Many DeclarationForm vs declared → Many ItemForm ws items →
      c.kind = .closeBrace → e.kind = .eof →
      ProgramForm file (ts ++ (us ++ k :: n :: o :: (vs ++ (ws ++ [c, e]))))
        { file, decl, clock,
          machine := {
            name := n.text, place := n.place,
            vars := declared.filterMap Sum.getLeft?,
            timers := declared.filterMap Sum.getRight?,
            items } }

/-- The source is a derivation of a program, whose tree is `p`. -/
def Derives (file : Option Text) (source : Text) (p : Program) : Prop :=
  ∃ ts, Spelled source 0 ts ∧ ProgramForm file ts p

end Language
end Statewright
