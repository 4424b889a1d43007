import Statewright.Proofs.Emission
import Statewright.Proofs.References

namespace Statewright
namespace Code
open Statewright.Language (Ends)

/-- Whether the last piece of a code is a line comment. -/
def endsInComment (t : Text) : Bool :=
  (pieces t).getLast?.any (·.shape = .lineComment)

/-- The code is cut into pieces as if nothing stood around it. -/
def Parted (before code after : Text) : Prop :=
  pieces (before ++ code ++ after) = pieces before ++ pieces code ++ pieces after

/-- The line comment at the end of the code has become longer by all that stands behind. -/
def Swallowed (before code after : Text) : Prop :=
  ∃ ps c, pieces code = ps ++ [⟨.lineComment, c⟩] ∧
    pieces (before ++ code ++ after) = pieces before ++ ps ++ [⟨.lineComment, c ++ after⟩]

/-- A text behind an expression: it begins with a closing mark, and has no quote, no slash and no
line end. -/
structure Closes (x : Text) : Prop where
  first : x.head? = some ')'
  quiet : ∀ c ∈ x, isQuote c = false ∧ c ≠ '/' ∧ c ≠ '\n'

/-- Pieces that are cut as they are before any others. -/
def Opens (os : List Piece) : Prop :=
  ∀ ⦃ps⦄, Tokens ps → Tokens (os ++ ps)

section Behind
variable {q : Char} {t x : Text}

theorem literalTail_unquoted (h : ∀ c ∈ t, c ≠ q) : literalTail q t = none := by
  fun_induction literalTail q t with
  | case1 c t ih =>
    rw [ih fun d hd => h d (by simp [hd])]
    rfl
  | case2 t hne => exact absurd rfl (h q List.mem_cons_self)
  | case3 c t hne hc hstop => rfl
  | case4 c t hne hc hstop ih =>
    rw [ih fun d hd => h d (List.mem_cons_of_mem c hd)]
    rfl
  | case5 => rfl

/-- A quote that is not closed stays so when more without such a quote follows. -/
theorem literalTail_none_append (hq : isQuote q) (h : literalTail q t = none)
    (hx : ∀ c ∈ x, c ≠ q) : literalTail q (t ++ x) = none := by
  fun_induction literalTail q t with
  | case1 c t ih =>
    rw [List.cons_append, List.cons_append, literalTail_escape, ih (Option.map_eq_none_iff.mp h)]
    rfl
  | case2 t hne => cases h
  | case3 c t hne hc hstop =>
    rcases hstop with rfl | rfl
    · -- the backslash was the last character, so it now escapes the first one behind
      cases t with
      | cons d t => exact absurd rfl (hne d t rfl)
      | nil =>
        cases x with
        | nil => simp [literalTail, hc]
        | cons d x =>
          rw [List.singleton_append, literalTail_escape,
            literalTail_unquoted fun c hc => hx c (List.mem_cons_of_mem d hc)]
          rfl
    · exact literalTail_break hq _
  | case4 c t hne hc hstop ih =>
    rw [not_or] at hstop
    rw [List.cons_append, literalTail_other hc hstop.1 hstop.2, ih (Option.map_eq_none_iff.mp h)]
    rfl
  | case5 => exact literalTail_unquoted hx

theorem commentTail_slashless (h : '/' ∉ t) : commentTail t = none := by
  fun_induction commentTail t with
  | case1 t => simp at h
  | case2 c t hne ih =>
    rw [ih fun hm => h (List.mem_cons_of_mem c hm)]
    rfl
  | case3 => rfl

/-- A comment that is not closed stays so when more without a slash follows. -/
theorem commentTail_none_append (h : commentTail t = none) (hx : '/' ∉ x) :
    commentTail (t ++ x) = none := by
  fun_induction commentTail t with
  | case1 t => cases h
  | case2 c t hne ih =>
    have hother : ∀ v, c = '*' → t ++ x ≠ '/' :: v := by
      intro v hc hv
      cases t with
      | nil => simp [show x = '/' :: v from hv] at hx
      | cons d t =>
        cases hv
        exact hne t hc rfl
    rw [List.cons_append, commentTail_other hother, ih (Option.map_eq_none_iff.mp h)]
    rfl
  | case3 => exact commentTail_slashless hx

theorem Closes.ends {p : Char → Bool} (h : Closes x) (hp : p ')' = false) : Ends p x := by
  intro c hc
  rw [h.first] at hc
  cases hc
  exact hp

theorem Closes.ne_nil (h : Closes x) : x ≠ [] := by
  rintro rfl
  cases h.first

/-- A piece is cut as before when a closing text comes to stand at the very end, unless it is a line
comment that stood last. -/
theorem Cut.closed {rest : Text} {p : Piece} (h : Cut rest p) (hx : Closes x)
    (hp : p.shape = .lineComment → rest ≠ []) : Cut (rest ++ x) p := by
  cases h with
  | blank hc => exact .blank hc
  | word hc hw he => exact .word hc hw (he.append (hx.ends rfl))
  | number hc hw he => exact .number hc hw (he.append (hx.ends rfl))
  | string hu => exact .string hu
  | character hu => exact .character hu
  | lineComment hb he =>
    refine .lineComment hb ?_
    cases rest with
    | nil => exact absurd rfl (hp rfl)
    | cons d rest => exact he
  | blockComment hu => exact .blockComment hu
  | arrow => exact .arrow
  | quote hc hn =>
    refine .quote hc (literalTail_none_append hc hn ?_)
    rintro d hd rfl
    rw [(hx.quiet d hd).1] at hc
    cases hc
  | slash he hn =>
    refine .slash (he.append (hx.ends rfl)) ?_
    intro u hu
    cases rest with
    | nil =>
      have hfirst := hx.first
      rw [show x = '*' :: u from hu] at hfirst
      cases hfirst
    | cons d rest =>
      cases hu
      exact commentTail_none_append (hn rest rfl) fun hm => (hx.quiet _ hm).2.1 rfl
  | dash he => exact .dash (he.append (hx.ends rfl))
  | mark hc => exact .mark hc

end Behind

section Pieces
variable {ps cs os : List Piece} {x : Text}

theorem Cut.text_ne_nil {rest : Text} {p : Piece} (h : Cut rest p) : p.text ≠ [] := by
  obtain ⟨c, u, hp, _⟩ := h.first
  rw [hp]
  exact List.cons_ne_nil c u

theorem Tokens.texts_ne_nil (h : Tokens ps) (hne : ps ≠ []) : texts ps ≠ [] := by
  cases h with
  | nil => exact absurd rfl hne
  | cons hp _ => exact List.append_ne_nil_of_left_ne_nil hp.text_ne_nil _

/-- Closing pieces are cut apart from pieces that do not end with a line comment. -/
theorem Tokens.closed (h : Tokens ps) (hc : Tokens cs) (hx : Closes (texts cs))
    (hlast : ∀ p ∈ ps.getLast?, p.shape ≠ .lineComment) : Tokens (ps ++ cs) := by
  induction h with
  | nil => exact hc
  | @cons ps p hp hps ih =>
    refine .cons ?_ (ih fun q hq => hlast q ?_)
    · change Cut (texts (ps ++ cs)) p
      rw [texts_append]
      refine hp.closed hx fun hshape htexts => ?_
      have hnil : ps = [] := by
        by_contra hne
        exact hps.texts_ne_nil hne htexts
      exact hlast p (by simp [hnil]) hshape
    · rw [List.getLast?_cons, hq]
      rfl

/-- A line comment at the end takes in a closing text. -/
theorem Tokens.swallows {c : Text} (h : Tokens (ps ++ [⟨.lineComment, c⟩])) (hx : Closes x) :
    Tokens (ps ++ [⟨.lineComment, c ++ x⟩]) := by
  induction ps with
  | nil =>
    cases h with
    | cons hp hps =>
      cases hp with
      | @lineComment body hb he =>
        refine .cons (@Cut.lineComment [] (body ++ x) ?_ (ends_nil _)) .nil
        rw [List.mem_append, not_or]
        exact ⟨hb, fun hm => (hx.quiet _ hm).2.2 rfl⟩
  | cons p ps ih =>
    cases h with
    | cons hp hps =>
      have htexts : texts (ps ++ [⟨.lineComment, c ++ x⟩]) =
          texts (ps ++ [⟨.lineComment, c⟩]) ++ x := by
        simp
      have hcut := hp.closed hx fun _ => hps.texts_ne_nil (by simp)
      exact .cons (htexts ▸ hcut) (ih hps)

theorem Opens.pieces_append (h : Opens os) (t : Text) :
    pieces (texts os ++ t) = pieces (texts os) ++ pieces t := by
  have hos : pieces (texts os) = os := by simpa using (h .nil).pieces_eq
  obtain ⟨ht, htokens⟩ := tokens_pieces t
  rw [hos, pieces_eq_iff, texts_append, ht]
  exact ⟨rfl, h htokens⟩

end Pieces

section Around
variable {os : List Piece} {t x : Text}

theorem parted_of_uncommented (ho : Opens os) (hx : Closes x) (h : endsInComment t = false) :
    Parted (texts os) t x := by
  obtain ⟨ht, htokens⟩ := tokens_pieces t
  obtain ⟨hxs, hxtokens⟩ := tokens_pieces x
  have hlast : ∀ p ∈ (pieces t).getLast?, p.shape ≠ .lineComment := by
    intro p hp
    rw [endsInComment, hp] at h
    simpa using h
  have hjoined : pieces (t ++ x) = pieces t ++ pieces x := by
    rw [pieces_eq_iff, texts_append, ht, hxs]
    exact ⟨rfl, htokens.closed hxtokens (hxs.symm ▸ hx) hlast⟩
  rw [Parted, List.append_assoc, ho.pieces_append, hjoined, List.append_assoc]

theorem swallowed_of_commented (ho : Opens os) (hx : Closes x) (h : endsInComment t) :
    Swallowed (texts os) t x := by
  obtain ⟨ht, htokens⟩ := tokens_pieces t
  rw [endsInComment, Option.any_eq_true] at h
  obtain ⟨⟨shape, c⟩, hlast, hshape⟩ := h
  obtain rfl : shape = .lineComment := of_decide_eq_true hshape
  obtain ⟨ps, hps⟩ := List.getLast?_eq_some_iff.mp hlast
  rw [hps] at ht htokens
  have hjoined : pieces (t ++ x) = ps ++ [⟨.lineComment, c ++ x⟩] := by
    rw [pieces_eq_iff, ← ht]
    exact ⟨by simp, htokens.swallows hx⟩
  refine ⟨ps, c, hps, ?_⟩
  rw [List.append_assoc, ho.pieces_append, hjoined, List.append_assoc]

/-- A text behind cannot be both cut apart and taken into a comment. -/
theorem not_parted_of_swallowed {before : Text} (hx : x ≠ []) (h : Swallowed before t x) :
    ¬ Parted before t x := by
  intro hparted
  obtain ⟨ps, c, hps, hjoined⟩ := h
  rw [Parted, hjoined, hps] at hparted
  have hlength := congrArg List.length hparted
  simp only [List.length_append, List.length_singleton] at hlength
  have hnil : pieces x = [] := List.eq_nil_of_length_eq_zero (by omega)
  have htexts := (tokens_pieces x).1
  rw [hnil] at htexts
  exact hx htexts.symm

/-- The code of an expression between the texts before and behind it. -/
structure Enclosed (before code after : Text) : Prop where
  parted : Parted before code after ↔ endsInComment code = false
  swallowed : endsInComment code → Swallowed before code after

theorem enclosed (ho : Opens os) (hx : Closes x) (t : Text) : Enclosed (texts os) t x := by
  refine ⟨⟨fun hparted => ?_, parted_of_uncommented ho hx⟩, swallowed_of_commented ho hx⟩
  by_contra h
  have hswallowed := swallowed_of_commented ho hx ((Bool.not_eq_false _).mp h)
  exact not_parted_of_swallowed hx.ne_nil hswallowed hparted

end Around

section Lines

theorem closes_condition : Closes ") \x7b" := by
  refine ⟨rfl, ?_⟩
  simp [isQuote]

theorem closes_assignment : Closes ");" := by
  refine ⟨rfl, ?_⟩
  simp [isQuote]

def conditionOpening : List Piece :=
  [⟨.word, ['i', 'f']⟩, ⟨.blank, [' ']⟩, ⟨.mark, ['(']⟩]

theorem opens_condition : Opens conditionOpening := by
  intro ps hps
  refine .cons (.word rfl ?_ (ends_cons rfl _)) (.cons (.blank rfl) (.cons (.mark rfl) hps))
  exact List.forall_mem_singleton.mpr rfl

def assignmentOpening (name : Text) : List Piece :=
  [machineWord, arrowPiece, ⟨.word, name⟩, ⟨.blank, [' ']⟩, ⟨.mark, ['=']⟩, ⟨.blank, [' ']⟩,
   ⟨.mark, ['(']⟩]

theorem opens_assignment {name : Text} (h : isIdentifier name) :
    Opens (assignmentOpening name) := by
  cases name with
  | nil => cases h
  | cons c w =>
    simp only [isIdentifier, Bool.and_eq_true, List.all_eq_true] at h
    intro ps hps
    have hmark :
        Tokens (⟨.blank, [' ']⟩ :: ⟨.mark, ['=']⟩ :: ⟨.blank, [' ']⟩ :: ⟨.mark, ['(']⟩ :: ps) :=
      .cons (.blank rfl) (.cons (.mark rfl) (.cons (.blank rfl) (.cons (.mark rfl) hps)))
    refine .cons (.word rfl ?_ (ends_cons rfl _)) (.cons .arrow (.cons (.word h.1 h.2 ?_) hmark))
    · exact List.forall_mem_cons.mpr ⟨rfl, List.forall_mem_singleton.mpr rfl⟩
    · exact ends_cons rfl _

end Lines

section Expressions
variable {names : List Text}

theorem getLast?_qualified (names : List Text) (before : Option Text) (ps : List Piece) :
    (qualifiedPieces names before ps).getLast? = ps.getLast? := by
  induction ps generalizing before with
  | nil => rfl
  | cons p ps ih =>
    rw [qualifiedPieces, List.getLast?_append, ih, List.getLast?_cons]
    split <;> cases ps.getLast? <;> rfl

/-- Qualifying the names in an expression does not change how it ends. -/
theorem endsInComment_expression (hnames : ∀ n ∈ names, isIdentifier n) (t : Text) :
    endsInComment (expression names t) = endsInComment (replaceSelfCalls false t.trim) := by
  rw [expression, expand, endsInComment, pieces_qualify hnames, getLast?_qualified]
  rfl

end Expressions
end Code

namespace Language

theorem Spelling.identifier {rest w v : Text} (h : Spelling rest .name w v) :
    Code.isIdentifier v := by
  generalize hk : Kind.name = k at h
  cases h with
  | name hc hw _ _ => simpa [Code.isIdentifier] using ⟨hc, hw⟩
  | word hm _ =>
    subst hk
    simp [Kind.words] at hm
  | mark hm =>
    subst hk
    simp [Kind.marks] at hm
  | fragment hm _ =>
    subst hk
    simp [Kind.fragments] at hm
  | int _ _ _ | eof _ => cases hk

theorem Derives.variable_identifier {file : Option Text} {source : Text} {p : Program}
    (h : Derives file source p) : ∀ v ∈ p.machine.vars, Code.isIdentifier v.name := by
  obtain ⟨ts, hsp, hform⟩ := h
  cases hform with
  | mk _ _ _ _ _ hd _ _ _ =>
    intro v hv
    obtain ⟨d, hmem, hv⟩ := List.mem_filterMap.mp hv
    obtain ⟨us, hus, hsub⟩ := hd.mem hmem
    cases hus with
    | timer _ => cases hv
    | var hus =>
      cases hus with
      | @mk _ _ _ _ _ n _ _ _ _ hn _ _ =>
        cases hv
        have hin := hsub (a := n) (by simp)
        obtain ⟨rest, w, hspelling⟩ := hsp.mem (t := n) (by simp [hin])
        rw [hn] at hspelling
        exact hspelling.identifier

end Language

namespace Machine
variable {m : Machine}

/-- What an accepted machine sets is a variable of it. -/
theorem analyzed_outs (hw : ¬ m.IllFormed) {s : Site} (hs : s ∈ m.number.resolve.sites)
    {a : Assignment} (ha : a ∈ s.state.outs) : ∃ v ∈ m.vars, v.name = a.name := by
  rw [analyzed_sites] at hs
  obtain ⟨spot, hspot, rfl⟩ := List.mem_map.mp hs
  obtain ⟨b, hb, rfl⟩ := List.mem_map.mp ha
  have hstate : spot.state ∈ m.states := by
    rw [← spots_states]
    exact List.mem_map_of_mem hspot
  by_contra hnone
  refine hw (.notOutput (List.mem_flatMap.mpr ⟨_, hstate, hb⟩) ?_)
  intro v hv hname
  exact absurd ⟨v, hv, hname⟩ hnone

end Machine

namespace CUnit
open Code (Enclosed expression)
variable {m : Machine}

/-- The line of a step's case with the condition of a transition. -/
theorem condition_line {s : Site} {t : Transition} {f : Fragment} {stem cond : Text}
    {a : Actuation} {lines : List Text} (hf : t.trigger = .when f)
    (hc : condition m stem t.trigger = .ok cond)
    (hlines : Code.indent 8 (writtenTransition m s t stem cond a) <:+: lines) :
    Code.indent 8 ["if (" ++ expression (names m) f.text ++ ") \x7b"] <:+: lines := by
  rw [hf] at hc
  cases hc
  exact (Code.indent_mem (List.mem_append_left _ List.mem_cons_self)).trans hlines

theorem initial_mem {p : Program} {v : Variable} (hv : v ∈ p.machine.vars) (stem start : Text) :
    "    " ++ assign p.machine v.name v.init ∈ initLines p stem start := by
  have hline := List.mem_map_of_mem (f := fun v => "    " ++ assign p.machine v.name v.init) hv
  have hbody : "    " ++ assign p.machine v.name v.init ∈ initBody p stem start :=
    List.mem_flatten.mpr ⟨_, .tail _ (.tail _ (.head _)), hline⟩
  exact List.mem_flatten.mpr ⟨_, .tail _ (.head _), hbody⟩

theorem condition_enclosed (code : Text) : Enclosed "if (" code ") \x7b" :=
  Code.enclosed Code.opens_condition Code.closes_condition code

theorem assignment_enclosed {name : Text} (h : Code.isIdentifier name) (code : Text) :
    Enclosed ("fsm->" ++ name ++ " = (") code ");" := by
  have htexts : Code.texts (Code.assignmentOpening name) = "fsm->" ++ name ++ " = (" := by
    simp [Code.assignmentOpening, Code.machineWord, Code.arrowPiece]
  rw [← htexts]
  exact Code.enclosed (Code.opens_assignment h) Code.closes_assignment code

end CUnit

namespace Compilation
open Statewright.CUnit
open Statewright.Code (Enclosed Parted Swallowed expression endsInComment)

/-- The conditions, outputs and initial values of an accepted program come to stand between texts of
the unit that are cut apart from them, unless the expression ends with a line comment: then the text
behind it is part of the comment. The names in an expression have no part in this. The line of a
condition or an output is looked at before it is indented: that breaks it at a form feed or another
foreign line break, inside of a literal or a comment too. -/
theorem expressions_enclosed {file : Option Text} {source : Text} {c c' : Compilation}
    {p q : Program} (hp : parse { file } source = (c, .ok q)) (ha : c.analyze q = (c', p, .ok ()))
    (stem start : Text) :
    (∀ s ∈ p.machine.sites, ∃ lines, stepCase p.machine stem s = .ok lines ∧
      (∀ t ∈ s.state.transitions, ∀ f, t.trigger = .when f →
        Code.indent 8 ["if (" ++ expression (names p.machine) f.text ++ ") \x7b"] <:+: lines ∧
        Enclosed "if (" (expression (names p.machine) f.text) ") \x7b") ∧
      ∀ a ∈ s.state.outs,
        Code.indent 8 ["fsm->" ++ a.name ++ " = (" ++
          expression (names p.machine) a.value.text ++ ");"] <:+: lines ∧
        Enclosed ("fsm->" ++ a.name ++ " = (") (expression (names p.machine) a.value.text) ");") ∧
    (∀ v ∈ p.machine.vars,
      "    " ++ ("fsm->" ++ v.name ++ " = (" ++ expression (names p.machine) v.init.text ++ ");") ∈
        initLines p stem start ∧
      Enclosed ("fsm->" ++ v.name ++ " = (") (expression (names p.machine) v.init.text) ");") ∧
    ∀ t, endsInComment (expression (names p.machine) t) =
      endsInComment (Code.replaceSelfCalls false t.trim) := by
  obtain ⟨hd, hm, hw⟩ := analyze_accepted hp ha
  have hvars : ∀ v ∈ p.machine.vars, Code.isIdentifier v.name := by
    rw [hm]
    exact hd.variable_identifier
  have hfits := Machine.analyzed_fits hw hd.fresh
  rw [← hm] at hfits
  refine ⟨?_, ?_, Code.endsInComment_expression (List.forall_mem_map.mpr hvars)⟩
  · intro s hs
    obtain ⟨lines, hlines, _, houts, htransitions⟩ := stepCase_holds hfits hs stem
    refine ⟨lines, hlines, ?_, ?_⟩
    · intro t ht f hf
      obtain ⟨cond, a, hcond, _, hwritten⟩ := htransitions t ht
      exact ⟨condition_line hf hcond hwritten, condition_enclosed _⟩
    · intro a hout
      rw [hm] at hs
      obtain ⟨v, hv, hname⟩ := Machine.analyzed_outs hw hs hout
      refine ⟨(Code.indent_mem ?_).trans houts, assignment_enclosed ?_ _⟩
      · exact List.mem_map.mpr ⟨a, hout, rfl⟩
      · exact hname ▸ hd.variable_identifier v hv
  · intro v hv
    exact ⟨initial_mem hv stem start, assignment_enclosed (hvars v hv) _⟩

/-- A machine with a comment at the end of its condition. -/
def commentedSource : Text :=
  "fsm m\x7boutput int o(0);state[start,end]a\x7bon(1 // c\n)go a;out o(2 /* c */);\x7d\x7d"

theorem commented_accepted : ∃ c q c' p, parse {} commentedSource = (c, .ok q) ∧
    c.analyze q = (c', p, .ok ()) ∧ names p.machine = ["o".toList] ∧ ∃ s ∈ p.machine.sites,
      (∃ t ∈ s.state.transitions, ∃ f, t.trigger = .when f ∧ f.text = "1 // c\n".toList) ∧
      ∃ a ∈ s.state.outs, a.value.text = "2 /* c */".toList := by
  have h : accepts none commentedSource (fun m => names m == ["o".toList] && m.spots.any fun s =>
      (s.state.transitions.any fun t =>
        t.trigger.condition?.any (·.text == "1 // c\n".toList)) &&
      s.state.outs.any (·.value.text == "2 /* c */".toList)) = true := by
    decide +kernel
  obtain ⟨c, q, c', p, hp, ha, hm, htest⟩ := accepted h
  simp only [Bool.and_eq_true, List.any_eq_true, Option.any_eq_true, beq_iff_eq] at htest
  obtain ⟨hnames, spot, hspot, ⟨t, ht, f, hf, htext⟩, a, hout, hvalue⟩ := htest
  refine ⟨c, q, c', p, hp, ha, by rw [hm, ← hnames]; rfl, q.machine.finishSite spot, ?_, ?_, ?_⟩
  · rw [hm, Machine.analyzed_sites]
    exact List.mem_map_of_mem hspot
  · refine ⟨_, List.mem_map_of_mem ht, q.machine.resolveFragment f, ?_, htext⟩
    cases htrigger : t.trigger with
    | timeout r =>
      rw [htrigger] at hf
      cases hf
    | when g =>
      rw [htrigger] at hf
      cases hf
      rw [Machine.resolveTransition, htrigger]
      rfl
  · exact ⟨_, List.mem_map_of_mem hout, hvalue⟩

theorem expressions_enclosed_commented : ∃ c q c' p, parse {} commentedSource = (c, .ok q) ∧
    c.analyze q = (c', p, .ok ()) ∧ ∃ s ∈ p.machine.sites,
      (∃ t ∈ s.state.transitions, ∃ f, t.trigger = .when f ∧
        Swallowed "if (" (expression (names p.machine) f.text) ") \x7b") ∧
      ∃ a ∈ s.state.outs, Parted ("fsm->" ++ a.name ++ " = (")
        (expression (names p.machine) a.value.text) ");" := by
  obtain ⟨c, q, c', p, hp, ha, _, s, hs, ⟨t, ht, f, hf, htext⟩, a, hout, hvalue⟩ :=
    commented_accepted
  obtain ⟨hsites, _, hends⟩ := expressions_enclosed hp ha [] []
  obtain ⟨_, _, hconditions, houts⟩ := hsites s hs
  refine ⟨c, q, c', p, hp, ha, s, hs, ⟨t, ht, f, hf, ?_⟩, a, hout, ?_⟩
  · apply (hconditions t ht f hf).2.swallowed
    rw [hends, htext]
    decide +kernel
  · apply (houts a hout).2.parted.mpr
    rw [hends, hvalue]
    decide +kernel

/-- The condition of this machine takes in the end of the line that asks for it. -/
theorem condition_end_in_comment : ∃ c q c' p, parse {} commentedSource = (c, .ok q) ∧
    c.analyze q = (c', p, .ok ()) ∧ ∃ s ∈ p.machine.sites, ∃ t ∈ s.state.transitions,
      ∃ f, t.trigger = .when f ∧
        ¬ Parted "if (" (expression (names p.machine) f.text) ") \x7b" ∧
        Code.pieces ("if (" ++ expression (names p.machine) f.text ++ ") \x7b") =
          [⟨.word, "if"⟩, ⟨.blank, " "⟩, ⟨.mark, "("⟩, ⟨.number, "1"⟩, ⟨.blank, " "⟩,
           ⟨.lineComment, "// c) \x7b"⟩] := by
  obtain ⟨c, q, c', p, hp, ha, hnames, s, hs, ⟨t, ht, f, hf, htext⟩, _⟩ := commented_accepted
  refine ⟨c, q, c', p, hp, ha, s, hs, t, ht, f, hf, ?_⟩
  rw [hnames, htext, Parted]
  decide +kernel

end Compilation
end Statewright
