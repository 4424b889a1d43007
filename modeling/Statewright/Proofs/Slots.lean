import Statewright.Proofs.Emission
import Statewright.Proofs.Indentation
import Statewright.Proofs.Qualified

namespace Statewright
namespace Code
open Statewright.Language Reader

/-- Delimiters are nested: nowhere are more closed than were opened, and in the end all are. -/
structure Balanced (o c : Char) (t : Text) : Prop where
  opened : ∀ u, u <+: t → u.count c ≤ u.count o
  closed : t.count c = t.count o

/-- The delimiters of one pair in a text. -/
def delimiters (o c : Char) (t : Text) : Text :=
  t.filter fun x => x == o || x == c

section Balanced
variable {o c : Char} {t t' content : Text}

theorem count_delimiters (o c : Char) (t : Text) :
    (delimiters o c t).count o = t.count o ∧ (delimiters o c t).count c = t.count c :=
  ⟨List.count_filter (by simp), List.count_filter (by simp)⟩

/-- Nesting is a matter of the delimiters alone. -/
theorem Balanced.of_delimiters (h : Balanced o c t)
    (he : delimiters o c t' = delimiters o c t) : Balanced o c t' := by
  have hcount {u u' : Text} (hu : delimiters o c u' = delimiters o c u) :
      u'.count o = u.count o ∧ u'.count c = u.count c := by
    have h₁ := count_delimiters o c u
    have h₂ := count_delimiters o c u'
    rw [hu] at h₂
    exact ⟨h₂.1.symm.trans h₁.1, h₂.2.symm.trans h₁.2⟩
  refine ⟨?_, ?_⟩
  · intro u' hu'
    obtain ⟨v, hv⟩ : delimiters o c u' <+: delimiters o c t := he ▸ hu'.filter _
    obtain ⟨u, w, rfl, hu, _⟩ := List.filter_eq_append_iff.mp hv.symm
    obtain ⟨ho, hc⟩ := hcount hu.symm
    rw [ho, hc]
    exact h.opened u (List.prefix_append u w)
  · obtain ⟨ho, hc⟩ := hcount he
    rw [ho, hc]
    exact h.closed

/-- Before the delimiter that closes a fragment, no more are closed than were open. -/
theorem closes_opened (hoc : o ≠ c) {depth : Nat} (h : Language.Closes o c depth content) {u : Text}
    (hu : u <+: content) : u.count c ≤ u.count o + depth := by
  induction content generalizing depth u with
  | nil =>
    rw [List.prefix_nil.mp hu]
    exact Nat.zero_le _
  | cons a content ih =>
    rcases List.prefix_cons_iff.mp hu with rfl | ⟨v, rfl, hv⟩
    · exact Nat.zero_le _
    by_cases hao : a = o
    · subst hao
      have hle := ih ((closes_cons (e := depth + 1) (by simp [hoc]; omega)).mp h) hv
      rw [List.count_cons_of_ne hoc, List.count_cons_self]
      omega
    by_cases hac : a = c
    · subst hac
      cases depth with
      | zero =>
        -- the first closing delimiter at depth 0 is the last character
        have he := h.first [a] (by simp) (by simp [hoc.symm])
        simp at he
      | succ depth =>
        have hle := ih ((closes_cons (e := depth) (by simp [hoc.symm]; omega)).mp h) hv
        rw [List.count_cons_of_ne hoc.symm, List.count_cons_self]
        omega
    · have hle := ih ((closes_cons (e := depth) (by simp [hao, hac])).mp h) hv
      rw [List.count_cons_of_ne hao, List.count_cons_of_ne hac]
      exact hle

theorem balanced_of_closes (hoc : o ≠ c) (h : Language.Closes o c 0 content) :
    Balanced o c content := by
  refine ⟨fun u hu => closes_opened hoc h hu, ?_⟩
  have hb := h.balanced
  rw [List.count_append, List.count_singleton_self] at hb
  omega

/-- A fragment is nested between its delimiters. -/
theorem balanced_spelling {rest w : Text} {k : Kind} (h : Spelling rest k w t)
    (hm : (k, o, c) ∈ Kind.fragments) : Balanced o c t := by
  have hpairs : ∀ q ∈ Kind.fragments, q.2.1 ≠ q.2.2 ∧
      ∀ q' ∈ Kind.fragments, q'.1 = q.1 → q' = q := by decide
  have hwords : ∀ q ∈ Kind.fragments, q.1 ≠ .name ∧ q.1 ≠ .int ∧ q.1 ≠ .eof ∧
      q.1 ∉ Kind.words.map Prod.snd ++ Kind.marks.map Prod.snd := by decide
  obtain ⟨hname, hint, heof, hother⟩ := hwords _ hm
  cases h with
  | word hw _ => exact absurd (List.mem_append_left _ (List.mem_map_of_mem hw)) hother
  | mark hc => exact absurd (List.mem_append_right _ (List.mem_map_of_mem hc)) hother
  | name _ _ _ _ => exact absurd rfl hname
  | int _ _ _ => exact absurd rfl hint
  | eof _ => exact absurd rfl heof
  | fragment hm' hs =>
    obtain ⟨hoc, hone⟩ := hpairs _ hm
    cases hone _ hm' rfl
    exact balanced_of_closes hoc ((shortest_iff hoc).mp hs)

theorem balanced_cut {expected : List Kind} {r r' : Reader} {t : Token} {k : Kind}
    (h : cut expected r = .ok t r') (hk : t.kind = k) (hm : (k, o, c) ∈ Kind.fragments) :
    Balanced o c t.text := by
  have hspelling {source : Text} {n m : Nat} {ts : List Token} (hp : Path source n ts m) :
      ∀ t ∈ ts, ∃ w rest, Spelling rest t.kind w t.text := by
    induction hp with
    | refl => exact List.forall_mem_nil _
    | gap _ _ _ ih => exact ih
    | token _ hs _ ih => exact List.forall_mem_cons.mpr ⟨⟨_, _, hs⟩, ih⟩
  obtain ⟨w, rest, hs⟩ := hspelling (cut_path h).2 t List.mem_cons_self
  rw [hk] at hs
  exact balanced_spelling hs hm

end Balanced

section Kept
variable {p : Char → Bool} {t : Text}

/-- The class has delimiters only. -/
def Delimits (p : Char → Bool) : Prop :=
  ∀ x, p x → x ∈ ['(', ')', '{', '}']

theorem Delimits.solid (hp : Delimits p) : Solid p := by
  intro x hx
  have hmem := hp x hx
  simp only [List.mem_cons, List.not_mem_nil, or_false] at hmem
  rcases hmem with rfl | rfl | rfl | rfl <;> rfl

theorem Delimits.blank (hp : Delimits p) {b : Text} (hb : Text.allBlank b) : b.filter p = [] :=
  hp.solid.blank hb

theorem Delimits.layout (hp : Delimits p) (n : Nat) (t : Text) :
    (layout n t).filter p = t.filter p :=
  hp.solid.layout n t

theorem Delimits.trim (hp : Delimits p) (t : Text) : t.trim.filter p = t.filter p := by
  have hstart (t : Text) : (t.dropWhile Text.isBlank).filter p = t.filter p := by
    nth_rewrite 2 [← List.takeWhile_append_dropWhile (p := Text.isBlank) (l := t)]
    rw [List.filter_append, hp.blank List.all_takeWhile, List.nil_append]
  rw [Text.trim, Text.trimEnd, List.filter_reverse, hstart, List.filter_reverse,
    List.reverse_reverse, Text.trimStart, hstart]

theorem Delimits.plain (hp : Delimits p) {w : Text}
    (hw : w.all fun x => decide (x ∉ ['(', ')', '{', '}'])) : w.filter p = [] :=
  List.filter_eq_nil_iff.mpr fun x hx hpx =>
    of_decide_eq_true (List.all_eq_true.mp hw x hx) (hp x hpx)

/-- A call and the field in its place have one pair of parentheses each. -/
theorem Delimits.selfCall (hp : Delimits p) {field u : Text} (h : SelfCall field u) :
    (fieldAccess field).filter p = u.filter p := by
  cases h with
  | @mk b₁ b₂ b₃ b₄ hfield h₁ h₂ h₃ h₄ =>
    have hname : field.filter p = [] := by
      simp only [List.mem_cons, List.not_mem_nil, or_false] at hfield
      rcases hfield with rfl | rfl <;> exact hp.plain rfl
    have hthis : "this".toList.filter p = [] := hp.plain rfl
    have hdot : ['.'].filter p = [] := hp.plain rfl
    have hfsm : ['f', 's', 'm', '-', '>'].filter p = [] := hp.plain rfl
    calc (fieldAccess field).filter p
        = (['('] ++ (['f', 's', 'm', '-', '>'] ++ (field ++ [')']))).filter p := rfl
      _ = ['('].filter p ++ [')'].filter p := by
        simp only [List.filter_append, hfsm, hname, List.nil_append]
      _ = ("this".toList ++ (b₁ ++ (['.'] ++ (b₂ ++ (field ++ (b₃ ++ (['('] ++
            (b₄ ++ [')'])))))))).filter p := by
        simp only [List.filter_append, hthis, hdot, hname, hp.blank h₁, hp.blank h₂, hp.blank h₃,
          hp.blank h₄, List.nil_append]

theorem Delimits.replaced (hp : Delimits p) (inWord : Bool) (t : Text) :
    (replaceSelfCalls inWord t).filter p = t.filter p := by
  induction inWord, t using replace_induction with
  | nil inWord => rw [replace_nil]
  | call field u rest hu ih =>
    rw [replace_selfCall hu, List.filter_append, List.filter_append, ih, hp.selfCall hu]
  | keep inWord c t h ih => rw [replace_keep h, List.filter_cons, List.filter_cons, ih]

theorem Delimits.qualified (hp : Delimits p) (names : List Text) (before : Option Text)
    (ps : List Piece) :
    (texts (qualifiedPieces names before ps)).filter p = (texts ps).filter p := by
  induction ps generalizing before with
  | nil => rfl
  | cons q ps ih =>
    have hfsm : machineWord.text.filter p = [] := hp.plain rfl
    have harrow : arrowPiece.text.filter p = [] := hp.plain rfl
    rw [qualifiedPieces, texts_append, List.filter_append, ih, texts_cons, List.filter_append]
    split
    · simp only [texts_cons, texts_nil, List.filter_append, hfsm, harrow, List.nil_append,
        List.append_nil]
    · simp only [texts_cons, texts_nil, List.append_nil]

theorem Delimits.expand (hp : Delimits p) (names : List Text) (t : Text) :
    (expand names t).filter p = t.filter p := by
  rw [Code.expand, qualify_eq, hp.qualified, (tokens_pieces _).1, hp.replaced]

theorem Delimits.join (hp : Delimits p) (ls : List Text) :
    (Text.join "\n" ls).filter p = ls.flatMap (·.filter p) := by
  have hbreak : p '\n' = false := by
    rw [← Bool.not_eq_true]
    intro hn
    exact absurd (hp _ hn) (by decide)
  cases ls with
  | nil => rfl
  | cons l ls =>
    rw [Text.join_cons, Text.below, List.filter_append, List.filter_flatMap, List.flatMap_cons]
    simp only [List.filter_cons, hbreak, Bool.false_eq_true, ↓reduceIte]

theorem Delimits.indent (hp : Delimits p) (n : Nat) (ls : List Text) :
    (indent n ls).flatMap (·.filter p) = ls.flatMap (·.filter p) := by
  induction ls with
  | nil => rfl
  | cons l ls ih =>
    obtain ⟨k, hk⟩ := join_indent n l
    have hline : (Code.indent n [l]).flatMap (·.filter p) = l.filter p := by
      rw [← hp.join, hk, List.filter_append, hp.blank (spaces_blank k),
        hp.solid.respaced (respaced_spread n l), List.nil_append]
    rw [← List.singleton_append, indent_append, List.flatMap_append, hline, ih,
      List.flatMap_append, List.flatMap_singleton]

end Kept

/-- Lines that templates make around code: it stands in one of them, other lines are put above and
below, and all are indented, in any order and as often as templates stand in each other. What the
templates have before and after the code is kept apart. -/
inductive Framed (code : Text) : (before after : Text) → List Text → Prop
  | slot : Framed code before after [before ++ code ++ after]
  | around (above below : List Text) : Framed code before after ls →
      Framed code (Text.join "\n" above ++ before) (after ++ Text.join "\n" below)
        (above ++ (ls ++ below))
  | indent : Framed code before after ls → Framed code before after (indent n ls)

/-- In a text, the code is nested in itself, and the delimiters on both sides of it are those of
`before` and `after`. -/
def Stays (o c : Char) (code before after text : Text) : Prop :=
  ∃ b x a, text = b ++ (x ++ a) ∧ delimiters o c b = delimiters o c before ∧
    delimiters o c x = delimiters o c code ∧ Balanced o c x ∧
    delimiters o c a = delimiters o c after

/-- Code in lines of templates, between some text of theirs. -/
def InSlot (before code after : Text) (ls : List Text) : Prop :=
  ∃ b a, Framed code (b ++ before) (after ++ a) ls

section Framed
variable {p : Char → Bool} {o c : Char} {code before after : Text} {ls ks : List Text} {n : Nat}

theorem Delimits.framed (hp : Delimits p) (h : Framed code before after ls) :
    ls.flatMap (·.filter p) = before.filter p ++ (code.filter p ++ after.filter p) := by
  induction h with
  | slot =>
    rw [List.flatMap_singleton, List.filter_append, List.filter_append, List.append_assoc]
  | around above below _ ih =>
    rw [List.flatMap_append, List.flatMap_append, ih, List.filter_append, List.filter_append,
      hp.join, hp.join]
    simp only [List.append_assoc]
  | indent _ ih => rw [hp.indent, ih]

/-- Code that is nested stays so in the lines of templates. -/
theorem Framed.stays (h : Framed code before after ls) (hp : Delimits fun x => x == o || x == c)
    (hcode : Balanced o c code) : Stays o c code before after (Text.join "\n" ls) := by
  have hwhole := (hp.join ls).trans (hp.framed h)
  obtain ⟨b, v, hb, hbefore, hv⟩ := List.filter_eq_append_iff.mp hwhole
  obtain ⟨x, a, rfl, hx, ha⟩ := List.filter_eq_append_iff.mp hv
  exact ⟨b, x, a, hb, hbefore, hx, hcode.of_delimiters hx, ha⟩

theorem inSlot_margin (first : Text) :
    InSlot before code after [first ++ (before ++ code ++ after)] := by
  have hframed : Framed code (first ++ before) after [first ++ before ++ code ++ after] := .slot
  refine ⟨first, [], ?_⟩
  rw [List.append_nil, ← List.append_assoc, ← List.append_assoc]
  exact hframed

theorem inSlot_line : InSlot before code after [before ++ code ++ after] :=
  inSlot_margin []

theorem InSlot.indent (h : InSlot before code after ls) :
    InSlot before code after (Code.indent n ls) := by
  obtain ⟨b, a, h⟩ := h
  exact ⟨b, a, h.indent⟩

theorem InSlot.within (h : InSlot before code after ls) (hin : ls <:+: ks) :
    InSlot before code after ks := by
  obtain ⟨b, a, h⟩ := h
  obtain ⟨above, below, rfl⟩ := hin
  refine ⟨Text.join "\n" above ++ b, a ++ Text.join "\n" below, ?_⟩
  have hframed := Framed.around above below h
  rwa [← List.append_assoc, ← List.append_assoc, List.append_assoc after] at hframed

theorem InSlot.mem {l : Text} (h : InSlot before code after [l]) (hl : l ∈ ks) :
    InSlot before code after ks := by
  obtain ⟨above, below, rfl⟩ := List.append_of_mem hl
  exact h.within ⟨above, below, by simp⟩

end Framed
end Code

namespace CUnit
open Code
variable {m : Machine} {stem : Text} {s : Site} {t : Transition} {ls : List Text}

/-- Where the code of a state stands in lines. -/
structure CaseSlots (m : Machine) (s : State) (ls : List Text) : Prop where
  entry : ∀ f, s.entry = some f → f.text.allBlank = false →
    InSlot "\x7b" (layout 4 (expand (names m) f.text)) "\x7d" ls
  outs : ∀ a ∈ s.outs,
    InSlot ("fsm->" ++ a.name ++ " = (") (expression (names m) a.value.text) ");" ls
  code : ∀ t ∈ s.transitions, ∀ f, t.code = some f → f.text.allBlank = false →
    InSlot "\x7b" (layout 8 (expand (names m) f.text)) "    \x7d" ls
  conditions : ∀ t ∈ s.transitions, ∀ f, t.trigger = .when f →
    InSlot "if (" (expression (names m) f.text) ") \x7b" ls

/-- Where the foreign code of a program stands in lines. -/
structure UnitSlots (p : Program) (ls : List Text) : Prop where
  decl : ∀ f, p.decl = some f → InSlot [] (layout 0 f.text) [] ls
  clock : ∀ c, p.clock = some c → InSlot "\x7b" (layout 4 c.body.text) "\x7d" ls
  inits : ∀ v ∈ p.machine.vars,
    InSlot ("fsm->" ++ v.name ++ " = (") (expression (names p.machine) v.init.text) ");" ls
  cases : ∀ s ∈ p.machine.states, CaseSlots p.machine s ls

/-- A block stands between the braces of its template. -/
theorem inSlot_block {code first last : Text} :
    InSlot "\x7b" code last [first ++ "\x7b", code, last] := by
  refine ⟨first, [], ?_⟩
  have hslot : Framed code [] [] [[] ++ code ++ []] := .slot
  simpa [Text.join] using hslot.around [first ++ "\x7b"] [last]

theorem blockLines_slot (m : Machine) (n : Nat) {f : Fragment} (hf : f.text.allBlank = false) :
    InSlot "\x7b" (layout (n + 4) (expand (names m) f.text)) (Text.spaces n ++ "\x7d")
      (blockLines m n (some f)) := by
  rw [blockLines, if_neg (by simp [hf])]
  exact inSlot_block

theorem transitionLines_slots (h : transitionLines m stem s t = .ok ls) :
    (∀ f, t.code = some f → f.text.allBlank = false →
      InSlot "\x7b" (layout 8 (expand (names m) f.text)) "    \x7d" ls) ∧
    ∀ f, t.trigger = .when f → InSlot "if (" (expression (names m) f.text) ") \x7b" ls := by
  unfold transitionLines at h
  cases hc : condition m stem t.trigger with
  | error e =>
    rw [hc] at h
    cases h
  | ok c =>
    cases ha : Actuation.ofTransition m s.block t with
    | error e =>
      rw [hc, ha] at h
      cases h
    | ok a =>
      rw [hc, ha] at h
      cases h
      refine ⟨?_, ?_⟩
      · intro f hf hblank
        rw [hf]
        refine (blockLines_slot m 4 hblank).within ⟨["if (" ++ c ++ ") \x7b"], ?_⟩
        exact ⟨List.flatten [Code.indent 4 (outLines m s.state), Code.indent 4 (a.lines stem),
          ["    break;", "\x7d"]], by simp⟩
      · intro f hf
        rw [hf] at hc
        cases hc
        exact inSlot_line.mem List.mem_cons_self

theorem stepCase_slots (h : stepCase m stem s = .ok ls) : CaseSlots m s.state ls := by
  unfold stepCase caseLines at h
  cases hts : s.state.transitions.mapM (transitionLines m stem s) with
  | error e =>
    rw [hts] at h
    cases h
  | ok ts =>
    rw [hts] at h
    cases h
    let body := List.flatten [blockLines m 0 s.state.entry, ts.flatten, outLines m s.state]
    have hbody {before code after : Text} {ks : List Text} (hks : InSlot before code after ks)
        (hin : ks <:+: body) :
        InSlot before code after (List.flatten [["    case " ++ stateName stem s.state.name ++ ":"],
          Code.indent 8 (blockLines m 0 s.state.entry ++ ts.flatten ++ outLines m s.state),
          ["        break;"]]) := by
      have hsame : body = blockLines m 0 s.state.entry ++ ts.flatten ++ outLines m s.state := by
        simp [body]
      rw [← hsame]
      have hindented : InSlot before code after (Code.indent 8 body) := (hks.within hin).indent
      exact hindented.within (List.infix_of_mem_flatten (by simp))
    have htransition (t : Transition) (ht : t ∈ s.state.transitions) :
        ∃ ks, transitionLines m stem s t = .ok ks ∧ ks <:+: body := by
      obtain ⟨ks, hks, he⟩ := mapM_found hts ht
      refine ⟨ks, he, (List.infix_of_mem_flatten hks).trans (List.infix_of_mem_flatten ?_)⟩
      simp
    refine ⟨?_, ?_, ?_, ?_⟩
    · intro f hf hblank
      have hslot := blockLines_slot m 0 hblank
      rw [← hf] at hslot
      exact hbody hslot (List.infix_of_mem_flatten (by simp))
    · intro a ha
      have hmem : assign m a.name a.value ∈ outLines m s.state := List.mem_map.mpr ⟨a, ha, rfl⟩
      exact hbody (inSlot_line.mem hmem) (List.infix_of_mem_flatten (by simp))
    · intro t ht f hf hblank
      obtain ⟨ks, hks, hin⟩ := htransition t ht
      exact hbody ((transitionLines_slots hks).1 f hf hblank) hin
    · intro t ht f hf
      obtain ⟨ks, hks, hin⟩ := htransition t ht
      exact hbody ((transitionLines_slots hks).2 f hf) hin

theorem CaseSlots.within {s : State} {ks : List Text} (h : CaseSlots m s ls) (hin : ls <:+: ks) :
    CaseSlots m s ks :=
  ⟨fun f hf hb => (h.entry f hf hb).within hin, fun a ha => (h.outs a ha).within hin,
    fun t ht f hf hb => (h.code t ht f hf hb).within hin,
    fun t ht f hf => (h.conditions t ht f hf).within hin⟩

/-- All the foreign code of a program stands in a slot of its unit. -/
theorem lines_slots {p : Program} {start : Text} (h : lines p stem start = .ok ls) :
    UnitSlots p ls := by
  obtain ⟨step, hstep, rfl⟩ := lines_parts h
  refine ⟨?_, ?_, ?_, ?_⟩
  · intro f hf
    have hslot : InSlot [] (layout 0 f.text) [] [[] ++ layout 0 f.text ++ []] := inSlot_line
    rw [List.nil_append, List.append_nil] at hslot
    have hmem : layout 0 f.text ∈ declLines p.decl := by simp [declLines, hf]
    exact (hslot.mem hmem).within (List.infix_of_mem_flatten (by simp))
  · intro c hc
    have hslot : InSlot "\x7b" (layout 4 c.body.text) "\x7d" (clockLines p stem) := by
      have hblock : InSlot "\x7b" (layout 4 c.body.text) "\x7d"
          [([] : Text) ++ "\x7b", layout 4 c.body.text, "\x7d"] := inSlot_block
      have hbody : clockBody p = layout 4 c.body.text := by simp only [clockBody, hc]
      rw [clockLines, hbody]
      exact hblock.within ⟨[_, _], [], rfl⟩
    exact hslot.within (List.infix_of_mem_flatten (by simp))
  · intro v hv
    have hslot : InSlot ("fsm->" ++ v.name ++ " = (") (expression (names p.machine) v.init.text)
        ");" ["    " ++ assign p.machine v.name v.init] := inSlot_margin "    "
    exact (hslot.mem (initial_mem hv stem start)).within (List.infix_of_mem_flatten (by simp))
  · intro s hs
    rw [← Machine.sites_states] at hs
    obtain ⟨site, hsite, rfl⟩ := List.mem_map.mp hs
    obtain ⟨ks, hks, hin⟩ := stepLines_cases hstep hsite
    exact ((stepCase_slots hks).within hin).within (List.infix_of_mem_flatten (by simp))

end CUnit

namespace Code
open Reader

/-- Code that was cut from any source is nested in its own delimiters, a block in braces and an
expression in parentheses, however it is written out: with any variables and any indentation, and in
all the templates around it. These are those of the unit, where all foreign code has its slot. -/
theorem code_in_slot {expected : List Kind} {r r' : Reader} {t : Token}
    (h : cut expected r = .ok t r') :
    (t.kind = .block → ∀ names, ∀ code ∈ [t.text, expand names t.text], ∀ n,
      Balanced '{' '}' (layout n code) ∧
      ∀ before after ls, Framed (layout n code) before after ls →
        Stays '{' '}' (layout n code) before after (Text.join "\n" ls)) ∧
    (t.kind = .expr → ∀ names,
      Balanced '(' ')' (expression names t.text) ∧
      ∀ before after ls, Framed (expression names t.text) before after ls →
        Stays '(' ')' (expression names t.text) before after (Text.join "\n" ls)) ∧
    ∀ p stem start ls, CUnit.lines p stem start = .ok ls → CUnit.UnitSlots p ls := by
  have hbraces : Delimits fun x => x == '{' || x == '}' := by
    intro x hx
    simp only [Bool.or_eq_true, beq_iff_eq] at hx
    rcases hx with rfl | rfl <;> decide
  have hparens : Delimits fun x => x == '(' || x == ')' := by
    intro x hx
    simp only [Bool.or_eq_true, beq_iff_eq] at hx
    rcases hx with rfl | rfl <;> decide
  refine ⟨?_, ?_, fun p stem start ls hls => CUnit.lines_slots hls⟩
  · intro hk names code hcode n
    have hfragment := balanced_cut h hk (List.mem_cons_self : (.block, '{', '}') ∈ Kind.fragments)
    have hlaid : Balanced '{' '}' (layout n code) := by
      apply hfragment.of_delimiters
      rw [delimiters, hbraces.layout]
      simp only [List.mem_cons, List.not_mem_nil, or_false] at hcode
      rcases hcode with rfl | rfl
      · rfl
      · exact hbraces.expand names t.text
    exact ⟨hlaid, fun before after ls hframed => hframed.stays hbraces hlaid⟩
  · intro hk names
    have hfragment := balanced_cut h hk (.tail _ (.head _) : (.expr, '(', ')') ∈ Kind.fragments)
    have hwritten : Balanced '(' ')' (expression names t.text) := by
      apply hfragment.of_delimiters
      rw [delimiters, expression, hparens.expand, hparens.trim]
      rfl
    exact ⟨hwritten, fun before after ls hframed => hframed.stays hparens hwritten⟩

/-- A block with a block in it, and a call. -/
def nestedSource : Text :=
  "\x7b if (x) \x7b\n\tf(this.state()); \x7d \x7d go a;"

theorem code_in_slot_nested : ∃ t r', cut [.block] { source := nestedSource } = .ok t r' ∧
    t.kind = .block ∧
    Balanced '{' '}' (layout 4 (expand ["x".toList] t.text)) ∧
    Stays '{' '}' (layout 4 (expand ["x".toList] t.text)) "\x7b" "\x7d"
      (Text.join "\n" (indent 8 ["\x7b", layout 4 (expand ["x".toList] t.text), "\x7d"])) := by
  have h : (match cut [.block] { source := nestedSource } with
      | .ok t _ => t.kind == .block
      | .error _ _ => false) = true := by decide +kernel
  split at h
  · rename_i t r' hcut
    rw [beq_iff_eq] at h
    obtain ⟨hbalanced, hframed⟩ := (code_in_slot hcut).1 h ["x".toList]
      (expand ["x".toList] t.text) (.tail _ (.head _)) 4
    have hslot : Framed (layout 4 (expand ["x".toList] t.text)) [] []
        [[] ++ layout 4 (expand ["x".toList] t.text) ++ []] := .slot
    rw [List.nil_append, List.append_nil] at hslot
    exact ⟨t, r', hcut, h, hbalanced, hframed _ _ _ (hslot.around ["\x7b"] ["\x7d"]).indent⟩
  · cases h

end Code
end Statewright
