import Statewright.Proofs.Margins

namespace Statewright
namespace Code

/-- Code whose pieces are cut in a block as they were: no line has blanks behind a last backslash,
and no line comment has a line break of another kind in it. -/
structure Tidy (t : Text) : Prop where
  lines : ∀ l ∈ Text.lines t, l.trimEnd.getLast? = some '\\' → l.trimEnd = l
  comments : ∀ p ∈ pieces t, p.shape = .lineComment → ∀ c ∈ p.text, Text.isBreak c = false

/-- When the literals of code are those of its block. -/
structure Verbatim (k n : Nat) (t : Text) : Prop where
  clean : literals (pieces (written k n t)) = literals (pieces t) →
    ∀ p ∈ literals (pieces t), Clean p.text
  same_iff : Tidy t → (literals (pieces (written k n t)) = literals (pieces t) ↔
    ∀ p ∈ literals (pieces t),
      Clean p.text ∧ ('\n' ∈ p.text → margin (Text.lines (expandTabs 0 t)) = k + n))

section Tidy
variable {t : Text}

theorem Tidy.firm (h : Tidy t) : Firm t := by
  intro a b c u he hb _ hm
  -- the blanks up to the first line end stand behind the backslash in its line
  obtain ⟨s, v, rfl, hs⟩ := List.eq_append_cons_of_mem hm
  have hblank := (allBlank_append.mp hb).1
  obtain ⟨x, hx⟩ := Text.line_around (l := '\\' :: s) (by simpa using hs) a (v ++ c :: u)
  have hline := h.lines _ (by rw [he]; simpa using hx)
  rw [trimEnd_solid rfl, trimEnd_blank hblank] at hline
  have hnil := hline (by simp)
  simp only [List.append_cancel_left_eq, List.cons.injEq, true_and] at hnil
  rw [← hnil]
  rfl

theorem Tidy.tame (h : Tidy t) (hclean : ∀ p ∈ literals (pieces t), Clean p.text) : Tame t :=
  ⟨h.firm, fun p hp hl => hclean p (List.mem_filter.mpr ⟨hp, hl⟩), h.comments⟩

end Tidy

section Verbatim
variable {k n : Nat} {t : Text}

theorem piece_within {p : Piece} (h : p ∈ pieces t) : ∀ c ∈ p.text, c ∈ t := by
  intro c hc
  rw [← (tokens_pieces t).1]
  exact List.mem_flatMap.mpr ⟨p, h, hc⟩

theorem written_blank (k n : Nat) (h : Text.allBlank t) : written k n t = [] := by
  have hlines : ∀ l ∈ dedent (Text.lines (expandTabs 0 t)), Text.allBlank l := by
    intro l' hl'
    obtain ⟨l, hl, rfl⟩ := List.mem_map.mp hl'
    refine dedentLine_blank _ (List.all_eq_true.mpr fun c hc => ?_)
    exact List.all_eq_true.mp (allBlank_expandTabs h) c ((Text.mem_lines hl).2 c hc)
  rw [written, layout, layoutLines, trimLines, List.dropWhile_eq_nil_iff.mpr hlines]
  rfl

/-- The literals of a block, one for each of the code. -/
theorem literals_written (k n : Nat) (h : Tame t) :
    List.Forall₂ (Twin (margin (Text.lines (expandTabs 0 t))) (k + n)) (literals (pieces t))
      (literals (pieces (written k n t))) := by
  by_cases hblank : Text.allBlank t
  · rw [written_blank k n hblank, literals_allBlank hblank, literals_allBlank rfl]
    exact .nil
  · obtain ⟨b, c, u, b', u', ht, hw, hb, hb', hc, hu⟩ := respaced_written k n hblank
    generalize margin (Text.lines (expandTabs 0 t)) = m at hu ⊢
    have hrespaced : Respaced (Run m (k + n)) (c :: u) (c :: u') :=
      .cons (run_nil m (k + n)) rfl rfl hc hu
    rw [ht] at h
    have htwins := hrespaced.literals (h.of_blanks hb)
    rwa [← literals_blanks hb, ← literals_blanks hb' (c :: u'), ← ht, ← hw] at htwins

/-- A block has no tabs and no line breaks but newlines, so its literals have none either; in tidy
code only their margins can differ. -/
theorem verbatim (k n : Nat) (t : Text) : Verbatim k n t := by
  have hclean (h : literals (pieces (written k n t)) = literals (pieces t)) :
      ∀ p ∈ literals (pieces t), Clean p.text := by
    intro p hp c hc
    rw [← h] at hp
    exact written_clean k n t c (piece_within (List.mem_filter.mp hp).1 c hc)
  have hliteral : ∀ p ∈ literals (pieces t), p.isLiteral := fun p hp => (List.mem_filter.mp hp).2
  refine ⟨hclean, fun htidy => ⟨fun h p hp => ⟨hclean h p hp, ?_⟩, fun h => ?_⟩⟩
  · have htwins := literals_written k n (htidy.tame (hclean h))
    exact (twins_eq_iff htwins hliteral).mp h p hp
  · have htwins := literals_written k n (htidy.tame fun p hp => (h p hp).1)
    exact (twins_eq_iff htwins hliteral).mpr fun p hp => (h p hp).2

-- Untidy code: the blank behind the backslash goes, and two open quotes become a literal.
example : literals (pieces "\"x\\ \ny\"".toList) = [] ∧
    literals (pieces (written 8 4 "\"x\\ \ny\"".toList)) =
      [⟨.string, "\"x\\\n            y\""⟩] := by decide +kernel

theorem expand_blank (names : List Text) (h : Text.allBlank t) : expand names t = t := by
  have hreplace := replace_blanks h [] false
  rw [replaceSelfCalls, List.append_nil] at hreplace
  have hmentions : mentions none (pieces t) = [] := by
    have hpieces := pieces_blanks h []
    rw [List.append_nil, pieces] at hpieces
    rw [hpieces, mentions_blanks]
    rfl
  rw [expand, hreplace, qualify_eq, qualifiedPieces_of_none none, (tokens_pieces t).1]
  rw [hmentions]
  exact fun n hn => by cases hn

end Verbatim
end Code

namespace CUnit
variable {m : Machine} {n : Nat} {f : Fragment} {lines : List Text}

/-- What the lines of a unit have of a fragment: nothing if it is blank, and else a block of it. -/
structure Copied (m : Machine) (n : Nat) (f : Fragment) (lines : List Text) : Prop where
  blank : f.text.allBlank → blockLines m n (some f) = [] ∧
    Code.literals (Code.pieces (Code.expand (names m) f.text)) = []
  block : ¬ f.text.allBlank →
    Code.indent 8 [Code.layout (n + 4) (Code.expand (names m) f.text)] <:+: lines ∧
    Code.Verbatim 8 (n + 4) (Code.expand (names m) f.text)

theorem copied (h : Code.indent 8 (blockLines m n (some f)) <:+: lines) : Copied m n f lines where
  blank hf := by
    rw [Code.expand_blank _ hf]
    exact ⟨if_pos hf, Code.literals_allBlank hf⟩
  block hf := by
    rw [blockLines, if_neg hf] at h
    refine ⟨(Code.indent_mem ?_).trans h, Code.verbatim _ _ _⟩
    exact List.mem_cons_of_mem _ List.mem_cons_self

end CUnit

namespace Compilation
open Statewright.CUnit
open Statewright.Code (Tidy expand literals pieces written)

/-- The entry code and the transition code of an accepted program are in the case of their state,
and their literals are those of the code exactly if none has a tab or a line break other than a
newline in it and those that go over a line end have the right margin, as long as the code is
tidy. -/
theorem literals_copied {file : Option Text} {source : Text} {c c' : Compilation} {p q : Program}
    (hp : parse { file } source = (c, .ok q)) (ha : c.analyze q = (c', p, .ok ())) (stem : Text)
    {s : Site} (hs : s ∈ p.machine.sites) :
    ∃ lines, stepCase p.machine stem s = .ok lines ∧
      (∀ f, s.state.entry = some f → Copied p.machine 0 f lines) ∧
      ∀ t ∈ s.state.transitions, ∀ f, t.code = some f → Copied p.machine 4 f lines := by
  obtain ⟨hd, hm, hw⟩ := analyze_accepted hp ha
  have hfits := Machine.analyzed_fits hw hd.fresh
  rw [← hm] at hfits
  obtain ⟨lines, hlines, hentry, _, htransitions⟩ := stepCase_holds hfits hs stem
  refine ⟨lines, hlines, ?_, ?_⟩
  · intro f hf
    rw [hf] at hentry
    exact copied hentry
  · intro t ht f hf
    obtain ⟨cond, a, _, _, hwritten⟩ := htransitions t ht
    refine copied ((Code.indent_within ?_).trans hwritten)
    rw [← hf]
    refine ⟨["if (" ++ cond ++ ") \x7b"], Code.indent 4 (outLines p.machine s.state) ++
      (Code.indent 4 (a.lines stem) ++ ?_), ?_⟩
    · exact ["    break;", "\x7d"]
    · simp [writtenTransition]

/-- A machine with a literal over a line end in its entry code, indented as it will be, and one with
a tab in it. -/
def tabbedSource : Text :=
  "fsm m\x7bstate[start,end]a\x7b\x7b\n            puts(\"x\\\n            y\");\x7d" ++
    "on(1)\x7bputs(\"x\ty\");\x7dgo a;\x7d\x7d"

/-- Its entry code. -/
def escapedCode : Text :=
  "\n            puts(\"x\\\n            y\");"

theorem tabbed_accepted : ∃ c q c' p, parse {} tabbedSource = (c, .ok q) ∧
    c.analyze q = (c', p, .ok ()) ∧ names p.machine = [] ∧ ∃ s ∈ p.machine.sites,
      (∃ f, s.state.entry = some f ∧ f.text = escapedCode) ∧
      ∃ t ∈ s.state.transitions, ∃ f, t.code = some f ∧ f.text = "puts(\"x\ty\");".toList := by
  have h : accepts none tabbedSource (fun m => names m == [] && m.spots.any fun s =>
      s.state.entry.any (·.text == escapedCode) &&
      s.state.transitions.any fun t => t.code.any (·.text == "puts(\"x\ty\");".toList)) = true := by
    decide +kernel
  obtain ⟨c, q, c', p, hp, ha, hm, htest⟩ := accepted h
  simp only [Bool.and_eq_true, List.any_eq_true, Option.any_eq_true, beq_iff_eq] at htest
  obtain ⟨hnames, spot, hspot, ⟨e, he, hentry⟩, t, ht, f, hf, htext⟩ := htest
  refine ⟨c, q, c', p, hp, ha, by rw [hm, ← hnames]; rfl, q.machine.finishSite spot, ?_, ?_, ?_⟩
  · rw [hm, Machine.analyzed_sites]
    exact List.mem_map_of_mem hspot
  · refine ⟨q.machine.resolveFragment e, ?_, hentry⟩
    exact congrArg (Option.map q.machine.resolveFragment) he
  · refine ⟨_, List.mem_map_of_mem ht, q.machine.resolveFragment f, ?_, htext⟩
    exact congrArg (Option.map q.machine.resolveFragment) hf

theorem literals_copied_escaped : ∃ c q c' p, parse {} tabbedSource = (c, .ok q) ∧
    c.analyze q = (c', p, .ok ()) ∧ ∃ s ∈ p.machine.sites,
      (∃ f, s.state.entry = some f ∧
        literals (pieces (written 8 4 (expand (names p.machine) f.text))) =
          literals (pieces (expand (names p.machine) f.text))) ∧
      ∃ t ∈ s.state.transitions, ∃ f, t.code = some f ∧
        literals (pieces (written 8 8 (expand (names p.machine) f.text))) ≠
          literals (pieces (expand (names p.machine) f.text)) := by
  obtain ⟨c, q, c', p, hp, ha, hnames, s, hs, ⟨e, he, hentry⟩, t, ht, f, hf, htext⟩ :=
    tabbed_accepted
  obtain ⟨lines, _, hentries, hcodes⟩ := literals_copied hp ha [] hs
  refine ⟨c, q, c', p, hp, ha, s, hs, ⟨e, he, ?_⟩, t, ht, f, hf, ?_⟩
  · obtain ⟨_, hverbatim⟩ := (hentries e he).block (by rw [hentry]; decide)
    rw [hnames, hentry] at hverbatim ⊢
    have htidy : Tidy (expand [] escapedCode) := ⟨by decide +kernel, by decide +kernel⟩
    apply (hverbatim.same_iff htidy).mpr
    decide +kernel
  · obtain ⟨_, hverbatim⟩ := (hcodes t ht f hf).block (by rw [htext]; decide)
    intro hsame
    have hclean := hverbatim.clean hsame
    rw [hnames, htext] at hclean
    exact absurd hclean (by decide +kernel)

/-- The tab in a literal of this machine comes out as spaces. -/
theorem literal_tab_expanded : ∃ c q c' p, parse {} tabbedSource = (c, .ok q) ∧
    c.analyze q = (c', p, .ok ()) ∧ ∃ s ∈ p.machine.sites, ∃ t ∈ s.state.transitions,
      ∃ f, t.code = some f ∧
        literals (pieces (expand (names p.machine) f.text)) = [⟨.string, "\"x\ty\""⟩] ∧
        literals (pieces (written 8 8 (expand (names p.machine) f.text))) =
          [⟨.string, "\"x y\""⟩] := by
  obtain ⟨c, q, c', p, hp, ha, hnames, s, hs, _, t, ht, f, hf, htext⟩ := tabbed_accepted
  refine ⟨c, q, c', p, hp, ha, s, hs, t, ht, f, hf, ?_⟩
  rw [hnames, htext]
  decide +kernel

end Compilation
end Statewright
