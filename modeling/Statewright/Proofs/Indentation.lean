import Mathlib.Data.List.Forall2
import Statewright.Proofs.Margins

namespace Statewright.Code

section Solid
variable {p : Char → Bool} {b t t' : Text}

/-- The class has no blanks. -/
def Solid (p : Char → Bool) : Prop :=
  ∀ c, p c → Text.isBlank c = false

theorem Solid.blank (hp : Solid p) (hb : Text.allBlank b) : b.filter p = [] := by
  refine List.filter_eq_nil_iff.mpr fun c hc hpc => ?_
  have hblank := List.all_eq_true.mp hb c hc
  rw [hp c hpc] at hblank
  cases hblank

theorem Solid.respaced (hp : Solid p) {R : Text → Text → Prop} (h : Respaced R t t') :
    t'.filter p = t.filter p := by
  induction h with
  | last hb hb' => rw [hp.blank hb, hp.blank hb']
  | cons _ hb hb' _ _ ih =>
    rw [List.filter_append, List.filter_append, hp.blank hb, hp.blank hb', List.filter_cons,
      List.filter_cons, ih]

/-- Laying out exchanges blanks only. -/
theorem Solid.layout (hp : Solid p) (n : Nat) (t : Text) :
    (layout n t).filter p = t.filter p := by
  rw [← hp.respaced (respaced_expandTabs 0 t)]
  by_cases hblank : Text.allBlank (expandTabs 0 t)
  · rw [hp.blank hblank, hp.blank]
    refine List.all_eq_true.mpr fun c hc => ?_
    rcases mem_layout hc with rfl | rfl | hc
    · rfl
    · rfl
    · exact List.all_eq_true.mp hblank c hc
  · obtain ⟨b, c, u, b', u', he, hl, hb, hb', _, hr⟩ := respaced_layout n hblank rfl
    rw [hl, he, List.filter_append, List.filter_append, hp.blank hb, hp.blank hb',
      List.filter_cons, List.filter_cons, hp.respaced hr]

end Solid

/-- The core of some lines are those without the blank ones at both ends. -/
structure Core (ls front core back : List Text) : Prop where
  split : ls = front ++ (core ++ back)
  front : ∀ l ∈ front, l.allBlank
  back : ∀ l ∈ back, l.allBlank
  first : ∀ l ∈ core.head?, ¬ l.allBlank
  last : ∀ l ∈ core.getLast?, ¬ l.allBlank

/-- A blank line becomes empty. Any other has `k` spaces before it, which become `n`, and loses the
blanks at its end. -/
structure Moved (k n : Nat) (l l' : Text) : Prop where
  blank : l.allBlank → l' = []
  solid : ¬ l.allBlank → ∃ u, l = Text.spaces k ++ u ∧ l' = Text.spaces n ++ u.trimEnd
  relative : ¬ l.allBlank → indentation l' + k = indentation l + n

section Lines
variable {f : Text → Text} {k n : Nat} {l t : Text} {ls : List Text}

theorem trimLines_core (ls : List Text) :
    ∃ front back, Core ls front (trimLines ls) back := by
  have hcore : trimLines ls = (ls.dropWhile Text.allBlank).rdropWhile Text.allBlank := rfl
  refine ⟨ls.takeWhile Text.allBlank, (ls.dropWhile Text.allBlank).rtakeWhile Text.allBlank,
    ?_, fun l hl => List.mem_takeWhile_imp hl, fun l hl => List.mem_rtakeWhile_imp hl, ?_, ?_⟩
  · rw [hcore, List.rdropWhile_append_rtakeWhile, List.takeWhile_append_dropWhile]
  · intro l hl
    rw [hcore] at hl
    obtain ⟨back, hback⟩ := List.rdropWhile_prefix Text.allBlank (ls.dropWhile Text.allBlank)
    have hhead : (ls.dropWhile Text.allBlank).head? = some l := by
      rw [← hback, List.head?_append, Option.mem_def.mp hl]
      rfl
    have hnot := List.head?_dropWhile_not Text.allBlank ls
    rw [hhead] at hnot
    simpa using hnot
  · intro l hl
    obtain ⟨hne, rfl⟩ := List.mem_getLast?_eq_getLast hl
    exact List.rdropWhile_last_not Text.allBlank _ hne

theorem dropWhile_map_blank (h : ∀ l ∈ ls, (f l).allBlank = l.allBlank) :
    (ls.map f).dropWhile Text.allBlank = (ls.dropWhile Text.allBlank).map f := by
  induction ls with
  | nil => rfl
  | cons l ls ih =>
    obtain ⟨hl, hls⟩ := List.forall_mem_cons.mp h
    rw [List.map_cons, List.dropWhile_cons, List.dropWhile_cons, hl, ih hls]
    split <;> rfl

/-- What keeps blank lines blank and others not leaves the same lines at the ends. -/
theorem trimLines_map (h : ∀ l ∈ ls, (f l).allBlank = l.allBlank) :
    trimLines (ls.map f) = (trimLines ls).map f := by
  have hrest : ∀ l ∈ (ls.dropWhile Text.allBlank).reverse, (f l).allBlank = l.allBlank :=
    fun l hl => h l ((List.dropWhile_sublist _).subset (List.mem_reverse.mp hl))
  rw [trimLines, dropWhile_map_blank h, ← List.map_reverse, dropWhile_map_blank hrest,
    ← List.map_reverse]
  rfl

theorem allBlank_dedentLine (hl : l ∈ ls) :
    (dedentLine (margin ls) l).allBlank = l.allBlank := by
  by_cases hblank : l.allBlank
  · rw [hblank]
    exact dedentLine_blank _ hblank
  · rw [Bool.eq_false_iff.mpr hblank]
    exact Bool.eq_false_iff.mpr (dedentLine_solid (margin_split hl hblank) hblank)

/-- The lines of a layout, each made from a line of the core. -/
theorem layoutLines_eq (n : Nat) (t : Text) : layoutLines n t =
    (trimLines (Text.lines (expandTabs 0 t))).map fun l =>
      shiftLine n (dedentLine (margin (Text.lines (expandTabs 0 t))) l) := by
  have hdedent : dedent (Text.lines (expandTabs 0 t)) = (Text.lines (expandTabs 0 t)).map
      (dedentLine (margin (Text.lines (expandTabs 0 t)))) := rfl
  rw [layoutLines, hdedent, trimLines_map fun l hl => allBlank_dedentLine hl, List.map_map]
  rfl

theorem indentation_spaces (k : Nat) (t : Text) :
    indentation (Text.spaces k ++ t) = k + indentation t := by
  have hall : ∀ c ∈ Text.spaces k, (c == ' ') = true :=
    fun c hc => by rw [List.eq_of_mem_replicate hc]; rfl
  rw [indentation, List.takeWhile_append_of_pos hall, List.length_append, indentation,
    Text.spaces, List.length_replicate]

theorem indentation_solid {c : Char} (hc : Text.isBlank c = false) (b t : Text) :
    indentation (b ++ c :: t) = indentation b := by
  have hspace : (c == ' ') = false := by
    refine beq_eq_false_iff_ne.mpr fun he => ?_
    rw [he] at hc
    cases hc
  unfold indentation
  induction b with
  | nil => rw [List.nil_append, List.takeWhile_cons, hspace]; rfl
  | cons d b ih =>
    rw [List.cons_append, List.takeWhile_cons, List.takeWhile_cons]
    split
    · rw [List.length_cons, List.length_cons, ih]
    · rfl

theorem indentation_trimEnd (h : ¬ l.allBlank) : indentation l.trimEnd = indentation l := by
  obtain ⟨b, c, u, rfl, _, hc⟩ := exists_solid h
  rw [trimEnd_solid hc, indentation_solid hc, indentation_solid hc]

theorem moved_line (n : Nat) (hl : l ∈ ls) :
    Moved (margin ls) n l (shiftLine n (dedentLine (margin ls) l)) := by
  have hshift (h : ¬ l.allBlank) : shiftLine n (dedentLine (margin ls) l) =
      Text.spaces n ++ (dedentLine (margin ls) l).trimEnd :=
    if_neg (dedentLine_solid (margin_split hl h) h)
  refine ⟨fun h => shiftLine_blank (dedentLine_blank _ h),
    fun h => ⟨_, margin_split hl h, hshift h⟩, fun h => ?_⟩
  have hsolid := dedentLine_solid (margin_split hl h) h
  have hline : indentation l = margin ls + indentation (dedentLine (margin ls) l) := by
    rw [← indentation_spaces, ← margin_split hl h]
  rw [hshift h, indentation_spaces, indentation_trimEnd hsolid, hline]
  omega

theorem layoutLines_unbroken (h : l ∈ layoutLines n t) : '\n' ∉ l := by
  rw [layoutLines_eq] at h
  obtain ⟨k, hk, rfl⟩ := List.mem_map.mp h
  intro hbreak
  have hline : '\n' ∉ k := (Text.mem_lines (mem_trimLines hk)).1
  rcases mem_shiftLine hbreak with hspace | hmem
  · cases hspace
  · unfold dedentLine at hmem
    split at hmem
    · cases hmem
    · exact hline (List.mem_of_mem_drop hmem)

end Lines

/-- Laying out keeps all that is no blank, in order. Its lines are made one by one from those of the
code, with tabs expanded, without the blank ones at both ends: a blank one becomes empty, and all
others are moved from the margin they share to the new one. -/
theorem layout_moves (n : Nat) (t : Text) :
    (layout n t).filter (!Text.isBlank ·) = t.filter (!Text.isBlank ·) ∧
    ∃ front core back ls, Core (Text.lines (expandTabs 0 t)) front core back ∧
      layout n t = Text.join "\n" ls ∧ (ls ≠ [] → Text.lines (layout n t) = ls) ∧
      List.Forall₂ (Moved (margin (Text.lines (expandTabs 0 t))) n) core ls := by
  have hsolid : Solid (!Text.isBlank ·) := fun c hc => by simpa using hc
  obtain ⟨front, back, hcore⟩ := trimLines_core (Text.lines (expandTabs 0 t))
  refine ⟨hsolid.layout n t, front, _, back, layoutLines n t, hcore, rfl,
    fun hne => Text.lines_of_join hne fun l => layoutLines_unbroken, ?_⟩
  rw [layoutLines_eq]
  refine List.forall₂_map_right_iff.mpr (List.forall₂_same.mpr fun l hl => ?_)
  exact moved_line n (mem_trimLines hl)

/-- Lines behind tabs and spaces, with a blank one between them and others around them. -/
def tabbedCode : Text :=
  "\n\tif (x)\n \n\t  y; \n"

theorem layout_moves_tabbed :
    layout 2 tabbedCode = "  if (x)\n\n    y;".toList ∧
    ∃ front core back ls, Core (Text.lines (expandTabs 0 tabbedCode)) front core back ∧
      Text.lines (layout 2 tabbedCode) = ls ∧ List.Forall₂ (Moved 4 2) core ls := by
  have hlayout : layout 2 tabbedCode = "  if (x)\n\n    y;".toList := by decide +kernel
  have hmargin : margin (Text.lines (expandTabs 0 tabbedCode)) = 4 := by decide +kernel
  obtain ⟨_, front, core, back, ls, hcore, hjoin, hlines, hmoved⟩ := layout_moves 2 tabbedCode
  have hne : ls ≠ [] := by
    intro hnil
    rw [hlayout, hnil] at hjoin
    cases hjoin
  rw [hmargin] at hmoved
  exact ⟨hlayout, front, core, back, ls, hcore, hlines hne, hmoved⟩

end Statewright.Code
