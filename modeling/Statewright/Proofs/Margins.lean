import Mathlib.Data.List.DropRight
import Statewright.Proofs.Lines
import Statewright.Proofs.Respacing

namespace Statewright.Code
open Statewright.Language (Ends)

section Respaced
variable {R S : Text → Text → Prop} {b b' t t' t'' : Text} {c d : Char}

theorem exists_first {α : Type} {p : α → Bool} {xs : List α} (h : ¬ xs.all p) :
    ∃ ys x zs, xs = ys ++ x :: zs ∧ (∀ y ∈ ys, p y) ∧ p x = false := by
  induction xs with
  | nil => exact absurd rfl h
  | cons x xs ih =>
    by_cases hx : p x = true
    · rw [List.all_cons, hx, Bool.true_and] at h
      obtain ⟨ys, y, zs, rfl, hys, hy⟩ := ih h
      exact ⟨x :: ys, y, zs, rfl, List.forall_mem_cons.mpr ⟨hx, hys⟩, hy⟩
    · exact ⟨[], x, xs, rfl, by simp, by simpa using hx⟩

theorem exists_solid (h : ¬ Text.allBlank t) :
    ∃ b c u, t = b ++ c :: u ∧ Text.allBlank b ∧ Text.isBlank c = false := by
  obtain ⟨b, c, u, he, hb, hc⟩ := exists_first h
  exact ⟨b, c, u, he, List.all_eq_true.mpr hb, hc⟩

/-- Texts are made up of characters that are no blanks and the blanks before each of them. -/
theorem blank_induction {P : Text → Prop} (hlast : ∀ b, Text.allBlank b → P b)
    (hcons : ∀ b c t, Text.allBlank b → Text.isBlank c = false → P t → P (b ++ c :: t))
    (t : Text) : P t := by
  induction hn : t.length using Nat.strong_induction_on generalizing t with
  | _ n ih =>
    subst hn
    by_cases ht : Text.allBlank t
    · exact hlast t ht
    · obtain ⟨b, c, u, rfl, hb, hc⟩ := exists_solid ht
      refine hcons b c u hb hc (ih _ ?_ u rfl)
      rw [List.length_append, List.length_cons]
      omega

theorem allBlank_append : Text.allBlank (b ++ t) ↔ Text.allBlank b ∧ Text.allBlank t := by
  rw [Text.allBlank, List.all_append, Bool.and_eq_true]
  rfl

theorem solid_not_blank (hc : Text.isBlank c = false) : ¬ Text.allBlank (b ++ c :: t) := by
  simp [Text.allBlank, hc]

theorem blank_split (hb : Text.allBlank b) (hc : Text.isBlank c = false)
    (hb' : Text.allBlank b') (hd : Text.isBlank d = false) (he : b ++ c :: t = b' ++ d :: t') :
    b = b' ∧ c = d ∧ t = t' := by
  have htake {b : Text} {c : Char} {t : Text} (hb : Text.allBlank b)
      (hc : Text.isBlank c = false) : (b ++ c :: t).takeWhile Text.isBlank = b :=
    Language.takeWhile_munch (List.all_eq_true.mp hb) (ends_cons hc t)
  have hsame : b = b' := by
    rw [← htake (t := t) hb hc, he, htake hb' hd]
  subst hsame
  exact ⟨rfl, List.cons.inj (List.append_cancel_left he)⟩

theorem Respaced.uncons (h : Respaced R (b ++ c :: t) t') (hb : Text.allBlank b)
    (hc : Text.isBlank c = false) :
    ∃ b' u, t' = b' ++ c :: u ∧ R b b' ∧ Text.allBlank b' ∧ Respaced R t u := by
  generalize hs : b ++ c :: t = s at h
  cases h with
  | last hs' _ =>
    subst hs
    exact absurd hs' (solid_not_blank hc)
  | @cons b₁ b' d t₁ t' hR hb₁ hb' hd h =>
    obtain ⟨rfl, rfl, rfl⟩ := blank_split hb hc hb₁ hd hs
    exact ⟨b', t', rfl, hR, hb', h⟩

theorem Respaced.comp (h : Respaced R t t') (h' : Respaced S t' t'') :
    Respaced (fun b b'' => ∃ b', R b b' ∧ S b' b'') t t'' := by
  induction h generalizing t'' with
  | last hb hb' =>
    cases h' with
    | last _ hb'' => exact .last hb hb''
    | cons _ _ _ hc _ => exact absurd hb' (solid_not_blank hc)
  | cons hR hb hb' hc _ ih =>
    obtain ⟨b'', u, rfl, hS, hb'', hu⟩ := h'.uncons hb' hc
    exact .cons ⟨_, hR, hS⟩ hb hb'' hc (ih hu)

/-- Blanks at the end may as well be left out. -/
theorem Respaced.chop (h : Respaced R t (t' ++ b)) (hb : Text.allBlank b) : Respaced R t t' := by
  generalize hs : t' ++ b = s at h
  induction h generalizing t' with
  | last ht hs' =>
    subst hs
    exact .last ht (allBlank_append.mp hs').1
  | @cons b₁ b' c t₁ u hR hb₁ hb' hc _ ih =>
    have ht' : ¬ Text.allBlank t' := by
      intro ht'
      refine solid_not_blank (b := b') (t := u) hc ?_
      rw [← hs]
      exact allBlank_append.mpr ⟨ht', hb⟩
    obtain ⟨b₂, d, v, rfl, hb₂, hd⟩ := exists_solid ht'
    rw [List.append_assoc, List.cons_append] at hs
    obtain ⟨rfl, rfl, hu⟩ := blank_split hb₂ hd hb' hc hs
    exact .cons hR hb₁ hb₂ hd (ih hu)

theorem Respaced.mono (h : Respaced R t t') (hRS : ∀ b b', R b b' → S b b') :
    Respaced S t t' := by
  induction h with
  | last hb hb' => exact .last hb hb'
  | cons hR hb hb' hc _ ih => exact .cons (hRS _ _ hR) hb hb' hc ih

end Respaced

section Tabs
variable {column : Nat} {b t : Text}

/-- Tabs give way to spaces, from some column on. -/
def Tabless (b b' : Text) : Prop :=
  ∃ column, b' = expandTabs column b

theorem expandTabs_append (column : Nat) (t u : Text) :
    ∃ column', expandTabs column (t ++ u) = expandTabs column t ++ expandTabs column' u := by
  induction t generalizing column with
  | nil => exact ⟨column, rfl⟩
  | cons c t ih =>
    rw [List.cons_append, expandTabs, expandTabs]
    split
    · obtain ⟨column', he⟩ := ih (column + (tabWidth - column % tabWidth))
      refine ⟨column', ?_⟩
      dsimp only
      rw [he, List.append_assoc]
    · obtain ⟨column', he⟩ := ih (if c = '\n' ∨ c = '\r' then 0 else column + 1)
      exact ⟨column', by rw [he, List.cons_append]⟩

theorem tab_pos (column : Nat) : 0 < tabWidth - column % tabWidth :=
  Nat.sub_pos_of_lt (Nat.mod_lt _ (by decide))

theorem mem_expandTabs {c : Char} (h : c ∈ expandTabs column t) :
    c ≠ '\t' ∧ (c ∈ t ∨ c = ' ') := by
  induction t generalizing column with
  | nil => cases h
  | cons d t ih =>
    rw [expandTabs] at h
    split at h
    · rcases List.mem_append.mp h with h | h
      · obtain rfl := List.eq_of_mem_replicate h
        exact ⟨by decide, .inr rfl⟩
      · obtain ⟨hne, hmem⟩ := ih h
        exact ⟨hne, hmem.imp_left (List.mem_cons_of_mem d)⟩
    · rename_i hd
      rcases List.mem_cons.mp h with rfl | h
      · exact ⟨hd, .inl List.mem_cons_self⟩
      · obtain ⟨hne, hmem⟩ := ih h
        exact ⟨hne, hmem.imp_left (List.mem_cons_of_mem d)⟩

theorem expandTabs_kept {c : Char} (hc : c ≠ '\t') (h : c ∈ t) : c ∈ expandTabs column t := by
  induction t generalizing column with
  | nil => cases h
  | cons d t ih =>
    rw [expandTabs]
    split
    · rename_i hd
      have hmem := (List.mem_cons.mp h).resolve_left (fun he => hc (he.trans hd))
      exact List.mem_append_right _ (ih hmem)
    · rcases List.mem_cons.mp h with rfl | h
      · exact List.mem_cons_self
      · exact List.mem_cons_of_mem d (ih h)

theorem expandTabs_eq_nil : expandTabs column t = [] ↔ t = [] := by
  cases t with
  | nil => exact iff_of_true rfl rfl
  | cons d t =>
    rw [expandTabs]
    split
    · have := tab_pos column
      simp [Text.spaces]
      omega
    · simp

theorem expandTabs_of_steady (h : ∀ c ∈ t, c ≠ '\t') : expandTabs column t = t := by
  induction t generalizing column with
  | nil => rfl
  | cons d t ih =>
    rw [List.forall_mem_cons] at h
    rw [expandTabs, if_neg h.1, ih h.2]

theorem allBlank_expandTabs (h : Text.allBlank b) : Text.allBlank (expandTabs column b) := by
  refine List.all_eq_true.mpr fun c hc => ?_
  rcases (mem_expandTabs hc).2 with hc | rfl
  · exact List.all_eq_true.mp h c hc
  · rfl

theorem expandTabs_solid {c : Char} (hc : Text.isBlank c = false) (column : Nat) (t : Text) :
    ∃ column', expandTabs column (c :: t) = c :: expandTabs column' t := by
  rw [expandTabs, if_neg]
  · exact ⟨_, rfl⟩
  · rintro rfl
    cases hc

theorem respaced_expandTabs (column : Nat) (t : Text) :
    Respaced Tabless t (expandTabs column t) := by
  induction t using blank_induction generalizing column with
  | hlast b hb => exact .last hb (allBlank_expandTabs hb)
  | hcons b c t hb hc ih =>
    obtain ⟨column₁, h₁⟩ := expandTabs_append column b (c :: t)
    obtain ⟨column₂, h₂⟩ := expandTabs_solid hc column₁ t
    rw [h₁, h₂]
    exact .cons ⟨column, rfl⟩ hb (allBlank_expandTabs hb) hc (ih column₂)

end Tabs

section Breaks
variable {n : Nat} {b t u : Text} {c : Char}

/-- A line with `n` spaces before it, unless it is empty. -/
def pad (n : Nat) (l : Text) : Text :=
  if l.isEmpty then [] else Text.spaces n ++ l

/-- The spaces behind a line break, unless another one follows. -/
def padding (n : Nat) (t : Text) : Text :=
  if t.head?.any Text.isBreak then [] else Text.spaces n

/-- Blanks with a newline for every line break, and spaces behind it. -/
def rebreak (n : Nat) : Text → Text
  | [] => []
  | '\r' :: '\n' :: t => '\n' :: (padding n t ++ rebreak n t)
  | c :: t => if Text.isBreak c then '\n' :: (padding n t ++ rebreak n t) else c :: rebreak n t

/-- A text cut at its line breaks, with `n` spaces before each line but the first. -/
def spread (n : Nat) (t : Text) : Text :=
  match Text.breakLines t with
  | [] => []
  | first :: others => first ++ others.flatMap fun l => '\n' :: pad n l

/-- The first line is empty exactly if the text begins with a line break. -/
theorem pad_first {first : Text} {others : List Text} (ht : t ≠ [])
    (h : Text.breakLines t = first :: others) : pad n first = padding n t ++ first := by
  cases t with
  | nil => exact absurd rfl ht
  | cons c t =>
    by_cases hc : Text.isBreak c = true
    · have hfirst := Text.breakLines_begins hc t
      rw [h, List.head?_cons, Option.some.injEq] at hfirst
      simp [hfirst, pad, padding, hc]
    · have hc : Text.isBreak c = false := by simpa using hc
      obtain ⟨first', others', _, he⟩ := Text.breakLines_other hc t
      rw [he] at h
      cases h
      simp [pad, padding, hc]

theorem spread_other (hc : Text.isBreak c = false) (t : Text) :
    spread n (c :: t) = c :: spread n t := by
  obtain ⟨first, others, ht, hct⟩ := Text.breakLines_other hc t
  rw [spread, hct, spread, ht]
  rfl

theorem spread_of_break (ht : t ≠ []) (h : Text.breakLines u = [] :: Text.breakLines t) :
    spread n u = '\n' :: (padding n t ++ spread n t) := by
  obtain ⟨first, others, he⟩ := List.exists_cons_of_ne_nil (Text.breakLines_ne_nil t)
  rw [spread, h, he, spread, he]
  simp [pad_first ht he]

/-- How a run of blanks before another character comes out. -/
theorem spread_run (hb : Text.allBlank b) (hc : Text.isBlank c = false) (t : Text) :
    spread n (b ++ c :: t) = rebreak n b ++ c :: spread n t := by
  have hne (b : Text) : b ++ c :: t ≠ [] := by simp
  have hpadding (b : Text) : padding n (b ++ c :: t) = padding n b := by
    cases b with
    | nil => simp [padding, Text.break_of_solid hc]
    | cons x b => rfl
  fun_induction rebreak n b with
  | case1 => exact spread_other (Text.break_of_solid hc) t
  | case2 b ih =>
    rw [List.cons_append, List.cons_append, spread_of_break (hne b) rfl, hpadding, ih]
    · simp
    · exact (allBlank_cons.mp (allBlank_cons.mp hb).2).2
  | case3 x b hr hx ih =>
    have hlines : Text.breakLines (x :: (b ++ c :: t)) = [] :: Text.breakLines (b ++ c :: t) := by
      refine Text.breakLines_break hx (hne b) fun v hxr hv => ?_
      cases b with
      | nil =>
        obtain ⟨rfl, _⟩ := List.cons.inj hv
        cases hc
      | cons y b =>
        obtain ⟨rfl, _⟩ := List.cons.inj hv
        exact hr b hxr rfl
    rw [List.cons_append, spread_of_break (hne b) hlines, hpadding, ih (allBlank_cons.mp hb).2]
    simp
  | case4 x b hr hx ih =>
    rw [List.cons_append, spread_other (by simpa using hx), ih (allBlank_cons.mp hb).2]
    rfl

theorem mem_padding (h : c ∈ padding n t) : c = ' ' := by
  unfold padding at h
  split at h
  · cases h
  · exact List.eq_of_mem_replicate h

theorem mem_rebreak (h : c ∈ rebreak n b) :
    c = '\n' ∨ c = ' ' ∨ c ∈ b ∧ Text.isBreak c = false := by
  have hbroken {x : Text} (h : c ∈ '\n' :: (padding n x ++ rebreak n x))
      (ih : c ∈ rebreak n x → c = '\n' ∨ c = ' ' ∨ c ∈ x ∧ Text.isBreak c = false) :
      c = '\n' ∨ c = ' ' ∨ c ∈ x ∧ Text.isBreak c = false := by
    rcases List.mem_cons.mp h with rfl | h
    · exact .inl rfl
    · rcases List.mem_append.mp h with h | h
      · exact .inr (.inl (mem_padding h))
      · exact ih h
  fun_induction rebreak n b with
  | case1 => cases h
  | case2 b ih => exact (hbroken h ih).imp_right (·.imp_right (by simp +contextual))
  | case3 x b _ _ ih => exact (hbroken h ih).imp_right (·.imp_right (by simp +contextual))
  | case4 x b _ hx ih =>
    rcases List.mem_cons.mp h with rfl | h
    · exact .inr (.inr ⟨List.mem_cons_self, by simpa using hx⟩)
    · exact (ih h).imp_right (·.imp_right (by simp +contextual))

theorem mem_spread (h : c ∈ spread n t) :
    c = '\n' ∨ c = ' ' ∨ c ∈ t ∧ Text.isBreak c = false := by
  obtain ⟨first, others, he⟩ := List.exists_cons_of_ne_nil (Text.breakLines_ne_nil t)
  rw [spread, he] at h
  rcases List.mem_append.mp h with h | h
  · exact .inr (.inr (Text.mem_breakLines (he ▸ List.mem_cons_self) h))
  · obtain ⟨l, hl, h⟩ := List.mem_flatMap.mp h
    rcases List.mem_cons.mp h with rfl | h
    · exact .inl rfl
    · unfold pad at h
      split at h
      · cases h
      · rcases List.mem_append.mp h with h | h
        · exact .inr (.inl (List.eq_of_mem_replicate h))
        · exact .inr (.inr (Text.mem_breakLines (he ▸ List.mem_cons_of_mem _ hl) h))

theorem allBlank_of_mem (hb : Text.allBlank b)
    (h : ∀ c ∈ t, c = '\n' ∨ c = ' ' ∨ c ∈ b ∧ Text.isBreak c = false) : Text.allBlank t := by
  refine List.all_eq_true.mpr fun c hc => ?_
  rcases h c hc with rfl | rfl | ⟨hc, _⟩
  · rfl
  · rfl
  · exact List.all_eq_true.mp hb c hc

theorem respaced_spread (n : Nat) (t : Text) :
    Respaced (fun b b' => b' = rebreak n b) t (spread n t) := by
  induction t using blank_induction with
  | hlast b hb => exact .last hb (allBlank_of_mem hb fun _ => mem_spread)
  | hcons b c t hb hc ih =>
    rw [spread_run hb hc]
    exact .cons rfl hb (allBlank_of_mem hb fun _ => mem_rebreak) hc ih

theorem rebreak_newline (n : Nat) (b : Text) :
    rebreak n ('\n' :: b) = '\n' :: (padding n b ++ rebreak n b) := by
  rw [rebreak]
  · rfl
  · exact fun _ hc => absurd hc (by decide)

theorem rebreak_other (hc : Text.isBreak c = false) (b : Text) :
    rebreak n (c :: b) = c :: rebreak n b := by
  rw [rebreak, hc]
  · rfl
  · rintro t rfl
    cases hc

theorem rebreak_unbroken (h : ∀ c ∈ b, Text.isBreak c = false) : rebreak n b = b := by
  induction b with
  | nil => rfl
  | cons c b ih =>
    rw [List.forall_mem_cons] at h
    rw [rebreak_other h.1, ih h.2]

theorem rebreak_eq_nil : rebreak n b = [] ↔ b = [] := by
  fun_cases rebreak n b <;> simp

theorem newline_mem_rebreak (h : c ∈ b) (hc : Text.isBreak c) : '\n' ∈ rebreak n b := by
  fun_induction rebreak n b with
  | case1 => cases h
  | case2 b ih => exact List.mem_cons_self
  | case3 x b _ hx ih => exact List.mem_cons_self
  | case4 x b _ hx ih =>
    refine List.mem_cons_of_mem x (ih ((List.mem_cons.mp h).resolve_left ?_))
    rintro rfl
    exact hx hc

end Breaks

section Lines
variable {m n : Nat} {b b' t u l : Text} {c : Char} {ls : List Text}

/-- A line with its margin taken away. -/
def dedentLine (m : Nat) (l : Text) : Text :=
  if isSpaces l then [] else l.drop m

theorem spaces_blank (n : Nat) : Text.allBlank (Text.spaces n) :=
  List.all_eq_true.mpr fun _ hc => by rw [List.eq_of_mem_replicate hc]; rfl

/-- A line that is not blank has the common margin before it. -/
theorem margin_split (hl : l ∈ ls) (h : ¬ l.allBlank) :
    l = Text.spaces (margin ls) ++ dedentLine (margin ls) l := by
  have hspaces : isSpaces l = false := by
    refine Bool.eq_false_iff.mpr fun hs => h (List.all_eq_true.mpr fun c hc => ?_)
    rw [beq_iff_eq.mp (List.all_eq_true.mp hs c hc)]
    rfl
  have hle : margin ls ≤ indentation l := by
    apply List.min?_getD_le_of_mem
    exact List.mem_map_of_mem (List.mem_filter.mpr ⟨hl, by rw [hspaces]; rfl⟩)
  have hrun : l.takeWhile (· == ' ') = Text.spaces (indentation l) :=
    List.eq_replicate_iff.mpr ⟨rfl, fun c hc => by simpa using List.mem_takeWhile_imp hc⟩
  have htake : l.take (margin ls) = Text.spaces (margin ls) := by
    calc l.take (margin ls)
      _ = (l.takeWhile (· == ' ') ++ l.dropWhile (· == ' ')).take (margin ls) := by
        rw [List.takeWhile_append_dropWhile]
      _ = (Text.spaces (indentation l)).take (margin ls) := by
        rw [List.take_append_of_le_length hle, hrun]
      _ = Text.spaces (margin ls) := by simp [Text.spaces, hle]
  rw [dedentLine, hspaces, ← htake]
  exact (List.take_append_drop _ l).symm

theorem rdropWhile_append_cons {α : Type} {p : α → Bool} {x : α} (hx : p x = false)
    (xs ys : List α) : (xs ++ x :: ys).rdropWhile p = xs ++ x :: ys.rdropWhile p := by
  rw [List.rdropWhile, List.reverse_append, List.reverse_cons, List.append_assoc,
    List.dropWhile_append]
  split
  · rename_i h
    simp_all
  · simp [List.rdropWhile]

/-- A run of blanks over line ends keeps these alone, and the margin behind the last is another. -/
def Indented (m n : Nat) (b b' : Text) : Prop :=
  '\n' ∉ b ∧ b' = b ∨
  ∃ a u, b = a ++ '\n' :: (Text.spaces m ++ u) ∧ '\n' ∉ u ∧
    b' = List.replicate (a.count '\n') '\n' ++ '\n' :: (Text.spaces n ++ u)

/-- Lines with another margin, blank ones without any, and without the blanks at their ends. -/
def shifted (m n : Nat) (ls : List Text) : Text :=
  Text.below (ls.map fun l => shiftLine n (dedentLine m l))

/-- The nonblank lines have the margin, and lines hold no line end. -/
def Aligned (m : Nat) (ls : List Text) : Prop :=
  ∀ l ∈ ls, '\n' ∉ l ∧ (¬ l.allBlank → l = Text.spaces m ++ dedentLine m l)

theorem trimEnd_solid (hc : Text.isBlank c = false) (b t : Text) :
    Text.trimEnd (b ++ c :: t) = b ++ c :: t.trimEnd :=
  rdropWhile_append_cons hc b t

theorem trimEnd_blank (hb : Text.allBlank b) : Text.trimEnd b = [] := by
  exact List.rdropWhile_eq_nil_iff.mpr (List.all_eq_true.mp hb)

theorem shiftLine_blank (hb : Text.allBlank b) : shiftLine n b = [] :=
  if_pos hb

theorem shiftLine_solid (hc : Text.isBlank c = false) (b t : Text) :
    shiftLine n (b ++ c :: t) = Text.spaces n ++ (b ++ c :: t.trimEnd) := by
  rw [shiftLine, if_neg (solid_not_blank hc), trimEnd_solid hc]

theorem dedentLine_blank (m : Nat) (hb : Text.allBlank b) : Text.allBlank (dedentLine m b) := by
  unfold dedentLine
  split
  · rfl
  · exact List.all_eq_true.mpr fun c hc => List.all_eq_true.mp hb c (List.mem_of_mem_drop hc)

/-- What follows a line, given that it is right behind any blanks. -/
theorem respaced_line (h : ∀ b, Text.allBlank b →
      Respaced (Indented m n) (b ++ t) (List.replicate (b.count '\n') '\n' ++ u))
    (l : Text) (hl : '\n' ∉ l) : Respaced (Indented m n) (l ++ t) (l.trimEnd ++ u) := by
  induction l using blank_induction with
  | hlast b hb =>
    have hrest := h b hb
    rw [List.count_eq_zero_of_not_mem hl] at hrest
    rw [trimEnd_blank hb]
    exact hrest
  | hcons b c v hb hc ih =>
    rw [List.mem_append, List.mem_cons, not_or, not_or] at hl
    rw [trimEnd_solid hc, List.append_assoc, List.append_assoc]
    exact .cons (.inl ⟨hl.1, rfl⟩) hb hb hc (ih hl.2.2)

theorem newlines_blank (n : Nat) : Text.allBlank (List.replicate n '\n') :=
  List.all_eq_true.mpr fun _ hc => by rw [List.eq_of_mem_replicate hc]; rfl

/-- Lines behind any blanks, of which the line ends are kept. -/
theorem respaced_lines (h : Aligned m ls) : ∀ b, Text.allBlank b →
    Respaced (Indented m n) (b ++ Text.below ls)
      (List.replicate (b.count '\n') '\n' ++ shifted m n ls) := by
  -- the blanks before the lines take in the blank lines that are met on the way
  induction ls with
  | nil =>
    intro b hb
    have hnil : shifted m n [] = [] := rfl
    rw [Text.below, List.flatMap_nil, hnil, List.append_nil, List.append_nil]
    exact .last hb (newlines_blank _)
  | cons l ls ih =>
    intro b hb
    obtain ⟨⟨hbreak, hmargin⟩, hls⟩ := List.forall_mem_cons.mp h
    have hbelow : Text.below (l :: ls) = '\n' :: (l ++ Text.below ls) := rfl
    have hshifted : shifted m n (l :: ls) =
        '\n' :: (shiftLine n (dedentLine m l) ++ shifted m n ls) := rfl
    rw [hbelow, hshifted]
    by_cases hl : l.allBlank
    · have hrest := ih hls (b ++ '\n' :: l) (allBlank_append.mpr ⟨hb, allBlank_cons.mpr ⟨rfl, hl⟩⟩)
      rw [List.count_append, List.count_cons_self, List.count_eq_zero_of_not_mem hbreak,
        List.replicate_succ'] at hrest
      rw [shiftLine_blank (dedentLine_blank m hl)]
      simpa using hrest
    · have hsplit := hmargin hl
      have hsolid : ¬ Text.allBlank (dedentLine m l) := fun hd =>
        hl (hsplit ▸ allBlank_append.mpr ⟨spaces_blank m, hd⟩)
      obtain ⟨a, c, v, hd, ha, hc⟩ := exists_solid hsolid
      rw [hd] at hsplit
      subst hsplit
      rw [hd, shiftLine_solid hc]
      simp only [List.mem_append, List.mem_cons, not_or] at hbreak
      have hrest := respaced_line (ih hls) v hbreak.2.2.2
      have hrun : Indented m n (b ++ '\n' :: (Text.spaces m ++ a))
          (List.replicate (b.count '\n') '\n' ++ '\n' :: (Text.spaces n ++ a)) :=
        .inr ⟨b, a, rfl, hbreak.2.1, rfl⟩
      have hblank {b : Text} (n : Nat) (hb : Text.allBlank b) :
          Text.allBlank (b ++ '\n' :: (Text.spaces n ++ a)) :=
        allBlank_append.mpr ⟨hb, allBlank_cons.mpr ⟨rfl, allBlank_append.mpr ⟨spaces_blank n, ha⟩⟩⟩
      have hall := Respaced.cons hrun (hblank m hb) (hblank n (newlines_blank _)) hc hrest
      simpa using hall

theorem below_blank (h : ∀ l ∈ ls, Text.allBlank l) : Text.allBlank (Text.below ls) := by
  induction ls with
  | nil => rfl
  | cons l ls ih =>
    rw [List.forall_mem_cons] at h
    exact allBlank_cons.mpr ⟨rfl, allBlank_append.mpr ⟨h.1, ih h.2⟩⟩

/-- The blank lines at the end come out as blanks, which are left out. -/
theorem shifted_trimmed (m n : Nat) (ls : List Text) : ∃ b, Text.allBlank b ∧ shifted m n ls =
    Text.below (((ls.map (dedentLine m)).rdropWhile Text.allBlank).map (shiftLine n)) ++ b := by
  let ks := (ls.map (dedentLine m)).rtakeWhile Text.allBlank
  refine ⟨Text.below (ks.map (shiftLine n)), below_blank (List.forall_mem_map.mpr ?_), ?_⟩
  · intro k hk
    rw [shiftLine_blank (List.mem_rtakeWhile_imp hk)]
    rfl
  · rw [← Text.below_append, ← List.map_append, List.rdropWhile_append_rtakeWhile, List.map_map]
    rfl

theorem lines_blank (h : ∀ l ∈ Text.lines t, Text.allBlank l) : Text.allBlank t := by
  obtain ⟨first, others, he⟩ := List.exists_cons_of_ne_nil (Text.lines_ne_nil t)
  rw [he, List.forall_mem_cons] at h
  rw [← Text.lines_join t, he, Text.join_cons]
  exact allBlank_append.mpr ⟨h.1, below_blank h.2⟩

theorem dedentLine_solid (hmargin : l = Text.spaces m ++ dedentLine m l) (hl : ¬ l.allBlank) :
    ¬ Text.allBlank (dedentLine m l) :=
  fun hd => hl (hmargin ▸ allBlank_append.mpr ⟨spaces_blank m, hd⟩)

/-- The lines of a block begin with the first that is not blank. -/
theorem layout_eq {ks : List Text} (he : Text.lines (expandTabs 0 t) = ks ++ l :: ls)
    (hks : ∀ k ∈ ks, Text.allBlank k) (hm : margin (Text.lines (expandTabs 0 t)) = m)
    (hl : Text.allBlank (dedentLine m l) = false) (n : Nat) :
    layout n t = shiftLine n (dedentLine m l) ++
      Text.below (((ls.map (dedentLine m)).rdropWhile Text.allBlank).map (shiftLine n)) := by
  have hdedent : dedent (Text.lines (expandTabs 0 t)) =
      ks.map (dedentLine m) ++ dedentLine m l :: ls.map (dedentLine m) := by
    rw [← List.map_cons, ← List.map_append, ← he, ← hm]
    rfl
  have hfirst : (dedent (Text.lines (expandTabs 0 t))).dropWhile Text.allBlank =
      dedentLine m l :: ls.map (dedentLine m) := by
    rw [hdedent, List.dropWhile_append_of_pos, List.dropWhile_cons, hl]
    · rfl
    · exact List.forall_mem_map.mpr fun k hk => dedentLine_blank m (hks k hk)
  have htrim : trimLines (dedent (Text.lines (expandTabs 0 t))) =
      dedentLine m l :: (ls.map (dedentLine m)).rdropWhile Text.allBlank := by
    rw [trimLines, hfirst]
    exact rdropWhile_append_cons hl [] (ls.map (dedentLine m))
  rw [layout, layoutLines, htrim, List.map_cons, Text.join_cons]

/-- Code laid out begins with its first character that is no blank, and is the code with its lines
indented from there on. -/
theorem respaced_layout (n : Nat) (h : ¬ Text.allBlank (expandTabs 0 t))
    (hm : margin (Text.lines (expandTabs 0 t)) = m) :
    ∃ b c u b' u', expandTabs 0 t = b ++ c :: u ∧ layout n t = b' ++ c :: u' ∧
      Text.allBlank b ∧ Text.allBlank b' ∧ Text.isBlank c = false ∧
      Respaced (Indented m n) u u' := by
  have haligned : Aligned m (Text.lines (expandTabs 0 t)) :=
    fun l hl => ⟨(Text.mem_lines hl).1, hm ▸ margin_split hl⟩
  have hls : ¬ (Text.lines (expandTabs 0 t)).all Text.allBlank :=
    fun hall => h (lines_blank (List.all_eq_true.mp hall))
  obtain ⟨ks, l, ls, he, hks, hl⟩ := exists_first hls
  have hjoin := Text.lines_join (expandTabs 0 t)
  rw [he, Text.join_append] at hjoin
  rw [he] at haligned
  obtain ⟨⟨hbreak, hmargin⟩, hrest⟩ :=
    List.forall_mem_cons.mp (List.forall_mem_append.mp haligned).2
  have hsplit := hmargin (by simp [hl])
  have hsolid := dedentLine_solid hsplit (by simp [hl])
  have hlayout := layout_eq he hks hm (by simpa using hsolid) n
  obtain ⟨a, c, v, hd, ha, hc⟩ := exists_solid hsolid
  rw [hd] at hsplit
  rw [hd, shiftLine_solid hc] at hlayout
  rw [hsplit] at hjoin hbreak
  simp only [List.mem_append, List.mem_cons, not_or] at hbreak
  -- the lines behind are all shifted first, and the blank ones at the end chopped off then
  obtain ⟨b, hb, htrim⟩ := shifted_trimmed m n ls
  have hline := respaced_line (respaced_lines (n := n) hrest) v hbreak.2.2.2
  rw [htrim, ← List.append_assoc] at hline
  refine ⟨ks.flatMap (· ++ ['\n']) ++ (Text.spaces m ++ a), c, v ++ Text.below ls,
    Text.spaces n ++ a, _, ?_, ?_, ?_, ?_, hc, hline.chop hb⟩
  · rw [← hjoin]
    simp
  · rw [hlayout]
    simp
  · refine allBlank_append.mpr ⟨?_, allBlank_append.mpr ⟨spaces_blank m, ha⟩⟩
    rw [Text.allBlank, List.all_flatMap]
    exact List.all_eq_true.mpr fun k hk => allBlank_append.mpr ⟨hks k hk, rfl⟩
  · exact allBlank_append.mpr ⟨spaces_blank n, ha⟩

end Lines

section Passes
variable {m n k : Nat} {b b' t : Text} {c : Char}

theorem Indented.count (h : Indented m n b b') : b'.count '\n' = b.count '\n' := by
  rcases h with ⟨_, rfl⟩ | ⟨a, u, rfl, _, rfl⟩
  · rfl
  · have hspaces (n : Nat) : (Text.spaces n).count '\n' = 0 :=
      List.count_eq_zero_of_not_mem (by simp [Text.spaces])
    simp [hspaces]

theorem Indented.eq_nil (h : Indented m n b b') : b' = [] ↔ b = [] := by
  rcases h with ⟨_, rfl⟩ | ⟨a, u, rfl, _, rfl⟩
  · rfl
  · simp

theorem Indented.newline (h : Indented m n ('\n' :: t) b') : ∃ t', b' = '\n' :: t' := by
  rcases h with ⟨hbreak, _⟩ | ⟨a, u, he, _, rfl⟩
  · exact absurd List.mem_cons_self hbreak
  · cases a with
    | nil => exact ⟨_, rfl⟩
    | cons x a =>
      obtain ⟨rfl, _⟩ := List.cons.inj he
      rw [List.count_cons_self, List.replicate_succ]
      exact ⟨_, rfl⟩

theorem Indented.unbroken (h : Indented m n b b') (hb : '\n' ∉ b) : b' = b := by
  rcases h with ⟨_, he⟩ | ⟨a, u, rfl, _, _⟩
  · exact he
  · exact absurd (List.mem_append_right a List.mem_cons_self) hb

theorem Indented.margin (h : Indented m n ('\n' :: t) b') (ht : '\n' ∉ t) :
    ∃ u, t = Text.spaces m ++ u ∧ b' = '\n' :: (Text.spaces n ++ u) := by
  rcases h with ⟨hbreak, _⟩ | ⟨a, u, he, _, rfl⟩
  · exact absurd List.mem_cons_self hbreak
  · cases a with
    | nil => exact ⟨u, (List.cons.inj he).2, rfl⟩
    | cons x a =>
      rw [(List.cons.inj he).2] at ht
      exact absurd (List.mem_append_right a List.mem_cons_self) ht

theorem steady_split (h : ∀ c ∈ b, isSteady c) :
    (∀ c ∈ b, c ≠ '\t') ∧ ∀ c ∈ b, Text.isBreak c = false := by
  refine ⟨fun c hc => ?_, fun c hc => ?_⟩
  · simpa using (Bool.and_eq_true_iff.mp (h c hc)).1
  · simpa using (Bool.and_eq_true_iff.mp (h c hc)).2

theorem not_newline (h : ∀ c ∈ b, Text.isBreak c = false) : '\n' ∉ b :=
  fun hm => by cases h _ hm

theorem rebreak_margin (h : ∀ c ∈ t, Text.isBreak c = false) :
    rebreak k ('\n' :: (Text.spaces n ++ t)) = '\n' :: (Text.spaces (k + n) ++ t) := by
  have hline : ∀ c ∈ Text.spaces n ++ t, Text.isBreak c = false := by
    intro c hc
    rcases List.mem_append.mp hc with hc | hc
    · rw [List.eq_of_mem_replicate hc]
      rfl
    · exact h c hc
  have hpadding : padding k (Text.spaces n ++ t) = Text.spaces k := by
    rw [padding, if_neg]
    intro hany
    obtain ⟨c, hc, hbreak⟩ := (Option.any_eq_true _ _).mp hany
    rw [hline c (List.mem_of_mem_head? hc)] at hbreak
    cases hbreak
  rw [rebreak_newline, hpadding, rebreak_unbroken hline, ← List.append_assoc]
  simp [Text.spaces]

/-- What the three passes do to a run of blanks. -/
theorem run_of_passes {column : Nat} (h : Indented m n (expandTabs column b) b') :
    Run m (k + n) b (rebreak k b') where
  empty := by
    rw [rebreak_eq_nil, h.eq_nil, expandTabs_eq_nil]
  breaks hb := by
    have hmem : '\n' ∈ b' := by
      rw [← List.count_pos_iff, h.count, List.count_pos_iff]
      exact expandTabs_kept (by decide) hb
    exact newline_mem_rebreak hmem rfl
  first s hs := by
    subst hs
    have hcount := h.count
    obtain ⟨s', rfl⟩ := h.newline
    refine ⟨_, rebreak_newline k s', fun hm => List.mem_append_right _ ?_⟩
    have hmem : '\n' ∈ s' := by
      rw [expandTabs, if_neg (by decide), List.count_cons_self, List.count_cons_self,
        Nat.add_right_cancel_iff] at hcount
      rw [← List.count_pos_iff, hcount, List.count_pos_iff]
      exact expandTabs_kept (by decide) hm
    exact newline_mem_rebreak hmem rfl
  unbroken hb := by
    have he : ∀ c ∈ expandTabs column b, Text.isBreak c = false := by
      intro c hc
      rcases (mem_expandTabs hc).2 with hc | rfl
      · exact hb c hc
      · rfl
    rw [h.unbroken (not_newline he), rebreak_unbroken he]
    exact not_newline he
  steady hb := by
    obtain ⟨htabs, hbreaks⟩ := steady_split hb
    rw [expandTabs_of_steady htabs] at h
    rw [h.unbroken (not_newline hbreaks), rebreak_unbroken hbreaks]
  margin s hs hb := by
    subst hs
    obtain ⟨htabs, hbreaks⟩ := steady_split hb
    rw [expandTabs_of_steady (List.forall_mem_cons.mpr ⟨by decide, htabs⟩)] at h
    obtain ⟨u, rfl, rfl⟩ := h.margin (not_newline hbreaks)
    exact ⟨u, rfl, rebreak_margin (List.forall_mem_append.mp hbreaks).2⟩

end Passes

section Written
variable {k n : Nat} {t : Text} {c : Char} {ls : List Text}

/-- A block of code as it stands in a unit: laid out, and indented with the lines around it. -/
def written (k n : Nat) (t : Text) : Text :=
  Text.join "\n" (indent k [layout n t])

theorem join_indent (k : Nat) (t : Text) :
    ∃ p, Text.join "\n" (indent k [t]) = Text.spaces p ++ spread k t := by
  obtain ⟨first, others, he⟩ := List.exists_cons_of_ne_nil (Text.breakLines_ne_nil t)
  have hindent : indent k [t] = (Text.breakLines t).map (pad k) := by
    rw [indent, List.flatMap_singleton]
    rfl
  have hbelow : Text.below (others.map (pad k)) = others.flatMap fun l => '\n' :: pad k l :=
    List.flatMap_map ..
  rw [hindent, he, List.map_cons, Text.join_cons, hbelow, spread, he]
  dsimp only
  by_cases hfirst : first.isEmpty = true
  · refine ⟨0, ?_⟩
    rw [pad, if_pos hfirst, List.isEmpty_iff.mp hfirst]
    rfl
  · refine ⟨k, ?_⟩
    rw [pad, if_neg hfirst, List.append_assoc]

/-- A block is the code with its blanks exchanged, from its first character on that is no blank. -/
theorem respaced_written (k n : Nat) (h : ¬ Text.allBlank t) :
    ∃ b c u b' u', t = b ++ c :: u ∧ written k n t = b' ++ c :: u' ∧
      Text.allBlank b ∧ Text.allBlank b' ∧ Text.isBlank c = false ∧
      Respaced (Run (margin (Text.lines (expandTabs 0 t))) (k + n)) u u' := by
  obtain ⟨b, c, u, ht, hb, hc⟩ := exists_solid h
  have htabs := respaced_expandTabs 0 t
  nth_rewrite 1 [ht] at htabs
  obtain ⟨b₁, u₁, he, _, hb₁, hu₁⟩ := htabs.uncons hb hc
  have hsolid : ¬ Text.allBlank (expandTabs 0 t) := he ▸ solid_not_blank hc
  obtain ⟨b₂, d, u₂, b', u', he', hlayout, hb₂, hb', hd, hu'⟩ := respaced_layout n hsolid rfl
  obtain ⟨rfl, rfl, rfl⟩ := blank_split hb₁ hc hb₂ hd (he.symm.trans he')
  obtain ⟨p, hp⟩ := join_indent k (layout n t)
  refine ⟨b, c, u, Text.spaces p ++ rebreak k b', spread k u', ht, ?_, hb, ?_, hc, ?_⟩
  · rw [written, hp, hlayout, spread_run hb' hc, List.append_assoc]
  · exact allBlank_append.mpr ⟨spaces_blank p, allBlank_of_mem hb' fun _ => mem_rebreak⟩
  · apply ((hu₁.comp hu').comp (respaced_spread k u')).mono
    rintro a a' ⟨a₂, ⟨a₁, ⟨column, rfl⟩, ha⟩, rfl⟩
    exact run_of_passes ha

theorem mem_shiftLine {l : Text} (h : c ∈ shiftLine n l) : c = ' ' ∨ c ∈ l := by
  unfold shiftLine at h
  split at h
  · cases h
  · rcases List.mem_append.mp h with h | h
    · exact .inl (List.eq_of_mem_replicate h)
    · exact .inr ((List.rdropWhile_prefix Text.isBlank _).subset h)

theorem mem_trimLines {l : Text} (h : l ∈ trimLines ls) : l ∈ ls :=
  (List.dropWhile_sublist _).subset ((List.rdropWhile_prefix Text.allBlank _).subset h)

/-- Laying out brings in no characters but spaces and newlines. -/
theorem mem_layout (h : c ∈ layout n t) : c = ' ' ∨ c = '\n' ∨ c ∈ expandTabs 0 t := by
  rcases Text.mem_join h with rfl | ⟨l₂, hl₂, hc⟩
  · exact .inr (.inl rfl)
  obtain ⟨l₁, hl₁, rfl⟩ := List.mem_map.mp hl₂
  rcases mem_shiftLine hc with rfl | hc
  · exact .inl rfl
  obtain ⟨l, hl, rfl⟩ := List.mem_map.mp (mem_trimLines hl₁)
  have hline : c ∈ l := by
    split at hc
    · cases hc
    · exact List.mem_of_mem_drop hc
  exact .inr (.inr ((Text.mem_lines hl).2 c hline))

theorem layout_tabless (h : c ∈ layout n t) : c ≠ '\t' := by
  rcases mem_layout h with rfl | rfl | hc
  · decide
  · decide
  · exact (mem_expandTabs hc).1

theorem written_clean (k n : Nat) (t : Text) : Clean (written k n t) := by
  obtain ⟨p, he⟩ := join_indent k (layout n t)
  intro c hc
  rw [written, he] at hc
  rcases List.mem_append.mp hc with hc | hc
  · rw [List.eq_of_mem_replicate hc]
    exact ⟨by decide, fun hbreak => by cases hbreak⟩
  · rcases mem_spread hc with rfl | rfl | ⟨hc, hbreak⟩
    · exact ⟨by decide, fun _ => rfl⟩
    · exact ⟨by decide, fun hbreak => by cases hbreak⟩
    · exact ⟨layout_tabless hc, fun h => by rw [hbreak] at h; cases h⟩

end Written
end Statewright.Code
