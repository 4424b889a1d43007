import Mathlib.Data.List.Basic
import Statewright.Text.Lines

namespace Statewright.Text

section Lines
variable {l t : Text} {c : Char} {ls : List Text}

/-- Lines behind others, each with its newline. -/
def below (ls : List Text) : Text :=
  ls.flatMap ('\n' :: ·)

theorem join_cons_of_ne (l : Text) (h : ls ≠ []) :
    join "\n" (l :: ls) = l ++ '\n' :: join "\n" ls := by
  obtain ⟨l', ls, rfl⟩ := List.exists_cons_of_ne_nil h
  rw [join, List.intercalate_cons_cons, List.append_assoc]
  rfl

theorem join_cons (l : Text) (ls : List Text) : join "\n" (l :: ls) = l ++ below ls := by
  induction ls generalizing l with
  | nil => simp [join, below]
  | cons l' ls ih =>
    rw [join_cons_of_ne l (List.cons_ne_nil l' ls), ih]
    rfl

theorem join_append (ks : List Text) (l : Text) (ls : List Text) :
    join "\n" (ks ++ l :: ls) = ks.flatMap (· ++ ['\n']) ++ (l ++ below ls) := by
  induction ks with
  | nil => exact join_cons l ls
  | cons k ks ih =>
    rw [List.cons_append, join_cons_of_ne k (by simp), ih]
    simp

theorem below_append (ks ls : List Text) : below (ks ++ ls) = below ks ++ below ls :=
  List.flatMap_append

theorem mem_below (h : c ∈ below ls) : c = '\n' ∨ ∃ l ∈ ls, c ∈ l := by
  obtain ⟨l, hl, hc⟩ := List.mem_flatMap.mp h
  exact (List.mem_cons.mp hc).imp_right fun hc => ⟨l, hl, hc⟩

theorem mem_join (h : c ∈ join "\n" ls) : c = '\n' ∨ ∃ l ∈ ls, c ∈ l := by
  cases ls with
  | nil => cases h
  | cons l ls =>
    rw [join_cons] at h
    rcases List.mem_append.mp h with h | h
    · exact .inr ⟨l, List.mem_cons_self, h⟩
    · exact (mem_below h).imp_right fun ⟨l', hl', hc⟩ => ⟨l', List.mem_cons_of_mem l hl', hc⟩

theorem split_ne_nil (stop : Char → Bool) (t : Text) : split stop t ≠ [] := by
  fun_cases split stop t <;> simp_all

theorem mem_split {stop : Char → Bool} (hl : l ∈ split stop t) (hc : c ∈ l) : stop c = false := by
  fun_induction split stop t generalizing l with
  | case1 => simp_all
  | case2 d t he ih => exact absurd he (split_ne_nil stop t)
  | case3 d t first others he hd ih =>
    rcases List.mem_cons.mp hl with rfl | hl
    · cases hc
    · exact ih (he ▸ hl) hc
  | case4 d t first others he hd ih =>
    rcases List.mem_cons.mp hl with rfl | hl
    · rcases List.mem_cons.mp hc with rfl | hc
      · simpa using hd
      · exact ih (he ▸ List.mem_cons_self) hc
    · exact ih (he ▸ List.mem_cons_of_mem _ hl) hc

theorem lines_ne_nil (t : Text) : lines t ≠ [] :=
  split_ne_nil (· == '\n') t

theorem lines_newline (t : Text) : lines ('\n' :: t) = [] :: lines t := by
  obtain ⟨first, others, he⟩ := List.exists_cons_of_ne_nil (lines_ne_nil t)
  rw [he]
  rw [lines] at he
  rw [lines, split, he]
  rfl

theorem lines_other (hc : c ≠ '\n') (t : Text) :
    ∃ first others, lines t = first :: others ∧ lines (c :: t) = (c :: first) :: others := by
  obtain ⟨first, others, he⟩ := List.exists_cons_of_ne_nil (lines_ne_nil t)
  refine ⟨first, others, he, ?_⟩
  rw [lines] at he
  rw [lines, split, he]
  simp [hc]

theorem lines_join (t : Text) : join "\n" (lines t) = t := by
  induction t with
  | nil => rfl
  | cons c t ih =>
    by_cases hc : c = '\n'
    · rw [hc, lines_newline, join_cons_of_ne [] (lines_ne_nil t), ih]
      rfl
    · obtain ⟨first, others, he, hce⟩ := lines_other hc t
      rw [hce, join_cons, List.cons_append, ← join_cons, ← he, ih]

theorem mem_lines (hl : l ∈ lines t) : '\n' ∉ l ∧ ∀ c ∈ l, c ∈ t := by
  induction t generalizing l with
  | nil =>
    obtain rfl := List.mem_singleton.mp hl
    simp
  | cons d t ih =>
    have hold (h : l ∈ lines t) : '\n' ∉ l ∧ ∀ c ∈ l, c ∈ d :: t :=
      (ih h).imp_right fun hsub c hc => List.mem_cons_of_mem d (hsub c hc)
    by_cases hd : d = '\n'
    · rw [hd, lines_newline] at hl
      rcases List.mem_cons.mp hl with rfl | hl
      · simp
      · exact hold hl
    · obtain ⟨first, others, he, hde⟩ := lines_other hd t
      rw [hde] at hl
      rcases List.mem_cons.mp hl with rfl | hl
      · obtain ⟨hbreak, hsub⟩ := ih (he ▸ List.mem_cons_self)
        rw [List.mem_cons, not_or, List.forall_mem_cons]
        exact ⟨⟨Ne.symm hd, hbreak⟩, List.mem_cons_self,
          fun c hc => List.mem_cons_of_mem d (hsub c hc)⟩
      · exact hold (he ▸ List.mem_cons_of_mem first hl)

theorem lines_append_newline (hl : '\n' ∉ l) (t : Text) :
    lines (l ++ '\n' :: t) = l :: lines t := by
  induction l with
  | nil => exact lines_newline t
  | cons c l ih =>
    rw [List.mem_cons, not_or] at hl
    obtain ⟨first, others, he, hce⟩ := lines_other (Ne.symm hl.1) (l ++ '\n' :: t)
    rw [ih hl.2] at he
    cases he
    exact hce

theorem lines_of_clean (hl : '\n' ∉ l) : lines l = [l] := by
  induction l with
  | nil => rfl
  | cons c l ih =>
    rw [List.mem_cons, not_or] at hl
    obtain ⟨first, others, he, hce⟩ := lines_other (Ne.symm hl.1) l
    rw [ih hl.2] at he
    cases he
    exact hce

/-- Lines that hold no newline are the lines of their text. -/
theorem lines_of_join (hne : ls ≠ []) (hls : ∀ l ∈ ls, '\n' ∉ l) : lines (join "\n" ls) = ls := by
  induction ls with
  | nil => contradiction
  | cons l ls ih =>
    obtain ⟨hl, hls⟩ := List.forall_mem_cons.mp hls
    cases ls with
    | nil => rw [join_cons, below, List.flatMap_nil, List.append_nil, lines_of_clean hl]
    | cons k ks =>
      rw [join_cons_of_ne l (List.cons_ne_nil k ks), lines_append_newline hl,
        ih (List.cons_ne_nil k ks) hls]

/-- With a newline behind the last line, an empty one follows. -/
theorem lines_of_file (hne : ls ≠ []) (hls : ∀ l ∈ ls, '\n' ∉ l) :
    lines (join "\n" ls ++ "\n") = ls ++ [[]] := by
  have hjoin : join "\n" ls ++ "\n" = join "\n" (ls ++ [[]]) := by
    obtain ⟨l, ls, rfl⟩ := List.exists_cons_of_ne_nil hne
    rw [List.cons_append, join_cons, join_cons, below_append, List.append_assoc]
    rfl
  rw [hjoin]
  exact lines_of_join (by simp) (List.forall_mem_append.mpr ⟨hls, by simp⟩)

/-- What stands before a newline is the end of some line. -/
theorem line_around (hl : '\n' ∉ l) (a t : Text) :
    ∃ x, x ++ l ∈ lines (a ++ (l ++ '\n' :: t)) := by
  induction a with
  | nil =>
    refine ⟨[], ?_⟩
    rw [List.nil_append, List.nil_append, lines_append_newline hl]
    exact List.mem_cons_self
  | cons c a ih =>
    obtain ⟨x, hx⟩ := ih
    rw [List.cons_append]
    by_cases hc : c = '\n'
    · rw [hc, lines_newline]
      exact ⟨x, List.mem_cons_of_mem _ hx⟩
    · obtain ⟨first, others, he, hce⟩ := lines_other hc (a ++ (l ++ '\n' :: t))
      rw [he] at hx
      rw [hce]
      rcases List.mem_cons.mp hx with rfl | hx
      · exact ⟨c :: x, List.mem_cons_self⟩
      · exact ⟨x, List.mem_cons_of_mem _ hx⟩

end Lines

section Breaks
variable {t : Text} {c : Char}

theorem blank_of_break (h : isBreak c) : isBlank c := by
  simp only [isBreak, Bool.or_eq_true, Bool.and_eq_true, decide_eq_true_eq, beq_iff_eq] at h
  simp only [isBlank, Bool.or_eq_true, Bool.and_eq_true, decide_eq_true_eq, beq_iff_eq]
  omega

theorem break_of_solid (h : isBlank c = false) : isBreak c = false :=
  Bool.eq_false_iff.mpr fun hb => by
    rw [blank_of_break hb] at h
    cases h

theorem breakLines_ne_nil (t : Text) : breakLines t ≠ [] := by
  fun_cases breakLines t <;> simp_all

theorem breakLines_other (hc : isBreak c = false) (t : Text) :
    ∃ first others, breakLines t = first :: others ∧
      breakLines (c :: t) = (c :: first) :: others := by
  obtain ⟨first, others, he⟩ := List.exists_cons_of_ne_nil (breakLines_ne_nil t)
  refine ⟨first, others, he, ?_⟩
  rw [breakLines, he]
  · simp [hc]
  · rintro rfl _
    cases hc
  · rintro _ rfl _
    cases hc

/-- A line break ends a line, unless it goes together with the next character or is the last. -/
theorem breakLines_break (hc : isBreak c) (ht : t ≠ []) (hr : ∀ v, c = '\r' → t ≠ '\n' :: v) :
    breakLines (c :: t) = [] :: breakLines t := by
  obtain ⟨first, others, he⟩ := List.exists_cons_of_ne_nil (breakLines_ne_nil t)
  rw [breakLines, he]
  · simp [hc]
  · exact fun _ he => ht he
  · exact fun v hc => hr v hc

theorem breakLines_begins (hc : isBreak c) (t : Text) :
    (breakLines (c :: t)).head? = some [] := by
  rw [breakLines.eq_def]
  split
  · contradiction
  · rfl
  · rfl
  · rename_i d u _ _ he
    obtain ⟨first, others, hu⟩ := List.exists_cons_of_ne_nil (breakLines_ne_nil u)
    cases he
    simp [hu, hc]

theorem mem_breakLines {l : Text} (hl : l ∈ breakLines t) (hc : c ∈ l) :
    c ∈ t ∧ isBreak c = false := by
  fun_induction breakLines t generalizing l with
  | case1 => simp_all
  | case2 => simp_all
  | case3 t ih =>
    rcases List.mem_cons.mp hl with rfl | hl
    · cases hc
    · simp [ih hl hc]
  | case4 d t _ _ he => exact absurd he (breakLines_ne_nil t)
  | case5 d t _ _ first others he hd ih =>
    rcases List.mem_cons.mp hl with rfl | hl
    · cases hc
    · simp [ih (he ▸ hl) hc]
  | case6 d t _ _ first others he hd ih =>
    rcases List.mem_cons.mp hl with rfl | hl
    · rcases List.mem_cons.mp hc with rfl | hc
      · exact ⟨List.mem_cons_self, by simpa using hd⟩
      · simp [ih (he ▸ List.mem_cons_self) hc]
    · simp [ih (he ▸ List.mem_cons_of_mem _ hl) hc]

end Breaks
end Statewright.Text
