import Statewright.Proofs.SelfCalls

namespace Statewright.Code
open Statewright.Language (Ends)

/-- One text is the other with some stretches of quiet characters exchanged. What is taken out
begins like a name, and goes over the end of a line only if it is `spread`; what is put in never
does. -/
inductive Edit (spread : Bool) : Text → Text → Prop
  | nil : Edit spread [] []
  | keep : Edit spread t t' → Edit spread (c :: t) (c :: t')
  | swap : isNameStart c → (∀ e ∈ w, isQuiet e) → (spread = false → '\n' ∉ w) →
      (∀ e ∈ d :: w', isQuiet e) → '\n' ∉ d :: w' → d ≠ '>' → Edit spread t t' →
      Edit spread (c :: (w ++ t)) (d :: (w' ++ t'))

section Quiet
variable {q c : Char} {t w : Text}

theorem quiet_ne (h : isQuiet c) :
    (∀ q, isQuote q → c ≠ q) ∧ c ≠ '\\' ∧ c ≠ '/' ∧ c ≠ '*' := by
  simp only [isQuiet, Bool.not_eq_true', Bool.or_eq_false_iff, beq_eq_false_iff_ne] at h
  obtain ⟨⟨⟨hq, hb⟩, hs⟩, ht⟩ := h
  refine ⟨?_, hb, hs, ht⟩
  rintro q hq' rfl
  rw [hq] at hq'
  cases hq'

theorem break_of_name (h : isNameStart c) : c ≠ '\n' := by
  rintro rfl
  exact absurd h (by decide)

theorem quiet_of_start (h : isNameStart c) : isQuiet c :=
  quiet_of_name (by simp [isNameChar, h])

theorem literalTail_quiet (hq : isQuote q) (hw : ∀ e ∈ w, isQuiet e) (hn : '\n' ∉ w) (t : Text) :
    literalTail q (w ++ t) = (literalTail q t).map (w ++ ·) := by
  induction w with
  | nil => simp
  | cons c w ih =>
    simp only [List.mem_cons, forall_eq_or_imp, not_or] at hw hn
    obtain ⟨hc, hb, _⟩ := quiet_ne hw.1
    rw [List.cons_append, literalTail_other (hc q hq) hb (Ne.symm hn.1), ih hw.2 hn.2,
      Option.map_map]
    rfl

theorem literalTail_spread (hq : isQuote q) (hw : ∀ e ∈ w, isQuiet e) (hn : '\n' ∈ w) (t : Text) :
    literalTail q (w ++ t) = none := by
  induction w with
  | nil => cases hn
  | cons c w ih =>
    simp only [List.mem_cons, forall_eq_or_imp] at hw
    rw [List.cons_append]
    by_cases hc : c = '\n'
    · rw [hc, literalTail_break hq]
    · obtain ⟨hc', hb, _⟩ := quiet_ne hw.1
      rw [literalTail_other (hc' q hq) hb hc,
        ih hw.2 ((List.mem_cons.mp hn).resolve_left (Ne.symm hc)), Option.map_none]

theorem commentTail_quiet (hw : ∀ e ∈ w, isQuiet e) (t : Text) :
    commentTail (w ++ t) = (commentTail t).map (w ++ ·) := by
  induction w with
  | nil => simp
  | cons c w ih =>
    simp only [List.mem_cons, forall_eq_or_imp] at hw
    obtain ⟨_, _, _, hstar⟩ := quiet_ne hw.1
    rw [List.cons_append, commentTail_other fun _ h => absurd h hstar, ih hw.2, Option.map_map]
    rfl

end Quiet

namespace Edit
variable {spread : Bool} {q : Char} {t t' : Text}

theorem of_nil (h : Edit spread [] t') : t' = [] := by
  cases h
  rfl

/-- An edit at the start of a text is a swap of something that begins like a name. -/
theorem ends {p : Char → Bool} (h : Edit spread t t') (ht : Ends p t)
    (hp : ∀ c, isNameStart c → p c) : Ends p t' := by
  cases h with
  | nil => exact ht
  | keep _ => exact ht
  | swap hc =>
    have hfalse := ht _ rfl
    rw [hp _ hc] at hfalse
    cases hfalse

/-- What an edit puts at the start of a text opens nothing. -/
theorem ends_loud {p : Char → Bool} (h : Edit spread t t') (ht : Ends p t)
    (hp : ∀ c, isQuiet c → c ≠ '>' → p c = false) : Ends p t' := by
  cases h with
  | nil => exact ht
  | keep _ => exact ht
  | swap _ _ _ hw' _ hd =>
    intro e he
    cases he
    exact hp _ (hw' _ List.mem_cons_self) hd

theorem no_break (h : Edit spread t t') (ht : '\n' ∉ t) : '\n' ∉ t' := by
  induction h with
  | nil => exact ht
  | keep _ ih =>
    simp only [List.mem_cons, not_or] at ht ⊢
    exact ⟨ht.1, ih ht.2⟩
  | swap _ _ _ _ hn' _ _ ih =>
    simp only [List.mem_cons, List.mem_append, not_or] at ht hn' ⊢
    exact ⟨hn'.1, hn'.2, ih ht.2.2⟩

/-- A literal that is open stays open. The second part is the same behind a backslash. -/
theorem literalTail_none (hq : isQuote q) (h : Edit false t t') :
    (literalTail q t = none → literalTail q t' = none) ∧
    (literalTail q ('\\' :: t) = none → literalTail q ('\\' :: t') = none) := by
  induction h with
  | nil => exact ⟨id, id⟩
  | @keep t t' c _ ih =>
    refine ⟨?_, ?_⟩
    · intro hn
      by_cases hb : c = '\\'
      · subst hb
        exact ih.2 hn
      by_cases hc : c = q
      · subst hc
        rw [literalTail_close hq] at hn
        cases hn
      by_cases hbreak : c = '\n'
      · rw [hbreak, literalTail_break hq]
      rw [literalTail_other hc hb hbreak, Option.map_eq_none_iff] at hn ⊢
      exact ih.1 hn
    · intro hn
      rw [literalTail_escape, Option.map_eq_none_iff] at hn ⊢
      exact ih.1 hn
  | @swap c w d w' t t' hc hw hn hw' hn' _ _ ih =>
    have hcw : ∀ e ∈ c :: w, isQuiet e := List.forall_mem_cons.mpr ⟨quiet_of_start hc, hw⟩
    have hncw : '\n' ∉ c :: w := by
      simp only [List.mem_cons, not_or]
      exact ⟨(break_of_name hc).symm, hn rfl⟩
    refine ⟨?_, ?_⟩
    · intro hnone
      rw [← List.cons_append, literalTail_quiet hq hcw hncw, Option.map_eq_none_iff] at hnone
      rw [← List.cons_append, literalTail_quiet hq hw' hn', ih.1 hnone, Option.map_none]
    · intro hnone
      simp only [List.mem_cons, not_or, forall_eq_or_imp] at hw' hn'
      rw [literalTail_escape, Option.map_eq_none_iff, literalTail_quiet hq hw (hn rfl),
        Option.map_eq_none_iff] at hnone
      rw [literalTail_escape, literalTail_quiet hq hw'.2 hn'.2, ih.1 hnone]
      rfl

/-- A literal that is closed at the end of the text stays so. -/
theorem literalTail_closed (hq : isQuote q) (h : Edit spread t t') :
    (literalTail q t = some t → literalTail q t' = some t') ∧
    (literalTail q ('\\' :: t) = some ('\\' :: t) →
      literalTail q ('\\' :: t') = some ('\\' :: t')) := by
  induction h with
  | nil => exact ⟨id, id⟩
  | @keep t t' c he ih =>
    refine ⟨?_, ?_⟩
    · intro hs
      by_cases hb : c = '\\'
      · subst hb
        exact ih.2 hs
      by_cases hc : c = q
      · subst hc
        rw [literalTail_close hq] at hs
        cases hs
        rw [he.of_nil, literalTail_close hq]
      by_cases hbreak : c = '\n'
      · rw [hbreak, literalTail_break hq] at hs
        cases hs
      rw [literalTail_other hc hb hbreak] at hs ⊢
      rw [ih.1 (by simpa using hs), Option.map_some]
    · intro hs
      rw [literalTail_escape] at hs ⊢
      rw [ih.1 (by simpa using hs), Option.map_some]
  | @swap c w d w' t t' hc hw _ hw' hn' _ _ ih =>
    have hcw : ∀ e ∈ c :: w, isQuiet e := List.forall_mem_cons.mpr ⟨quiet_of_start hc, hw⟩
    refine ⟨?_, ?_⟩
    · intro hs
      rw [← List.cons_append] at hs ⊢
      by_cases hspread : '\n' ∈ c :: w
      · rw [literalTail_spread hq hcw hspread] at hs
        cases hs
      rw [literalTail_quiet hq hcw hspread] at hs
      rw [literalTail_quiet hq hw' hn', ih.1 (by simpa using hs), Option.map_some]
    · intro hs
      simp only [List.mem_cons, not_or, forall_eq_or_imp] at hw' hn'
      rw [literalTail_escape] at hs ⊢
      by_cases hspread : '\n' ∈ w
      · rw [literalTail_spread hq hw hspread] at hs
        cases hs
      rw [literalTail_quiet hq hw hspread] at hs
      rw [literalTail_quiet hq hw'.2 hn'.2, ih.1 (by simpa using hs)]
      rfl

/-- A comment that is open stays open. The second part is the same behind a star. -/
theorem commentTail_none (h : Edit spread t t') :
    (commentTail t = none → commentTail t' = none) ∧
    (commentTail ('*' :: t) = none → commentTail ('*' :: t') = none) := by
  induction h with
  | nil => exact ⟨id, id⟩
  | @keep t t' c he ih =>
    have hfirst : commentTail (c :: t) = none → commentTail (c :: t') = none := by
      intro hn
      by_cases hc : c = '*'
      · subst hc
        exact ih.2 hn
      · rw [commentTail_other fun _ h => absurd h hc, Option.map_eq_none_iff] at hn ⊢
        exact ih.1 hn
    refine ⟨hfirst, ?_⟩
    intro hn
    by_cases hc : c = '/'
    · subst hc
      rw [commentTail_close] at hn
      cases hn
    · rw [commentTail_other fun _ _ h => hc (List.cons.inj h).1, Option.map_eq_none_iff] at hn ⊢
      exact hfirst hn
  | @swap c w d w' t t' hc hw _ hw' _ _ _ ih =>
    have hcw : ∀ e ∈ c :: w, isQuiet e := List.forall_mem_cons.mpr ⟨quiet_of_start hc, hw⟩
    have hc' := (quiet_ne (quiet_of_start hc)).2.2.1
    have hd' := (quiet_ne (hw' _ List.mem_cons_self)).2.2.1
    have hfirst : commentTail (c :: (w ++ t)) = none → commentTail (d :: (w' ++ t')) = none := by
      intro hn
      rw [← List.cons_append, commentTail_quiet hcw, Option.map_eq_none_iff] at hn
      rw [← List.cons_append, commentTail_quiet hw', ih.1 hn, Option.map_none]
    refine ⟨hfirst, ?_⟩
    intro hn
    rw [commentTail_other fun _ _ h => hc' (List.cons.inj h).1, Option.map_eq_none_iff] at hn
    rw [commentTail_other fun _ _ h => hd' (List.cons.inj h).1, hfirst hn, Option.map_none]

/-- A comment that is closed at the end of the text stays so. -/
theorem commentTail_closed (h : Edit spread t t') :
    (commentTail t = some t → commentTail t' = some t') ∧
    (commentTail ('*' :: t) = some ('*' :: t) → commentTail ('*' :: t') = some ('*' :: t')) := by
  induction h with
  | nil => exact ⟨id, id⟩
  | @keep t t' c he ih =>
    have hfirst (hs : commentTail (c :: t) = some (c :: t)) :
        commentTail (c :: t') = some (c :: t') := by
      by_cases hc : c = '*'
      · subst hc
        exact ih.2 hs
      · rw [commentTail_other fun _ h => absurd h hc] at hs ⊢
        rw [ih.1 (by simpa using hs), Option.map_some]
    refine ⟨hfirst, ?_⟩
    intro hs
    by_cases hc : c = '/'
    · subst hc
      rw [commentTail_close] at hs
      cases hs
      rw [he.of_nil, commentTail_close]
    · rw [commentTail_other fun _ _ h => hc (List.cons.inj h).1] at hs ⊢
      rw [hfirst (by simpa using hs), Option.map_some]
  | @swap c w d w' t t' hc hw _ hw' _ _ _ ih =>
    have hcw : ∀ e ∈ c :: w, isQuiet e := List.forall_mem_cons.mpr ⟨quiet_of_start hc, hw⟩
    have hc' := (quiet_ne (quiet_of_start hc)).2.2.1
    have hd' := (quiet_ne (hw' _ List.mem_cons_self)).2.2.1
    have hfirst : commentTail (c :: (w ++ t)) = some (c :: (w ++ t)) →
        commentTail (d :: (w' ++ t')) = some (d :: (w' ++ t')) := by
      intro hs
      rw [← List.cons_append] at hs ⊢
      rw [commentTail_quiet hcw] at hs
      rw [commentTail_quiet hw', ih.1 (by simpa using hs), Option.map_some]
    refine ⟨hfirst, ?_⟩
    intro hs
    rw [commentTail_other fun _ _ h => hc' (List.cons.inj h).1] at hs
    rw [commentTail_other fun _ _ h => hd' (List.cons.inj h).1, hfirst (by simpa using hs),
      Option.map_some]

end Edit

/-- Replacing calls is an edit. -/
theorem edit_replace (inWord : Bool) (t : Text) : Edit true t (replaceSelfCalls inWord t) := by
  induction inWord, t using replace_induction with
  | nil inWord =>
    rw [replace_nil]
    exact .nil
  | call field u rest hu ih =>
    rw [replace_selfCall hu]
    have hquiet := hu.quiet
    have hput := hu.access_quiet
    obtain ⟨v, rfl, _⟩ := hu.begins
    exact .swap (by decide) (fun e he => hquiet e (List.mem_cons_of_mem _ he)) nofun hput.1 hput.2
      (by decide) ih
  | keep inWord c t hkeep ih =>
    rw [replace_keep hkeep]
    exact .keep ih

/-- A piece stays cut where it is when what follows it is edited; a loose quote needs to stay
open. -/
theorem Cut.edit {spread : Bool} {rest rest' : Text} {p : Piece} (h : Cut rest p)
    (he : Edit spread rest rest')
    (hquote : ∀ c, p = ⟨.mark, [c]⟩ → isQuote c → literalTail c rest' = none) : Cut rest' p := by
  cases h with
  | blank hc => exact .blank hc
  | word hc hw hr => exact .word hc hw (he.ends hr fun c hc => by simp [isNameChar, hc])
  | number hc hw hr =>
    exact .number hc hw (he.ends hr fun c hc => by simp [isNumeral, isNameChar, hc])
  | string hu => exact .string hu
  | character hu => exact .character hu
  | lineComment hb hr =>
    exact .lineComment hb (he.ends hr fun c hc => by simpa using break_of_name hc)
  | blockComment hu => exact .blockComment hu
  | arrow => exact .arrow
  | quote hc _ => exact .quote hc (hquote _ rfl hc)
  | slash hr hn =>
    refine .slash (he.ends_loud hr fun c hc _ => by simpa using (quiet_ne hc).2.2.1) ?_
    intro u hu
    subst hu
    cases he with
    | keep he => exact he.commentTail_none.1 (hn _ rfl)
    | swap _ _ _ hw' => exact absurd rfl (quiet_ne (hw' _ List.mem_cons_self)).2.2.2
  | dash hr => exact .dash (he.ends_loud hr fun c _ hc => by simpa using hc)
  | mark hc => exact .mark hc

end Statewright.Code
