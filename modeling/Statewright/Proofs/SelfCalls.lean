import Statewright.Proofs.Pieces

namespace Statewright.Code
open Statewright.Language (Ends)

/-- A call that asks for a field: `this.state()` or `this.err()`, blanks between its parts. -/
inductive SelfCall (field : Text) : Text → Prop
  | mk {b₁ b₂ b₃ b₄ : Text} : field ∈ ["state".toList, "err".toList] → b₁.allBlank → b₂.allBlank →
      b₃.allBlank → b₄.allBlank →
      SelfCall field ("this".toList ++
        (b₁ ++ '.' :: (b₂ ++ (field ++ (b₃ ++ '(' :: (b₄ ++ [')']))))))

/-- What stands in the place of a call. -/
def fieldAccess (field : Text) : Text :=
  '(' :: 'f' :: 's' :: 'm' :: '-' :: '>' :: (field ++ [')'])

/-- Whether a text ends in a word; one that is empty does if the text before it did. -/
def endsInWord (inWord : Bool) : Text → Bool
  | [] => inWord
  | c :: t => endsInWord (Text.isWordChar c) t

@[simp] theorem endsInWord_append (inWord : Bool) (t u : Text) :
    endsInWord inWord (t ++ u) = endsInWord (endsInWord inWord t) u := by
  induction t generalizing inWord with
  | nil => rfl
  | cons c t ih => exact ih _

theorem isWordChar_of_name {c : Char} (h : isNameChar c) : Text.isWordChar c := by
  have hlow : c.toNat < 128 := by
    simp only [isNameChar, Bool.or_eq_true] at h
    rcases h with h | h
    · have := Language.isNameStart_toNat h
      omega
    · have := Language.isAsciiDigit_toNat h
      omega
  simp only [isNameChar, isNameStart, Bool.or_eq_true] at h
  simp only [Text.isWordChar, if_pos hlow, Bool.or_eq_true]
  tauto

theorem endsInWord_of_name (inWord : Bool) {t : Text} (ht : t ≠ [])
    (hw : ∀ c ∈ t, isNameChar c) : endsInWord inWord t = true := by
  induction t generalizing inWord with
  | nil => exact absurd rfl ht
  | cons c t ih =>
    cases t with
    | nil => exact isWordChar_of_name (hw c List.mem_cons_self)
    | cons d t =>
      exact ih (Text.isWordChar c) (List.cons_ne_nil d t) fun e he =>
        hw e (List.mem_cons_of_mem c he)

section Spelling
variable {t rest field : Text}

theorem after?_mark (mark : String) (c : Char) (h : mark.toList = [c]) (t : Text) :
    after? mark.toList (c :: t) = some t :=
  after?_eq_some.mpr (by rw [h, List.singleton_append])

theorem field?_eq_some : field? t = some (field, rest) ↔
    field ∈ ["state".toList, "err".toList] ∧ t = field ++ rest := by
  unfold field?
  constructor
  · intro h
    obtain ⟨word, hw, hf⟩ := List.exists_of_findSome?_eq_some h
    obtain ⟨u, hu, he⟩ := Option.map_eq_some_iff.mp hf
    cases he
    exact ⟨hw, after?_eq_some.mp hu⟩
  · rintro ⟨hf, rfl⟩
    simp only [List.mem_cons, List.not_mem_nil, or_false] at hf
    rcases hf with rfl | rfl
    · rw [List.findSome?_cons, after?_eq_some.mpr rfl]
      rfl
    · have hstate : after? "state".toList ("err".toList ++ rest) = none := rfl
      rw [List.findSome?_cons, hstate, Option.map_none, List.findSome?_cons,
        after?_eq_some.mpr rfl]
      rfl

theorem allBlank_cons {c : Char} {b : Text} :
    Text.allBlank (c :: b) ↔ Text.isBlank c ∧ b.allBlank := by
  rw [Text.allBlank, List.all_cons, Bool.and_eq_true]
  rfl

theorem trimStart_blanks {b : Text} {c : Char} (hb : b.allBlank) (hc : Text.isBlank c = false)
    (t : Text) : Text.trimStart (b ++ c :: t) = c :: t := by
  unfold Text.trimStart
  rw [List.dropWhile_append_of_pos (List.all_eq_true.mp hb), List.dropWhile_cons, hc]
  rfl

theorem blanks_trimStart (t : Text) : ∃ b : Text, b.allBlank ∧ t = b ++ t.trimStart :=
  ⟨t.takeWhile Text.isBlank, List.all_takeWhile, List.takeWhile_append_dropWhile.symm⟩

/-- The call at the start of a text is found exactly if there is one. -/
theorem selfCall?_eq_some :
    selfCall? t = some (field, rest) ↔ ∃ u, SelfCall field u ∧ t = u ++ rest := by
  constructor
  · intro h
    simp only [selfCall?, Option.bind_eq_bind, Option.bind_eq_some_iff] at h
    obtain ⟨t₁, h₁, t₂, h₂, ⟨f, t₃⟩, h₃, t₄, h₄, t₅, h₅, h₆⟩ := h
    cases h₆
    obtain ⟨b₁, hb₁, e₁⟩ := blanks_trimStart t₁
    obtain ⟨b₂, hb₂, e₂⟩ := blanks_trimStart t₂
    obtain ⟨b₃, hb₃, e₃⟩ := blanks_trimStart t₃
    obtain ⟨b₄, hb₄, e₄⟩ := blanks_trimStart t₄
    obtain ⟨hf, hfield⟩ := field?_eq_some.mp h₃
    refine ⟨_, .mk hf hb₁ hb₂ hb₃ hb₄, ?_⟩
    rw [after?_eq_some.mp h₁, e₁, after?_eq_some.mp h₂, e₂, hfield, e₃, after?_eq_some.mp h₄, e₄,
      after?_eq_some.mp h₅]
    simp
  · rintro ⟨u, hu, rfl⟩
    cases hu with
    | @mk b₁ b₂ b₃ b₄ hf hb₁ hb₂ hb₃ hb₄ =>
      have hhead : ∃ c f, field = c :: f ∧ Text.isBlank c = false := by
        simp only [List.mem_cons, List.not_mem_nil, or_false] at hf
        rcases hf with rfl | rfl
        · exact ⟨_, _, rfl, by decide⟩
        · exact ⟨_, _, rfl, by decide⟩
      obtain ⟨c, f, hcf, hc⟩ := hhead
      have htrim (z : Text) : Text.trimStart (b₂ ++ (field ++ z)) = field ++ z := by
        rw [hcf, List.cons_append, trimStart_blanks hb₂ hc]
      unfold selfCall?
      simp only [List.append_assoc, List.cons_append, List.nil_append, Option.bind_eq_bind]
      rw [after?_eq_some.mpr rfl, Option.bind_some, trimStart_blanks hb₁ (by decide),
        after?_mark "." '.' rfl, Option.bind_some, htrim, field?_eq_some.mpr ⟨hf, rfl⟩,
        Option.bind_some, trimStart_blanks hb₃ (by decide), after?_mark "(" '(' rfl,
        Option.bind_some, trimStart_blanks hb₄ (by decide), after?_mark ")" ')' rfl,
        Option.bind_some]
      rfl

end Spelling

namespace SelfCall
variable {field u : Text}

theorem field_cases (h : SelfCall field u) : field = "state".toList ∨ field = "err".toList := by
  cases h with
  | mk hf => simpa using hf

/-- A call begins with the machine's word, which ends there. -/
theorem begins (h : SelfCall field u) :
    ∃ v, u = 't' :: 'h' :: 'i' :: 's' :: v ∧ ∀ rest, Ends isNameChar (v ++ rest) := by
  cases h with
  | @mk b₁ b₂ b₃ b₄ _ hb₁ =>
    refine ⟨b₁ ++ '.' :: (b₂ ++ (field ++ (b₃ ++ '(' :: (b₄ ++ [')'])))), by simp, ?_⟩
    intro rest
    cases b₁ with
    | nil => exact ends_cons rfl _
    | cons c b₁ =>
      exact ends_cons (isNameChar_of_blank (allBlank_cons.mp hb₁).1) _

theorem ends (h : SelfCall field u) : ∃ v, u = v ++ [')'] := by
  cases h with
  | @mk b₁ b₂ b₃ b₄ =>
    exact ⟨"this".toList ++ (b₁ ++ '.' :: (b₂ ++ (field ++ (b₃ ++ '(' :: b₄)))), by simp⟩

theorem mem (h : SelfCall field u) {c : Char} (hc : c ∈ u) :
    c ∈ "this.staterr()".toList ∨ Text.isBlank c := by
  have hblank {b : Text} (hb : b.allBlank) (hm : c ∈ b) : Text.isBlank c :=
    List.all_eq_true.mp hb c hm
  cases h with
  | mk hf hb₁ hb₂ hb₃ hb₄ =>
    have hfixed {w : Text} (hw : w.all ("this.staterr()".toList.contains ·)) (hm : c ∈ w) :
        c ∈ "this.staterr()".toList :=
      List.contains_iff_mem.mp (List.all_eq_true.mp hw c hm)
    have hfield : ∀ f ∈ ["state".toList, "err".toList],
        f.all ("this.staterr()".toList.contains ·) := by decide
    simp only [List.mem_append, List.mem_cons, List.not_mem_nil, or_false] at hc
    rcases hc with hc | hc | rfl | hc | hc | hc | rfl | hc | rfl
    · exact .inl (hfixed rfl hc)
    · exact .inr (hblank hb₁ hc)
    · exact .inl (by decide)
    · exact .inr (hblank hb₂ hc)
    · exact .inl (hfixed (hfield _ hf) hc)
    · exact .inr (hblank hb₃ hc)
    · exact .inl (by decide)
    · exact .inr (hblank hb₄ hc)
    · exact .inl (by decide)

/-- No literal and no comment depends on the characters of a call. -/
theorem quiet (h : SelfCall field u) : ∀ c ∈ u, isQuiet c := by
  intro c hc
  rcases h.mem hc with hc | hc
  · have hall : "this.staterr()".toList.all isQuiet = true := rfl
    exact List.all_eq_true.mp hall c hc
  · exact quiet_of_blank hc

/-- Nor does any depend on what takes its place. -/
theorem access_quiet (h : SelfCall field u) :
    (∀ c ∈ fieldAccess field, isQuiet c) ∧ '\n' ∉ fieldAccess field := by
  rcases h.field_cases with rfl | rfl <;> exact ⟨List.all_eq_true.mp rfl, by decide⟩

theorem endsInWord (h : SelfCall field u) (inWord : Bool) : endsInWord inWord u = false := by
  obtain ⟨v, rfl⟩ := h.ends
  rw [endsInWord_append]
  rfl

end SelfCall

section Replace
variable {inWord : Bool} {c : Char} {t field rest : Text}

@[simp] theorem replace_nil (inWord : Bool) : replaceSelfCalls inWord [] = [] := by
  rw [replaceSelfCalls]

theorem replace_call (h : selfCall? t = some (field, rest)) :
    replaceSelfCalls false t = fieldAccess field ++ replaceSelfCalls false rest := by
  cases t with
  | nil => cases h
  | cons c u =>
    rw [replaceSelfCalls]
    split
    · rename_i f r heq
      rw [if_neg Bool.false_ne_true, h] at heq
      cases heq
      simp [fieldAccess]
    · rename_i heq
      rw [if_neg Bool.false_ne_true, h] at heq
      cases heq

theorem replace_keep (h : inWord = false → selfCall? (c :: t) = none) :
    replaceSelfCalls inWord (c :: t) = c :: replaceSelfCalls (Text.isWordChar c) t := by
  have hnone : (if inWord then none else selfCall? (c :: t)) = none := by
    cases inWord with
    | true => rfl
    | false => exact h rfl
  rw [replaceSelfCalls]
  split
  · rename_i heq
    rw [hnone] at heq
    cases heq
  · rfl

/-- Going through a text call by call, and character by character between them. -/
@[elab_as_elim]
theorem replace_induction {motive : Bool → Text → Prop} (nil : ∀ inWord, motive inWord [])
    (call : ∀ field u rest, SelfCall field u → motive false rest → motive false (u ++ rest))
    (keep : ∀ inWord c t, (inWord = false → selfCall? (c :: t) = none) →
      motive (Text.isWordChar c) t → motive inWord (c :: t))
    (inWord : Bool) (t : Text) : motive inWord t := by
  induction inWord, t using replaceSelfCalls.induct with
  | case1 inWord => exact nil inWord
  | case2 inWord c t field rest h _ ih =>
    cases inWord with
    | true => cases h
    | false =>
      obtain ⟨u, hu, ht⟩ := selfCall?_eq_some.mp h
      rw [ht]
      exact call field u rest hu ih
  | case3 inWord c t h ih =>
    refine keep inWord c t ?_ ih
    rintro rfl
    exact h

end Replace

/-- A stretch of a text, from one offset up to another. -/
structure Span where
  start : Nat
  stop : Nat
  deriving DecidableEq

/-- Where the calls of a text stand, the text beginning at an offset. -/
def selfCalls (inWord : Bool) (offset : Nat) (t : Text) : List Span :=
  match t with
  | [] => []
  | c :: u =>
    match h : if inWord then none else selfCall? (c :: u) with
    | some (_, rest) =>
      have : rest.length < u.length + 1 := by
        split at h
        · cases h
        · exact length_of_selfCall? h
      let stop := offset + (u.length + 1 - rest.length)
      ⟨offset, stop⟩ :: selfCalls false stop rest
    | none => selfCalls (Text.isWordChar c) (offset + 1) u
termination_by t.length

section Spans
variable {inWord : Bool} {o : Nat} {c : Char} {t u x y rest field : Text}

@[simp] theorem selfCalls_nil (inWord : Bool) (o : Nat) : selfCalls inWord o [] = [] := by
  rw [selfCalls]

theorem selfCalls_call (hu : SelfCall field u) (o : Nat) (rest : Text) :
    selfCalls false o (u ++ rest) =
      ⟨o, o + u.length⟩ :: selfCalls false (o + u.length) rest := by
  have h : selfCall? (u ++ rest) = some (field, rest) := selfCall?_eq_some.mpr ⟨u, hu, rfl⟩
  have hlen : (u ++ rest).length - rest.length = u.length := by
    rw [List.length_append, Nat.add_sub_cancel]
  generalize u ++ rest = t at h hlen
  cases t with
  | nil => cases h
  | cons c v =>
    rw [selfCalls]
    split
    · rename_i f r heq
      rw [if_neg Bool.false_ne_true, h] at heq
      cases heq
      rw [List.length_cons] at hlen
      rw [hlen]
    · rename_i heq
      rw [if_neg Bool.false_ne_true, h] at heq
      cases heq

theorem selfCalls_keep (h : inWord = false → selfCall? (c :: t) = none) (o : Nat) :
    selfCalls inWord o (c :: t) = selfCalls (Text.isWordChar c) (o + 1) t := by
  have hnone : (if inWord then none else selfCall? (c :: t)) = none := by
    cases inWord with
    | true => rfl
    | false => exact h rfl
  rw [selfCalls]
  split
  · rename_i heq
    rw [hnone] at heq
    cases heq
  · rfl

theorem replace_selfCall (hu : SelfCall field u) (rest : Text) :
    replaceSelfCalls false (u ++ rest) = fieldAccess field ++ replaceSelfCalls false rest :=
  replace_call (selfCall?_eq_some.mpr ⟨u, hu, rfl⟩)

/-- The first call that begins in the first part of a text, if there is one. -/
theorem replace_cases (inWord : Bool) (o : Nat) (x y : Text) :
    (replaceSelfCalls inWord (x ++ y) = x ++ replaceSelfCalls (endsInWord inWord x) y ∧
      selfCalls inWord o (x ++ y) = selfCalls (endsInWord inWord x) (o + x.length) y) ∨
    ∃ x₁ v field u y₁, x = x₁ ++ v ∧ v ≠ [] ∧ v ++ y = u ++ y₁ ∧ SelfCall field u ∧
      endsInWord inWord x₁ = false ∧
      replaceSelfCalls inWord (x ++ y) = x₁ ++ (fieldAccess field ++ replaceSelfCalls false y₁) ∧
      selfCalls inWord o (x ++ y) =
        ⟨o + x₁.length, o + x₁.length + u.length⟩ ::
          selfCalls false (o + x₁.length + u.length) y₁ := by
  induction x generalizing inWord o with
  | nil => exact .inl ⟨rfl, rfl⟩
  | cons c x ih =>
    by_cases hcall : inWord = false ∧ ∃ r, selfCall? (c :: (x ++ y)) = some r
    · obtain ⟨rfl, ⟨field, rest⟩, hr⟩ := hcall
      obtain ⟨u, hu, he⟩ := selfCall?_eq_some.mp hr
      refine .inr ⟨[], c :: x, field, u, rest, rfl, nofun, he, hu, rfl, ?_, ?_⟩
      · rw [List.cons_append, he]
        exact replace_selfCall hu rest
      · rw [List.cons_append, he]
        exact selfCalls_call hu o rest
    · have hkeep : inWord = false → selfCall? (c :: (x ++ y)) = none := by
        intro h
        cases hs : selfCall? (c :: (x ++ y)) with
        | none => rfl
        | some r => exact absurd ⟨h, r, hs⟩ hcall
      have hstep := replace_keep hkeep
      have hspans := selfCalls_keep hkeep o
      have hlen : o + (c :: x).length = o + 1 + x.length := by
        rw [List.length_cons]
        omega
      rw [← List.cons_append] at hstep hspans
      rw [hstep, hspans, hlen]
      rcases ih (Text.isWordChar c) (o + 1) with ⟨hr, hs⟩ | ⟨x₁, v, field, u, y₁, rfl, h⟩
      · exact .inl ⟨by rw [hr]; rfl, hs⟩
      · obtain ⟨hv, he, hu, hw, hr, hs⟩ := h
        refine .inr ⟨c :: x₁, v, field, u, y₁, rfl, hv, he, hu, hw, by rw [hr]; rfl, ?_⟩
        have hlen' : o + (c :: x₁).length = o + 1 + x₁.length := by
          rw [List.length_cons]
          omega
        rw [hs, hlen']

/-- A text whose calls all end in the part they begin in is replaced part by part. -/
theorem replace_append
    (h : ∀ s ∈ selfCalls inWord o (x ++ y), s.start < o + x.length → s.stop ≤ o + x.length) :
    replaceSelfCalls inWord (x ++ y) =
      replaceSelfCalls inWord x ++ replaceSelfCalls (endsInWord inWord x) y ∧
    selfCalls inWord o (x ++ y) =
      selfCalls inWord o x ++ selfCalls (endsInWord inWord x) (o + x.length) y := by
  induction inWord, x using replace_induction generalizing o with
  | nil inWord => simp [endsInWord]
  | call field u rest hu ih =>
    have hlen : o + (u ++ rest).length = o + u.length + rest.length := by
      rw [List.length_append, Nat.add_assoc]
    rw [List.append_assoc, selfCalls_call hu] at h
    rw [hlen] at h
    obtain ⟨hr, hs⟩ := ih (o := o + u.length) fun s hm => h s (List.mem_cons_of_mem _ hm)
    rw [List.append_assoc, replace_selfCall hu, selfCalls_call hu, replace_selfCall hu,
      selfCalls_call hu, hr, hs, endsInWord_append, hu.endsInWord, hlen]
    simp
  | keep inWord c x hkeep ih =>
    have hlen : o + (c :: x).length = o + 1 + x.length := by
      rw [List.length_cons]
      omega
    -- A call that begins here would have to end in `x`, and then it would be found there.
    have hkeep' : inWord = false → selfCall? (c :: (x ++ y)) = none := by
      intro hw
      cases hs : selfCall? (c :: (x ++ y)) with
      | none => rfl
      | some r =>
        obtain ⟨field, rest⟩ := r
        obtain ⟨u, hu, he⟩ := selfCall?_eq_some.mp hs
        subst hw
        rw [List.cons_append, he, selfCalls_call hu] at h
        have hfirst := h _ List.mem_cons_self
        simp only [List.length_cons] at hfirst
        have hle : u.length ≤ (c :: x).length := by
          simp only [List.length_cons]
          omega
        rw [← List.cons_append] at he
        obtain ⟨z, hz⟩ := List.prefix_of_prefix_length_le (List.prefix_append u rest)
          (he ▸ List.prefix_append (c :: x) y) hle
        have := selfCall?_eq_some.mpr ⟨u, hu, hz.symm⟩
        rw [hkeep rfl] at this
        cases this
    rw [List.cons_append, selfCalls_keep hkeep', hlen] at h
    obtain ⟨hr, hs⟩ := ih (o := o + 1) fun s hm => h s hm
    rw [List.cons_append, replace_keep hkeep', replace_keep hkeep, selfCalls_keep hkeep',
      selfCalls_keep hkeep, hr, hs, hlen]
    exact ⟨rfl, rfl⟩

/-- What stands where a call is said to be is one. -/
theorem mem_selfCalls {s : Span} (h : s ∈ selfCalls inWord o t) :
    ∃ field x u y, t = x ++ (u ++ y) ∧ SelfCall field u ∧
      s = ⟨o + x.length, o + x.length + u.length⟩ := by
  induction inWord, t using replace_induction generalizing o with
  | nil inWord => simp at h
  | call field u rest hu ih =>
    rw [selfCalls_call hu] at h
    rcases List.mem_cons.mp h with rfl | h
    · exact ⟨field, [], u, rest, rfl, hu, rfl⟩
    · obtain ⟨f, x, v, y, rfl, hv, rfl⟩ := ih h
      refine ⟨f, u ++ x, v, y, by simp, hv, ?_⟩
      rw [List.length_append]
      congr 1 <;> omega
  | keep inWord c t hkeep ih =>
    rw [selfCalls_keep hkeep] at h
    obtain ⟨f, x, v, y, rfl, hv, rfl⟩ := ih h
    refine ⟨f, c :: x, v, y, rfl, hv, ?_⟩
    rw [List.length_cons]
    congr 1 <;> omega

end Spans

/-- No call stands in the text, wherever it is looked for. -/
def Callless (inWord : Bool) (t : Text) : Prop :=
  ∀ field x u y, t = x ++ (u ++ y) → SelfCall field u → endsInWord inWord x = true

section Callless
variable {inWord : Bool} {t z : Text}

theorem replace_of_callless (h : Callless inWord t) : replaceSelfCalls inWord t = t := by
  induction inWord, t using replace_induction with
  | nil inWord => exact replace_nil inWord
  | call field u rest hu _ => cases h field [] u rest rfl hu
  | keep inWord c t hkeep ih =>
    rw [replace_keep hkeep, ih]
    intro field x u y ht hu
    exact h field (c :: x) u y (by rw [ht, List.cons_append]) hu

/-- A text without the letters that a call begins with is followed by no new call. -/
theorem callless_append (hz : 'h' ∉ z) (hlast : z.getLast? ≠ some 't')
    (h : Callless (endsInWord inWord z) t) : Callless inWord (z ++ t) := by
  intro field x u y he hu
  obtain ⟨v, rfl, _⟩ := hu.begins
  rcases List.append_eq_append_iff.mp he with ⟨w, rfl, ht⟩ | ⟨w, rfl, ht⟩
  · rw [endsInWord_append]
    exact h field w _ y ht hu
  · cases w with
    | nil => simpa [endsInWord] using h field [] _ y (by simpa using ht.symm) hu
    | cons a w =>
      cases w with
      | nil =>
        simp at ht hlast
        exact absurd ht.1.symm hlast
      | cons b w =>
        simp at ht hz
        exact absurd ht.2.1 hz.2.2.1

/-- What a replaced text begins with it began with before, as far as no field is reached. -/
theorem prefix_of_replaced {v : Text} (h : v <+: replaceSelfCalls inWord t) (hf : 'f' ∉ v)
    (hlast : v.getLast? ≠ some '(') : v <+: t := by
  induction inWord, t using replace_induction generalizing v with
  | nil inWord =>
    rw [replace_nil] at h
    exact h
  | call field u rest hu _ =>
    rw [replace_selfCall hu, fieldAccess] at h
    cases v with
    | nil => exact List.nil_prefix
    | cons a v =>
      obtain ⟨rfl, htail⟩ := List.cons_prefix_cons.mp h
      cases v with
      | nil => exact absurd rfl hlast
      | cons b v =>
        obtain ⟨rfl, _⟩ := List.cons_prefix_cons.mp htail
        simp at hf
  | keep inWord c t hkeep ih =>
    rw [replace_keep hkeep] at h
    cases v with
    | nil => exact List.nil_prefix
    | cons a v =>
      obtain ⟨rfl, htail⟩ := List.cons_prefix_cons.mp h
      refine List.cons_prefix_cons.mpr ⟨rfl, ih htail (fun hm => hf (List.mem_cons_of_mem _ hm)) ?_⟩
      cases v with
      | nil => simp
      | cons b v => simpa using hlast

/-- Once the calls are replaced there is none. -/
theorem callless_replace (inWord : Bool) (t : Text) :
    Callless inWord (replaceSelfCalls inWord t) := by
  induction inWord, t using replace_induction with
  | nil inWord =>
    intro field x u y he hu
    obtain ⟨v, rfl, _⟩ := hu.begins
    simp at he
  | call field u rest hu ih =>
    rw [replace_selfCall hu]
    rw [fieldAccess]
    rcases hu.field_cases with rfl | rfl
    · exact callless_append (by decide) (by decide) ih
    · exact callless_append (by decide) (by decide) ih
  | keep inWord c t hkeep ih =>
    rw [replace_keep hkeep]
    intro field x u y he hu
    cases x with
    | cons d x =>
      obtain ⟨rfl, htail⟩ := List.cons.inj he
      exact ih field x u y htail hu
    | nil =>
      cases hw : inWord with
      | true => rfl
      | false =>
        -- A call here would have been one before, since it reaches no field put in.
        have hu' : u <+: c :: t := by
          have hf : 'f' ∉ u := fun hm => by
            rcases hu.mem hm with h | h <;> exact absurd h (by decide)
          obtain ⟨v, hv⟩ := hu.ends
          cases u with
          | nil => exact List.nil_prefix
          | cons d u =>
            obtain ⟨rfl, htail⟩ := List.cons.inj he
            have hlast : u.getLast? ≠ some '(' := by
              cases v with
              | nil =>
                cases hv
                simp
              | cons e v =>
                obtain ⟨_, rfl⟩ := List.cons.inj hv
                simp
            exact List.cons_prefix_cons.mpr ⟨rfl, prefix_of_replaced ⟨y, htail.symm⟩
              (fun hm => hf (List.mem_cons_of_mem _ hm)) hlast⟩
        obtain ⟨z, hz⟩ := hu'
        have := selfCall?_eq_some.mpr ⟨u, hu, hz.symm⟩
        rw [hkeep hw] at this
        cases this

end Callless
end Statewright.Code
