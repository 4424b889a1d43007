import Statewright.Proofs.Language

namespace Statewright
namespace Language

theorem gap_inside (c : Char) (t : Text) : gap true (c :: t) = gap (c != '\n') t + 1 := rfl

theorem gap_slashes (t : Text) : gap false ('/' :: '/' :: t) = gap true t + 2 := rfl

theorem gap_plain {c : Char} {t : Text} (h : ∀ u, c = '/' → t ≠ '/' :: u) :
    gap false (c :: t) = if Text.isBlank c then gap false t + 1 else 0 := by
  rw [gap.eq_def]
  split
  · contradiction
  · contradiction
  · rename_i heq
    obtain ⟨rfl, rfl⟩ := List.cons.inj heq
    exact absurd rfl (h _ rfl)
  · rename_i heq
    obtain ⟨rfl, rfl⟩ := List.cons.inj heq
    rfl

theorem gap_blank {c : Char} (t : Text) (h : Text.isBlank c) :
    gap false (c :: t) = gap false t + 1 := by
  rw [gap_plain, if_pos h]
  rintro u rfl
  exact absurd h (by decide)

/-- The rest of a comment and the gap after it, which is there only from its line break on. -/
theorem gap_sound (inComment : Bool) (t : Text) :
    if inComment then
      ∃ body g, t.take (gap true t) = body ++ g ∧ '\n' ∉ body ∧
        Ends (· != '\n') (g ++ t.drop (gap true t)) ∧ Gap (t.drop (gap true t)) g
    else Gap (t.drop (gap false t)) (t.take (gap false t)) := by
  fun_induction gap inComment t with
  | case1 inComment =>
    cases inComment with
    | false => exact .nil
    | true => exact ⟨[], [], rfl, by simp, by simp [Ends], .nil⟩
  | case2 c t ih =>
    rw [if_pos rfl, gap_inside]
    by_cases hc : c = '\n'
    · subst hc
      simp only [bne_self_eq_false, Bool.false_eq_true, ↓reduceIte] at ih ⊢
      refine ⟨[], '\n' :: t.take (gap false t), rfl, by simp, by simp [Ends], ?_⟩
      exact .blank (by decide) ih
    · have hne : (c != '\n') = true := by simpa using hc
      simp only [hne, ↓reduceIte] at ih ⊢
      obtain ⟨body, g, he, hb, hend, hg⟩ := ih
      refine ⟨c :: body, g, by simp [he], ?_, hend, hg⟩
      simp only [List.mem_cons, not_or]
      exact ⟨Ne.symm hc, hb⟩
  | case3 t ih =>
    obtain ⟨body, g, he, hb, hend, hg⟩ := ih
    simp only [Bool.false_eq_true, ↓reduceIte, gap_slashes, List.take_succ_cons,
      List.drop_succ_cons, he]
    exact .comment hb hend hg
  | case4 c t hne hc ih =>
    simp only [Bool.false_eq_true, ↓reduceIte, gap_blank t hc, List.take_succ_cons,
      List.drop_succ_cons] at ih ⊢
    exact .blank hc ih
  | case5 c t hne hc =>
    have h0 : gap false (c :: t) = 0 := by
      rw [gap_plain (fun u h1 h2 => hne u h1 h2), if_neg hc]
    simp only [Bool.false_eq_true, ↓reduceIte, h0, List.take_zero]
    exact .nil

/-- What the scanner skips is a gap. -/
theorem gapLength_sound (t : Text) : Gap (t.drop (gapLength t)) (t.take (gapLength t)) :=
  gap_sound false t

theorem gapLength_le (t : Text) : gapLength t ≤ t.length := by
  have h (inComment : Bool) (t : Text) : gap inComment t ≤ t.length := by
    fun_induction gap inComment t <;> simp_all
  exact h false t

/-- A gap is skipped whole. -/
theorem gapLength_drop (t : Text) : gapLength (t.drop (gapLength t)) = 0 := by
  have h (inComment : Bool) (t : Text) : gap false (t.drop (gap inComment t)) = 0 := by
    fun_induction gap inComment t with
    | case1 => rfl
    | case2 c t ih => simpa using ih
    | case3 t ih => simpa using ih
    | case4 c t hc hb ih => simpa using ih
    | case5 c t hc hb =>
      rw [List.drop_zero, gap_plain (fun u hx hu => hc u hx hu), if_neg hb]
  exact h false t

theorem gap_body {body : Text} (h : '\n' ∉ body) (t : Text) :
    gap true (body ++ t) = body.length + gap true t := by
  induction body with
  | nil => simp
  | cons c body ih =>
    simp only [List.mem_cons, not_or] at h
    have hne : (c != '\n') = true := by simpa using Ne.symm h.1
    rw [List.cons_append, gap_inside, hne, ih h.2, List.length_cons]
    omega

/-- A comment that is over leaves the gap as it would be outside. -/
theorem gap_line_end {t : Text} (h : Ends (· != '\n') t) : gap true t = gap false t := by
  cases t with
  | nil => rfl
  | cons c t =>
    have hc : c = '\n' := by simpa using h c (by simp)
    subst hc
    rw [gap_inside, gap_blank t (by decide)]
    rfl

/-- The scanner skips a gap whole if what follows it does not go on with one. -/
theorem gapLength_complete {rest g : Text} (h : Gap rest g) (hr : gapLength rest = 0) :
    gapLength (g ++ rest) = g.length := by
  unfold gapLength at hr ⊢
  induction h with
  | nil => exact hr
  | blank hc _ ih => rw [List.cons_append, gap_blank _ hc, ih, List.length_cons]
  | comment hb he _ ih =>
    rw [List.cons_append, List.cons_append, gap_slashes, List.append_assoc, gap_body hb,
      gap_line_end he, ih]
    simp only [List.length_cons, List.length_append]

/-- The text before the delimiter that closes a fragment, `depth` further ones being open: only
with that delimiter does it close as often as it opens. -/
structure Closes (opener closer : Char) (depth : Nat) (content : Text) : Prop where
  balanced : (content ++ [closer]).count closer = content.count opener + depth + 1
  first : ∀ s, s <+: content ++ [closer] → s.count closer = s.count opener + depth + 1 →
    s = content ++ [closer]

theorem Closes.nil {o c : Char} : Closes o c 0 [] := by
  refine ⟨by simp, ?_⟩
  intro s hs hn
  rcases List.prefix_cons_iff.mp hs with rfl | ⟨u, rfl, hu⟩
  · simp at hn
  · rw [List.prefix_nil.mp hu]
    rfl

/-- One character more before the closing delimiter, with the depth `d` before and `e` after it. -/
theorem closes_cons {o c a : Char} {d e : Nat} {content : Text}
    (hd : [a].count o + d = [a].count c + e) :
    Closes o c d (a :: content) ↔ Closes o c e content := by
  have hc (b : Char) (u : Text) : (a :: u).count b = [a].count b + u.count b := by
    rw [← List.count_append]
    rfl
  constructor
  · intro h
    have hb := h.balanced
    rw [List.cons_append, hc, hc o] at hb
    refine ⟨by omega, ?_⟩
    intro s hs hn
    have he := h.first (a :: s) (List.cons_prefix_cons.mpr ⟨rfl, hs⟩) (by rw [hc, hc o]; omega)
    exact (List.cons.inj he).2
  · intro h
    have hb := h.balanced
    refine ⟨by rw [List.cons_append, hc, hc o]; omega, ?_⟩
    intro s hs hn
    rcases List.prefix_cons_iff.mp hs with rfl | ⟨u, rfl, hu⟩
    · simp at hn
    · rw [hc, hc o] at hn
      rw [h.first u hu (by omega)]
      rfl

theorem enclosed_sound {o c : Char} (hoc : o ≠ c) {depth : Nat} {t content : Text}
    (h : enclosed o c depth t = some content) :
    ∃ rest, t = content ++ c :: rest ∧ Closes o c depth content := by
  fun_induction enclosed o c depth t generalizing content with
  | case1 => cases h
  | case2 depth t ih =>
    obtain ⟨u, hu, rfl⟩ := Option.map_eq_some_iff.mp h
    obtain ⟨rest, rfl, hcl⟩ := ih hu
    refine ⟨rest, rfl, (closes_cons ?_).mpr hcl⟩
    simp [hoc]
    omega
  | case3 t =>
    cases h
    exact ⟨t, rfl, .nil⟩
  | case4 t depth _ ih =>
    obtain ⟨u, hu, rfl⟩ := Option.map_eq_some_iff.mp h
    obtain ⟨rest, rfl, hcl⟩ := ih hu
    refine ⟨rest, rfl, (closes_cons ?_).mpr hcl⟩
    simp [hoc.symm]
    omega
  | case5 depth a t hao hac ih =>
    obtain ⟨u, hu, rfl⟩ := Option.map_eq_some_iff.mp h
    obtain ⟨rest, rfl, hcl⟩ := ih hu
    refine ⟨rest, rfl, (closes_cons ?_).mpr hcl⟩
    simp [hao, hac]

theorem enclosed_complete {o c : Char} (hoc : o ≠ c) {depth : Nat} {content : Text}
    (h : Closes o c depth content) (rest : Text) :
    enclosed o c depth (content ++ c :: rest) = some content := by
  induction content generalizing depth with
  | nil =>
    have hb := h.balanced
    simp only [List.nil_append, List.count_singleton_self, List.count_nil] at hb
    have hd : depth = 0 := by omega
    subst hd
    simp [enclosed, hoc.symm]
  | cons a content ih =>
    rw [List.cons_append, enclosed.eq_def]
    dsimp only
    by_cases hao : a = o
    · subst hao
      have hcl := (closes_cons (e := depth + 1) (by simp [hoc]; omega)).mp h
      rw [if_pos rfl, ih hcl]
      rfl
    · rw [if_neg hao]
      by_cases hac : a = c
      · subst hac
        cases depth with
        | zero =>
          -- the first closing delimiter at depth 0 is the last character
          have he := h.first [a] (by simp) (by simp [hoc.symm])
          simp at he
        | succ depth =>
          have hcl := (closes_cons (e := depth) (by simp [hoc.symm]; omega)).mp h
          rw [if_pos rfl]
          simp only [ih hcl, Option.map_some]
      · have hcl := (closes_cons (e := depth) (by simp [hao, hac])).mp h
        rw [if_neg hac, ih hcl]
        rfl

theorem shortest_iff {o c : Char} (hoc : o ≠ c) {content : Text} :
    Shortest o c (o :: (content ++ [c])) ↔ Closes o c 0 content := by
  constructor
  · intro h
    have hb := h.balanced
    simp [hoc, hoc.symm] at hb
    refine ⟨by simp; omega, ?_⟩
    intro s hs hn
    have he := h.first (o :: s) (List.cons_prefix_cons.mpr ⟨rfl, hs⟩) (by simp)
      (by simp [hoc]; omega)
    exact (List.cons.inj he).2
  · intro h
    have hb := h.balanced
    refine ⟨by simp [hoc, hoc.symm] at hb ⊢; omega, ?_⟩
    intro s hs hne hn
    rcases List.prefix_cons_iff.mp hs with rfl | ⟨u, rfl, hu⟩
    · contradiction
    · simp [hoc] at hn
      rw [h.first u hu (by omega)]

theorem nameChars_cons {c : Char} {w : Text} (hc : isNameStart c) (hw : ∀ d ∈ w, isNameChar d) :
    ∀ d ∈ c :: w, isNameChar d := by
  refine List.forall_mem_cons.mpr ⟨?_, hw⟩
  simp [isNameChar, hc]

theorem takeWhile_munch {p : Char → Bool} {w rest : Text} (hw : ∀ d ∈ w, p d) (hr : Ends p rest) :
    (w ++ rest).takeWhile p = w := by
  rw [List.takeWhile_append_of_pos hw]
  cases rest with
  | nil => simp
  | cons c rest =>
    have hc := hr c (by simp)
    simp [hc]

theorem dropWhile_munch {p : Char → Bool} {w rest : Text} (hw : ∀ d ∈ w, p d) (hr : Ends p rest) :
    (w ++ rest).dropWhile p = rest := by
  have hsplit := List.takeWhile_append_dropWhile (p := p) (l := w ++ rest)
  rw [takeWhile_munch hw hr] at hsplit
  exact List.append_cancel_left hsplit

theorem Ends.append {p : Char → Bool} {t u : Text} (ht : Ends p t) (hu : Ends p u) :
    Ends p (t ++ u) := by
  cases t with
  | nil => exact hu
  | cons c t => exact ht

theorem ends_line {p : Char → Bool} {t : Text} (h : Ends p t) (hp : p '\n' = false) (after : Text) :
    Ends p (t ++ '\n' :: after) :=
  h.append (by simpa [Ends] using hp)

theorem ends_dropWhile (p : Char → Bool) (t : Text) : Ends p (t.dropWhile p) := by
  intro c hc
  have h := List.head?_dropWhile_not p t
  cases hd : t.dropWhile p with
  | nil => simp [hd] at hc
  | cons d u =>
    simp only [hd, List.head?_cons, Option.mem_def, Option.some.injEq] at hc h
    subst hc
    simpa using h

theorem ofWord_of_mem {w : Text} {k : Kind} (h : (w, k) ∈ Kind.words) : Kind.ofWord w = k := by
  have hall : ∀ p ∈ Kind.words, Kind.ofWord p.1 = p.2 := by decide
  exact hall _ h

theorem ofWord_of_not_mem {w : Text} (h : ∀ k, (w, k) ∉ Kind.words) : Kind.ofWord w = .name := by
  have hn : Kind.words.lookup w = none := by
    apply List.lookup_eq_none_iff.mpr
    rintro ⟨v, k⟩ hm
    rw [bne_iff_ne]
    rintro rfl
    exact h k hm
  rw [Kind.ofWord, hn]
  rfl

theorem ofWord_mem {w : Text} {k : Kind} (h : Kind.ofWord w = k) (hk : k ≠ .name) :
    (w, k) ∈ Kind.words := by
  by_cases hex : ∃ j, (w, j) ∈ Kind.words
  · obtain ⟨j, hj⟩ := hex
    rw [ofWord_of_mem hj] at h
    exact h ▸ hj
  · rw [ofWord_of_not_mem fun j hj => hex ⟨j, hj⟩] at h
    exact absurd h.symm hk

/-- A word is spelled like a name and is one unless it is reserved. -/
theorem spelling_ofWord {rest : Text} {c : Char} {w : Text} (hc : isNameStart c)
    (hw : ∀ d ∈ w, isNameChar d) (hr : Ends isNameChar rest) :
    Spelling rest (Kind.ofWord (c :: w)) (c :: w) (c :: w) := by
  by_cases h : ∃ k, (c :: w, k) ∈ Kind.words
  · obtain ⟨k, hk⟩ := h
    rw [ofWord_of_mem hk]
    exact .word hk hr
  · have hn : ∀ k, (c :: w, k) ∉ Kind.words := fun k hk => h ⟨k, hk⟩
    rw [ofWord_of_not_mem hn]
    exact .name hc hw hn hr

theorem words_spelled {w : Text} {k : Kind} (h : (w, k) ∈ Kind.words) :
    ∃ c u, w = c :: u ∧ isNameStart c ∧ ∀ d ∈ u, isNameChar d := by
  have hall : ∀ p ∈ Kind.words,
      (p.1.head?.any isNameStart && p.1.tail.all isNameChar) = true := by decide
  have hw := hall _ h
  cases w with
  | nil => simp at hw
  | cons c u =>
    simp only [List.head?_cons, Option.any_some, List.tail_cons, Bool.and_eq_true,
      List.all_eq_true] at hw
    exact ⟨c, u, rfl, hw.1, hw.2⟩

theorem isNameStart_toNat {c : Char} (h : isNameStart c) :
    65 ≤ c.toNat ∧ c.toNat ≤ 122 := by
  simp only [isNameStart, Text.isAsciiLetter, Bool.or_eq_true, Bool.and_eq_true, decide_eq_true_eq,
    beq_iff_eq, Char.le_def, UInt32.le_iff_toNat_le] at h
  rcases h with (⟨h1, h2⟩ | ⟨h1, h2⟩) | rfl
  · exact ⟨Nat.le_trans (by decide) h1, h2⟩
  · exact ⟨h1, Nat.le_trans h2 (by decide)⟩
  · decide

theorem isAsciiDigit_toNat {c : Char} (h : Text.isAsciiDigit c) : 48 ≤ c.toNat ∧ c.toNat ≤ 57 := by
  simp only [Text.isAsciiDigit, Bool.and_eq_true, decide_eq_true_eq, Char.le_def,
    UInt32.le_iff_toNat_le] at h
  exact h

theorem fragment?_none {expected : List Kind} {c : Char} (h : c ≠ '{' ∧ c ≠ '(') :
    Lexeme.fragment? expected c = none := by
  simp [Lexeme.fragment?, Kind.fragments, h.1.symm, h.2.symm]

/-- Where a lexeme of a kind is cut as such: a raw fragment only if it is expected, and its
delimiter alone only if it is not. -/
def Admits (expected : List Kind) (k : Kind) : Prop :=
  (k = .block ∨ k = .expr → k ∈ expected) ∧ (k = .openBrace → .block ∉ expected) ∧
    (k = .openParen → .expr ∉ expected)

instance (expected : List Kind) (k : Kind) : Decidable (Admits expected k) :=
  inferInstanceAs (Decidable (_ ∧ _ ∧ _))

theorem gapLength_zero {c : Char} (t : Text) (hb : Text.isBlank c = false) (hc : c ≠ '/') :
    gapLength (c :: t) = 0 := by
  rw [gapLength, gap_plain (fun _ h => absurd h hc), if_neg (by simp [hb])]

/-- No lexeme starts with a gap. -/
theorem Spelling.gapLength_zero {rest w v : Text} {k : Kind} (h : Spelling rest k w v) :
    gapLength (w ++ rest) = 0 := by
  have hstart {c : Char} (t : Text) (hc : isNameStart c) : gapLength (c :: t) = 0 := by
    have hn := isNameStart_toNat hc
    apply Language.gapLength_zero
    · simp only [Text.isBlank]
      simp
      omega
    · rintro rfl
      exact absurd hc (by decide)
  cases h with
  | word hm _ =>
    obtain ⟨c, u, rfl, hc, _⟩ := words_spelled hm
    exact hstart _ hc
  | name hc _ _ _ => exact hstart _ hc
  | int hne hd _ =>
    cases w with
    | nil => contradiction
    | cons c u =>
      have hn := isAsciiDigit_toNat (hd c (by simp))
      apply Language.gapLength_zero
      · simp only [Text.isBlank]
        simp
        omega
      · rintro rfl
        exact absurd (hd '/' (by simp)) (by decide)
  | @mark _ c hm =>
    have hall : ∀ p ∈ Kind.marks, Text.isBlank p.1 = false ∧ p.1 ≠ '/' := by decide
    exact Language.gapLength_zero _ (hall _ hm).1 (hall _ hm).2
  | fragment hm _ =>
    have hall : ∀ p ∈ Kind.fragments, Text.isBlank p.2.1 = false ∧ p.2.1 ≠ '/' := by decide
    exact Language.gapLength_zero _ (hall _ hm).1 (hall _ hm).2
  | eof hr =>
    subst hr
    rfl

/-- Only the end of the source has no characters. -/
theorem Spelling.length_pos {rest w v : Text} {k : Kind} (h : Spelling rest k w v)
    (hk : k ≠ .eof) : 0 < w.length := by
  cases h with
  | word hm _ =>
    obtain ⟨c, u, rfl, _, _⟩ := words_spelled hm
    simp
  | int hne _ _ => exact List.length_pos_iff.mpr hne
  | name _ _ _ _ | mark _ | fragment _ _ => simp
  | eof _ => contradiction

theorem Spelling.of_eof {rest w v : Text} (h : Spelling rest .eof w v) :
    w = [] ∧ v = [] ∧ rest = [] := by
  cases h with
  | word hm _ => simp [Kind.words] at hm
  | mark hm => simp [Kind.marks] at hm
  | fragment hm _ => simp [Kind.fragments] at hm
  | eof hr => exact ⟨rfl, rfl, hr⟩

theorem fragments_distinct {k : Kind} {o c : Char} (h : (k, o, c) ∈ Kind.fragments) : o ≠ c := by
  have hall : ∀ p ∈ Kind.fragments, p.2.1 ≠ p.2.2 := by decide
  exact hall _ h

/-- What is cut is a lexeme of the language. -/
theorem read_sound {expected : List Kind} {t : Text} {l : Lexeme}
    (h : Lexeme.read expected t = .ok l) :
    ∃ w rest, t = w ++ rest ∧ Spelling rest l.kind w l.text ∧ w.length = l.length := by
  cases t with
  | nil =>
    cases h
    exact ⟨[], [], rfl, .eof rfl, rfl⟩
  | cons c t =>
    simp only [Lexeme.read] at h
    split at h
    · rename_i k o d hf
      have hm := List.mem_of_find?_eq_some hf
      have ho := List.find?_some hf
      simp only [Bool.and_eq_true, decide_eq_true_eq] at ho
      obtain ⟨rfl, _⟩ := ho
      split at h
      · rename_i content he
        cases h
        obtain ⟨rest, rfl, hcl⟩ := enclosed_sound (fragments_distinct hm) he
        refine ⟨o :: (content ++ [d]), rest, by simp, .fragment hm ?_, by simp⟩
        exact (shortest_iff (fragments_distinct hm)).mpr hcl
      · cases h
    · split at h
      · rename_i hc
        cases h
        refine ⟨c :: t.takeWhile isNameChar, t.dropWhile isNameChar, by simp, ?_, rfl⟩
        exact spelling_ofWord hc (fun d hd => List.all_eq_true.mp List.all_takeWhile d hd)
          (ends_dropWhile _ _)
      · split at h
        · rename_i hc
          cases h
          refine ⟨c :: t.takeWhile Text.isAsciiDigit, t.dropWhile Text.isAsciiDigit, by simp,
            .int (by simp) ?_ (ends_dropWhile _ _), rfl⟩
          intro d hd
          rcases List.mem_cons.mp hd with rfl | hd
          · exact hc
          · exact List.all_eq_true.mp List.all_takeWhile d hd
        · split at h
          · rename_i k hk
            cases h
            refine ⟨[c], t, rfl, .mark ?_, rfl⟩
            obtain ⟨l₁, l₂, he, _⟩ := List.lookup_eq_some_iff.mp hk
            rw [he]
            simp
          · cases h

theorem read_word {expected : List Kind} {rest u : Text} {c : Char} (hc : isNameStart c)
    (hu : ∀ d ∈ u, isNameChar d) (hr : Ends isNameChar rest) :
    Lexeme.read expected (c :: u ++ rest) = .ok ⟨Kind.ofWord (c :: u), c :: u, u.length + 1⟩ := by
  have hf : Lexeme.fragment? expected c = none := by
    apply fragment?_none
    constructor <;> rintro rfl <;> exact absurd hc (by decide)
  simp only [List.cons_append, Lexeme.read, hf, hc, ↓reduceIte, takeWhile_munch hu hr,
    List.length_cons]

theorem read_int {expected : List Kind} {rest u : Text} {c : Char} (hc : Text.isAsciiDigit c)
    (hu : ∀ d ∈ u, Text.isAsciiDigit d) (hr : Ends Text.isAsciiDigit rest) :
    Lexeme.read expected (c :: u ++ rest) = .ok ⟨.int, c :: u, u.length + 1⟩ := by
  have hf : Lexeme.fragment? expected c = none := by
    apply fragment?_none
    constructor <;> rintro rfl <;> exact absurd hc (by decide)
  have hn : isNameStart c = false := by
    cases hs : isNameStart c with
    | false => rfl
    | true =>
      have h1 := isNameStart_toNat hs
      have h2 := isAsciiDigit_toNat hc
      omega
  simp only [List.cons_append, Lexeme.read, hf, hn, hc, Bool.false_eq_true, ↓reduceIte,
    takeWhile_munch hu hr, List.length_cons]

theorem read_mark {expected : List Kind} {rest : Text} {c : Char} {k : Kind}
    (hm : (c, k) ∈ Kind.marks) (ha : Admits expected k) :
    Lexeme.read expected (c :: rest) = .ok ⟨k, [c], 1⟩ := by
  have hf : Lexeme.fragment? expected c = none := by
    simp only [Lexeme.fragment?, Kind.fragments, List.find?_eq_none, List.mem_cons,
      List.not_mem_nil, or_false, Bool.and_eq_true, decide_eq_true_eq, List.contains_iff_mem]
    rintro p (rfl | rfl) ⟨rfl, he⟩
    · have hk : ∀ k, ('{', k) ∈ Kind.marks → k = .openBrace := by simp [Kind.marks]
      exact ha.2.1 (hk k hm) he
    · have hk : ∀ k, ('(', k) ∈ Kind.marks → k = .openParen := by simp [Kind.marks]
      exact ha.2.2 (hk k hm) he
  have hall : ∀ p ∈ Kind.marks, isNameStart p.1 = false ∧ Text.isAsciiDigit p.1 = false ∧
      Kind.marks.lookup p.1 = some p.2 := by decide
  obtain ⟨hn, hd, hl⟩ := hall _ hm
  simp only at hn hd hl
  simp only [Lexeme.read, hf, hn, hd, Bool.false_eq_true, ↓reduceIte, hl]

theorem fragment?_expected {expected : List Kind} {o c : Char} {k : Kind}
    (hm : (k, o, c) ∈ Kind.fragments) (he : k ∈ expected) :
    Lexeme.fragment? expected o = some (k, o, c) := by
  simp only [Kind.fragments, List.mem_cons, Prod.mk.injEq, List.not_mem_nil, or_false] at hm
  rcases hm with ⟨rfl, rfl, rfl⟩ | ⟨rfl, rfl, rfl⟩ <;> simp [Lexeme.fragment?, Kind.fragments, he]

theorem read_fragment {expected : List Kind} {rest content : Text} {o c : Char} {k : Kind}
    (hm : (k, o, c) ∈ Kind.fragments) (hs : Shortest o c (o :: (content ++ [c])))
    (ha : Admits expected k) :
    Lexeme.read expected (o :: (content ++ [c]) ++ rest) =
      .ok ⟨k, content, content.length + 2⟩ := by
  have hk : k = .block ∨ k = .expr := by
    have hall : ∀ p ∈ Kind.fragments, p.1 = .block ∨ p.1 = .expr := by decide
    exact hall _ hm
  have hf := fragment?_expected hm (ha.1 hk)
  have hcl := (shortest_iff (fragments_distinct hm)).mp hs
  have he := enclosed_complete (fragments_distinct hm) hcl rest
  simp only [List.cons_append, List.append_assoc, List.nil_append, Lexeme.read, hf, he]

/-- Every lexeme of the language is cut where it may stand. -/
theorem read_complete {expected : List Kind} {rest w v : Text} {k : Kind}
    (h : Spelling rest k w v) (ha : Admits expected k) :
    Lexeme.read expected (w ++ rest) = .ok ⟨k, v, w.length⟩ := by
  cases h with
  | word hm hr =>
    obtain ⟨c, u, rfl, hc, hu⟩ := words_spelled hm
    rw [read_word hc hu hr, ofWord_of_mem hm]
    rfl
  | name hc hu hn hr =>
    rw [read_word hc hu hr, ofWord_of_not_mem hn]
    rfl
  | int hne hd hr =>
    cases w with
    | nil => contradiction
    | cons c u =>
      exact read_int (hd c (by simp)) (fun d hu => hd d (by simp [hu])) hr
  | mark hm => exact read_mark hm ha
  | fragment hm hs =>
    rw [read_fragment hm hs ha]
    simp
  | eof hr =>
    subst hr
    rfl

/-- The first token of a text is the same whatever may be expected, unless a fragment could start
there. -/
theorem spelling_unique {rest rest' w w' v v' : Text} {k k' : Kind} (h : Spelling rest k w v)
    (h' : Spelling rest' k' w' v') (he : w ++ rest = w' ++ rest')
    (hk : k ∈ [Kind.state, .untilWord, .closeBrace]) :
    k' = k ∧ v' = v ∧ w'.length = w.length := by
  have hexpected : Admits [k'] k' := by
    refine ⟨fun _ => by simp, ?_, ?_⟩ <;> intro hk' <;> simp [hk']
  have hother : Admits [k'] k := by
    simp only [List.mem_cons, List.not_mem_nil, or_false] at hk
    rcases hk with rfl | rfl | rfl <;> simp [Admits]
  have hread := read_complete h hother
  rw [he, read_complete h' hexpected] at hread
  simp only [Except.ok.injEq, Lexeme.mk.injEq] at hread
  exact hread

end Language
end Statewright
