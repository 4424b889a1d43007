import Mathlib.Data.List.TakeWhile
import Statewright.Proofs.Shown

namespace Statewright.Code
open Statewright.Language (Ends)

/-- The characters that a number takes in. -/
def isNumeral (c : Char) : Bool :=
  isNameChar c || c == '.'

def isQuote (c : Char) : Bool :=
  c == '"' || c == '\''

/-- A character that stands alone whatever follows it. -/
def isPlain (c : Char) : Bool :=
  !(Text.isBlank c || isNameStart c || Text.isAsciiDigit c || isQuote c || c == '/' || c == '-')

/-- A character that no literal and no comment depends on. -/
def isQuiet (c : Char) : Bool :=
  !(isQuote c || c == '\\' || c == '/' || c == '*')

theorem quiet_of_blank {c : Char} (h : Text.isBlank c) : isQuiet c := by
  by_contra hq
  simp only [isQuiet, isQuote, Bool.not_eq_true', Bool.not_eq_false, Bool.or_eq_true,
    beq_iff_eq] at hq
  rcases hq with (((rfl | rfl) | rfl) | rfl) | rfl <;> exact absurd h (by decide)

theorem quiet_of_name {c : Char} (h : isNameChar c) : isQuiet c := by
  by_contra hq
  simp only [isQuiet, isQuote, Bool.not_eq_true', Bool.not_eq_false, Bool.or_eq_true,
    beq_iff_eq] at hq
  rcases hq with (((rfl | rfl) | rfl) | rfl) | rfl <;> exact absurd h (by decide)

theorem isNameChar_of_blank {c : Char} (h : Text.isBlank c) : isNameChar c = false := by
  by_contra hn
  simp only [isNameChar, Bool.not_eq_false, Bool.or_eq_true] at hn
  simp only [Text.isBlank, Bool.or_eq_true, Bool.and_eq_true, decide_eq_true_eq, beq_iff_eq] at h
  rcases hn with hn | hn
  · have := Language.isNameStart_toNat hn
    omega
  · have := Language.isAsciiDigit_toNat hn
    omega

theorem ends_nil (p : Char → Bool) : Ends p [] :=
  fun c hc => by cases hc

theorem ends_cons {p : Char → Bool} {c : Char} (h : p c = false) (t : Text) : Ends p (c :: t) := by
  intro d hd
  cases hd
  exact h

/-- The text that pieces make up. -/
def texts (ps : List Piece) : Text :=
  ps.flatMap Piece.text

@[simp] theorem texts_nil : texts [] = [] := rfl

@[simp] theorem texts_cons (p : Piece) (ps : List Piece) : texts (p :: ps) = p.text ++ texts ps :=
  rfl

@[simp] theorem texts_append (ps qs : List Piece) : texts (ps ++ qs) = texts ps ++ texts qs :=
  List.flatMap_append

/-- A piece before `rest`. Words, numbers and line comments take all the characters they can; what
could open a literal or a comment stands alone only if `rest` does not close it. -/
inductive Cut (rest : Text) : Piece → Prop
  | blank : Text.isBlank c → Cut rest ⟨.blank, [c]⟩
  | word : isNameStart c → (∀ d ∈ w, isNameChar d) → Ends isNameChar rest →
      Cut rest ⟨.word, c :: w⟩
  | number : Text.isAsciiDigit c → (∀ d ∈ w, isNumeral d) → Ends isNumeral rest →
      Cut rest ⟨.number, c :: w⟩
  | string : literalTail '"' u = some u → Cut rest ⟨.string, '"' :: u⟩
  | character : literalTail '\'' u = some u → Cut rest ⟨.character, '\'' :: u⟩
  | lineComment : '\n' ∉ body → Ends (· != '\n') rest → Cut rest ⟨.lineComment, '/' :: '/' :: body⟩
  | blockComment : commentTail u = some u → Cut rest ⟨.blockComment, '/' :: '*' :: u⟩
  | arrow : Cut rest ⟨.arrow, ['-', '>']⟩
  | quote : isQuote c → literalTail c rest = none → Cut rest ⟨.mark, [c]⟩
  | slash : Ends (· == '/') rest → (∀ u, rest = '*' :: u → commentTail u = none) →
      Cut rest ⟨.mark, ['/']⟩
  | dash : Ends (· == '>') rest → Cut rest ⟨.mark, ['-']⟩
  | mark : isPlain c → Cut rest ⟨.mark, [c]⟩

/-- Pieces that are cut one after the other. -/
inductive Tokens : List Piece → Prop
  | nil : Tokens []
  | cons : Cut (texts ps) p → Tokens ps → Tokens (p :: ps)

section Literals
variable {q c : Char} {t u : Text}

theorem quote_cases (h : isQuote q) : q = '"' ∨ q = '\'' := by
  simpa [isQuote] using h

theorem literalTail_escape (q c : Char) (t : Text) :
    literalTail q ('\\' :: c :: t) = (literalTail q t).map ('\\' :: c :: ·) := by
  simp only [literalTail]

theorem literalTail_close (hq : isQuote q) (t : Text) : literalTail q (q :: t) = some [q] := by
  rcases quote_cases hq with rfl | rfl <;> rfl

theorem literalTail_break (hq : isQuote q) (t : Text) : literalTail q ('\n' :: t) = none := by
  rcases quote_cases hq with rfl | rfl <;> rfl

theorem literalTail_other (h₁ : c ≠ q) (h₂ : c ≠ '\\') (h₃ : c ≠ '\n') (t : Text) :
    literalTail q (c :: t) = (literalTail q t).map (c :: ·) := by
  rw [literalTail.eq_def]
  split
  · rename_i heq
    exact absurd (List.cons.inj heq).1 h₂
  · rename_i heq
    obtain ⟨rfl, rfl⟩ := List.cons.inj heq
    rw [if_neg h₁, if_neg (by simp [h₂, h₃])]
  · contradiction

/-- A literal is closed by what it holds itself. -/
theorem literalTail_some (hq : isQuote q) (h : literalTail q t = some u) :
    (∃ rest, t = u ++ rest) ∧ ∀ rest, literalTail q (u ++ rest) = some u := by
  fun_induction literalTail q t generalizing u with
  | case1 c t ih =>
    obtain ⟨v, hv, rfl⟩ := Option.map_eq_some_iff.mp h
    obtain ⟨⟨rest, rfl⟩, hrest⟩ := ih hv
    refine ⟨⟨rest, rfl⟩, ?_⟩
    intro rest
    rw [List.cons_append, List.cons_append, literalTail_escape, hrest, Option.map_some]
  | case2 t hne =>
    cases h
    exact ⟨⟨t, rfl⟩, fun rest => literalTail_close hq rest⟩
  | case3 c t hne hc hstop => cases h
  | case4 c t hne hc hstop ih =>
    obtain ⟨v, hv, rfl⟩ := Option.map_eq_some_iff.mp h
    obtain ⟨⟨rest, rfl⟩, hrest⟩ := ih hv
    refine ⟨⟨rest, rfl⟩, ?_⟩
    intro rest
    rw [not_or] at hstop
    rw [List.cons_append, literalTail_other hc hstop.1 hstop.2, hrest, Option.map_some]
  | case5 => cases h

theorem literalTail_closed (hq : isQuote q) (h : literalTail q t = some u) :
    literalTail q u = some u := by
  simpa using (literalTail_some hq h).2 []

theorem commentTail_close (t : Text) : commentTail ('*' :: '/' :: t) = some ['*', '/'] := rfl

theorem commentTail_other (h : ∀ v, c = '*' → t ≠ '/' :: v) :
    commentTail (c :: t) = (commentTail t).map (c :: ·) := by
  rw [commentTail.eq_def]
  split
  · rename_i heq
    obtain ⟨rfl, rfl⟩ := List.cons.inj heq
    exact absurd rfl (h _ rfl)
  · rename_i heq
    obtain ⟨rfl, rfl⟩ := List.cons.inj heq
    rfl
  · contradiction

/-- A comment is closed by what it holds itself. -/
theorem commentTail_some (h : commentTail t = some u) :
    (∃ rest, t = u ++ rest) ∧ ∀ rest, commentTail (u ++ rest) = some u := by
  fun_induction commentTail t generalizing u with
  | case1 t =>
    cases h
    exact ⟨⟨t, rfl⟩, fun rest => rfl⟩
  | case2 c t hne ih =>
    obtain ⟨v, hv, rfl⟩ := Option.map_eq_some_iff.mp h
    obtain ⟨⟨rest, rfl⟩, hrest⟩ := ih hv
    refine ⟨⟨rest, rfl⟩, ?_⟩
    intro rest'
    have hother : ∀ w, c = '*' → v ++ rest' ≠ '/' :: w := by
      intro w hc hw
      cases v with
      | nil => cases hrest []
      | cons d v =>
        cases hw
        exact hne (v ++ rest) hc rfl
    rw [List.cons_append, commentTail_other hother, hrest, Option.map_some]
  | case3 => cases h

theorem commentTail_closed (h : commentTail t = some u) : commentTail u = some u := by
  simpa using (commentTail_some h).2 []

end Literals

section FirstPiece
variable {c : Char} {t rest : Text}

theorem firstPiece_blank (hc : Text.isBlank c) (t : Text) : firstPiece c t = ⟨.blank, [c]⟩ := by
  unfold firstPiece
  rw [if_pos hc]

theorem firstPiece_digit (hc : Text.isAsciiDigit c) (t : Text) :
    firstPiece c t = ⟨.number, c :: t.takeWhile isNumeral⟩ := by
  have hn := Language.isAsciiDigit_toNat hc
  have hb : Text.isBlank c = false := by
    simp only [Text.isBlank]
    simp
    omega
  have hs : isNameStart c = false := by
    by_contra h
    have := Language.isNameStart_toNat (Bool.not_eq_false _ ▸ h)
    omega
  unfold firstPiece
  rw [if_neg (by simp [hb]), if_neg (by simp [hs]), if_pos hc]
  rfl

theorem firstPiece_quote (hc : isQuote c) (t : Text) :
    firstPiece c t = ((literalTail c t).map fun u =>
      ⟨if c = '"' then .string else .character, c :: u⟩).getD ⟨.mark, [c]⟩ := by
  rcases quote_cases hc with rfl | rfl <;> rfl

theorem firstPiece_slashes (t : Text) :
    firstPiece '/' ('/' :: t) = ⟨.lineComment, '/' :: '/' :: t.takeWhile (· != '\n')⟩ := rfl

theorem firstPiece_star (t : Text) :
    firstPiece '/' ('*' :: t) =
      ((commentTail t).map fun v => ⟨.blockComment, '/' :: '*' :: v⟩).getD ⟨.mark, ['/']⟩ := rfl

theorem firstPiece_plain (hc : isPlain c) (t : Text) : firstPiece c t = ⟨.mark, [c]⟩ := by
  simp only [isPlain, isQuote, Bool.not_eq_true', Bool.or_eq_false_iff, beq_eq_false_iff_ne] at hc
  obtain ⟨⟨⟨⟨⟨hb, hs⟩, hd⟩, hq, hq'⟩, hslash⟩, hdash⟩ := hc
  unfold firstPiece
  rw [if_neg (by simp [hb]), if_neg (by simp [hs]), if_neg (by simp [hd]), if_neg hq, if_neg hq']
  split
  · exact absurd rfl hslash
  · exact absurd rfl hslash
  · exact absurd rfl hdash
  · rfl

theorem firstPiece_slash (h₁ : Ends (· == '/') t) (h₂ : Ends (· == '*') t) :
    firstPiece '/' t = ⟨.mark, ['/']⟩ := by
  unfold firstPiece
  rw [if_neg (by decide), if_neg (by decide), if_neg (by decide), if_neg (by decide),
    if_neg (by decide)]
  split
  · exact absurd (h₁ '/' rfl) (by decide)
  · exact absurd (h₂ '*' rfl) (by decide)
  · contradiction
  · rfl

theorem firstPiece_dash (h : Ends (· == '>') t) : firstPiece '-' t = ⟨.mark, ['-']⟩ := by
  unfold firstPiece
  rw [if_neg (by decide), if_neg (by decide), if_neg (by decide), if_neg (by decide),
    if_neg (by decide)]
  split
  · contradiction
  · contradiction
  · exact absurd (h '>' rfl) (by decide)
  · rfl

end FirstPiece

/-- What is cut before `rest` is the first piece there. -/
theorem Cut.first {rest : Text} {p : Piece} (h : Cut rest p) :
    ∃ c u, p.text = c :: u ∧ firstPiece c (u ++ rest) = p := by
  cases h with
  | blank hc => exact ⟨_, [], rfl, firstPiece_blank hc _⟩
  | word hc hw he =>
    refine ⟨_, _, rfl, ?_⟩
    rw [firstPiece_name hc, Language.takeWhile_munch hw he]
  | number hc hw he =>
    refine ⟨_, _, rfl, ?_⟩
    rw [firstPiece_digit hc, Language.takeWhile_munch hw he]
  | string hu =>
    refine ⟨_, _, rfl, ?_⟩
    rw [firstPiece_quote rfl, (literalTail_some rfl hu).2]
    rfl
  | character hu =>
    refine ⟨_, _, rfl, ?_⟩
    rw [firstPiece_quote rfl, (literalTail_some rfl hu).2]
    rfl
  | lineComment hb he =>
    refine ⟨_, _, rfl, ?_⟩
    have hbody : ∀ d ∈ _, (d != '\n') = true := fun d hd => by
      rw [bne_iff_ne]
      rintro rfl
      exact hb hd
    rw [List.cons_append, firstPiece_slashes, Language.takeWhile_munch hbody he]
  | blockComment hu =>
    refine ⟨_, _, rfl, ?_⟩
    rw [List.cons_append, firstPiece_star, (commentTail_some hu).2]
    rfl
  | arrow => exact ⟨_, _, rfl, rfl⟩
  | quote hc hn =>
    refine ⟨_, [], rfl, ?_⟩
    rw [firstPiece_quote hc, List.nil_append, hn]
    rfl
  | slash he hn =>
    refine ⟨_, [], rfl, ?_⟩
    rw [List.nil_append]
    cases rest with
    | nil => rfl
    | cons d u =>
      by_cases hd : d = '*'
      · subst hd
        rw [firstPiece_star, hn u rfl]
        rfl
      · exact firstPiece_slash he (by simpa [Ends] using hd)
  | dash he => exact ⟨_, [], rfl, firstPiece_dash he⟩
  | mark hc => exact ⟨_, [], rfl, firstPiece_plain hc _⟩

theorem Cut.loose {rest : Text} {c : Char} (h : Cut rest ⟨.mark, [c]⟩) (hc : isQuote c) :
    literalTail c rest = none := by
  cases h with
  | quote _ hn => exact hn
  | mark hp => simp [isPlain, hc] at hp
  | slash => exact absurd hc (by decide)
  | dash => exact absurd hc (by decide)

/-- The first piece of a text is cut before the rest of it. -/
theorem firstPiece_cut (c : Char) (t : Text) :
    ∃ u rest, (firstPiece c t).text = c :: u ∧ t = u ++ rest ∧ Cut rest (firstPiece c t) := by
  by_cases hb : Text.isBlank c
  · rw [firstPiece_blank hb]
    exact ⟨[], t, rfl, rfl, .blank hb⟩
  by_cases hs : isNameStart c
  · rw [firstPiece_name hs]
    exact ⟨_, t.dropWhile isNameChar, rfl, List.takeWhile_append_dropWhile.symm,
      .word hs (fun d hd => List.mem_takeWhile_imp hd) (Language.ends_dropWhile _ _)⟩
  by_cases hd : Text.isAsciiDigit c
  · rw [firstPiece_digit hd]
    exact ⟨_, t.dropWhile isNumeral, rfl, List.takeWhile_append_dropWhile.symm,
      .number hd (fun d hd => List.mem_takeWhile_imp hd) (Language.ends_dropWhile _ _)⟩
  by_cases hq : isQuote c
  · rw [firstPiece_quote hq]
    cases hl : literalTail c t with
    | none => exact ⟨[], t, rfl, rfl, .quote hq hl⟩
    | some u =>
      obtain ⟨⟨rest, hrest⟩, _⟩ := literalTail_some hq hl
      refine ⟨u, rest, rfl, hrest, ?_⟩
      have hclosed := literalTail_closed hq hl
      rcases quote_cases hq with rfl | rfl
      · exact .string hclosed
      · exact .character hclosed
  by_cases hslash : c = '/'
  · subst hslash
    by_cases hlong : Ends (· == '/') t ∧ Ends (· == '*') t
    · rw [firstPiece_slash hlong.1 hlong.2]
      refine ⟨[], t, rfl, rfl, .slash hlong.1 ?_⟩
      rintro u rfl
      exact absurd (hlong.2 '*' rfl) (by decide)
    · cases t with
      | nil => exact absurd ⟨ends_nil _, ends_nil _⟩ hlong
      | cons d u =>
        by_cases hd₁ : d = '/'
        · subst hd₁
          rw [firstPiece_slashes]
          refine ⟨_, u.dropWhile (· != '\n'), rfl, ?_,
            .lineComment ?_ (Language.ends_dropWhile _ _)⟩
          · rw [List.cons_append, List.takeWhile_append_dropWhile]
          · intro hm
            have hne := List.mem_takeWhile_imp hm
            contradiction
        · have hd₂ : d = '*' := by
            by_contra hne
            exact hlong ⟨by simpa [Ends] using hd₁, by simpa [Ends] using hne⟩
          subst hd₂
          rw [firstPiece_star]
          cases hv : commentTail u with
          | none =>
            refine ⟨[], '*' :: u, rfl, rfl, .slash (by simp [Ends]) ?_⟩
            rintro v hv'
            cases hv'
            exact hv
          | some v =>
            obtain ⟨⟨rest, hrest⟩, _⟩ := commentTail_some hv
            exact ⟨'*' :: v, rest, rfl, by rw [hrest, List.cons_append],
              .blockComment (commentTail_closed hv)⟩
  by_cases hdash : c = '-'
  · subst hdash
    by_cases he : Ends (· == '>') t
    · rw [firstPiece_dash he]
      exact ⟨[], t, rfl, rfl, .dash he⟩
    · cases t with
      | nil => exact absurd (ends_nil _) he
      | cons d u =>
        have hd' : d = '>' := by simpa [Ends] using he
        subst hd'
        exact ⟨['>'], u, rfl, rfl, .arrow⟩
  · have hplain : isPlain c := by simp [isPlain, hb, hs, hd, hq, hslash, hdash]
    rw [firstPiece_plain hplain]
    exact ⟨[], t, rfl, rfl, .mark hplain⟩

theorem pieces_cons {p : Piece} {rest : Text} (h : Cut rest p) :
    pieces (p.text ++ rest) = p :: pieces rest := by
  obtain ⟨c, u, hp, hf⟩ := h.first
  rw [hp, List.cons_append, pieces, hf, hp, List.length_cons, Nat.add_sub_cancel, List.drop_left]

/-- Cutting a text made up of pieces gives these pieces. -/
theorem Tokens.pieces_eq {ps : List Piece} (h : Tokens ps) : pieces (texts ps) = ps := by
  induction h with
  | nil => rw [texts_nil, pieces]
  | cons hp _ ih => rw [texts_cons, pieces_cons hp, ih]

/-- The pieces of a text make it up. -/
theorem tokens_pieces (t : Text) : texts (pieces t) = t ∧ Tokens (pieces t) := by
  fun_induction pieces t with
  | case1 => exact ⟨rfl, .nil⟩
  | case2 c t p ih =>
    obtain ⟨u, rest, hp, rfl, hcut⟩ := firstPiece_cut c t
    have hdrop : (u ++ rest).drop (p.text.length - 1) = rest := by
      rw [hp, List.length_cons, Nat.add_sub_cancel, List.drop_left]
    rw [hdrop] at ih ⊢
    refine ⟨?_, .cons ?_ ih.2⟩
    · rw [texts_cons, ih.1, hp, List.cons_append]
    · rw [ih.1]
      exact hcut

theorem pieces_eq_iff {t : Text} {ps : List Piece} :
    pieces t = ps ↔ texts ps = t ∧ Tokens ps := by
  constructor
  · rintro rfl
    exact tokens_pieces t
  · rintro ⟨rfl, h⟩
    exact h.pieces_eq

end Statewright.Code
