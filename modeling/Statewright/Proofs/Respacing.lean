import Mathlib.Data.List.Forall2
import Statewright.Proofs.Enclosure

namespace Statewright.Code
open Statewright.Language (Ends)

/-- One text is the other with each run of blanks exchanged, those between other characters as `R`
says and those at the end in any way. -/
inductive Respaced (R : Text → Text → Prop) : Text → Text → Prop
  | last : Text.allBlank b → Text.allBlank b' → Respaced R b b'
  | cons : R b b' → Text.allBlank b → Text.allBlank b' → Text.isBlank c = false →
      Respaced R t t' → Respaced R (b ++ c :: t) (b' ++ c :: t')

/-- A blank that moving code sideways leaves as it is. -/
def isSteady (c : Char) : Bool :=
  c != '\t' && !Text.isBreak c

/-- How a run of blanks may be exchanged. Behind a line end a margin of `m` spaces becomes one of
`k` spaces. -/
structure Run (m k : Nat) (b b' : Text) : Prop where
  empty : b = [] ↔ b' = []
  breaks : '\n' ∈ b → '\n' ∈ b'
  first : ∀ s, b = '\n' :: s → ∃ s', b' = '\n' :: s' ∧ ('\n' ∈ s → '\n' ∈ s')
  unbroken : (∀ c ∈ b, Text.isBreak c = false) → '\n' ∉ b'
  steady : (∀ c ∈ b, isSteady c) → b' = b
  margin : ∀ s, b = '\n' :: s → (∀ c ∈ s, isSteady c) →
    ∃ u, s = Text.spaces m ++ u ∧ b' = '\n' :: (Text.spaces k ++ u)

def Piece.isLiteral (p : Piece) : Bool :=
  p.shape = .string || p.shape = .character

/-- The string and character literals among pieces. -/
def literals (ps : List Piece) : List Piece :=
  ps.filter Piece.isLiteral

/-- A backslash is not followed by blanks that go on to the next line, unless by the line end. -/
def Firm (t : Text) : Prop :=
  ∀ a b c u, t = a ++ '\\' :: (b ++ c :: u) → Text.allBlank b → Text.isBlank c = false →
    '\n' ∈ b → b.head? = some '\n'

/-- A text without tabs whose only line breaks are newlines. -/
def Clean (t : Text) : Prop :=
  ∀ c ∈ t, c ≠ '\t' ∧ (Text.isBreak c → c = '\n')

instance (t : Text) : Decidable (Clean t) :=
  decidable_of_iff (t.all fun c => c != '\t' && (!Text.isBreak c || c == '\n'))
    (by simp [Clean, imp_iff_not_or])

/-- What becomes of a literal: its margins change, and nothing else. -/
structure Shifted (m k : Nat) (l l' : Text) : Prop where
  same : m = k ∨ '\n' ∉ l → l' = l
  length : l'.length + l.count '\n' * m = l.length + l.count '\n' * k

section Shifted
variable {m k : Nat} {l l' s s' : Text}

theorem Shifted.refl (h : '\n' ∉ l) : Shifted m k l l :=
  ⟨fun _ => rfl, by simp [List.count_eq_zero_of_not_mem h]⟩

theorem Shifted.append (h : Shifted m k l l') (h' : Shifted m k s s') :
    Shifted m k (l ++ s) (l' ++ s') := by
  constructor
  · intro hor
    rw [List.mem_append, not_or] at hor
    rw [h.same (hor.imp_right And.left), h'.same (hor.imp_right And.right)]
  · have hl := h.length
    have hs := h'.length
    rw [List.length_append, List.length_append, List.count_append, Nat.add_mul, Nat.add_mul]
    omega

theorem Shifted.cons {c : Char} (hc : c ≠ '\n') (h : Shifted m k l l') :
    Shifted m k (c :: l) (c :: l') :=
  (Shifted.refl (l := [c]) (by simpa using hc.symm)).append h

/-- A margin behind a line end. -/
theorem shifted_margin {u : Text} (hu : '\n' ∉ u) :
    Shifted m k ('\n' :: (Text.spaces m ++ u)) ('\n' :: (Text.spaces k ++ u)) := by
  refine ⟨fun hor => by rw [hor.resolve_right (by simp)], ?_⟩
  have hcount : ('\n' :: (Text.spaces m ++ u)).count '\n' = 1 := by
    rw [List.count_cons_self, List.count_append, List.count_eq_zero_of_not_mem hu,
      List.count_eq_zero_of_not_mem (by simp [Text.spaces])]
  rw [hcount]
  simp only [List.length_cons, List.length_append, Text.spaces, List.length_replicate]
  omega

/-- A literal that goes over a line end is unchanged exactly if the margins are the same. -/
theorem Shifted.eq_iff (h : Shifted m k l l') : l' = l ↔ ('\n' ∈ l → m = k) := by
  constructor
  · intro he hmem
    have hl := h.length
    rw [he, Nat.add_left_cancel_iff] at hl
    exact Nat.eq_of_mul_eq_mul_left (List.count_pos_iff.mpr hmem) hl
  · intro hm
    by_cases hmem : '\n' ∈ l
    · exact h.same (.inl (hm hmem))
    · exact h.same (.inr hmem)

end Shifted

section Runs
variable {R : Text → Text → Prop} {m k : Nat} {b b' t t' : Text} {c q : Char}

theorem run_nil (m k : Nat) : Run m k [] [] where
  empty := Iff.rfl
  breaks h := h
  first _ h := by cases h
  unbroken _ := List.not_mem_nil
  steady _ := rfl
  margin _ h := by cases h

theorem blank_quiet (h : Text.allBlank b) : ∀ e ∈ b, isQuiet e :=
  fun e he => quiet_of_blank (List.all_eq_true.mp h e he)

theorem literalTail_allBlank (hq : isQuote q) (h : Text.allBlank b) : literalTail q b = none :=
  literalTail_unquoted fun e he => (quiet_ne (blank_quiet h e he)).1 q hq

theorem commentTail_allBlank (h : Text.allBlank b) : commentTail b = none :=
  commentTail_slashless fun hm => (quiet_ne (blank_quiet h _ hm)).2.2.1 rfl

theorem ne_break_of_solid (hc : Text.isBlank c = false) : c ≠ '\n' := by
  rintro rfl
  cases hc

/-- The first character of a text that is no blank is that of the other. -/
theorem Respaced.solid (h : Respaced (Run m k) (c :: t) t') (hc : Text.isBlank c = false) :
    ∃ u, t' = c :: u ∧ Respaced (Run m k) t u := by
  generalize hs : c :: t = s at h
  cases h with
  | last hb _ =>
    subst hs
    rw [Text.allBlank, List.all_cons, hc] at hb
    cases hb
  | @cons b b' d s s' hR hb _ _ h =>
    cases b with
    | nil =>
      cases hs
      rw [hR.empty.mp rfl]
      exact ⟨s', rfl, h⟩
    | cons x b =>
      cases hs
      rw [Text.allBlank, List.all_cons, hc] at hb
      cases hb

theorem Respaced.ends {p : Char → Bool} (h : Respaced (Run m k) t t') (ht : Ends p t)
    (hp : ∀ c, Text.isBlank c → p c = false) : Ends p t' := by
  cases h with
  | last _ hb' =>
    intro c hc
    exact hp c (List.all_eq_true.mp hb' c (List.mem_of_mem_head? hc))
  | @cons b b' d t t' hR _ hb' _ _ =>
    cases b with
    | nil =>
      rw [hR.empty.mp rfl]
      exact ht
    | cons x b =>
      cases b' with
      | nil => cases hR.empty.mpr rfl
      | cons y b' => exact ends_cons (hp y (allBlank_cons.mp hb').1) _

theorem ends_beq_iff {x : Char} : Ends (· == x) t ↔ ∀ v, t ≠ x :: v := by
  cases t with
  | nil => simp [Ends]
  | cons c t => simp [Ends]

/-- A text that begins otherwise than with some character that is no blank still does. -/
theorem Respaced.begins_otherwise (h : Respaced (Run m k) t t') (hc : Text.isBlank c = false)
    (ht : ∀ v, t ≠ c :: v) : ∀ v, t' ≠ c :: v := by
  rw [← ends_beq_iff] at ht ⊢
  refine h.ends ht fun x hx => ?_
  rw [beq_eq_false_iff_ne]
  rintro rfl
  rw [hc] at hx
  cases hx

/-- Characters that are no blanks are taken alike from both texts. -/
theorem Respaced.munch {p : Char → Bool} (h : Respaced (Run m k) t t')
    (hp : ∀ c, Text.isBlank c → p c = false) :
    ∃ w v v', t = w ++ v ∧ t' = w ++ v' ∧ (∀ c ∈ w, p c) ∧ Ends p v ∧ Respaced (Run m k) v v' := by
  induction h with
  | @last b b' hb hb' =>
    refine ⟨[], b, b', rfl, rfl, by simp, ?_, .last hb hb'⟩
    intro c hc
    exact hp c (List.all_eq_true.mp hb c (List.mem_of_mem_head? hc))
  | @cons b b' c t t' hR hb hb' hc h ih =>
    cases b with
    | cons x b =>
      refine ⟨[], _, _, rfl, rfl, by simp, ?_, .cons hR hb hb' hc h⟩
      exact ends_cons (hp x (allBlank_cons.mp hb).1) _
    | nil =>
      by_cases hpc : p c = true
      · obtain ⟨w, v, v', rfl, rfl, hw, he, hv⟩ := ih
        refine ⟨c :: w, v, v', rfl, ?_, List.forall_mem_cons.mpr ⟨hpc, hw⟩, he, hv⟩
        rw [hR.empty.mp rfl]
        rfl
      · refine ⟨[], _, _, rfl, rfl, by simp, ?_, .cons hR hb hb' hc h⟩
        exact ends_cons (by simpa using hpc) _

end Runs

section Firm
variable {a b t : Text} {c : Char}

theorem Firm.suffix (h : Firm (a ++ t)) : Firm t := by
  intro x b c u he
  exact h (a ++ x) b c u (by rw [he, List.append_assoc])

theorem Firm.tail (h : Firm (c :: t)) : Firm t :=
  Firm.suffix (a := [c]) h

end Firm

section Literals
variable {m k : Nat} {t t' : Text} {q : Char}

/-- A quote that is not closed stays so. The second part is the same behind a backslash. -/
theorem Respaced.literalTail_none (hq : isQuote q) (h : Respaced (Run m k) t t') :
    (Firm t → literalTail q t = none → literalTail q t' = none) ∧
    (Firm ('\\' :: t) → literalTail q ('\\' :: t) = none → literalTail q ('\\' :: t') = none) := by
  induction h with
  | @last b b' _ hb' =>
    refine ⟨fun _ _ => literalTail_allBlank hq hb', fun _ hnone => ?_⟩
    cases b' with
    | nil => rcases quote_cases hq with rfl | rfl <;> rfl
    | cons x b' =>
      rw [literalTail_escape, literalTail_allBlank hq (allBlank_cons.mp hb').2]
      rfl
  | @cons b b' c t t' hR hb hb' hc h ih =>
    -- from a character that is no blank on
    have hsolid : Firm (c :: t) → literalTail q (c :: t) = none →
        literalTail q (c :: t') = none := by
      intro hfirm hnone
      by_cases hquote : c = q
      · subst hquote
        rw [literalTail_close hq] at hnone
        cases hnone
      by_cases hslash : c = '\\'
      · subst hslash
        exact ih.2 hfirm hnone
      rw [literalTail_other hquote hslash (ne_break_of_solid hc), Option.map_eq_none_iff] at hnone ⊢
      exact ih.1 hfirm.tail hnone
    refine ⟨?_, ?_⟩
    · intro hfirm hnone
      by_cases hbreak' : '\n' ∈ b'
      · exact literalTail_spread hq (blank_quiet hb') hbreak' _
      have hbreak : '\n' ∉ b := fun hm => hbreak' (hR.breaks hm)
      rw [literalTail_quiet hq (blank_quiet hb) hbreak, Option.map_eq_none_iff] at hnone
      rw [literalTail_quiet hq (blank_quiet hb') hbreak', hsolid hfirm.suffix hnone]
      rfl
    · intro hfirm hnone
      cases b with
      | nil =>
        rw [hR.empty.mp rfl]
        rw [List.nil_append, literalTail_escape, Option.map_eq_none_iff] at hnone ⊢
        exact ih.1 hfirm.tail.tail hnone
      | cons x r =>
        cases b' with
        | nil => cases hR.empty.mpr rfl
        | cons y r' =>
          have hr := blank_quiet (allBlank_cons.mp hb).2
          have hr' := blank_quiet (allBlank_cons.mp hb').2
          rw [List.cons_append, literalTail_escape, Option.map_eq_none_iff] at hnone ⊢
          by_cases hbreak' : '\n' ∈ r'
          · exact literalTail_spread hq hr' hbreak' _
          have hbreak : '\n' ∉ r := by
            intro hm
            have hx := hfirm [] (x :: r) c t rfl hb hc (List.mem_cons_of_mem x hm)
            obtain ⟨s', he, hs'⟩ := hR.first r (by rw [← Option.some.inj hx])
            cases he
            exact hbreak' (hs' hm)
          rw [literalTail_quiet hq hr hbreak, Option.map_eq_none_iff] at hnone
          rw [literalTail_quiet hq hr' hbreak', hsolid hfirm.tail.suffix hnone]
          rfl

/-- The rest of a literal comes out with its margins shifted, and what follows it respaced. -/
structure Closed (m k : Nat) (q : Char) (t t' l : Text) : Prop where
  split : ∃ l' v v', t = l ++ v ∧ t' = l' ++ v' ∧ literalTail q t' = some l' ∧
    Shifted m k l l' ∧ Respaced (Run m k) v v'

theorem Closed.cons {c : Char} {l : Text} (hc : c ≠ '\n')
    (hstep : ∀ u, literalTail q (c :: u) = (literalTail q u).map (c :: ·))
    (h : Closed m k q t t' l) : Closed m k q (c :: t) (c :: t') (c :: l) := by
  obtain ⟨l', v, v', rfl, rfl, htail, hshift, hv⟩ := h.split
  refine ⟨c :: l', v, v', rfl, rfl, ?_, hshift.cons hc, hv⟩
  rw [hstep, htail]
  rfl

theorem Closed.blanks {b b' l : Text} (hq : isQuote q) (hb : '\n' ∉ b') (hb' : Text.allBlank b')
    (hshift : Shifted m k b b') (h : Closed m k q t t' l) :
    Closed m k q (b ++ t) (b' ++ t') (b ++ l) := by
  obtain ⟨l', v, v', rfl, rfl, htail, hl, hv⟩ := h.split
  refine ⟨b' ++ l', v, v', by simp, by simp, ?_, hshift.append hl, hv⟩
  rw [literalTail_quiet hq (blank_quiet hb') hb, htail]
  rfl

theorem clean_steady {b : Text} (h : Clean b) (hb : '\n' ∉ b) : ∀ c ∈ b, isSteady c := by
  intro c hc
  have hbreak : Text.isBreak c = false := by
    refine Bool.eq_false_iff.mpr fun hbreak => hb ?_
    rw [← (h c hc).2 hbreak]
    exact hc
  simp [isSteady, (h c hc).1, hbreak]

theorem Clean.of_append {a b : Text} (h : Clean (a ++ b)) : Clean a ∧ Clean b :=
  List.forall_mem_append.mp h

/-- Blanks of which the first is escaped. -/
theorem Run.shifted {x y : Char} {r r' : Text} (h : Run m k (x :: r) (y :: r'))
    (hclean : Clean (x :: r)) (hr : '\n' ∉ r) : '\n' ∉ r' ∧ Shifted m k (x :: r) (y :: r') := by
  by_cases hx : x = '\n'
  · subst hx
    obtain ⟨u, rfl, he⟩ := h.margin r rfl (clean_steady (hclean.of_append (a := ['\n'])).2 hr)
    cases he
    have hu : '\n' ∉ u := fun hm => hr (List.mem_append_right _ hm)
    refine ⟨?_, shifted_margin hu⟩
    rw [List.mem_append, not_or]
    exact ⟨by simp [Text.spaces], hu⟩
  · have hbreak : '\n' ∉ x :: r := by
      rw [List.mem_cons, not_or]
      exact ⟨fun he => hx he.symm, hr⟩
    cases h.steady (clean_steady hclean hbreak)
    exact ⟨hr, .refl hbreak⟩

/-- A literal without tabs and foreign line breaks stays one. The second part is the same behind a
backslash. -/
theorem Respaced.literalTail_some (hq : isQuote q) (h : Respaced (Run m k) t t') :
    (∀ l, Firm t → literalTail q t = some l → Clean l → Closed m k q t t' l) ∧
    (∀ l, Firm ('\\' :: t) → literalTail q ('\\' :: t) = some l → Clean l →
      Closed m k q ('\\' :: t) ('\\' :: t') l) := by
  induction h with
  | @last b b' hb _ =>
    refine ⟨fun l _ hsome _ => ?_, fun l _ hsome _ => ?_⟩
    · rw [literalTail_allBlank hq hb] at hsome
      cases hsome
    · cases b with
      | nil => rcases quote_cases hq with rfl | rfl <;> cases hsome
      | cons x b =>
        rw [literalTail_escape, literalTail_allBlank hq (allBlank_cons.mp hb).2] at hsome
        cases hsome
  | @cons b b' c t t' hR hb hb' hc h ih =>
    -- from a character that is no blank on
    have hsolid : ∀ l, Firm (c :: t) → literalTail q (c :: t) = some l → Clean l →
        Closed m k q (c :: t) (c :: t') l := by
      intro l hfirm hsome hclean
      by_cases hquote : c = q
      · subst hquote
        rw [literalTail_close hq] at hsome
        cases hsome
        exact ⟨[c], t, t', rfl, rfl, literalTail_close hq _,
          .refl (by simpa using (ne_break_of_solid hc).symm), h⟩
      by_cases hslash : c = '\\'
      · subst hslash
        exact ih.2 l hfirm hsome hclean
      have hother := literalTail_other hquote hslash (ne_break_of_solid hc)
      rw [hother, Option.map_eq_some_iff] at hsome
      obtain ⟨l, hsome, rfl⟩ := hsome
      exact (ih.1 l hfirm.tail hsome (hclean.of_append (a := [c])).2).cons (ne_break_of_solid hc)
        hother
    refine ⟨?_, ?_⟩
    · intro l hfirm hsome hclean
      have hbreak : '\n' ∉ b := by
        intro hm
        rw [literalTail_spread hq (blank_quiet hb) hm] at hsome
        cases hsome
      rw [literalTail_quiet hq (blank_quiet hb) hbreak, Option.map_eq_some_iff] at hsome
      obtain ⟨l, hsome, rfl⟩ := hsome
      obtain ⟨hclean, hl⟩ := hclean.of_append
      obtain rfl := hR.steady (clean_steady hclean hbreak)
      exact (hsolid l hfirm.suffix hsome hl).blanks hq hbreak hb (.refl hbreak)
    · intro l hfirm hsome hclean
      cases b with
      | nil =>
        rw [hR.empty.mp rfl]
        rw [List.nil_append, literalTail_escape, Option.map_eq_some_iff] at hsome
        obtain ⟨l, hsome, rfl⟩ := hsome
        obtain ⟨l', v, v', rfl, rfl, htail, hshift, hv⟩ :=
          (ih.1 l hfirm.tail.tail hsome (hclean.of_append (a := ['\\', c])).2).split
        refine ⟨'\\' :: c :: l', v, v', rfl, rfl, ?_, ?_, hv⟩
        · rw [List.nil_append, literalTail_escape, htail]
          rfl
        · exact (hshift.cons (ne_break_of_solid hc)).cons (by decide)
      | cons x r =>
        cases b' with
        | nil => cases hR.empty.mpr rfl
        | cons y r' =>
          rw [List.cons_append, literalTail_escape, Option.map_eq_some_iff] at hsome
          obtain ⟨l, hsome, rfl⟩ := hsome
          have hbreak : '\n' ∉ r := by
            intro hm
            rw [literalTail_spread hq (blank_quiet (allBlank_cons.mp hb).2) hm] at hsome
            cases hsome
          rw [literalTail_quiet hq (blank_quiet (allBlank_cons.mp hb).2) hbreak,
            Option.map_eq_some_iff] at hsome
          obtain ⟨l, hsome, rfl⟩ := hsome
          obtain ⟨hrun, hl⟩ := (hclean.of_append (a := ['\\'])).2.of_append (a := x :: r)
          obtain ⟨hbreak', hshift⟩ := hR.shifted hrun hbreak
          obtain ⟨l', v, v', hv, hv', htail, hlast, hrest⟩ :=
            (hsolid l hfirm.tail.suffix hsome hl).split
          refine ⟨'\\' :: y :: (r' ++ l'), v, v', by simp [hv], by simp [hv'], ?_, ?_, hrest⟩
          · rw [List.cons_append, literalTail_escape,
              literalTail_quiet hq (blank_quiet (allBlank_cons.mp hb').2) hbreak', htail]
            rfl
          · exact (hshift.append hlast).cons (by decide)

end Literals

section Comments
variable {m k : Nat} {t t' : Text}

/-- Whether a comment is closed does not change. -/
theorem Respaced.commentTail (h : Respaced (Run m k) t t') :
    (Code.commentTail t = none → Code.commentTail t' = none) ∧
    ∀ l, Code.commentTail t = some l → ∃ l' v v', t = l ++ v ∧ t' = l' ++ v' ∧
      Code.commentTail t' = some l' ∧ Respaced (Run m k) v v' := by
  induction h with
  | last hb hb' =>
    refine ⟨fun _ => commentTail_allBlank hb', fun l hsome => ?_⟩
    rw [commentTail_allBlank hb] at hsome
    cases hsome
  | @cons b b' c t t' hR hb hb' hc h ih =>
    rw [commentTail_quiet (blank_quiet hb), commentTail_quiet (blank_quiet hb')]
    by_cases hclose : ∃ u, c = '*' ∧ t = '/' :: u
    · obtain ⟨u, rfl, rfl⟩ := hclose
      obtain ⟨u', rfl, hu⟩ := h.solid rfl
      rw [commentTail_close, commentTail_close]
      refine ⟨fun hnone => (by cases hnone), fun l hsome => ?_⟩
      cases hsome
      exact ⟨b' ++ ['*', '/'], u, u', by simp, by simp, rfl, hu⟩
    · have hother : ∀ v, c = '*' → t ≠ '/' :: v := fun v hc ht => hclose ⟨v, hc, ht⟩
      have hother' : ∀ v, c = '*' → t' ≠ '/' :: v := fun v hstar =>
        h.begins_otherwise rfl (fun v => hother v hstar) v
      rw [commentTail_other hother, commentTail_other hother']
      refine ⟨fun hnone => ?_, fun l hsome => ?_⟩
      · rw [Option.map_eq_none_iff, Option.map_eq_none_iff] at hnone
        rw [ih.1 hnone]
        rfl
      · rw [Option.map_map, Option.map_eq_some_iff] at hsome
        obtain ⟨l, hsome, rfl⟩ := hsome
        obtain ⟨l', v, v', rfl, rfl, htail, hv⟩ := ih.2 l hsome
        refine ⟨b' ++ c :: l', v, v', by simp, by simp, ?_, hv⟩
        rw [htail]
        rfl

/-- Both texts are the same from some character on that is no blank, but for blanks. -/
def Resumes (m k : Nat) (t t' : Text) : Prop :=
  ∃ b b' v v', t = b ++ v ∧ t' = b' ++ v' ∧ Text.allBlank b ∧ Text.allBlank b' ∧
    Respaced (Run m k) v v'

theorem Respaced.resumes (h : Respaced (Run m k) t t') : Resumes m k t t' :=
  ⟨[], [], t, t', rfl, rfl, rfl, rfl, h⟩

/-- A line comment without line breaks ends in the same line. -/
theorem Respaced.line (h : Respaced (Run m k) t t')
    (ht : ∀ c ∈ t.takeWhile (· != '\n'), Text.isBreak c = false) :
    Resumes m k (t.dropWhile (· != '\n')) (t'.dropWhile (· != '\n')) := by
  have hdrop {b : Text} (hb : Text.allBlank b) : Text.allBlank (b.dropWhile (· != '\n')) :=
    List.all_eq_true.mpr fun c hc =>
      List.all_eq_true.mp hb c ((List.dropWhile_sublist _).subset hc)
  have hpass {b : Text} (hb : '\n' ∉ b) : ∀ c ∈ b, (c != '\n') = true := by
    intro c hc
    rw [bne_iff_ne]
    rintro rfl
    exact hb hc
  induction h with
  | last hb hb' =>
    exact ⟨_, _, [], [], (List.append_nil _).symm, (List.append_nil _).symm, hdrop hb, hdrop hb',
      .last rfl rfl⟩
  | @cons b b' c t t' hR hb hb' hc h ih =>
    by_cases hbreak : '\n' ∈ b
    · have hend {b : Text} (u : Text) (hm : '\n' ∈ b) :
          (b ++ u).dropWhile (· != '\n') = b.dropWhile (· != '\n') ++ u := by
        rw [List.dropWhile_append, if_neg]
        rw [List.isEmpty_iff, List.dropWhile_eq_nil_iff]
        intro hall
        simpa using hall '\n' hm
      refine ⟨_, _, c :: t, c :: t', hend _ hbreak, hend _ (hR.breaks hbreak), hdrop hb, hdrop hb',
        ?_⟩
      exact .cons (run_nil m k) rfl rfl hc h
    · have hcn : (c != '\n') = true := by simpa using ne_break_of_solid hc
      rw [List.takeWhile_append_of_pos (hpass hbreak), List.takeWhile_cons, if_pos hcn,
        List.forall_mem_append, List.forall_mem_cons] at ht
      have hbreak' : '\n' ∉ b' := hR.unbroken ht.1
      rw [List.dropWhile_append_of_pos (hpass hbreak), List.dropWhile_append_of_pos (hpass hbreak'),
        List.dropWhile_cons, if_pos hcn, List.dropWhile_cons, if_pos hcn]
      exact ih ht.2.2

end Comments

/-- Code that can be respaced. -/
structure Tame (t : Text) : Prop where
  firm : Firm t
  literals : ∀ p ∈ pieces t, p.isLiteral → Clean p.text
  comments : ∀ p ∈ pieces t, p.shape = .lineComment → ∀ c ∈ p.text, Text.isBreak c = false

/-- A piece and what becomes of it. -/
structure Twin (m k : Nat) (p p' : Piece) : Prop where
  shape : p'.shape = p.shape
  text : p.isLiteral → Shifted m k p.text p'.text

theorem Twin.refl {m k : Nat} {p : Piece} (h : p.isLiteral = false) : Twin m k p p :=
  ⟨rfl, fun hp => by rw [h] at hp; cases hp⟩

theorem Twin.isLiteral {m k : Nat} {p p' : Piece} (h : Twin m k p p') :
    p'.isLiteral = p.isLiteral := by
  rw [Piece.isLiteral, Piece.isLiteral, h.shape]

theorem literals_cons (p : Piece) (ps : List Piece) :
    literals (p :: ps) = if p.isLiteral then p :: literals ps else literals ps :=
  List.filter_cons

/-- Pieces that stand first in two texts, and what follows them. -/
structure Step (m k : Nat) (t t' : Text) : Prop where
  split : ∃ p p' v v', t = p.text ++ v ∧ t' = p'.text ++ v' ∧ Cut v p ∧ Cut v' p' ∧
    Twin m k p p' ∧ Resumes m k v v'

section Steps
variable {m k : Nat} {t t' u u' : Text} {c : Char}

theorem Tame.of_cut {p : Piece} {v : Text} (h : Tame (p.text ++ v)) (hp : Cut v p) :
    Tame v ∧ (p.isLiteral → Clean p.text) ∧
      (p.shape = .lineComment → ∀ c ∈ p.text, Text.isBreak c = false) := by
  obtain ⟨hfirm, hliterals, hcomments⟩ := h
  rw [pieces_cons hp, List.forall_mem_cons] at hliterals hcomments
  exact ⟨⟨hfirm.suffix, hliterals.2, hcomments.2⟩, hliterals.1, hcomments.1⟩

theorem Tame.of_blanks {b : Text} (hb : Text.allBlank b) (h : Tame (b ++ t)) : Tame t := by
  obtain ⟨hfirm, hliterals, hcomments⟩ := h
  rw [pieces_blanks hb, List.forall_mem_append] at hliterals hcomments
  exact ⟨hfirm.suffix, hliterals.2, hcomments.2⟩

theorem step_same {p : Piece} {v v' : Text} (hp : p.isLiteral = false) (ht : t = p.text ++ v)
    (ht' : t' = p.text ++ v') (hcut : Cut v p) (hcut' : Cut v' p) (h : Resumes m k v v') :
    Step m k t t' :=
  ⟨p, p, v, v', ht, ht', hcut, hcut', .refl hp, h⟩

theorem step_quote (hq : isQuote c) (h : Respaced (Run m k) u u') (ht : Tame (c :: u)) :
    Step m k (c :: u) (c :: u') := by
  cases hl : literalTail c u with
  | none =>
    have hl' := (h.literalTail_none hq).1 ht.firm.tail hl
    exact step_same (p := ⟨.mark, [c]⟩) rfl rfl rfl (.quote hq hl) (.quote hq hl') h.resumes
  | some l =>
    obtain ⟨shape, hshape, hcut⟩ : ∃ shape, (shape = .string ∨ shape = .character) ∧
        ∀ {v l}, literalTail c l = some l → Cut v ⟨shape, c :: l⟩ := by
      rcases quote_cases hq with rfl | rfl
      · exact ⟨.string, .inl rfl, fun h => .string h⟩
      · exact ⟨.character, .inr rfl, fun h => .character h⟩
    have hliteral : Piece.isLiteral ⟨shape, c :: l⟩ := by
      rcases hshape with rfl | rfl <;> rfl
    obtain ⟨⟨v, rfl⟩, _⟩ := literalTail_some hq hl
    have hcut₁ : Cut v ⟨shape, c :: l⟩ := hcut (literalTail_closed hq hl)
    obtain ⟨_, hclean, _⟩ := Tame.of_cut (p := ⟨shape, c :: l⟩) ht hcut₁
    obtain ⟨l', v₁, v', he, rfl, hl', hshift, hv⟩ := ((h.literalTail_some hq).1 l ht.firm.tail hl
      ((hclean hliteral).of_append (a := [c])).2).split
    obtain rfl := List.append_cancel_left he
    refine ⟨⟨shape, c :: l⟩, ⟨shape, c :: l'⟩, v, v', rfl, rfl, hcut₁,
      hcut (literalTail_closed hq hl'), ⟨rfl, fun _ => hshift.cons ?_⟩, hv.resumes⟩
    rintro rfl
    cases hq

theorem step_slash (h : Respaced (Run m k) u u') (ht : Tame ('/' :: u)) :
    Step m k ('/' :: u) ('/' :: u') := by
  by_cases hslash : ∃ v, u = '/' :: v
  · obtain ⟨v, rfl⟩ := hslash
    obtain ⟨v', rfl, hv⟩ := h.solid rfl
    have hsplit (v : Text) : '/' :: '/' :: v =
        (⟨.lineComment, '/' :: '/' :: v.takeWhile (· != '\n')⟩ : Piece).text ++
          v.dropWhile (· != '\n') := by
      simp
    have hcut (v : Text) : Cut (v.dropWhile (· != '\n'))
        ⟨.lineComment, '/' :: '/' :: v.takeWhile (· != '\n')⟩ := by
      refine .lineComment ?_ (Language.ends_dropWhile _ _)
      intro hm
      simpa using List.mem_takeWhile_imp hm
    rw [hsplit v] at ht
    obtain ⟨_, _, hbreak⟩ := ht.of_cut (hcut v)
    have hbody := hbreak rfl
    refine ⟨_, _, _, _, hsplit v, hsplit v', hcut v, hcut v', ⟨rfl, fun hp => by cases hp⟩, ?_⟩
    exact hv.line fun c hc => hbody c (by simp [hc])
  rw [not_exists] at hslash
  have hends := ends_beq_iff.mpr hslash
  have hends' := ends_beq_iff.mpr (h.begins_otherwise rfl hslash)
  by_cases hstar : ∃ v, u = '*' :: v
  · obtain ⟨v, rfl⟩ := hstar
    obtain ⟨v', rfl, hv⟩ := h.solid rfl
    cases hl : commentTail v with
    | none =>
      have hl' := hv.commentTail.1 hl
      refine step_same (p := ⟨.mark, ['/']⟩) rfl rfl rfl (.slash hends ?_) (.slash hends' ?_)
        h.resumes
      · intro w hw
        cases hw
        exact hl
      · intro w hw
        cases hw
        exact hl'
    | some l =>
      obtain ⟨l', w, w', rfl, rfl, hl', hw⟩ := hv.commentTail.2 l hl
      exact ⟨⟨.blockComment, '/' :: '*' :: l⟩, ⟨.blockComment, '/' :: '*' :: l'⟩, w, w', rfl, rfl,
        .blockComment (commentTail_closed hl), .blockComment (commentTail_closed hl'),
        ⟨rfl, fun hp => by cases hp⟩, hw.resumes⟩
  · rw [not_exists] at hstar
    have hstar' := h.begins_otherwise rfl hstar
    exact step_same (p := ⟨.mark, ['/']⟩) rfl rfl rfl
      (.slash hends fun w hw => absurd hw (hstar w))
      (.slash hends' fun w hw => absurd hw (hstar' w)) h.resumes

theorem step_dash (h : Respaced (Run m k) u u') : Step m k ('-' :: u) ('-' :: u') := by
  by_cases hmore : ∃ v, u = '>' :: v
  · obtain ⟨v, rfl⟩ := hmore
    obtain ⟨v', rfl, hv⟩ := h.solid rfl
    exact step_same (p := ⟨.arrow, ['-', '>']⟩) rfl rfl rfl .arrow .arrow hv.resumes
  · rw [not_exists] at hmore
    exact step_same (p := ⟨.mark, ['-']⟩) rfl rfl rfl (.dash (ends_beq_iff.mpr hmore))
      (.dash (ends_beq_iff.mpr (h.begins_otherwise rfl hmore))) h.resumes

/-- The first pieces of two texts that begin with the same character. -/
theorem step (hc : Text.isBlank c = false) (h : Respaced (Run m k) u u') (ht : Tame (c :: u)) :
    Step m k (c :: u) (c :: u') := by
  by_cases hs : isNameStart c
  · obtain ⟨w, v, v', rfl, rfl, hw, he, hv⟩ := h.munch fun x => isNameChar_of_blank
    have he' := hv.ends he fun x => isNameChar_of_blank
    exact step_same (p := ⟨.word, c :: w⟩) rfl rfl rfl (.word hs hw he) (.word hs hw he') hv.resumes
  by_cases hd : Text.isAsciiDigit c
  · obtain ⟨w, v, v', rfl, rfl, hw, he, hv⟩ := h.munch fun x => isNumeral_of_blank
    have he' := hv.ends he fun x => isNumeral_of_blank
    exact step_same (p := ⟨.number, c :: w⟩) rfl rfl rfl (.number hd hw he) (.number hd hw he')
      hv.resumes
  by_cases hq : isQuote c
  · exact step_quote hq h ht
  by_cases hslash : c = '/'
  · subst hslash
    exact step_slash h ht
  by_cases hdash : c = '-'
  · subst hdash
    exact step_dash h
  · have hplain : isPlain c := by simp [isPlain, hc, hs, hd, hq, hslash, hdash]
    exact step_same (p := ⟨.mark, [c]⟩) rfl rfl rfl (.mark hplain) (.mark hplain) h.resumes

theorem literals_blanks {b : Text} (hb : Text.allBlank b) (t : Text) :
    literals (pieces (b ++ t)) = literals (pieces t) := by
  have hnone : literals (blanks b) = [] :=
    List.filter_eq_nil_iff.mpr fun p hp => by
      obtain ⟨c, _, rfl⟩ := List.mem_map.mp hp
      exact Bool.false_ne_true
  rw [pieces_blanks hb, literals, List.filter_append]
  exact congrArg (· ++ literals (pieces t)) hnone

theorem literals_allBlank {b : Text} (hb : Text.allBlank b) : literals (pieces b) = [] := by
  have hnone := literals_blanks hb []
  rwa [List.append_nil, pieces] at hnone

/-- The literals of code that is respaced are those of the code, with their margins shifted. -/
theorem Respaced.literals (h : Respaced (Run m k) t t') (ht : Tame t) :
    List.Forall₂ (Twin m k) (literals (pieces t)) (literals (pieces t')) := by
  induction hn : t.length using Nat.strong_induction_on generalizing t t' with
  | _ n ih =>
    subst hn
    cases h with
    | @last b b' hb hb' =>
      rw [literals_allBlank hb, literals_allBlank hb']
      exact .nil
    | @cons b b' c u u' hR hb hb' hc h =>
      rw [literals_blanks hb, literals_blanks hb']
      have htame := ht.of_blanks hb
      obtain ⟨p, p', v, v', he, he', hcut, hcut', htwin, hresumes⟩ := (step hc h htame).split
      rw [he] at htame
      obtain ⟨a, a', x, x', rfl, rfl, ha, ha', hx⟩ := hresumes
      have hshort : x.length < (b ++ c :: u).length := by
        have hpos := List.length_pos_iff.mpr hcut.text_ne_nil
        rw [he]
        simp only [List.length_append]
        omega
      have hrest := ih _ hshort hx ((htame.of_cut hcut).1.of_blanks ha) rfl
      rw [he, he', pieces_cons hcut, pieces_cons hcut', literals_cons, literals_cons,
        literals_blanks ha, literals_blanks ha', htwin.isLiteral]
      cases p.isLiteral with
      | true => exact .cons htwin hrest
      | false => exact hrest

/-- They are the same exactly if the margins are, or no literal goes over a line end. -/
theorem twins_eq_iff {ps ps' : List Piece} (h : List.Forall₂ (Twin m k) ps ps')
    (hps : ∀ p ∈ ps, p.isLiteral) : ps' = ps ↔ ∀ p ∈ ps, '\n' ∈ p.text → m = k := by
  induction h with
  | nil => simp
  | @cons p p' ps ps' hp _ ih =>
    rw [List.forall_mem_cons] at hps
    have hsame : p' = p ↔ ('\n' ∈ p.text → m = k) := by
      rw [← (hp.text hps.1).eq_iff]
      constructor
      · rintro rfl
        rfl
      · intro ht
        obtain ⟨shape, text⟩ := p
        obtain ⟨shape', text'⟩ := p'
        cases hp.shape
        cases ht
        rfl
    rw [List.cons.injEq, hsame, ih hps.2, List.forall_mem_cons]

end Steps
end Statewright.Code
