import Statewright.Proofs.Edits

namespace Statewright.Code
open Statewright.Language (Ends)

/-- An identifier of C. -/
def isIdentifier : Text → Bool
  | [] => false
  | c :: w => isNameStart c && w.all isNameChar

/-- What stands before the next piece, once a piece is passed. -/
def passed (before : Option Text) (p : Piece) : Option Text :=
  if p.isTransparent then before else some p.text

/-- Whether a piece refers to a declaration, given what stands before it. -/
def refers (before : Option Text) (p : Piece) : Bool :=
  Placed.isReference ⟨0, before, p⟩

/-- The names that pieces refer to, in order. -/
def mentions (before : Option Text) : List Piece → List Text
  | [] => []
  | p :: ps => (if refers before p then [p.text] else []) ++ mentions (passed before p) ps

def machineWord : Piece := ⟨.word, ['f', 's', 'm']⟩

def arrowPiece : Piece := ⟨.arrow, ['-', '>']⟩

/-- The pieces with the machine's data before every reference to one of the names. -/
def qualifiedPieces (names : List Text) (before : Option Text) : List Piece → List Piece
  | [] => []
  | p :: ps =>
    (if refers before p && names.contains p.text then [machineWord, arrowPiece, p] else [p]) ++
      qualifiedPieces names (passed before p) ps

theorem mentions_place (offset : Nat) (before : Option Text) (ps : List Piece) :
    ((place offset before ps).filter Placed.isReference).map (fun p => p.piece.text) =
      mentions before ps := by
  induction ps generalizing offset before with
  | nil => rfl
  | cons p ps ih =>
    rw [place, List.filter_cons, mentions]
    have hrefers : Placed.isReference ⟨offset, before, p⟩ = refers before p := rfl
    rw [hrefers]
    cases refers before p with
    | true =>
      rw [if_pos rfl, if_pos rfl, List.map_cons, ih]
      rfl
    | false =>
      rw [if_neg Bool.false_ne_true, if_neg Bool.false_ne_true, ih]
      rfl

theorem mentions_eq (t : Text) : (references t).map (·.2) = mentions none (pieces t) := by
  rw [references, List.map_map, ← mentions_place 0]
  rfl

theorem qualify_eq (names : List Text) (t : Text) :
    qualify names t = texts (qualifiedPieces names none (pieces t)) := by
  have h (offset : Nat) (before : Option Text) (ps : List Piece) :
      (place offset before ps).flatMap (fun p =>
        if p.isReference && names.contains p.piece.text then ("fsm->" : Text) ++ p.piece.text
        else p.piece.text) = texts (qualifiedPieces names before ps) := by
    induction ps generalizing offset before with
    | nil => rfl
    | cons p ps ih =>
      have hrefers : Placed.isReference ⟨offset, before, p⟩ = refers before p := rfl
      rw [place, List.flatMap_cons, ih, qualifiedPieces, texts_append, hrefers]
      cases refers before p && names.contains p.text with
      | true => simp [machineWord, arrowPiece, passed]
      | false => simp [passed]
  exact h 0 none (pieces t)

section Words
variable {c : Char} {rest : Text} {p : Piece}

/-- A piece that begins like a name is a word. -/
theorem Cut.word_of_start (h : Cut rest p) (hp : isIdentifier p.text) :
    ∃ c w, p = ⟨.word, c :: w⟩ ∧ isNameStart c ∧ (∀ d ∈ w, isNameChar d) ∧
      Ends isNameChar rest := by
  have hnot {c : Char} {w : Text} (hc : isNameStart c = false) (hi : isIdentifier (c :: w)) :
      False := by
    simp [isIdentifier, hc] at hi
  cases h with
  | word hc hw he => exact ⟨_, _, rfl, hc, hw, he⟩
  | blank hc =>
    have := isNameChar_of_blank hc
    simp only [isNameChar, Bool.or_eq_false_iff] at this
    exact (hnot this.1 hp).elim
  | number hc =>
    have := Language.isAsciiDigit_toNat hc
    refine (hnot ?_ hp).elim
    by_contra hs
    have := Language.isNameStart_toNat (Bool.not_eq_false _ ▸ hs)
    omega
  | string _ | character _ | lineComment _ _ | blockComment _ | arrow | slash _ _ | dash _ =>
    exact (hnot (by decide) hp).elim
  | quote hc _ =>
    rcases quote_cases hc with rfl | rfl <;> exact (hnot (by decide) hp).elim
  | mark hc =>
    simp only [isPlain, Bool.not_eq_true', Bool.or_eq_false_iff] at hc
    exact (hnot hc.1.1.1.1.2 hp).elim

theorem passed_word (before : Option Text) {w : Text} (hc : isNameStart c) :
    passed before ⟨.word, c :: w⟩ = some (c :: w) := by
  have hquote : ∀ q ∈ ['"', '\''], c ≠ q := by
    intro q hq
    simp only [List.mem_cons, List.not_mem_nil, or_false] at hq
    rintro rfl
    rcases hq with rfl | rfl <;> exact absurd hc (by decide)
  have : Piece.isTransparent ⟨.word, c :: w⟩ = false := by
    simp only [Piece.isTransparent, Bool.or_eq_false_iff, decide_eq_false_iff_not,
      List.cons.injEq, not_and]
    exact ⟨fun h => absurd h (hquote _ (by simp)), fun h => absurd h (hquote _ (by simp))⟩
  rw [passed, this]
  rfl

end Words

theorem Edit.append_left {spread : Bool} {t t' : Text} (x : Text) (h : Edit spread t t') :
    Edit spread (x ++ t) (x ++ t') := by
  induction x with
  | nil => exact h
  | cons c x ih => exact .keep ih

section Qualified
variable {names : List Text} {ps : List Piece}

/-- Qualifying is an edit within lines. -/
theorem edit_qualified (hnames : ∀ n ∈ names, isIdentifier n) (before : Option Text)
    (h : Tokens ps) : Edit false (texts ps) (texts (qualifiedPieces names before ps)) := by
  induction h generalizing before with
  | nil => exact .nil
  | @cons ps p hcut _ ih =>
    rw [qualifiedPieces, texts_cons, texts_append]
    split
    · rename_i hown
      have hp : p.text ∈ names := by simp_all
      obtain ⟨c, w, rfl, hc, hw, _⟩ := hcut.word_of_start (hnames _ hp)
      have hwq : ∀ e ∈ w, isQuiet e := fun e he => quiet_of_name (hw e he)
      have hbreak : '\n' ∉ c :: w := by
        intro hm
        rcases List.mem_cons.mp hm with hm | hm
        · exact break_of_name hc hm.symm
        · exact absurd (hw _ hm) (by decide)
      have hput : ∀ e ∈ 'f' :: 's' :: 'm' :: '-' :: '>' :: c :: w, isQuiet e := by
        simp only [List.mem_cons, forall_eq_or_imp]
        exact ⟨by decide, by decide, by decide, by decide, by decide, quiet_of_start hc, hwq⟩
      have hline : '\n' ∉ 'f' :: 's' :: 'm' :: '-' :: '>' :: c :: w := by
        simp only [List.mem_cons, not_or] at hbreak ⊢
        exact ⟨by decide, by decide, by decide, by decide, by decide, hbreak⟩
      have hswap := Edit.swap hc hwq (fun _ hm => hbreak (List.mem_cons_of_mem _ hm)) hput hline
        (by decide) (ih (passed before ⟨.word, c :: w⟩))
      simpa [machineWord, arrowPiece] using hswap
    · simpa using (ih _).append_left p.text

/-- The qualified pieces are those that the qualified code is cut into. -/
theorem tokens_qualified (hnames : ∀ n ∈ names, isIdentifier n) (before : Option Text)
    (h : Tokens ps) : Tokens (qualifiedPieces names before ps) := by
  induction h generalizing before with
  | nil => exact .nil
  | @cons ps p hcut hps ih =>
    have hedit := edit_qualified hnames (passed before p) hps
    have hkept : Cut (texts (qualifiedPieces names (passed before p) ps)) p := by
      refine hcut.edit hedit ?_
      rintro c rfl hc
      exact (hedit.literalTail_none hc).1 (hcut.loose hc)
    rw [qualifiedPieces]
    split
    · exact .cons (.word (by decide) (List.all_eq_true.mp rfl) (ends_cons rfl _))
        (.cons .arrow (.cons hkept (ih _)))
    · exact .cons hkept (ih _)

/-- No qualified piece refers to one of the names. -/
theorem mentions_qualified (hnames : ∀ n ∈ names, isIdentifier n) (hfsm : "fsm".toList ∉ names)
    (before : Option Text) (h : Tokens ps) :
    ∀ n ∈ mentions before (qualifiedPieces names before ps), n ∉ names := by
  induction h generalizing before with
  | nil => exact nofun
  | @cons ps p hcut _ ih =>
    rw [qualifiedPieces]
    split
    · rename_i hown
      have hp : p.text ∈ names := by simp_all
      obtain ⟨c, w, rfl, hc, _⟩ := hcut.word_of_start (hnames _ hp)
      -- The word is passed as before, and what now stands before it makes it a member.
      have hfirst : passed before machineWord = some ['f', 's', 'm'] := passed_word _ (by decide)
      have harrow : passed (some ['f', 's', 'm']) arrowPiece = some ['-', '>'] := rfl
      have hmember : refers (some ['-', '>']) ⟨.word, c :: w⟩ = false := by
        simp [refers, Placed.isReference]
      have hword : passed (some ['-', '>']) ⟨.word, c :: w⟩ = passed before ⟨.word, c :: w⟩ := by
        rw [passed_word _ hc, passed_word _ hc]
      simp only [List.cons_append, List.nil_append, mentions, hfirst, harrow, hmember, hword]
      intro n hn
      rcases List.mem_append.mp hn with hn | hn
      · split at hn
        · rw [List.mem_singleton.mp hn]
          exact hfsm
        · cases hn
      · exact ih _ n hn
    · rename_i hown
      intro n hn
      rw [List.cons_append, List.nil_append, mentions] at hn
      rcases List.mem_append.mp hn with hn | hn
      · split at hn
        · rename_i hr
          rw [List.mem_singleton.mp hn]
          simpa [hr] using hown
        · cases hn
      · exact ih _ n hn

theorem qualifiedPieces_of_none (before : Option Text)
    (h : ∀ n ∈ mentions before ps, n ∉ names) : qualifiedPieces names before ps = ps := by
  induction ps generalizing before with
  | nil => rfl
  | cons p ps ih =>
    rw [mentions] at h
    have hown : (refers before p && names.contains p.text) = false := by
      cases hr : refers before p with
      | false => rfl
      | true => simpa using h p.text (by simp [hr])
    rw [qualifiedPieces, hown, ih _ fun n hn => h n (List.mem_append_right _ hn)]
    rfl

end Qualified

theorem prefix_append_of {v x t t' : Text} (h : v <+: x ++ t')
    (ht : ∀ w, w <:+ v → w <+: t' → w <+: t) : v <+: x ++ t := by
  induction x generalizing v with
  | nil => exact ht v List.suffix_rfl h
  | cons c x ih =>
    cases v with
    | nil => exact List.nil_prefix
    | cons a v =>
      obtain ⟨rfl, htail⟩ := List.cons_prefix_cons.mp h
      exact List.cons_prefix_cons.mpr
        ⟨rfl, ih htail fun w hw => ht w (hw.trans (List.suffix_cons a v))⟩

/-- What qualified code begins with the code begins with, as far as no field is reached. -/
theorem prefix_of_qualified (names : List Text) {ps : List Piece} {before : Option Text} {v : Text}
    (h : v <+: texts (qualifiedPieces names before ps)) (hf : 'f' ∉ v) : v <+: texts ps := by
  induction ps generalizing before v with
  | nil => exact h
  | cons p ps ih =>
    rw [qualifiedPieces, texts_append] at h
    split at h
    · cases v with
      | nil => exact List.nil_prefix
      | cons a v =>
        obtain ⟨rfl, _⟩ := List.cons_prefix_cons.mp h
        exact absurd List.mem_cons_self hf
    · rw [texts_cons, texts_nil, List.append_nil] at h
      exact prefix_append_of h fun w hw hp => ih hp fun hm => hf (hw.subset hm)

/-- A word other than the machine's own name begins no call. -/
theorem callless_word {inWord : Bool} {w t : Text} (hw : ∀ c ∈ w, isNameChar c)
    (hthis : w ≠ "this".toList) (hends : Ends isNameChar t)
    (h : Callless (endsInWord inWord w) t) : Callless inWord (w ++ t) := by
  intro field x u y he hu
  rcases List.append_eq_append_iff.mp he with ⟨z, rfl, ht⟩ | ⟨z, rfl, ht⟩
  · rw [endsInWord_append]
    exact h field z u y ht hu
  · by_cases hx : x = []
    · subst hx
      obtain ⟨v, rfl, hv⟩ := hu.begins
      refine absurd ?_ hthis
      calc
        z = (z ++ t).takeWhile isNameChar := (Language.takeWhile_munch hw hends).symm
        _ = ("this".toList ++ (v ++ y)).takeWhile isNameChar := by rw [← ht]; simp
        _ = "this".toList := Language.takeWhile_munch (List.all_eq_true.mp rfl) (hv y)
    · exact endsInWord_of_name inWord hx fun c hc => hw c (List.mem_append_left _ hc)

theorem Callless.append {inWord : Bool} {x t : Text} (h : Callless inWord (x ++ t)) :
    Callless (endsInWord inWord x) t := by
  intro field z u y ht hu
  rw [← endsInWord_append]
  exact h field (x ++ z) u y (by rw [ht, List.append_assoc]) hu

/-- Qualifying brings no call in. -/
theorem callless_qualified {names : List Text} (hnames : ∀ n ∈ names, isIdentifier n)
    (hthis : "this".toList ∉ names) {ps : List Piece} (before : Option Text) {inWord : Bool}
    (h : Tokens ps) (hc : Callless inWord (texts ps)) :
    Callless inWord (texts (qualifiedPieces names before ps)) := by
  induction h generalizing before inWord with
  | nil => exact hc
  | @cons ps p hcut hps ih =>
    rw [texts_cons] at hc
    have hrest := ih (passed before p) hc.append
    have hedit := edit_qualified hnames (passed before p) hps
    rw [qualifiedPieces, texts_append]
    split
    · rename_i hown
      have hp : p.text ∈ names := by simp_all
      obtain ⟨c, w, rfl, hc, hw, hends⟩ := hcut.word_of_start (hnames _ hp)
      have hword : ∀ d ∈ c :: w, isNameChar d := by
        intro d hd
        rcases List.mem_cons.mp hd with rfl | hd
        · simp [isNameChar, hc]
        · exact hw d hd
      have hcall : Callless false ((c :: w) ++ texts (qualifiedPieces names
          (passed before ⟨.word, c :: w⟩) ps)) := by
        refine callless_word hword (fun he => hthis (he ▸ hp)) (hedit.ends hends ?_) ?_
        · intro d hd
          simp [isNameChar, hd]
        · rw [endsInWord_of_name _ (List.cons_ne_nil c w) hword] at hrest ⊢
          exact hrest
      have hqualified : Callless inWord ("fsm->".toList ++ ((c :: w) ++ texts (qualifiedPieces names
          (passed before ⟨.word, c :: w⟩) ps))) :=
        callless_append (by decide) (by decide) hcall
      simpa [machineWord, arrowPiece] using hqualified
    · rw [texts_cons, texts_nil, List.append_nil]
      intro field x u y he hu
      rcases List.append_eq_append_iff.mp he with ⟨z, rfl, ht⟩ | ⟨z, hx, ht⟩
      · rw [endsInWord_append]
        exact hrest field z u y ht hu
      · -- A call that begins in the piece reaches no field, so it was there before.
        have hf : 'f' ∉ u := fun hm => by
          rcases hu.mem hm with hm | hm <;> exact absurd hm (by decide)
        have hu' : u <+: z ++ texts ps := prefix_append_of ⟨y, ht⟩ fun w hw hp =>
          prefix_of_qualified names hp fun hm => hf (hw.subset hm)
        obtain ⟨y', hy'⟩ := hu'
        exact hc field x u y' (by rw [hx, List.append_assoc, hy']) hu

/-- Code with nothing to expand: no call, and no reference to one of the names. -/
def Settled (names : List Text) (t : Text) : Prop :=
  Callless false t ∧ ∀ r ∈ references t, r.2 ∉ names

section Expand
variable {names : List Text}

theorem pieces_qualify (hnames : ∀ n ∈ names, isIdentifier n) (t : Text) :
    pieces (qualify names t) = qualifiedPieces names none (pieces t) := by
  rw [pieces_eq_iff]
  exact ⟨(qualify_eq names t).symm, tokens_qualified hnames none (tokens_pieces t).2⟩

theorem forall_references {names : List Text} {t : Text} :
    (∀ r ∈ references t, r.2 ∉ names) ↔ ∀ n ∈ mentions none (pieces t), n ∉ names := by
  rw [← mentions_eq, List.forall_mem_map]

theorem expand_of_settled {t : Text} (h : Settled names t) : expand names t = t := by
  obtain ⟨hcall, hrefs⟩ := h
  rw [expand, replace_of_callless hcall, qualify_eq,
    qualifiedPieces_of_none none (forall_references.mp hrefs)]
  exact (tokens_pieces t).1

theorem settled_expand (hnames : ∀ n ∈ names, isIdentifier n) (hfsm : "fsm".toList ∉ names)
    (hthis : "this".toList ∉ names) (t : Text) : Settled names (expand names t) := by
  have htokens := tokens_pieces (replaceSelfCalls false t)
  constructor
  · rw [expand, qualify_eq]
    refine callless_qualified hnames hthis none htokens.2 ?_
    rw [htokens.1]
    exact callless_replace false t
  · rw [forall_references, expand, pieces_qualify hnames]
    exact mentions_qualified hnames hfsm none htokens.2

/-- Expanding leaves nothing to expand, and changes nothing else: code is left as it is exactly
when nothing in it is to be expanded. So expanding twice is expanding once. -/
theorem expand_settles (hnames : ∀ n ∈ names, isIdentifier n) (hfsm : "fsm".toList ∉ names)
    (hthis : "this".toList ∉ names) (t : Text) :
    (∀ r ∈ references (expand names t), r.2 ∉ names) ∧
    (∀ field x u y, expand names t = x ++ (u ++ y) → SelfCall field u →
      endsInWord false x = true) ∧
    expand names (expand names t) = expand names t ∧
    (expand names t = t ↔ Settled names t) := by
  have hsettled := settled_expand hnames hfsm hthis t
  refine ⟨hsettled.2, hsettled.1, expand_of_settled hsettled, ?_, expand_of_settled⟩
  intro h
  rw [h] at hsettled
  exact hsettled

end Expand

theorem expand_settles_spread_call :
    isIdentifier "level".toList ∧ "fsm".toList ∉ ["level".toList] ∧
    "this".toList ∉ ["level".toList] ∧
    expand ["level".toList] "p->level + level * this\n.state()".toList =
      "p->level + fsm->level * (fsm->state)".toList ∧
    expand ["level".toList] "p->level + fsm->level * (fsm->state)".toList =
      "p->level + fsm->level * (fsm->state)".toList := by
  have hnames : ∀ n ∈ ["level".toList], isIdentifier n := by decide
  have hexpand : expand ["level".toList] "p->level + level * this\n.state()".toList =
      "p->level + fsm->level * (fsm->state)".toList := by decide +kernel
  have htwice := (expand_settles hnames (by decide) (by decide)
    "p->level + level * this\n.state()".toList).2.2.1
  rw [hexpand] at htwice
  exact ⟨hnames _ (by decide), by decide, by decide, hexpand, htwice⟩

end Statewright.Code
