import Statewright.Proofs.CallPieces

namespace Statewright.Code
open Statewright.Language (Ends)

/-- What follows a loose quote up to the line break that keeps it loose. -/
def openTail : Text → Text
  | '\\' :: c :: t => '\\' :: c :: openTail t
  | '\n' :: _ => []
  | c :: t => c :: openTail t
  | [] => []

/-- How far behind a piece a line ends that the piece depends on. -/
def Piece.lineEnd? (p : Piece) (rest : Text) : Option Nat :=
  match p.shape with
  | .lineComment => some 0
  | .mark => if p.text = ['"'] ∨ p.text = ['\''] then some (openTail rest).length else none
  | _ => none

/-- Where the lines end that line comments and loose quotes stand in. -/
def lineEnds (offset : Nat) : List Piece → List Nat
  | [] => []
  | p :: ps =>
    ((p.lineEnd? (texts ps)).map (offset + p.text.length + ·)).toList ++
      lineEnds (offset + p.text.length) ps

/-- No call goes over the end of a line that a comment or a loose quote stands in. -/
def CallsInLines (t : Text) : Prop :=
  ∀ s ∈ selfCalls false 0 t, ∀ e ∈ lineEnds 0 (pieces t), ¬ (s.start < e ∧ e < s.stop)

instance (t : Text) : Decidable (CallsInLines t) :=
  inferInstanceAs (Decidable (∀ s ∈ selfCalls false 0 t, ∀ e ∈ lineEnds 0 (pieces t),
    ¬ (s.start < e ∧ e < s.stop)))

section OpenTail
variable {q c : Char} {w t : Text}

theorem openTail_escape (c : Char) (t : Text) :
    openTail ('\\' :: c :: t) = '\\' :: c :: openTail t := by
  simp only [openTail]

theorem openTail_other (hb : c ≠ '\\') (hn : c ≠ '\n') (t : Text) :
    openTail (c :: t) = c :: openTail t := by
  rw [openTail.eq_def]
  split
  · rename_i heq
    exact absurd (List.cons.inj heq).1 hb
  · rename_i heq
    exact absurd (List.cons.inj heq).1 hn
  · rename_i heq
    obtain ⟨rfl, rfl⟩ := List.cons.inj heq
    rfl
  · contradiction

theorem openTail_quiet (hw : ∀ e ∈ w, isQuiet e) (hn : '\n' ∉ w) (t : Text) :
    openTail (w ++ t) = w ++ openTail t := by
  induction w with
  | nil => rfl
  | cons c w ih =>
    simp only [List.mem_cons, forall_eq_or_imp, not_or] at hw hn
    rw [List.cons_append, openTail_other (quiet_ne hw.1).2.1 (Ne.symm hn.1), ih hw.2 hn.2]
    rfl

theorem openTail_spread (hw : ∀ e ∈ w, isQuiet e) (hn : '\n' ∈ w) (t : Text) :
    (openTail (w ++ t)).length < w.length := by
  induction w with
  | nil => cases hn
  | cons c w ih =>
    simp only [List.mem_cons, forall_eq_or_imp] at hw
    rw [List.cons_append]
    by_cases hc : c = '\n'
    · subst hc
      exact Nat.succ_pos _
    · rw [openTail_other (quiet_ne hw.1).2.1 hc, List.length_cons, List.length_cons]
      exact Nat.succ_lt_succ (ih hw.2 ((List.mem_cons.mp hn).resolve_left (Ne.symm hc)))

/-- A literal that is open stays so when no call takes in the line break that keeps it open. The
second part is the same behind a backslash. -/
theorem literalTail_replace (hq : isQuote q) (inWord : Bool) (t : Text) :
    (∀ o, literalTail q t = none →
      (∀ s ∈ selfCalls inWord o t,
        ¬ (s.start < o + (openTail t).length ∧ o + (openTail t).length < s.stop)) →
      literalTail q (replaceSelfCalls inWord t) = none) ∧
    (∀ o, literalTail q ('\\' :: t) = none →
      (∀ s ∈ selfCalls inWord o t,
        ¬ (s.start + 1 < o + (openTail ('\\' :: t)).length ∧
          o + (openTail ('\\' :: t)).length < s.stop + 1)) →
      literalTail q ('\\' :: replaceSelfCalls inWord t) = none) := by
  induction inWord, t using replace_induction with
  | nil inWord =>
    rw [replace_nil]
    exact ⟨fun _ h _ => h, fun _ h _ => h⟩
  | call field u rest hu ih =>
    have hquiet := hu.quiet
    have hput := hu.access_quiet
    refine ⟨?_, ?_⟩
    · intro o hnone hcross
      rw [selfCalls_call hu] at hcross
      have hbreak : '\n' ∉ u := by
        intro hm
        refine hcross _ List.mem_cons_self ⟨?_, ?_⟩
        · obtain ⟨v, rfl, _⟩ := hu.begins
          rw [List.cons_append, openTail_other (by decide) (by decide), List.length_cons]
          exact Nat.lt_add_of_pos_right (Nat.succ_pos _)
        · exact Nat.add_lt_add_left (openTail_spread hquiet hm rest) o
      rw [literalTail_quiet hq hquiet hbreak, Option.map_eq_none_iff] at hnone
      rw [openTail_quiet hquiet hbreak, List.length_append, ← Nat.add_assoc] at hcross
      rw [replace_selfCall hu, literalTail_quiet hq hput.1 hput.2, Option.map_eq_none_iff]
      exact ih.1 _ hnone fun s hs => hcross s (List.mem_cons_of_mem _ hs)
    · intro o hnone hcross
      rw [selfCalls_call hu] at hcross
      rw [replace_selfCall hu]
      obtain ⟨v, hv, _⟩ := hu.begins
      generalize hw : 'h' :: 'i' :: 's' :: v = w at hv
      subst hv
      have hwq : ∀ e ∈ w, isQuiet e := fun e he => hquiet e (List.mem_cons_of_mem _ he)
      rw [List.cons_append, literalTail_escape, Option.map_eq_none_iff] at hnone
      rw [List.cons_append, openTail_escape, List.length_cons, List.length_cons,
        List.length_cons] at hcross
      have hbreak : '\n' ∉ w := by
        intro hm
        have hshort := openTail_spread hwq hm rest
        have := hcross _ List.mem_cons_self
        simp only at this
        omega
      rw [literalTail_quiet hq hwq hbreak, Option.map_eq_none_iff] at hnone
      rw [openTail_quiet hwq hbreak, List.length_append] at hcross
      have htail := ih.1 (o + (w.length + 1)) hnone fun s hs => by
        have := hcross s (List.mem_cons_of_mem _ hs)
        omega
      rw [fieldAccess] at hput ⊢
      rw [List.cons_append, literalTail_escape,
        literalTail_quiet hq (fun e he => hput.1 e (List.mem_cons_of_mem _ he))
          (fun hm => hput.2 (List.mem_cons_of_mem _ hm)), htail]
      rfl
  | keep inWord c t hkeep ih =>
    rw [replace_keep hkeep]
    refine ⟨?_, ?_⟩
    · intro o hnone hcross
      rw [selfCalls_keep hkeep] at hcross
      by_cases hb : c = '\\'
      · subst hb
        refine ih.2 (o + 1) hnone fun s hs => ?_
        have := hcross s hs
        omega
      by_cases hc : c = q
      · subst hc
        rw [literalTail_close hq] at hnone
        cases hnone
      by_cases hbreak : c = '\n'
      · rw [hbreak, literalTail_break hq]
      rw [literalTail_other hc hb hbreak, Option.map_eq_none_iff] at hnone ⊢
      rw [openTail_other hb hbreak, List.length_cons] at hcross
      refine ih.1 (o + 1) hnone fun s hs => ?_
      have := hcross s hs
      omega
    · intro o hnone hcross
      rw [selfCalls_keep hkeep] at hcross
      rw [literalTail_escape, Option.map_eq_none_iff] at hnone ⊢
      rw [openTail_escape, List.length_cons, List.length_cons] at hcross
      refine ih.1 (o + 1) hnone fun s hs => ?_
      have := hcross s hs
      omega

end OpenTail

section Inert
variable {inWord : Bool} {o : Nat} {q c d : Char} {t u x rest rest' : Text} {p : Piece}

theorem literalTail_last (h : literalTail q t = some u) : ∃ v, u = v ++ [q] := by
  fun_induction literalTail q t generalizing u with
  | case1 c t ih =>
    obtain ⟨w, hw, rfl⟩ := Option.map_eq_some_iff.mp h
    obtain ⟨v, rfl⟩ := ih hw
    exact ⟨'\\' :: c :: v, rfl⟩
  | case2 t _ =>
    cases h
    exact ⟨[], rfl⟩
  | case3 => cases h
  | case4 c t _ _ _ ih =>
    obtain ⟨w, hw, rfl⟩ := Option.map_eq_some_iff.mp h
    obtain ⟨v, rfl⟩ := ih hw
    exact ⟨c :: v, rfl⟩
  | case5 => cases h

theorem commentTail_last (h : commentTail t = some u) : ∃ v, u = v ++ ['/'] := by
  fun_induction commentTail t generalizing u with
  | case1 t =>
    cases h
    exact ⟨['*'], rfl⟩
  | case2 c t _ ih =>
    obtain ⟨w, hw, rfl⟩ := Option.map_eq_some_iff.mp h
    obtain ⟨v, rfl⟩ := ih hw
    exact ⟨c :: v, rfl⟩
  | case3 => cases h

/-- A literal or block comment ends with a character that no call goes over. -/
theorem Cut.loud_last (h : Cut rest p) (hi : p.isInert) :
    p.shape = .lineComment ∨ ∃ x d, p.text = x ++ [d] ∧ isQuiet d = false := by
  cases h with
  | string hu =>
    obtain ⟨v, hv⟩ := literalTail_last hu
    exact .inr ⟨'"' :: v, '"', by rw [hv]; rfl, by decide⟩
  | character hu =>
    obtain ⟨v, hv⟩ := literalTail_last hu
    exact .inr ⟨'\'' :: v, '\'', by rw [hv]; rfl, by decide⟩
  | blockComment hu =>
    obtain ⟨v, hv⟩ := commentTail_last hu
    exact .inr ⟨'/' :: '*' :: v, '/', by rw [hv]; rfl, by decide⟩
  | lineComment => exact .inl rfl
  | blank | word | number | arrow | quote | slash | dash | mark => cases hi

theorem stop_le_of_loud (hd : isQuiet d = false) {s : Span}
    (hs : s ∈ selfCalls inWord o ((x ++ [d]) ++ rest)) (hstart : s.start < o + (x ++ [d]).length) :
    s.stop ≤ o + (x ++ [d]).length := by
  obtain ⟨field, z, u, y, he, hu, rfl⟩ := mem_selfCalls hs
  simp only [List.length_append, List.length_singleton] at hstart ⊢
  by_contra hlong
  have hx : ((x ++ [d]) ++ rest)[x.length]? = some d := by simp
  rw [he, List.getElem?_append_right (by omega), List.getElem?_append_left (by omega)] at hx
  have := hu.quiet d (List.mem_of_getElem? hx)
  rw [hd] at this
  cases this

theorem replace_other (hc : c ≠ 't') (t : Text) :
    replaceSelfCalls inWord (c :: t) = c :: replaceSelfCalls (Text.isWordChar c) t := by
  refine replace_keep fun _ => ?_
  cases hs : selfCall? (c :: t) with
  | none => rfl
  | some r =>
    obtain ⟨u, hu, he⟩ := selfCall?_eq_some.mp hs
    obtain ⟨v, rfl, _⟩ := hu.begins
    exact absurd (List.cons.inj he).1 hc

/-- A literal or comment with its calls replaced is one again. -/
theorem Cut.replaced (h : Cut rest p) (hi : p.isInert) (he : Edit true rest rest') :
    Cut rest' p.replaced ∧ replaceSelfCalls inWord p.text = replaceSelfCalls false p.text := by
  have hedit (t : Text) : Edit true t (replaceSelfCalls false t) := edit_replace false t
  have hslash : Text.isWordChar '/' = false := by decide
  have hstar : Text.isWordChar '*' = false := by decide
  unfold Piece.replaced
  cases h with
  | @string u hu =>
    have hquote : Text.isWordChar '"' = false := by decide
    simp only [replace_other (show '"' ≠ 't' by decide), hquote]
    exact ⟨.string (((hedit u).literalTail_closed (by decide)).1 hu), trivial⟩
  | @character u hu =>
    have hquote : Text.isWordChar '\'' = false := by decide
    simp only [replace_other (show '\'' ≠ 't' by decide), hquote]
    exact ⟨.character (((hedit u).literalTail_closed (by decide)).1 hu), trivial⟩
  | @lineComment body hb hr =>
    simp only [replace_other (show '/' ≠ 't' by decide), hslash]
    refine ⟨.lineComment ((hedit body).no_break hb) (he.ends hr fun c hc => ?_), trivial⟩
    simpa using break_of_name hc
  | @blockComment u hu =>
    simp only [replace_other (show '/' ≠ 't' by decide), replace_other (show '*' ≠ 't' by decide),
      hslash, hstar]
    exact ⟨.blockComment ((hedit u).commentTail_closed.1 hu), trivial⟩
  | blank | word | number | arrow | quote | slash | dash | mark => cases hi

/-- A call that begins in a piece, but in no literal or comment, begins in a word or a number. -/
theorem Cut.word_or_number (h : Cut rest p) (hi : p.isInert = false) (hm : 't' ∈ p.text) :
    (∃ c w, p = ⟨.word, c :: w⟩ ∧ ∀ d ∈ c :: w, isNameChar d) ∨
    (∃ c w, p = ⟨.number, c :: w⟩ ∧ Text.isAsciiDigit c ∧ ∀ d ∈ w, isNumeral d) := by
  cases h with
  | @word c w hc hw =>
    refine .inl ⟨c, w, rfl, List.forall_mem_cons.mpr ⟨?_, hw⟩⟩
    simp [isNameChar, hc]
  | @number c w hc hw => exact .inr ⟨c, w, rfl, hc, hw⟩
  | blank hc =>
    rw [← List.mem_singleton.mp hm] at hc
    exact absurd hc (by decide)
  | quote hc =>
    rw [← List.mem_singleton.mp hm] at hc
    exact absurd hc (by decide)
  | mark hc =>
    rw [← List.mem_singleton.mp hm] at hc
    exact absurd hc (by decide)
  | arrow | slash | dash => exact absurd hm (by decide)
  | string | character | lineComment | blockComment => cases hi

end Inert

/-- The same of pieces that begin at an offset. -/
def InLines (inWord : Bool) (o : Nat) (ps : List Piece) : Prop :=
  ∀ s ∈ selfCalls inWord o (texts ps), ∀ e ∈ lineEnds o ps, ¬ (s.start < e ∧ e < s.stop)

section Pieces
variable {inWord inWord' : Bool} {o : Nat} {x v u y field : Text} {p : Piece}
  {ps qs cs : List Piece}

theorem Tokens.unique (h : Tokens ps) (h' : Tokens qs) (ht : texts ps = texts qs) : ps = qs := by
  rw [← h.pieces_eq, ht, h'.pieces_eq]

theorem mem_lineEnds {e : Nat} (cs : List Piece) (h : e ∈ lineEnds (o + (texts cs).length) ps) :
    e ∈ lineEnds o (cs ++ ps) := by
  induction cs generalizing o with
  | nil => exact h
  | cons p cs ih =>
    rw [texts_cons, List.length_append, ← Nat.add_assoc] at h
    exact List.mem_append_right _ (ih h)

theorem InLines.tail (h : InLines inWord o (p :: ps))
    (hs : ∀ s ∈ selfCalls inWord' (o + p.text.length) (texts ps),
      s ∈ selfCalls inWord o (p.text ++ texts ps)) :
    InLines inWord' (o + p.text.length) ps :=
  fun s hm e he => h s (hs s hm) e (List.mem_append_right _ he)

/-- The pieces of a call that begins in a piece, and those of the field in its place. -/
theorem call_runs (hps : Tokens (p :: ps)) (hi : p.isInert = false) (hx : p.text = x ++ v)
    (hv : v ≠ []) (he : v ++ texts ps = u ++ y) (hu : SelfCall field u)
    (hw : endsInWord inWord x = false) :
    ∃ cs ds, CallRun (x ++ u) (pieces y) cs ∧
      ∀ qs, Tokens qs → CallRun (x ++ fieldAccess field) qs ds := by
  have hy := (tokens_pieces y).2
  obtain ⟨v, rfl⟩ : ∃ v', v = 't' :: v' := by
    obtain ⟨u', rfl, _⟩ := hu.begins
    cases v with
    | nil => exact absurd rfl hv
    | cons c v =>
      obtain ⟨rfl, _⟩ := List.cons.inj he
      exact ⟨v, rfl⟩
  have hcut : Cut (texts ps) p := by
    cases hps with
    | cons h _ => exact h
  have hm : 't' ∈ p.text := hx ▸ List.mem_append_right x List.mem_cons_self
  rcases hcut.word_or_number hi hm with ⟨c, w, rfl, hname⟩ | ⟨c, w, rfl, hc, hnum⟩
  · change c :: w = _ at hx
    -- A word before the call would keep it from being one.
    have hnil : x = [] := by
      by_contra hne
      have := endsInWord_of_name inWord hne fun d hd => hname d (hx ▸ List.mem_append_left _ hd)
      rw [hw] at this
      cases this
    subst hnil
    obtain ⟨cs, hcs⟩ := hu.run hy
    exact ⟨cs, fieldPieces field, hcs, fun qs hqs => field_run hu.field_cases hqs⟩
  · cases x with
    | nil =>
      obtain ⟨rfl, _⟩ := List.cons.inj hx
      exact absurd hc (by decide)
    | cons d x =>
      obtain ⟨rfl, htail⟩ := List.cons.inj hx
      have hnumx : ∀ e ∈ x, isNumeral e := fun e hm =>
        hnum e (htail ▸ List.mem_append_left _ hm)
      obtain ⟨cs, hcs⟩ := hu.run_number hy hc hnumx
      exact ⟨cs, _, hcs, fun qs hqs => field_run_number hu.field_cases hqs hc hnumx⟩

/-- The pieces of replaced code. -/
theorem tokens_replace (hps : Tokens ps) (hlines : InLines inWord o ps) :
    ∃ qs, Tokens qs ∧ texts qs = replaceSelfCalls inWord (texts ps) ∧ Alike ps qs := by
  -- A call can take in several pieces, so the induction is on the number of pieces.
  induction hn : ps.length using Nat.strong_induction_on generalizing ps inWord o with
  | _ n ih =>
    cases hps with
    | nil => exact ⟨[], .nil, (replace_nil inWord).symm, rfl, fun _ => rfl, fun _ => rfl⟩
    | @cons ps p hcut hps =>
      have hshort : ps.length < n := by
        rw [← hn]
        exact Nat.lt_succ_self _
      rw [texts_cons]
      by_cases hi : p.isInert
      · have hinside : ∀ s ∈ selfCalls inWord o (p.text ++ texts ps),
            s.start < o + p.text.length → s.stop ≤ o + p.text.length := by
          intro s hs hstart
          rcases hcut.loud_last hi with hline | ⟨x, d, hx, hd⟩
          · have hend : o + p.text.length ∈ lineEnds o (p :: ps) := by
              simp [lineEnds, Piece.lineEnd?, hline]
            exact Nat.le_of_not_lt fun hlt => hlines s hs _ hend ⟨hstart, hlt⟩
          · rw [hx] at hs hstart ⊢
            exact stop_le_of_loud hd hs hstart
        obtain ⟨hr, hs⟩ := replace_append hinside
        have htail : InLines (endsInWord inWord p.text) (o + p.text.length) ps :=
          hlines.tail fun s hm => hs ▸ List.mem_append_right _ hm
        obtain ⟨qs, hqs, ht, halike⟩ := ih _ hshort hps htail rfl
        obtain ⟨hp, hflag⟩ := hcut.replaced hi (edit_replace (endsInWord inWord p.text) (texts ps))
        refine ⟨p.replaced :: qs, .cons (ht ▸ hp) hqs, ?_, (Alike.replaced hi).append halike⟩
        rw [hr, hflag, texts_cons, ht]
        rfl
      rw [Bool.not_eq_true] at hi
      rcases replace_cases inWord o p.text (texts ps) with
        ⟨hr, hs⟩ | ⟨x, v, field, u, y, hx, hv, he, hu, hw, hr, hs⟩
      · have htail : InLines (endsInWord inWord p.text) (o + p.text.length) ps :=
          hlines.tail fun s hm => hs ▸ hm
        obtain ⟨qs, hqs, ht, halike⟩ := ih _ hshort hps htail rfl
        have hp : Cut (replaceSelfCalls (endsInWord inWord p.text) (texts ps)) p := by
          refine hcut.edit (edit_replace _ _) ?_
          rintro q rfl hq
          have hend : o + 1 + (openTail (texts ps)).length ∈ lineEnds o (⟨.mark, [q]⟩ :: ps) := by
            rcases quote_cases hq with rfl | rfl <;> simp [lineEnds, Piece.lineEnd?]
          exact (literalTail_replace hq _ (texts ps)).1 (o + 1) (hcut.loose hq) fun s hm =>
            hlines s (hs ▸ hm) _ hend
        refine ⟨p :: qs, .cons (ht ▸ hp) hqs, ?_, (Alike.same hi).append halike⟩
        rw [hr, texts_cons, ht]
      · obtain ⟨cs, ds, hcs, hds⟩ := call_runs (.cons hcut hps) hi hx hv he hu hw
        have hwhole : p :: ps = cs ++ pieces y := by
          refine Tokens.unique (.cons hcut hps) hcs.tokens ?_
          rw [texts_cons, hx, List.append_assoc, he, texts_append, hcs.texts_eq,
            (tokens_pieces y).1, List.append_assoc]
        have hfewer : (pieces y).length < n := by
          have hne : cs ≠ [] := by
            rintro rfl
            cases hcs.closed
          have := List.length_pos_iff.mpr hne
          rw [← hn, hwhole, List.length_append]
          omega
        have htail : InLines false (o + (texts cs).length) (pieces y) := by
          intro s hm e hmem
          rw [(tokens_pieces y).1, hcs.texts_eq, List.length_append, ← Nat.add_assoc] at hm
          refine hlines s ?_ e (hwhole ▸ mem_lineEnds cs hmem)
          rw [texts_cons, hs]
          exact List.mem_cons_of_mem _ hm
        obtain ⟨qs, hqs, ht, halike⟩ := ih _ hfewer (tokens_pieces y).2 htail rfl
        refine ⟨ds ++ qs, (hds qs hqs).tokens, ?_, ?_⟩
        · rw [hr, texts_append, (hds qs hqs).texts_eq, ht, (tokens_pieces y).1, List.append_assoc]
        · rw [hwhole]
          exact (alike_silent hcs.silent (hds qs hqs).silent hcs.closed (hds qs hqs).closed).append
            halike

end Pieces

section Literals
variable {names : List Text}

/-- Replacing the calls of code keeps its literals and comments, with the calls in them replaced,
and its mentions of variables. -/
theorem alike_replace {t : Text} (h : CallsInLines t) :
    Alike (pieces t) (pieces (replaceSelfCalls false t)) := by
  obtain ⟨htexts, htokens⟩ := tokens_pieces t
  have hlines : InLines false 0 (pieces t) := by
    rw [InLines, htexts]
    exact h
  obtain ⟨qs, hqs, ht, halike⟩ := tokens_replace htokens hlines
  rw [htexts] at ht
  rw [pieces_eq_iff.mpr ⟨ht, hqs⟩]
  exact halike

theorem inert_qualified (names : List Text) (before : Option Text) (ps : List Piece) :
    inert (qualifiedPieces names before ps) = inert ps := by
  induction ps generalizing before with
  | nil => rfl
  | cons p ps ih =>
    have hps := ih (passed before p)
    unfold inert at *
    rw [qualifiedPieces, List.filter_append, hps]
    split
    · exact (List.filter_append [p] ps).symm
    · exact (List.filter_append [p] ps).symm

theorem replaced_eq_self {p : Piece} : p.replaced = p ↔ Callless false p.text := by
  constructor
  · intro h
    have htext : replaceSelfCalls false p.text = p.text := congrArg Piece.text h
    rw [← htext]
    exact callless_replace false p.text
  · intro h
    rw [Piece.replaced, replace_of_callless h]

/-- Names are qualified without a change to any literal or comment. Calls that keep to their lines
are replaced within them, one literal or comment after the other; so these are left as they are
exactly when no call stands in one. -/
theorem literals_expand (hnames : ∀ n ∈ names, isIdentifier n) (t : Text) :
    inert (pieces (expand names t)) = inert (pieces (replaceSelfCalls false t)) ∧
    (CallsInLines t →
      inert (pieces (expand names t)) = (inert (pieces t)).map Piece.replaced ∧
      (inert (pieces (expand names t)) = inert (pieces t) ↔
        ∀ p ∈ inert (pieces t), Callless false p.text)) := by
  have hqualify : inert (pieces (expand names t)) = inert (pieces (replaceSelfCalls false t)) := by
    rw [expand, pieces_qualify hnames, inert_qualified]
  refine ⟨hqualify, fun h => ?_⟩
  rw [hqualify, (alike_replace h).literals]
  refine ⟨rfl, ?_, ?_⟩
  · intro heq p hp
    exact replaced_eq_self.mp (List.map_inj_left.mp (heq.trans (List.map_id _).symm) p hp)
  · intro hall
    exact (List.map_congr_left fun p hp => replaced_eq_self.mpr (hall p hp)).trans (List.map_id _)

theorem literals_expand_spread_call :
    isIdentifier "level".toList ∧
    CallsInLines "level /* this.err() */ + this\n.state()".toList ∧
    inert (pieces (expand ["level".toList] "level /* this.err() */ + this\n.state()".toList)) =
      [⟨.blockComment, "/* (fsm->err) */".toList⟩] := by
  have hnames : ∀ n ∈ ["level".toList], isIdentifier n := by decide
  have hlines : CallsInLines "level /* this.err() */ + this\n.state()".toList := by decide +kernel
  refine ⟨hnames _ (by decide), hlines, ((literals_expand hnames _).2 hlines).1.trans ?_⟩
  decide +kernel

/-- A call in a string is replaced like any other. -/
theorem string_not_kept :
    inert (pieces "\"this.state()\"".toList) = [⟨.string, "\"this.state()\"".toList⟩] ∧
    inert (pieces (expand [] "\"this.state()\"".toList)) =
      [⟨.string, "\"(fsm->state)\"".toList⟩] := by
  decide +kernel

end Literals
end Statewright.Code
