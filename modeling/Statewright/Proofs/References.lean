import Statewright.Proofs.Replacement
import Statewright.Proofs.Retries

namespace Statewright
namespace Code
open Statewright.Language (Ends)

/-- Whether writing code out qualifies a name: without the name the code would come out
otherwise. -/
def Qualifies (write : List Text → Text) (names : List Text) (n : Text) : Prop :=
  n ∈ names ∧ write names ≠ write (names.filter (· ≠ n))

instance (write : List Text → Text) (names : List Text) (n : Text) :
    Decidable (Qualifies write names n) :=
  inferInstanceAs (Decidable (n ∈ names ∧ write names ≠ write (names.filter (· ≠ n))))

section Qualifies
variable {names names' : List Text} {ps : List Piece}

theorem length_qualified (names : List Text) (before : Option Text) (ps : List Piece) :
    (texts (qualifiedPieces names before ps)).length =
      (texts ps).length + 5 * (mentions before ps).countP names.contains := by
  induction ps generalizing before with
  | nil => rfl
  | cons p ps ih =>
    rw [qualifiedPieces, texts_append, List.length_append, ih, mentions, List.countP_append,
      texts_cons, List.length_append]
    cases refers before p with
    | false =>
      simp
      omega
    | true =>
      by_cases hp : p.text ∈ names
      · simp [hp, machineWord, arrowPiece]
        omega
      · simp [hp]
        omega

theorem qualifiedPieces_congr (before : Option Text)
    (h : ∀ n ∈ mentions before ps, n ∈ names ↔ n ∈ names') :
    qualifiedPieces names before ps = qualifiedPieces names' before ps := by
  induction ps generalizing before with
  | nil => rfl
  | cons p ps ih =>
    rw [mentions] at h
    have hp : (refers before p && names.contains p.text) =
        (refers before p && names'.contains p.text) := by
      cases hr : refers before p with
      | false => rfl
      | true =>
        have hmem := h p.text (by simp [hr])
        rw [Bool.true_and, Bool.true_and, Bool.eq_iff_iff, List.contains_iff_mem,
          List.contains_iff_mem]
        exact hmem
    rw [qualifiedPieces, qualifiedPieces, hp, ih _ fun n hn => h n (List.mem_append_right _ hn)]

theorem countP_lt_of_mem {xs : List Text} {n : Text} (hn : n ∈ names) (hm : n ∈ xs) :
    xs.countP (names.filter (· ≠ n)).contains < xs.countP names.contains := by
  have hle (ys : List Text) :
      ys.countP (names.filter (· ≠ n)).contains ≤ ys.countP names.contains := by
    refine List.countP_mono_left fun x _ hx => ?_
    simp only [List.contains_iff_mem, List.mem_filter] at hx ⊢
    exact hx.1
  obtain ⟨ys, zs, rfl⟩ := List.append_of_mem hm
  have hys := hle ys
  have hzs := hle zs
  simp only [List.countP_append, List.countP_cons]
  simp [hn]
  simp at hys hzs
  omega

/-- A name is qualified if and only if it is mentioned once the calls are replaced. -/
theorem qualifies_expand {n t : Text} :
    Qualifies (expand · t) names n ↔
      n ∈ names ∧ n ∈ mentions none (pieces (replaceSelfCalls false t)) := by
  refine and_congr_right fun hn => ?_
  simp only [expand, qualify_eq]
  constructor
  · intro h
    by_contra hm
    refine h (congrArg texts (qualifiedPieces_congr none ?_))
    intro x hx
    have : x ≠ n := fun he => hm (he ▸ hx)
    simp [this]
  · intro hm heq
    have hlen := congrArg List.length heq
    rw [length_qualified, length_qualified] at hlen
    have := countP_lt_of_mem hn hm
    omega

end Qualifies

section Trim
variable {b t x rest : Text} {p : Piece} {ps : List Piece}

theorem mentions_skip (h : p.isInert ∨ p.shape = .blank) (before : Option Text) (ps : List Piece) :
    mentions before (p :: ps) = mentions before ps := by
  obtain ⟨hrefers, hpassed⟩ := skipped h before
  rw [mentions, hrefers, hpassed]
  rfl

theorem mentions_blanks (b : Text) (before : Option Text) (ps : List Piece) :
    mentions before (blanks b ++ ps) = mentions before ps := by
  induction b with
  | nil => rfl
  | cons c b ih => exact (mentions_skip (.inr rfl) before _).trans ih

theorem pieces_blanks (hb : b.allBlank) (t : Text) : pieces (b ++ t) = blanks b ++ pieces t := by
  obtain ⟨htexts, htokens⟩ := tokens_pieces t
  rw [pieces_eq_iff, texts_append, texts_blanks, htexts]
  exact ⟨rfl, tokens_blanks hb htokens⟩

theorem Tokens.eq_blanks (hb : b.allBlank) (h : Tokens ps) (ht : texts ps = b) : ps = blanks b := by
  have := pieces_blanks hb []
  rw [← h.pieces_eq, ht, ← List.append_nil b, this]
  simp [pieces]

theorem literalTail_none_of_append {q : Char} (hq : isQuote q)
    (h : literalTail q (t ++ x) = none) : literalTail q t = none := by
  cases hs : literalTail q t with
  | none => rfl
  | some u =>
    obtain ⟨⟨y, rfl⟩, hu⟩ := literalTail_some hq hs
    rw [List.append_assoc, hu] at h
    cases h

theorem commentTail_none_of_append (h : commentTail (t ++ x) = none) : commentTail t = none := by
  cases hs : commentTail t with
  | none => rfl
  | some u =>
    obtain ⟨⟨y, rfl⟩, hu⟩ := commentTail_some hs
    rw [List.append_assoc, hu] at h
    cases h

theorem ends_of_append {q : Char → Bool} (h : Ends q (t ++ x)) : Ends q t := by
  cases t with
  | nil => exact ends_nil q
  | cons c t => exact h

/-- A piece stays cut where it is when the end of what follows it is left out. -/
theorem Cut.of_append (h : Cut (rest ++ x) p) : Cut rest p := by
  cases h with
  | blank hc => exact .blank hc
  | word hc hw he => exact .word hc hw (ends_of_append he)
  | number hc hw he => exact .number hc hw (ends_of_append he)
  | string hu => exact .string hu
  | character hu => exact .character hu
  | lineComment hb he => exact .lineComment hb (ends_of_append he)
  | blockComment hu => exact .blockComment hu
  | arrow => exact .arrow
  | quote hc hn => exact .quote hc (literalTail_none_of_append hc hn)
  | slash he hn =>
    refine .slash (ends_of_append he) ?_
    rintro u rfl
    exact commentTail_none_of_append (hn _ rfl)
  | dash he => exact .dash (ends_of_append he)
  | mark hc => exact .mark hc

theorem mem_of_last {v : Text} {c : Char} (h : v ++ [c] = t ++ x) (hx : x ≠ []) : c ∈ x := by
  have hlast : (t ++ x).getLast? = some c := by rw [← h, List.getLast?_concat]
  rw [List.getLast?_append] at hlast
  cases hg : x.getLast? with
  | none => exact absurd (List.getLast?_eq_none_iff.mp hg) hx
  | some d =>
    rw [hg, Option.some_or] at hlast
    cases hlast
    exact List.mem_of_getLast? hg

/-- Of the longer pieces only a line comment can end with a blank. -/
theorem Cut.lineComment_of_blank (h : Cut rest p) (hp : p.text = t ++ x) (ht : t ≠ [])
    (hx : x ≠ []) (hb : x.allBlank) :
    p.shape = .lineComment ∧ ∃ body, t = '/' :: '/' :: body ∧ '\n' ∉ body := by
  have hblank := List.all_eq_true.mp hb
  have hshort (c : Char) (hc : [c] = t ++ x) : False := by
    have := congrArg List.length hc
    have := List.length_pos_iff.mpr ht
    have := List.length_pos_iff.mpr hx
    simp only [List.length_append, List.length_singleton] at *
    omega
  have hlast {v : Text} {c : Char} (hc : Text.isBlank c = false) (hv : v ++ [c] = t ++ x) :
      False := by
    rw [hblank c (mem_of_last hv hx)] at hc
    cases hc
  obtain ⟨d, hd⟩ := List.exists_mem_of_ne_nil x hx
  have hmem : d ∈ p.text := hp ▸ List.mem_append_right t hd
  cases h with
  | blank | quote | slash | dash | mark => exact (hshort _ hp).elim
  | arrow => exact (hlast (by decide) (show ['-'] ++ ['>'] = _ from hp)).elim
  | @word c w hc hw =>
    have hname : isNameChar d := by
      rcases List.mem_cons.mp hmem with rfl | hmem
      · simp [isNameChar, hc]
      · exact hw d hmem
    rw [isNameChar_of_blank (hblank d hd)] at hname
    cases hname
  | @number c w hc hw =>
    have hnumeral : isNumeral d := by
      rcases List.mem_cons.mp hmem with rfl | hmem
      · simp [isNumeral, isNameChar, hc]
      · exact hw d hmem
    rw [isNumeral_of_blank (hblank d hd)] at hnumeral
    cases hnumeral
  | string hu =>
    obtain ⟨v, rfl⟩ := literalTail_last hu
    exact (hlast (by decide) (show ('"' :: v) ++ ['"'] = _ from hp)).elim
  | character hu =>
    obtain ⟨v, rfl⟩ := literalTail_last hu
    exact (hlast (by decide) (show ('\'' :: v) ++ ['\''] = _ from hp)).elim
  | blockComment hu =>
    obtain ⟨v, rfl⟩ := commentTail_last hu
    exact (hlast (by decide) (show ('/' :: '*' :: v) ++ ['/'] = _ from hp)).elim
  | lineComment hbody =>
    refine ⟨rfl, ?_⟩
    have hslash : '/' ∉ x := fun hm => absurd (hblank _ hm) (by decide)
    cases t with
    | nil => exact absurd rfl ht
    | cons c t =>
      obtain ⟨rfl, htail⟩ := List.cons.inj hp
      cases t with
      | nil =>
        change _ = x at htail
        exact absurd (htail ▸ List.mem_cons_self) hslash
      | cons e t =>
        obtain ⟨rfl, rfl⟩ := List.cons.inj htail
        exact ⟨t, rfl, fun hm => hbody (List.mem_append_left x hm)⟩

/-- Blanks at the end of code mention nothing. -/
theorem Tokens.trim (h : Tokens ps) (ht : texts ps = t ++ b) (hb : b.allBlank) :
    ∃ qs, Tokens qs ∧ texts qs = t ∧ ∀ before, mentions before qs = mentions before ps := by
  induction h generalizing t with
  | nil =>
    obtain ⟨rfl, rfl⟩ := List.append_eq_nil_iff.mp ht.symm
    exact ⟨[], .nil, rfl, fun _ => rfl⟩
  | @cons ps p hcut hps ih =>
    by_cases hnil : t = []
    · subst hnil
      refine ⟨[], .nil, rfl, fun before => ?_⟩
      have hall := Tokens.eq_blanks hb (.cons hcut hps) ht
      rw [hall, ← List.append_nil (blanks b), mentions_blanks]
    rw [texts_cons] at ht
    rcases List.append_eq_append_iff.mp ht with ⟨x, rfl, hx⟩ | ⟨x, hp, hx⟩
    · obtain ⟨qs, hqs, rfl, hmentions⟩ := ih hx
      refine ⟨p :: qs, .cons (Cut.of_append (hx ▸ hcut)) hqs, rfl, fun before => ?_⟩
      rw [mentions, mentions, hmentions]
    · -- The piece goes on with blanks, or ends where they begin; all the others are blanks.
      have hparts : Text.allBlank x ∧ Text.allBlank (texts ps) := by
        simpa [Text.allBlank, hx] using hb
      have hrest (before : Option Text) : mentions before ps = [] := by
        rw [hps.eq_blanks hparts.2 rfl, ← List.append_nil (Code.blanks _), mentions_blanks]
        rfl
      by_cases hxnil : x = []
      · subst hxnil
        rw [List.append_nil] at hp
        refine ⟨[p], .cons (Cut.of_append hcut) .nil, ?_, fun before => ?_⟩
        · rw [texts_cons, hp, texts_nil, List.append_nil]
        · have happend := mentions_append before [p] ps
          rw [hrest, List.append_nil] at happend
          exact happend.symm
      · obtain ⟨hshape, body, rfl, hbody⟩ := hcut.lineComment_of_blank hp hnil hxnil hparts.1
        refine ⟨[⟨.lineComment, '/' :: '/' :: body⟩],
          .cons (.lineComment hbody (ends_nil _)) .nil, by simp, fun before => ?_⟩
        have hinert : p.isInert := by simp [Piece.isInert, hshape]
        rw [mentions_skip (.inl hinert), hrest]
        rfl

theorem mentions_append_blanks (hb : b.allBlank) (t : Text) :
    mentions none (pieces (t ++ b)) = mentions none (pieces t) := by
  obtain ⟨htexts, htokens⟩ := tokens_pieces (t ++ b)
  obtain ⟨qs, hqs, ht, hmentions⟩ := htokens.trim htexts hb
  rw [← hmentions, pieces_eq_iff.mpr ⟨ht, hqs⟩]

theorem isWordChar_of_blank {c : Char} (h : Text.isBlank c) : Text.isWordChar c = false := by
  have hall : ∀ n ∈ List.range' 9 5 ++ List.range' 28 5 ++ [0x85, 0xA0, 0x1680] ++
      List.range' 0x2000 11 ++ [0x2028, 0x2029, 0x202F, 0x205F, 0x3000],
      Text.isWordChar (Char.ofNat n) = false := by decide +kernel
  rw [← Char.ofNat_toNat c]
  apply hall
  simp only [Text.isBlank, Bool.or_eq_true, Bool.and_eq_true, decide_eq_true_eq, beq_iff_eq] at h
  simp only [List.mem_append, List.mem_range'_1, List.mem_cons, List.not_mem_nil, or_false]
  omega

theorem replace_blanks (hb : b.allBlank) (t : Text) (inWord : Bool) :
    replaceSelfCalls inWord (b ++ t) = b ++ replaceSelfCalls (endsInWord inWord b) t := by
  induction b generalizing inWord with
  | nil => rfl
  | cons c b ih =>
    obtain ⟨hc, hb⟩ := allBlank_cons.mp hb
    have hne : c ≠ 't' := by
      rintro rfl
      exact absurd hc (by decide)
    rw [List.cons_append, replace_other hne, ih hb]
    rfl

theorem endsInWord_blanks (hb : b.allBlank) : endsInWord false b = false := by
  induction b with
  | nil => rfl
  | cons c b ih =>
    obtain ⟨hc, hb⟩ := allBlank_cons.mp hb
    rw [endsInWord, isWordChar_of_blank hc]
    exact ih hb

/-- A call does not end with a blank. -/
theorem replace_append_blanks (hb : b.allBlank) (t : Text) (inWord : Bool) :
    replaceSelfCalls inWord (t ++ b) = replaceSelfCalls inWord t ++ b := by
  have hspans : ∀ s ∈ selfCalls inWord 0 (t ++ b),
      s.start < 0 + t.length → s.stop ≤ 0 + t.length := by
    intro s hs _
    obtain ⟨field, x, u, y, he, hu, rfl⟩ := mem_selfCalls hs
    obtain ⟨v, rfl⟩ := hu.ends
    simp only [List.length_append, List.length_singleton]
    by_contra hlong
    have hclose : (t ++ b)[x.length + v.length]? = some ')' := by
      rw [he, List.getElem?_append_right (by omega)]
      simp
    rw [List.getElem?_append_right (by omega)] at hclose
    exact absurd (List.all_eq_true.mp hb _ (List.mem_of_getElem? hclose)) (by decide)
  rw [(replace_append hspans).1]
  have hnone := replace_blanks hb [] (endsInWord inWord t)
  rw [List.append_nil, replace_nil, List.append_nil] at hnone
  rw [hnone]

theorem blanks_trim (t : Text) :
    ∃ b₁ b₂, t = b₁ ++ (t.trim ++ b₂) ∧ b₁.allBlank ∧ b₂.allBlank := by
  have hblank (u : Text) : Text.allBlank (u.takeWhile Text.isBlank) := List.all_takeWhile
  have hend (u : Text) : u = u.trimEnd ++ (u.reverse.takeWhile Text.isBlank).reverse := by
    have := congrArg List.reverse
      (List.takeWhile_append_dropWhile (p := Text.isBlank) (l := u.reverse))
    rw [List.reverse_append, List.reverse_reverse] at this
    exact this.symm
  refine ⟨t.takeWhile Text.isBlank, (t.trimStart.reverse.takeWhile Text.isBlank).reverse, ?_,
    hblank t, ?_⟩
  · rw [Text.trim, ← hend t.trimStart]
    exact List.takeWhile_append_dropWhile.symm
  · rw [Text.allBlank, List.all_reverse]
    exact hblank t.trimStart.reverse

/-- Code that is trimmed before its calls are replaced mentions what it would mention otherwise. -/
theorem mentions_replace_trim (t : Text) :
    mentions none (pieces (replaceSelfCalls false t.trim)) =
      mentions none (pieces (replaceSelfCalls false t)) := by
  obtain ⟨b₁, b₂, ht, hb₁, hb₂⟩ := blanks_trim t
  generalize t.trim = u at ht ⊢
  rw [ht, replace_blanks hb₁, endsInWord_blanks hb₁, replace_append_blanks hb₂,
    pieces_blanks hb₁, mentions_blanks, mentions_append_blanks hb₂]

end Trim
end Code

namespace Machine
variable {m : Machine} {f : Fragment} {n : Text}

theorem eraseDups_nodup (names : List Text) : names.eraseDups.Nodup := by
  induction hn : names.length using Nat.strong_induction_on generalizing names with
  | _ k ih =>
    cases names with
    | nil => exact List.nodup_nil
    | cons n names =>
      rw [List.eraseDups_cons, List.nodup_cons]
      refine ⟨fun hm => ?_, ih _ ?_ _ rfl⟩
      · simp at hm
      · have := List.length_filter_le (fun b => !b == n) names
        rw [← hn, List.length_cons]
        omega

/-- What a fragment refers to is listed in order, and once. -/
theorem resolveFragment_sorted (m : Machine) (f : Fragment) :
    (m.resolveFragment f).references.Pairwise (· < ·) := by
  rw [resolveFragment]
  dsimp only
  generalize ((m.uses f.text).map (·.2.name)) = names
  have htrans (a b c : Text) (hab : (!decide (b < a)) = true) (hbc : (!decide (c < b)) = true) :
      (!decide (c < a)) = true := by
    simp only [Bool.not_eq_true', decide_eq_false_iff_not, List.not_lt] at *
    exact List.le_trans hab hbc
  have htotal (a b : Text) : (!decide (b < a) || !decide (a < b)) = true := by
    simp only [Bool.or_eq_true, Bool.not_eq_true', decide_eq_false_iff_not, List.not_lt]
    exact List.le_total a b
  have hsorted := List.pairwise_mergeSort htrans htotal names.eraseDups
  have hnodup := (List.mergeSort_perm names.eraseDups fun a b => !decide (b < a)).symm.nodup
    (eraseDups_nodup names)
  refine (hsorted.and hnodup).imp fun {a b} h => ?_
  rw [Bool.not_eq_true', decide_eq_false_iff_not, List.not_lt] at h
  by_contra hlt
  exact h.2 (List.le_antisymm h.1 (List.not_lt.mp hlt))

theorem declared?_eq_some {v : Variable} (h : m.declared? n = some v) :
    v ∈ m.vars ∧ v.name = n ∧ n ∉ reservedNames := by
  rw [declared?] at h
  split at h
  · cases h
  · rename_i hn
    refine ⟨List.mem_of_find?_eq_some h, ?_, by simpa using hn⟩
    simpa using List.find?_some h

theorem declared?_isSome (hn : n ∈ CUnit.names m) (hr : n ∉ reservedNames) :
    ∃ v, m.declared? n = some v := by
  obtain ⟨v, hv, rfl⟩ := List.mem_map.mp hn
  have hfind : (m.vars.find? (·.name = v.name)).isSome := by
    rw [List.find?_isSome]
    exact ⟨v, hv, by simp⟩
  rw [declared?, if_neg (by simpa using hr)]
  exact Option.isSome_iff_exists.mp hfind

theorem mem_references_uses (m : Machine) (f : Fragment) (n : Text) :
    n ∈ (m.resolveFragment f).references ↔ ∃ u ∈ m.uses f.text, u.2.name = n := by
  rw [resolveFragment]
  dsimp only
  rw [List.mem_mergeSort, List.mem_eraseDups, List.mem_map]

/-- A fragment refers to the variables that it mentions. -/
theorem mem_references (m : Machine) (f : Fragment) (n : Text) :
    n ∈ (m.resolveFragment f).references ↔
      n ∈ Code.mentions none (Code.pieces f.text) ∧ n ∈ CUnit.names m ∧ n ∉ reservedNames := by
  rw [mem_references_uses, ← Code.mentions_eq, List.mem_map]
  constructor
  · rintro ⟨u, hu, rfl⟩
    obtain ⟨r, hr, he⟩ := List.mem_filterMap.mp hu
    obtain ⟨v, hv, rfl⟩ := Option.map_eq_some_iff.mp he
    obtain ⟨hmem, hname, hres⟩ := declared?_eq_some hv
    rw [hname]
    exact ⟨⟨r, hr, rfl⟩, List.mem_map.mpr ⟨v, hmem, hname⟩, hres⟩
  · rintro ⟨⟨r, hr, rfl⟩, hn, hres⟩
    obtain ⟨v, hv⟩ := declared?_isSome hn hres
    refine ⟨(r.1, v), List.mem_filterMap.mpr ⟨r, hr, by rw [hv]; rfl⟩, ?_⟩
    exact (declared?_eq_some hv).2.1

theorem codeOf_finishState (m : Machine) (frame : Option Frame) (k : Nat) (s : State) :
    codeOf (m.finishState frame k s) = (codeOf s).map m.resolveFragment := by
  have hcode (ts : List Transition) :
      (ts.map (m.finishTransition frame)).filterMap Transition.code =
        (ts.filterMap Transition.code).map m.resolveFragment := by
    rw [List.filterMap_map, List.map_filterMap]
    rfl
  have hentry (e : Option Fragment) :
      (e.map m.resolveFragment).toList = e.toList.map m.resolveFragment := by
    cases e <;> rfl
  have hvalues (outs : List Assignment) :
      (outs.map fun a => { a with value := m.resolveFragment a.value }).map
        Assignment.value = (outs.map Assignment.value).map m.resolveFragment := by
    rw [List.map_map, List.map_map]
    rfl
  rw [codeOf, codeOf, List.map_append, List.map_append, ← hcode, ← hentry, ← hvalues]
  rfl

/-- The code of an analyzed machine. -/
theorem analyzed_code (m : Machine) :
    m.number.resolve.code = m.code.map m.resolveFragment := by
  rw [code, code, analyzed_states, ← spots_states, List.flatMap_map, List.flatMap_map,
    List.map_flatMap]
  simp only [codeOf_finishState]

/-- The conditions of an analyzed machine. -/
theorem analyzed_conditions (m : Machine) :
    m.number.resolve.conditions = m.conditions.map m.resolveFragment := by
  have hstate (frame : Option Frame) (k : Nat) (s : State) :
      (m.finishState frame k s).transitions.filterMap (·.trigger.condition?) =
        (s.transitions.filterMap (·.trigger.condition?)).map m.resolveFragment := by
    have htransition (t : Transition) : (m.finishTransition frame t).trigger.condition? =
        t.trigger.condition?.map m.resolveFragment := by
      rw [finishTransition, resolveTransition]
      cases t.trigger <;> rfl
    rw [show (m.finishState frame k s).transitions =
      s.transitions.map (m.finishTransition frame) from rfl, List.filterMap_map,
      List.map_filterMap]
    simp only [Function.comp_def, htransition]
  rw [conditions, conditions, transitions, transitions, analyzed_states, ← spots_states,
    List.flatMap_map, List.flatMap_map, List.filterMap_flatMap, List.filterMap_flatMap,
    List.map_flatMap]
  simp only [hstate]

/-- Replacing the calls of a fragment changes nothing about the variables it mentions, as long as
they keep to their lines. -/
theorem mem_references_iff (hw : ¬ m.IllFormed) (hf : Code.CallsInLines f.text) :
    n ∈ (m.resolveFragment f).references ↔
      n ∈ CUnit.names m ∧
        n ∈ Code.mentions none (Code.pieces (Code.replaceSelfCalls false f.text)) := by
  have hreserved : ∀ n ∈ CUnit.names m, n ∉ reservedNames := by
    intro n hn hr
    obtain ⟨v, hv, rfl⟩ := List.mem_map.mp hn
    exact hw (.reservedVariable hv hr)
  have hown : ∀ n ∈ Code.ownWords, n ∈ reservedNames := by decide
  have hforeign (ns : List Text) (hn : n ∈ CUnit.names m) : n ∈ Code.foreign ns ↔ n ∈ ns := by
    have : n ∉ Code.ownWords := fun h => hreserved n hn (hown n h)
    simp [Code.foreign, this]
  rw [mem_references, and_comm]
  constructor
  · rintro ⟨⟨hn, _⟩, hm⟩
    refine ⟨hn, ?_⟩
    rw [← hforeign _ hn] at hm ⊢
    rw [(Code.alike_replace hf).names]
    exact hm
  · rintro ⟨hn, hm⟩
    refine ⟨⟨hn, hreserved n hn⟩, ?_⟩
    rw [← hforeign _ hn] at hm ⊢
    rw [← (Code.alike_replace hf).names]
    exact hm

/-- Analysis and writing out agree on a fragment whose calls keep to their lines. -/
theorem mem_references_qualifies (hw : ¬ m.IllFormed) (hf : Code.CallsInLines f.text) (n : Text) :
    (n ∈ (m.resolveFragment f).references ↔
      Code.Qualifies (Code.expand · f.text) (CUnit.names m) n) ∧
    (n ∈ (m.resolveFragment f).references ↔
      Code.Qualifies (Code.expression · f.text) (CUnit.names m) n) := by
  have htrim : Code.Qualifies (Code.expression · f.text) (CUnit.names m) n ↔ _ :=
    Code.qualifies_expand (t := f.text.trim)
  rw [htrim, Code.qualifies_expand, Code.mentions_replace_trim, mem_references_iff hw hf]
  exact ⟨Iff.rfl, Iff.rfl⟩

end Machine

namespace Compilation
open Statewright.Language
open Statewright.Code (CallsInLines Qualifies expand expression)

/-- Every fragment of an accepted program lists, in order and without repetition, the variables that
are qualified when it is written out, be it as a block or as an expression, provided that calls in
it keep to their lines. Outputs are not qualified in conditions. -/
theorem references_exact {file : Option Text} {source : Text} {c c' : Compilation} {p q : Program}
    (hp : parse { file } source = (c, .ok q)) (ha : c.analyze q = (c', p, .ok ())) :
    (∀ f ∈ p.machine.code ++ p.machine.conditions,
      f.references.Pairwise (· < ·) ∧
      (CallsInLines f.text → ∀ n,
        (n ∈ f.references ↔ Qualifies (expand · f.text) (CUnit.names p.machine) n) ∧
        (n ∈ f.references ↔ Qualifies (expression · f.text) (CUnit.names p.machine) n))) ∧
    (∀ f ∈ p.machine.conditions, CallsInLines f.text → ∀ v ∈ p.machine.vars,
      v.family = .output →
        ¬ Qualifies (expression · f.text) (CUnit.names p.machine) v.name) := by
  obtain ⟨_, hm, hw⟩ := analyze_accepted hp ha
  rw [hm, Machine.analyzed_code, Machine.analyzed_conditions, ← List.map_append]
  refine ⟨?_, ?_⟩
  · intro f hf
    obtain ⟨g, _, rfl⟩ := List.mem_map.mp hf
    exact ⟨Machine.resolveFragment_sorted _ g, Machine.mem_references_qualifies hw⟩
  · intro f hf hlines v hv hout hqualifies
    obtain ⟨g, hg, rfl⟩ := List.mem_map.mp hf
    have hmem := (Machine.mem_references_qualifies hw hlines v.name).2.mpr hqualifies
    obtain ⟨hmention, _⟩ := (Machine.mem_references _ g v.name).mp hmem
    rw [← Code.mentions_eq] at hmention
    obtain ⟨⟨i, n⟩, hr, he⟩ := List.mem_map.mp hmention
    cases he
    exact hw (.outputRead hg hr hv hout)

/-- A machine that asks for its state over two lines. -/
def spreadSource : Text :=
  "fsm m\x7binput int x(0);output int o(0);state[start,end]a\x7b" ++
    "on(x > this\n.state())go a;out o(x);\x7d\x7d"

theorem references_exact_spread_call : ∃ c q c' p, parse {} spreadSource = (c, .ok q) ∧
    c.analyze q = (c', p, .ok ()) ∧ ∃ f ∈ p.machine.conditions, CallsInLines f.text ∧
      f.references.Pairwise (· < ·) ∧ "x".toList ∈ f.references ∧
      Qualifies (expression · f.text) (CUnit.names p.machine) "x".toList := by
  have h : accepts none spreadSource (fun m => m.conditions.any fun f =>
      decide (CallsInLines f.text) && (m.uses f.text).any (·.2.name == "x".toList)) = true := by
    decide +kernel
  obtain ⟨c, q, c', p, hp, ha, hm, htest⟩ := accepted h
  obtain ⟨g, hg, hboth⟩ := List.any_eq_true.mp htest
  rw [Bool.and_eq_true, decide_eq_true_eq, List.any_eq_true] at hboth
  obtain ⟨hlines, u, hu, hname⟩ := hboth
  have hf : q.machine.resolveFragment g ∈ p.machine.conditions := by
    rw [hm, Machine.analyzed_conditions]
    exact List.mem_map_of_mem hg
  have hmem : "x".toList ∈ (q.machine.resolveFragment g).references :=
    (Machine.mem_references_uses _ g _).mpr ⟨u, hu, beq_iff_eq.mp hname⟩
  have hexact := (references_exact hp ha).1 _ (List.mem_append_right _ hf)
  exact ⟨c, q, c', p, hp, ha, _, hf, hlines, hexact.1, hmem, (hexact.2 hlines _).2.mp hmem⟩

/-- A machine with a call that goes over the end of a comment; the comment behind it is none any
more once the call is replaced. -/
def swallowedSource : Text :=
  "fsm m\x7boutput int o(0);state[start,end]a\x7bon(// this\n.state() /*\no */ 1)go a;\x7d\x7d"

/-- The condition of this machine refers to no variable, and comes out with an output in it. -/
theorem output_in_condition : ∃ c q c' p, parse {} swallowedSource = (c, .ok q) ∧
    c.analyze q = (c', p, .ok ()) ∧ ∃ f ∈ p.machine.conditions, ∃ v ∈ p.machine.vars,
      f.references = [] ∧ v.family = .output ∧
      Qualifies (expression · f.text) (CUnit.names p.machine) v.name := by
  have h : accepts none swallowedSource (fun m => m.conditions.any fun f => m.vars.any fun v =>
      (m.uses f.text).isEmpty && (v.family == .output &&
        decide (Qualifies (expression · f.text) (CUnit.names m) v.name))) = true := by
    decide +kernel
  obtain ⟨c, q, c', p, hp, ha, hm, htest⟩ := accepted h
  obtain ⟨g, hg, hvars⟩ := List.any_eq_true.mp htest
  obtain ⟨v, hv, hall⟩ := List.any_eq_true.mp hvars
  simp only [Bool.and_eq_true, beq_iff_eq, decide_eq_true_eq, List.isEmpty_iff] at hall
  obtain ⟨huses, hfamily, hqualifies⟩ := hall
  refine ⟨c, q, c', p, hp, ha, q.machine.resolveFragment g, ?_, v, ?_, ?_, hfamily, ?_⟩
  · rw [hm, Machine.analyzed_conditions]
    exact List.mem_map_of_mem hg
  · rw [hm]
    exact hv
  · refine List.eq_nil_iff_forall_not_mem.mpr fun n hn => ?_
    obtain ⟨u, hu, _⟩ := (Machine.mem_references_uses _ g n).mp hn
    rw [huses] at hu
    cases hu
  · rw [hm]
    exact hqualifies

end Compilation
end Statewright
