import Statewright.Proofs.Slots

namespace Statewright

/-- The part of a text from one offset up to another. -/
def Text.segment (t : Text) (start stop : Nat) : Text :=
  (t.drop start).take (stop - start)

theorem Text.drop_at {t : Text} {n : Nat} {c : Char} (h : t[n]? = some c) :
    t.drop n = c :: t.drop (n + 1) := by
  obtain ⟨hlt, rfl⟩ := List.getElem?_eq_some_iff.mp h
  exact List.drop_eq_getElem_cons hlt

namespace Language

/-- The segment up to `stop` opens and closes equally often. -/
def EvensOut (o c : Char) (source : Text) (start stop : Nat) : Prop :=
  start < stop ∧
    (source.segment start stop).count o = (source.segment start stop).count c

section Enclosed
variable {o c : Char} {depth start : Nat} {source t u content rest : Text}

/-- Without a closing delimiter nothing closes more than is open. -/
theorem enclosed_none (hoc : o ≠ c) (h : enclosed o c depth t = none) (hu : u <+: t) :
    u.count c ≤ u.count o + depth := by
  fun_induction enclosed o c depth t generalizing u with
  | case1 =>
    rw [List.prefix_nil.mp hu]
    exact Nat.zero_le _
  | case2 depth t ih =>
    rcases List.prefix_cons_iff.mp hu with rfl | ⟨v, rfl, hv⟩
    · exact Nat.zero_le _
    · have hle := ih (Option.map_eq_none_iff.mp h) hv
      rw [List.count_cons_of_ne hoc, List.count_cons_self]
      omega
  | case3 => cases h
  | case4 t depth _ ih =>
    rcases List.prefix_cons_iff.mp hu with rfl | ⟨v, rfl, hv⟩
    · exact Nat.zero_le _
    · have hle := ih (Option.map_eq_none_iff.mp h) hv
      rw [List.count_cons_of_ne hoc.symm, List.count_cons_self]
      omega
  | case5 depth a t hao hac ih =>
    rcases List.prefix_cons_iff.mp hu with rfl | ⟨v, rfl, hv⟩
    · exact Nat.zero_le _
    · rw [List.count_cons_of_ne hao, List.count_cons_of_ne hac]
      exact ih (Option.map_eq_none_iff.mp h) hv

theorem segment_cons (hd : source.drop start = o :: t) {stop : Nat} (h : start < stop) :
    source.segment start stop = o :: t.take (stop - start - 1) := by
  obtain ⟨n, rfl⟩ := Nat.exists_eq_add_of_lt h
  have hlen : start + n + 1 - start = n + 1 := by omega
  rw [Text.segment, hd, hlen, List.take_succ_cons]
  rfl

/-- With a closing delimiter missing, no segment evens out. -/
theorem not_evensOut (hoc : o ≠ c) (hd : source.drop start = o :: t) (h : enclosed o c 0 t = none)
    (stop : Nat) : ¬ EvensOut o c source start stop := by
  rintro ⟨hlt, he⟩
  have hle := enclosed_none hoc h (List.take_prefix (stop - start - 1) t)
  rw [segment_cons hd hlt, List.count_cons_self, List.count_cons_of_ne hoc] at he
  omega

section Closed
variable (hd : source.drop start = o :: (content ++ c :: rest))
include hd

theorem segment_content :
    source.segment (start + 1) (start + content.length + 1) = content := by
  have hlen : start + content.length + 1 - (start + 1) = content.length := by omega
  rw [Text.segment, ← List.drop_drop, hd, hlen, List.drop_one, List.tail_cons, List.take_left]

/-- What is enclosed, with its delimiters, is the first segment that evens out. -/
theorem evensOut_least (hoc : o ≠ c) (h : Closes o c 0 content) :
    EvensOut o c source start (start + content.length + 2) ∧
      ∀ stop, EvensOut o c source start stop → start + content.length + 2 ≤ stop := by
  have hshortest := (shortest_iff hoc).mpr h
  have hwhole : source.drop start = (o :: (content ++ [c])) ++ rest := by
    rw [hd]
    simp
  refine ⟨⟨by omega, ?_⟩, fun stop ⟨hlt, he⟩ => ?_⟩
  · have hsegment : source.segment start (start + content.length + 2) =
        o :: (content ++ [c]) := by
      have hlen : start + content.length + 2 - start = (o :: (content ++ [c])).length := by
        simp only [List.length_cons, List.length_append, List.length_nil]
        omega
      rw [Text.segment, hwhole, hlen, List.take_left]
    rw [hsegment]
    exact hshortest.balanced
  · -- a shorter one would be a beginning of the segment, which is the first of its kind
    by_contra hlonger
    have hprefix : source.segment start stop <+: o :: (content ++ [c]) := by
      rw [Text.segment, hwhole, List.take_append_of_le_length]
      · exact List.take_prefix _ _
      · simp only [List.length_cons, List.length_append, List.length_nil]
        omega
    have hne : source.segment start stop ≠ [] := by
      rw [segment_cons hd hlt]
      exact List.cons_ne_nil _ _
    have hlen := congrArg List.length (hshortest.first _ hprefix hne he)
    simp only [Text.segment, List.length_take, List.length_cons, List.length_append,
      List.length_nil] at hlen
    omega

end Closed
end Enclosed
end Language

namespace Reader
open Statewright.Language

section Fragments
variable {expected : List Kind} {k : Kind} {o c : Char} {r : Reader} {start : Nat}
  (hm : (k, o, c) ∈ Kind.fragments)
include hm

/-- No gap starts at an opening delimiter. -/
theorem skipGap_at (hr : r.offset = start ∨ r.skipGap.offset = start)
    (hs : r.source[start]? = some o) : r.skipGap.offset = start := by
  rcases hr with rfl | hr
  · have hall : ∀ p ∈ Kind.fragments, Text.isBlank p.2.1 = false ∧ p.2.1 ≠ '/' := by decide
    have hrest : r.rest = o :: r.source.drop (r.offset + 1) := Text.drop_at hs
    rw [skipGap, hrest, Language.gapLength_zero _ (hall _ hm).1 (hall _ hm).2]
    rfl
  · exact hr

theorem skipGap_delimiter (hr : r.offset = start ∨ r.skipGap.offset = start)
    (hs : r.source[start]? = some o) :
    r.skipGap = { r with offset := start } ∧
      r.skipGap.rest = o :: r.source.drop (start + 1) := by
  have hoffset := skipGap_at hm hr hs
  refine ⟨by rw [← hoffset]; rfl, ?_⟩
  rw [Reader.rest, hoffset]
  exact Text.drop_at hs

section Cut
variable (he : k ∈ expected) (hr : r.offset = start ∨ r.skipGap.offset = start)
  (hs : r.source[start]? = some o)
include he hr hs

theorem cut_enclosed {content : Text}
    (h : enclosed o c 0 (r.source.drop (start + 1)) = some content) :
    cut expected r = .ok ⟨k, content, .inSource r.source (start + 1), start⟩
      { r with offset := start + (content.length + 2) } := by
  obtain ⟨hskip, hrest⟩ := skipGap_delimiter hm hr hs
  have hk : k.delimiters?.isSome := by
    have hall : ∀ p ∈ Kind.fragments, p.1.delimiters?.isSome := by decide
    exact hall _ hm
  simp only [cut, hrest, Lexeme.read, fragment?_expected hm he, h]
  simp only [hskip, Lexeme.placeOffset, hk, if_true]

theorem cut_unclosed (h : enclosed o c 0 (r.source.drop (start + 1)) = none) :
    cut expected r = .error (.unterminated k o c (.inSource r.source start))
      { r with offset := start } := by
  obtain ⟨hskip, hrest⟩ := skipGap_delimiter hm hr hs
  simp only [cut, hrest, Lexeme.read, fragment?_expected hm he, h]
  simp only [hskip, Lexeme.Flaw.fault]

end Cut

/-- A fragment is the shortest segment from its delimiter on that evens out, placed at the character
behind the delimiter, and nested in itself. If none evens out, a fault is placed at the delimiter,
and the reader stays there. -/
theorem fragment_shortest (he : k ∈ expected) (hr : r.offset = start ∨ r.skipGap.offset = start)
    (hs : r.source[start]? = some o) :
    (∀ stop, EvensOut o c r.source start stop →
      ∃ least, EvensOut o c r.source start least ∧
        (∀ stop, EvensOut o c r.source start stop → least ≤ stop) ∧
        cut expected r =
          .ok ⟨k, r.source.segment (start + 1) (least - 1), .inSource r.source (start + 1), start⟩
            { r with offset := least } ∧
        Code.Balanced o c (r.source.segment (start + 1) (least - 1))) ∧
    ((∀ stop, ¬ EvensOut o c r.source start stop) →
      cut expected r = .error (.unterminated k o c (.inSource r.source start))
        { r with offset := start }) := by
  have hoc := fragments_distinct hm
  have hd := Text.drop_at hs
  cases henclosed : enclosed o c 0 (r.source.drop (start + 1)) with
  | none =>
    exact ⟨fun stop heven => absurd heven (not_evensOut hoc hd henclosed stop),
      fun _ => cut_unclosed hm he hr hs henclosed⟩
  | some content =>
    have hcut := cut_enclosed hm he hr hs henclosed
    obtain ⟨rest, hrest, hcloses⟩ := enclosed_sound hoc henclosed
    rw [hrest] at hd
    obtain ⟨heven, hleast⟩ := evensOut_least hd hoc hcloses
    refine ⟨fun _ _ => ⟨start + content.length + 2, heven, hleast, ?_⟩,
      fun hnone => absurd heven (hnone _)⟩
    have hcontent : r.source.segment (start + 1) (start + content.length + 2 - 1) = content :=
      segment_content hd
    rw [hcontent]
    exact ⟨hcut, Code.balanced_of_closes hoc hcloses⟩

end Fragments

/-- A block with a block in it, and parentheses that are not closed. -/
def openSource : Text :=
  " \x7ba\x7b\x7db\x7d(("

theorem fragment_shortest_open :
    (∃ least, (∀ stop, EvensOut '{' '}' openSource 1 stop → least ≤ stop) ∧
      cut [.block, .expr] { source := openSource } =
        .ok ⟨.block, openSource.segment 2 (least - 1), ⟨1, 3⟩, 1⟩
          { source := openSource, offset := least }) ∧
    cut [.block, .expr] { source := openSource, offset := 7 } =
      .error (.unterminated .expr '(' ')' ⟨1, 8⟩) { source := openSource, offset := 7 } := by
  constructor
  · have heven : EvensOut '{' '}' openSource 1 7 := ⟨by decide, by decide +kernel⟩
    have hstart : ({ source := openSource } : Reader).skipGap.offset = 1 := by decide +kernel
    obtain ⟨least, _, hleast, hcut, _⟩ :=
      (fragment_shortest (.head _) (.head [.expr]) (.inr hstart) rfl).1 7 heven
    exact ⟨least, hleast, hcut⟩
  · have hd : openSource.drop 7 = '(' :: ['('] := rfl
    exact (fragment_shortest (.tail _ (.head _)) (.tail _ (.head _)) (.inl rfl) rfl).2
      (not_evensOut (by decide) hd rfl)

end Reader
end Statewright
