import Statewright.Proofs.Placement
import Statewright.Proofs.Relocation
import Statewright.Proofs.Segments

namespace Statewright
namespace Reader
open Statewright.Language

theorem Written.gapLength_zero {source : Text} {t : Token} {stop : Nat}
    (h : Written source t stop) : gapLength (source.drop t.offset) = 0 := by
  obtain ⟨w, hd, hs, _⟩ := h.spelled
  rw [hd]
  exact hs.gapLength_zero

/-- The reader stands before what the source has from an offset on: there is nothing but a gap
before it, or its first token was looked at. -/
def Before (source : Text) (n : Nat) (r : Reader) : Prop :=
  r.source = source ∧
    match r.ahead with
    | none => ∃ g, source.drop r.offset = g ++ source.drop n ∧ Gap (source.drop n) g ∧
        n = r.offset + g.length
    | some t => t.offset = n ∧ Written source t r.offset

section Before
variable {source : Text} {n : Nat} {r : Reader} {t : Token} {us : List Token}

theorem before_none (h : r.ahead = none) :
    Before source n r ↔ r.source = source ∧ ∃ g, source.drop r.offset = g ++ source.drop n ∧
      Gap (source.drop n) g ∧ n = r.offset + g.length := by
  simp only [Before, h]

theorem before_some (h : r.ahead = some t) :
    Before source n r ↔ r.source = source ∧ t.offset = n ∧ Written source t r.offset := by
  simp only [Before, h]

/-- The mark of a reader is the offset it stands before. -/
theorem Before.mark (h : Before source n r) (hn : gapLength (source.drop n) = 0) :
    r.mark.1 = n ∧ Before source n r.mark.2 := by
  unfold Reader.mark
  split
  · rename_i t ht
    exact ⟨((before_some ht).mp h).2.1, h⟩
  · rename_i hr
    obtain ⟨hsource, g, hd, hg, ho⟩ := (before_none hr).mp h
    have hgap : gapLength r.rest = g.length := by
      rw [Reader.rest, hsource, hd]
      exact gapLength_complete hg hn
    have hoff : r.skipGap.offset = n := by
      rw [ho, ← hgap]
      rfl
    refine ⟨hoff, (before_none (r := r.skipGap) hr).mpr ⟨hsource, [], ?_, .nil, ?_⟩⟩
    · rw [hoff]
      rfl
    · rw [hoff]
      rfl

/-- Tokens of the source from the offset on are those of the reader. -/
theorem Before.stands (h : Before source n r) (hs : Spelled source n (t :: us))
    (hk : t.kind ∈ [Kind.state, .untilWord, .closeBrace]) : Stands r (t :: us) := by
  cases hs with
  | @cons _ g w rest k v _ hd hg hs hus =>
    cases hr : r.ahead with
    | none =>
      obtain ⟨hsource, g', hd', hg', ho⟩ := (before_none hr).mp h
      refine (stands_cut hr).mpr ?_
      rw [hsource]
      rw [hd] at hd' hg'
      have hspelled := @Spelled.cons source r.offset (g' ++ g) w rest k v us
        (by rw [hd', List.append_assoc]) (Grammar.gap_append hg' hg) hs
      rw [List.length_append, ← Nat.add_assoc, ← ho] at hspelled
      exact hspelled hus
    | some t' =>
      obtain ⟨hsource, ho, hw⟩ := (before_some hr).mp h
      obtain ⟨w', hd', hs', hstop⟩ := hw.spelled
      have hzero := hw.gapLength_zero
      rw [ho, hd] at hzero
      obtain rfl := gap_eq_nil hg hzero
      have hsame := spelling_unique hs hs' (by rw [← hd', ho, hd]; rfl) hk
      refine (stands_ahead hr).mpr ⟨?_, ?_⟩
      · obtain ⟨k', v', place, o⟩ := t'
        obtain rfl : o = n := ho
        have hplace := hw.place
        simp only at hsame hplace ⊢
        obtain ⟨rfl, rfl, _⟩ := hsame
        rw [hplace]
        rfl
      · rw [hsource, hstop, ho, hsame.2.2]
        exact hus

/-- The tokens of the reader are those of the source from the offset on. -/
theorem Before.spelled (h : Before source n r) (hn : gapLength (source.drop n) = 0)
    (hs : Stands r (t :: us)) : Spelled source n (t :: us) := by
  cases hr : r.ahead with
  | none =>
    obtain ⟨rfl, g, hd, hg, ho⟩ := (before_none hr).mp h
    have hspelled := (stands_cut hr).mp hs
    generalize hm : r.offset = m at hspelled
    cases hspelled with
    | @cons _ g' w rest k v _ hd' hg' hs' hus =>
      subst hm
      have hlen : g'.length = g.length := by
        rw [← gapLength_complete hg hn, ← gapLength_complete hg' hs'.gapLength_zero, ← hd, ← hd']
      obtain ⟨rfl, hrest⟩ := List.append_inj (hd'.symm.trans hd) hlen
      rw [ho]
      exact Spelled.cons (g := []) (by rw [← ho, ← hrest]; rfl) .nil hs' hus
  | some t' =>
    obtain ⟨rfl, rfl, hw⟩ := (before_some hr).mp h
    obtain ⟨rfl, hus⟩ := (stands_ahead hr).mp hs
    obtain ⟨w, hd, hs', hstop⟩ := hw.spelled
    have hspelled := @Spelled.cons r.source t'.offset [] w _ t'.kind t'.text us hd .nil hs'
      (by rw [hstop] at hus; exact hus)
    have ht : (⟨t'.kind, t'.text, placeOf r.source t'.kind t'.offset, t'.offset⟩ : Token) = t' := by
      rw [← hw.place]
    rw [List.length_nil, Nat.add_zero, ht] at hspelled
    exact hspelled

/-- A reader that stands before a token stands before its offset. -/
theorem before_of_stands {z : Zone source} {d : Nat} (h : z.Holds d r)
    (hs : Stands r (t :: us)) : Before source t.offset r := by
  cases hr : r.ahead with
  | none =>
    obtain ⟨rfl, _⟩ := (Zone.holds_none hr).mp h
    have hspelled := (stands_cut hr).mp hs
    generalize hm : r.offset = m at hspelled
    cases hspelled with
    | @cons _ g w rest k v _ hd hg hs' _ =>
      subst hm
      have hdrop : r.source.drop (r.offset + g.length) = w ++ rest := by
        rw [← List.drop_drop, hd, List.drop_left]
      refine (before_none hr).mpr ⟨rfl, g, ?_, ?_, rfl⟩
      · rw [hdrop]
        exact hd
      · rw [hdrop]
        exact hg
  | some t' =>
    obtain ⟨hsource, _, hw⟩ := (Zone.holds_some hr).mp h
    obtain ⟨rfl, _⟩ := (stands_ahead hr).mp hs
    exact (before_some hr).mpr ⟨hsource, rfl, hw⟩

theorem Before.holds (h : Before source n r) (hn : n ≤ source.length) (d : Nat) :
    (Zone.whole source).Holds d r := by
  cases hr : r.ahead with
  | none =>
    obtain ⟨hsource, g, _, _, ho⟩ := (before_none hr).mp h
    refine (Zone.holds_none hr).mpr ⟨hsource, ?_⟩
    change r.offset ≤ source.length
    omega
  | some t =>
    obtain ⟨hsource, ho, hw⟩ := (before_some hr).mp h
    refine (Zone.holds_some hr).mpr ⟨hsource, ?_, hw⟩
    change t.offset ≤ source.length
    omega

/-- A reader in a zone stands before its mark, which is where a token starts. -/
theorem before_mark {z : Zone source} {d : Nat} (h : z.Holds d r) :
    Before source r.mark.1 r ∧ z.has d r.mark.1 ∧ gapLength (source.drop r.mark.1) = 0 := by
  unfold Reader.mark
  split
  · rename_i t ht
    obtain ⟨hsource, hhas, hw⟩ := (Zone.holds_some ht).mp h
    exact ⟨(before_some ht).mpr ⟨hsource, rfl, hw⟩, hhas, hw.gapLength_zero⟩
  · rename_i hr
    obtain ⟨rfl, _⟩ := (Zone.holds_none hr).mp h
    have hhas := (Zone.holds_none (r := r.skipGap) hr).mp (Zone.holds_skipGap hr h)
    have hskip : r.source.drop r.skipGap.offset = r.rest.drop (gapLength r.rest) := rest_skipGap r
    dsimp only
    refine ⟨(before_none hr).mpr ⟨rfl, r.rest.take (gapLength r.rest), ?_, ?_, ?_⟩, hhas.2, ?_⟩
    · rw [hskip]
      exact (List.take_append_drop _ r.rest).symm
    · rw [hskip]
      exact gapLength_sound r.rest
    · rw [List.length_take, Nat.min_eq_left (gapLength_le _)]
      rfl
    · rw [hskip]
      exact gapLength_drop _

end Before

/-- A segment of the source that starts at an offset, and what lands it. -/
structure Piece (source w after : Text) (n : Nat) : Prop where
  segment : Segment w
  landing : Landing after
  here : source.drop n = w ++ '\n' :: after

/-- The offset is in the text that starts at `n`, or that of the first token behind it. -/
def Within (w : Text) (n o : Nat) : Prop :=
  n ≤ o ∧ (o < n + w.length ∨ o = n + w.length + 1)

/-- An offset of the piece that a broken item is recovered from. -/
structure Piece.Inside (source w : Text) (n o : Nat) : Prop where
  le : o ≤ n + w.length
  gap : gapLength (source.drop o) = 0
  skips : o + itemLength 0 true (source.drop o) = n + w.length + 1
  tokens : ∀ {t stop}, Written source t stop → t.offset = o → stop ≤ n + w.length

namespace Piece
variable {source w after : Text} {n b o : Nat}

/-- Where what lands the segment starts. -/
theorem drop_stop (h : Piece source w after n) : source.drop (n + w.length + 1) = after := by
  rw [Nat.add_assoc, ← List.drop_drop, h.here, ← List.drop_drop, List.drop_left]
  rfl

theorem length_eq (h : Piece source w after n) :
    source.length = n + w.length + 1 + after.length := by
  have hlen := congrArg List.length h.here
  simp only [List.length_drop, List.length_append, List.length_cons] at hlen
  omega

/-- The offsets of the piece, with the one where what lands it starts. -/
def zone (h : Piece source w after n) : Zone source :=
  Zone.segment source n h.landing

theorem zone_cases (h : Piece source w after n) (ho : h.zone.has b o) :
    (n ≤ o ∧ ∃ u p, source.drop o = u ++ '\n' :: after ∧ Interior b p u ∧
      o + u.length = n + w.length) ∨ (b = 0 ∧ o = n + w.length + 1) := by
  have hlen := h.length_eq
  rcases ho with ⟨hn, u, p, hu, hint⟩ | ⟨hb, hland⟩
  · refine .inl ⟨hn, u, p, hu, hint, ?_⟩
    have := congrArg List.length hu
    simp only [List.length_drop, List.length_append, List.length_cons] at this
    omega
  · refine .inr ⟨hb, ?_⟩
    have hpos := List.length_pos_iff.mpr h.landing.ne_nil
    have := congrArg List.length hland
    rw [List.length_drop] at this
    omega

/-- A token does not start at the newline behind the segment. -/
theorem start_cases (h : Piece source w after n) (ho : h.zone.has b o)
    (hg : gapLength (source.drop o) = 0) :
    (n ≤ o ∧ ∃ c u p, source.drop o = c :: u ++ '\n' :: after ∧ Interior b p (c :: u) ∧
      o + (c :: u).length = n + w.length) ∨ (b = 0 ∧ o = n + w.length + 1) := by
  rcases h.zone_cases ho with ⟨hn, u, p, hu, hint, hlen⟩ | hstop
  · cases u with
    | nil =>
      rw [hu, gapLength, List.nil_append, gap_blank _ rfl] at hg
      omega
    | cons c u => exact .inl ⟨hn, c, u, p, hu, hint, hlen⟩
  · exact .inr hstop

theorem start_within (h : Piece source w after n) (ho : h.zone.has b o)
    (hg : gapLength (source.drop o) = 0) : Within w n o := by
  rcases h.start_cases ho hg with ⟨hn, c, u, p, _, _, hlen⟩ | ⟨_, rfl⟩
  · rw [List.length_cons] at hlen
    exact ⟨hn, .inl (by omega)⟩
  · exact ⟨by omega, .inr rfl⟩

/-- A token of the piece ends in it, unless it is the one that lands it. -/
theorem written_cases (h : Piece source w after n) {t : Token} {stop : Nat}
    (ho : h.zone.has b t.offset) (hw : Written source t stop) :
    (n ≤ t.offset ∧ stop ≤ n + w.length ∧ ∃ b', Turn t.kind b b') ∨
      (b = 0 ∧ t.offset = n + w.length + 1 ∧ t.kind ∈ [Kind.state, .untilWord, .closeBrace]) := by
  obtain ⟨x, hd, hs, hstop⟩ := hw.spelled
  rcases h.zone_cases ho with ⟨hn, u, p, hu, hint, _⟩ | ⟨hb, hoff⟩
  · left
    obtain ⟨u', b', p', hrest, _, hturn⟩ := hint.token hs (hu.symm.trans hd)
    have hlen := congrArg List.length hrest
    simp only [List.length_drop, List.length_append, List.length_cons] at hlen
    have := h.length_eq
    exact ⟨hn, by omega, b', hturn⟩
  · right
    obtain ⟨k, y, tail, hy, hsy, hk⟩ := h.landing.spelling
    rw [hoff, h.drop_stop, hy] at hd
    obtain ⟨hkind, _⟩ := spelling_unique hsy hs hd hk
    exact ⟨hb, hoff, hkind ▸ hk⟩

/-- A token of the piece is placed in the segment or at the first token behind it. -/
theorem written_placed (h : Piece source w after n) {t : Token} {stop : Nat}
    (ho : h.zone.has b t.offset) (hw : Written source t stop) :
    ∃ o, t.place = .inSource source o ∧ Within w n o := by
  rw [hw.place, placeOf]
  by_cases hk : t.kind = .block ∨ t.kind = .expr
  · rw [if_pos hk]
    refine ⟨t.offset + 1, rfl, ?_⟩
    obtain ⟨x, _, hs, hstop⟩ := hw.spelled
    rcases h.written_cases ho hw with ⟨hn, hle, _⟩ | ⟨_, _, hmem⟩
    · -- behind the first delimiter there is still the other one
      rcases hs.text with ⟨hnot, _⟩ | ⟨_, a, c, hx⟩
      · exact absurd hk hnot
      · have hlen := congrArg List.length hx
        simp only [List.length_cons, List.length_append] at hlen
        exact ⟨by omega, .inl (by omega)⟩
    · rcases hk with hk | hk <;> simp [hk] at hmem
  · rw [if_neg hk]
    exact ⟨t.offset, rfl, h.start_within ho hw.gapLength_zero⟩

theorem points_placed (h : Piece source w after n) {f : Fault} (ho : h.zone.has b o)
    (hf : Points source o f) : ∃ o, f.place = .inSource source o ∧ Within w n o := by
  cases hf with
  | unrecognized _ hg => exact ⟨o, rfl, h.start_within ho hg⟩
  | unterminated _ hg => exact ⟨o, rfl, h.start_within ho hg⟩
  | unexpected hw => exact h.written_placed ho hw
  | unknownFlag hw _ => exact h.written_placed ho hw
  | untyped hw _ => exact h.written_placed ho hw
  | retryOverflow hw _ => exact h.written_placed ho hw

/-- The first token of a segment is the word it starts with. -/
theorem first (h : Piece source w after n) :
    ∃ k word, (k = .state ∨ k = .untilWord) ∧ Spelled source n [⟨k, word, .inSource source n, n⟩] ∧
      ∀ t stop, Written source t stop → t.offset = n →
        stop ≤ n + w.length ∧ h.zone.has 0 stop := by
  obtain ⟨word, hword, rest, rfl, he, hrest⟩ := h.segment.interior
  obtain ⟨k, hk, hstate⟩ := itemWords_kind hword
  have hdrop : source.drop n = word ++ (rest ++ '\n' :: after) := by
    rw [h.here, List.append_assoc]
  have hspelling : Spelling (rest ++ '\n' :: after) k word word :=
    .word hk (ends_line he rfl after)
  refine ⟨k, word, hstate, ?_, ?_⟩
  · have hspelled := Spelled.cons (g := []) hdrop .nil hspelling .nil
    have hplace : placeOf source k n = .inSource source n := by
      rcases hstate with rfl | rfl <;> rfl
    rw [List.length_nil, Nat.add_zero, hplace] at hspelled
    exact hspelled
  · intro t stop hw ht
    obtain ⟨w', hd, hs, hstop⟩ := hw.spelled
    have hmem : k ∈ [Kind.state, .untilWord, .closeBrace] := by
      rcases hstate with rfl | rfl <;> simp
    obtain ⟨_, _, hlen⟩ := spelling_unique hspelling hs (by rw [← hdrop, ← hd, ht]) hmem
    have hoff : stop = n + word.length := by rw [hstop, ht, hlen]
    refine ⟨by rw [List.length_append]; omega, .inl ⟨by omega, rest, 0, ?_, hrest⟩⟩
    rw [hoff, ← List.drop_drop, hdrop, List.drop_left]

/-- The start of the piece is an offset to recover from. -/
theorem inside_start (h : Piece source w after n) : Inside source w n n := by
  obtain ⟨_, _, _, _, hfirst⟩ := h.first
  refine ⟨Nat.le_add_right n _, ?_, ?_, fun hw ht => (hfirst _ _ hw ht).1⟩
  · obtain ⟨word, hword, rest, rfl, _⟩ := h.segment.first
    obtain ⟨c, u, rfl, hc, _⟩ := itemWords_spelled hword
    rw [h.here]
    exact gapLength_start hc
  · rw [h.here, h.segment.skipped h.landing]
    rfl

/-- So is any other offset of it outside braces where a token starts. -/
theorem inside_of_has (h : Piece source w after n) (ho : h.zone.has 0 o)
    (hg : gapLength (source.drop o) = 0) (hne : o ≠ n + w.length + 1) : Inside source w n o := by
  rcases h.start_cases ho hg with ⟨_, c, u, p, hu, hint, hlen⟩ | ⟨_, hoff⟩
  · refine ⟨by omega, hg, ?_, ?_⟩
    · rw [hu] at hg ⊢
      rw [hint.skipped_first h.landing hg]
      omega
    · intro t stop hw ht
      rcases h.written_cases (ht ▸ ho) hw with ⟨_, hle, _⟩ | ⟨_, hoff, _⟩
      · exact hle
      · exact absurd (ht.symm.trans hoff) hne
  · exact absurd hoff hne

end Piece
end Reader

namespace Grammar
open Statewright.Language Reader

section Rounds
variable {source w after : Text} {n : Nat} {r : Reader} {file : Option Text}

theorem items_of_item (file : Option Text) {i : Item} {r' : Reader}
    (h : item r.mark.2 = .ok (some i) r') : items file r = (items file r').addItem i := by
  rw [items]
  simp only [h, item_eager h, ↓reduceIte]

theorem items_of_fault {f : Fault} {r' r'' : Reader} (h : item r.mark.2 = .error f r')
    (hr : ((report file f r').recover r.mark.1).atEnd = (false, r''))
    (hlt : r''.remaining < r.remaining) : items file r = (items file r'').addFault f := by
  rw [items]
  simp only [h, hr, hlt, Bool.false_eq_true, ↓reduceIte]

/-- Recovery from inside a piece gets to what lands it. -/
theorem recover_lands (h : Piece source w after n) {o : Nat} (ho : Piece.Inside source w n o)
    (hr : r.source = source) :
    ∃ r', (r.recover o).atEnd = (false, r') ∧ Before source (n + w.length + 1) r' ∧
      r'.remaining = after.length := by
  subst hr
  have hlen := h.length_eq
  have hskips := ho.skips
  have hpos := List.length_pos_iff.mpr h.landing.ne_nil
  have hmin : min o r.source.length = o := by omega
  have hoff : (r.recover o).offset = n + w.length + 1 := by
    rw [← hskips]
    simp only [recover, hmin, push]
  have hrest : (r.recover o).rest = after := by
    rw [Reader.rest, hoff]
    exact h.drop_stop
  have hskip : (r.recover o).skipGap.offset = n + w.length + 1 := by
    simp only [skipGap, hrest, h.landing.gapLength_zero, hoff, Nat.add_zero]
  refine ⟨(r.recover o).skipGap, ?_, ?_, ?_⟩
  · have hnot : ¬ r.source.length ≤ (r.recover o).skipGap.offset := by omega
    change (decide (r.source.length ≤ (r.recover o).skipGap.offset), _) = _
    rw [decide_eq_false hnot]
  · refine (before_none rfl).mpr ⟨rfl, [], ?_, .nil, ?_⟩
    · rw [hskip]
      rfl
    · rw [hskip]
      rfl
  · change (r.source.drop (r.recover o).skipGap.offset).length + 0 = _
    rw [hskip, h.drop_stop, Nat.add_zero]

theorem lt_remaining (h : Piece source w after n) {o : Nat} (ho : Piece.Inside source w n o)
    (hr : Before source o r) : after.length < r.remaining := by
  have hlen := h.length_eq
  have hle := ho.le
  have hoff : r.offset ≤ n + w.length := by
    cases ha : r.ahead with
    | none =>
      obtain ⟨_, _, _, _, hn⟩ := (before_none ha).mp hr
      omega
    | some t =>
      obtain ⟨_, ht, hw⟩ := (before_some ha).mp hr
      exact ho.tokens hw ht
  have hrest : r.rest.length = source.length - r.offset := by
    rw [Reader.rest, List.length_drop, hr.1]
  rw [Reader.remaining]
  omega

/-- A fault inside a piece is reported, and reading goes on with what lands it. -/
theorem items_of_broken (file : Option Text) (h : Piece source w after n) {o : Nat}
    (ho : Piece.Inside source w n o) (hr : Before source o r) {f : Fault} {r' : Reader}
    (hi : item r.mark.2 = .error f r') (hsource : r'.source = source) :
    ∃ r'', items file r = (items file r'').addFault f ∧ Before source (n + w.length + 1) r'' := by
  obtain ⟨r'', hend, hbefore, hremaining⟩ :=
    recover_lands h ho (r := report file f r') hsource
  rw [← (hr.mark ho.gap).1] at hend
  refine ⟨r'', items_of_fault hi hend ?_, hbefore⟩
  rw [hremaining]
  exact lt_remaining h ho hr

/-- An item is read from a piece or breaks off in it. -/
theorem item_of_before (h : Piece source w after n) (hr : Before source n r) :
    Meets (· = r) item (fun i r' => i.isSome ∧ h.zone.Holds 0 r') h.zone.Faulty := by
  obtain ⟨k, word, hk, hspelled, hfirst⟩ := h.first
  have hn : n ≤ source.length := by
    have := h.length_eq
    omega
  have hmem : k ∈ [Kind.state, .untilWord, .closeBrace] := by
    rcases hk with rfl | rfl <;> simp
  have hadmits : Admits [.state, .untilWord, .closeBrace] k := by
    rcases hk with rfl | rfl <;> decide
  obtain ⟨r₁, hpeek, hahead, _⟩ := peek_complete (hr.stands hspelled hmem) hmem hadmits
  obtain ⟨hsource, _, hwritten⟩ :=
    (Zone.holds_some hahead).mp ((Zone.meets_peek _).ok (hr.holds hn 0) hpeek).1
  have hscan : Meets (· = r₁) (scan k) (fun _ => h.zone.Holds 0) h.zone.Faulty := by
    intro r hr
    rw [hr, scan_ahead hahead]
    exact ⟨hsource, (hfirst _ _ hwritten rfl).2⟩
  intro r' hr'
  rw [hr', item, bind_of_ok hpeek]
  rcases hk with rfl | rfl
  · exact meets_bind (moves_state hscan) (fun _ => meets_pure fun _ hr => ⟨rfl, hr⟩) r₁ rfl
  · exact meets_bind (moves_block hscan) (fun _ => meets_pure fun _ hr => ⟨rfl, hr⟩) r₁ rfl

/-- Inside a piece, but outside its braces, there is no other item. -/
theorem item_inside (h : Piece source w after n) (hr : h.zone.Holds 0 r)
    (hne : r.mark.1 ≠ n + w.length + 1) :
    ∃ f r', item r.mark.2 = .error f r' ∧ h.zone.Faulty f r' := by
  have hmark := Zone.holds_mark hr
  cases hpeek : peek [.state, .untilWord, .closeBrace] r.mark.2 with
  | error f r' =>
    exact ⟨f, r', bind_of_error hpeek, (Zone.meets_peek _).error hmark hpeek⟩
  | ok k r' =>
    obtain ⟨hholds, ⟨t, ht, hkind⟩, _⟩ := (Zone.meets_peek _).ok hmark hpeek
    obtain ⟨hk, _, hpass⟩ := peek_sound hpeek (by simp)
    obtain ⟨_, hhas, hw⟩ := (Zone.holds_some ht).mp hholds
    rcases h.written_cases hhas hw with ⟨_, _, b', hturn⟩ | ⟨_, hoff, _⟩
    · simp only [List.mem_cons, List.not_mem_nil, or_false] at hk
      rcases hk with hk | hk | hk
      · exact absurd (hturn.starts (.inl (hkind.trans hk))).1 (Nat.lt_irrefl 0)
      · exact absurd (hturn.starts (.inr (hkind.trans hk))).1 (Nat.lt_irrefl 0)
      · exact absurd (hturn.closes (hkind.trans hk)) (Nat.succ_ne_zero b').symm
    · have hstands : Stands r [t] := by
        have ht' : Stands r' [t] := (stands_ahead ht).mpr ⟨rfl, .nil⟩
        exact (passes_mark r).stands _ (hpass.stands _ ht')
      have hbefore := before_of_stands hr hstands
      refine absurd ?_ hne
      rw [← hoff]
      refine (hbefore.mark ?_).1
      rw [hoff, h.drop_stop]
      exact h.landing.gapLength_zero

/-- The first token of what lands a piece. -/
theorem landing_spelled (h : Piece source w after n) :
    ∃ k x tail, after = x ++ tail ∧ Spelling tail k x x ∧
      k ∈ [Kind.state, .untilWord, .closeBrace] ∧
      Spelled source (n + w.length + 1)
        [⟨k, x, placeOf source k (n + w.length + 1), n + w.length + 1⟩] := by
  obtain ⟨k, x, tail, hx, hs, hk⟩ := h.landing.spelling
  refine ⟨k, x, tail, hx, hs, hk, ?_⟩
  exact Spelled.cons (g := []) (h.drop_stop.trans hx) .nil hs .nil

/-- A segment is an item by itself exactly if one is read that ends where the segment does. -/
theorem alone_iff_item (h : Piece source w after n) (hr : Before source n r) :
    Alone ItemForm w ↔
      ∃ i r', item r.mark.2 = .ok (some i) r' ∧ Before source (n + w.length + 1) r' := by
  obtain ⟨k, x, tail, hx, hspelling, hk, hlanding⟩ := landing_spelled h
  have hmark := (hr.mark h.inside_start.gap).2
  rw [alone_iff movable_item h.here hx hspelling]
  constructor
  · intro hw
    obtain ⟨ts, i, hform, hspelled⟩ := hw
    obtain ⟨t, us, rfl, ht⟩ := itemForm_begins hform
    have hfirst : t.kind ∈ [Kind.state, .untilWord, .closeBrace] :=
      List.mem_append_left [Kind.closeBrace] ht
    obtain ⟨r', hi, hstands⟩ := item_accepts (.mk hform) (hmark.stands hspelled hfirst)
    have hholds := ((item_of_before h hmark).ok rfl hi).2
    exact ⟨i, r', hi, before_of_stands hholds hstands⟩
  · intro hw
    obtain ⟨i, r', hi, hafter⟩ := hw
    obtain ⟨ts, hopt, hpass⟩ := item_yields hi
    cases hopt with
    | some hform =>
      refine ⟨ts, i, hform, ?_⟩
      have hstands := hpass.stands _ (hafter.stands hlanding hk)
      obtain ⟨t, us, rfl, _⟩ := itemForm_begins hform
      exact hmark.spelled h.inside_start.gap hstands

/-- A run over the items reports these faults and goes on as the run from another reader. -/
structure Continues (file : Option Text) (r : Reader) (fs : List Fault) (r' : Reader) : Prop where
  faults : (items file r).faults = fs ++ (items file r').faults
  closed : (items file r).closed = (items file r').closed
  reader : (items file r).reader = (items file r').reader

theorem continues_item {i : Item} {r' r'' : Reader} {fs : List Fault}
    (h : items file r = (items file r').addItem i) (h' : Continues file r' fs r'') :
    Continues file r fs r'' := by
  refine ⟨?_, ?_, ?_⟩
  · rw [h]
    exact h'.faults
  · rw [h]
    exact h'.closed
  · rw [h]
    exact h'.reader

theorem continues_fault {f : Fault} {r' : Reader}
    (h : items file r = (items file r').addFault f) : Continues file r [f] r' := by
  refine ⟨?_, ?_, ?_⟩ <;> rw [h] <;> rfl

/-- A piece is read as an item, or is reported once, and reading goes on behind it. -/
theorem items_piece (file : Option Text) (h : Piece source w after n) (hr : Before source n r) :
    ∃ fs r', Continues file r fs r' ∧ Before source (n + w.length + 1) r' ∧
      (Alone ItemForm w ∧ fs = [] ∨
        ¬ Alone ItemForm w ∧ ∃ f o, fs = [f] ∧ f.place = .inSource source o ∧ Within w n o) := by
  have halone := alone_iff_item h hr
  have hmark := (hr.mark h.inside_start.gap).2
  cases hi : item r.mark.2 with
  | error f r' =>
    obtain ⟨hsource, b, o, hhas, hpoints⟩ := (item_of_before h hmark).error rfl hi
    obtain ⟨r'', hitems, hafter⟩ := items_of_broken file h h.inside_start hr hi hsource
    obtain ⟨o, hplaced⟩ := h.points_placed hhas hpoints
    refine ⟨[f], r'', continues_fault hitems, hafter, .inr ⟨?_, f, o, rfl, hplaced⟩⟩
    rw [halone, hi]
    intro hitem
    obtain ⟨_, _, hok, _⟩ := hitem
    cases hok
  | ok i r' =>
    obtain ⟨hsome, hholds⟩ := (item_of_before h hmark).ok rfl hi
    obtain ⟨i, rfl⟩ := Option.isSome_iff_exists.mp hsome
    have hitems := items_of_item file hi
    obtain ⟨hbefore, hhas, hgap⟩ := before_mark hholds
    by_cases hend : r'.mark.1 = n + w.length + 1
    · rw [hend] at hbefore
      refine ⟨[], r', continues_item hitems ⟨rfl, rfl, rfl⟩, hbefore, .inl ⟨?_, rfl⟩⟩
      exact halone.mpr ⟨i, r', hi, hbefore⟩
    · -- an item was read, but there is more of the segment behind it
      obtain ⟨f, s, hs, hsource, b, o, hhas', hpoints⟩ := item_inside h hholds hend
      obtain ⟨r'', hrest, hafter⟩ :=
        items_of_broken file h (h.inside_of_has hhas hgap hend) hbefore hs hsource
      obtain ⟨o, hplaced⟩ := h.points_placed hhas' hpoints
      have hcontinues := continues_item hitems (continues_fault hrest)
      refine ⟨[f], r'', hcontinues, hafter, .inr ⟨?_, f, o, rfl, hplaced⟩⟩
      rw [halone, hi]
      intro hitem
      obtain ⟨_, _, hok, hstop⟩ := hitem
      cases hok
      refine hend (hstop.mark ?_).1
      rw [h.drop_stop]
      exact h.landing.gapLength_zero

end Rounds

/-- The items of a program, each in lines of its own, and the closing brace. -/
def lines (ws : List Text) : Text :=
  ws.foldr (fun w t => w ++ '\n' :: t) ['}']

theorem lines_landing {ws : List Text} (h : ∀ w ∈ ws, Segment w) : Landing (lines ws) := by
  cases ws with
  | nil => exact .brace
  | cons w ws =>
    obtain ⟨word, hword, rest, rfl, he⟩ := (h w List.mem_cons_self).first
    change Landing (word ++ rest ++ '\n' :: lines ws)
    rw [List.append_assoc]
    exact .word hword (ends_line he rfl _)

theorem join_lines (head : Text) (ws : List Text) :
    Text.join "\n" (head :: ws ++ [['}']]) = head ++ '\n' :: lines ws := by
  induction ws generalizing head with
  | nil => rfl
  | cons w ws ih =>
    change _ = head ++ '\n' :: (w ++ '\n' :: lines ws)
    rw [← ih w]
    simp [Text.join, List.intercalate]

/-- What is to be reported of the texts of a source, the first of which starts at an offset and each
of which ends with its line: an error for each that is no item by itself, located in it or at the
first token behind it. -/
inductive Reported (source : Text) : Nat → List Text → List Diagnostic → Prop
  | nil : Reported source n [] []
  | sound : Alone ItemForm w → Reported source (n + w.length + 1) ws ds →
      Reported source n (w :: ws) ds
  | broken : ¬ Alone ItemForm w → d.isError → d.kind = .lexical ∨ d.kind = .grammatical →
      d.place = .inSource source o → Within w n o → Reported source (n + w.length + 1) ws ds →
      Reported source n (w :: ws) (d :: ds)

theorem Reported.eq_nil_iff {source : Text} {n : Nat} {ws : List Text} {ds : List Diagnostic}
    (h : Reported source n ws ds) : ds = [] ↔ ∀ w ∈ ws, Alone ItemForm w := by
  induction h with
  | nil => simp
  | sound hw _ ih => rw [ih, List.forall_mem_cons, and_iff_right hw]
  | broken hw => simp [hw]

section Runs
variable {source : Text} {n : Nat} {r : Reader}

theorem brace_spelled (hn : source.drop n = ['}']) :
    Spelled source n [⟨.closeBrace, ['}'], .inSource source n, n⟩,
      ⟨.eof, [], .inSource source (n + 1), n + 1⟩] := by
  have hbrace : source.drop n = [] ++ (['}'] ++ []) := hn
  have hend : source.drop (n + 1) = [] ++ ([] ++ []) := by
    rw [← List.drop_drop, hn]
    rfl
  have hlast := Spelled.cons hend .nil (.eof rfl) .nil
  exact Spelled.cons hbrace .nil (.mark (by simp [Kind.marks])) hlast

/-- The closing brace is what the items end at. -/
theorem items_brace (file : Option Text) (hn : source.drop n = ['}']) (hr : Before source n r) :
    (items file r).faults = [] ∧ (items file r).closed = true ∧
      Before source n (items file r).reader := by
  have hle : n ≤ source.length := by
    refine Nat.le_of_not_lt fun hlt => ?_
    rw [List.drop_eq_nil_of_le (Nat.le_of_lt hlt)] at hn
    cases hn
  have hstands := hr.stands (brace_spelled hn) (by simp)
  obtain ⟨r', hi, hstands'⟩ := item_closes rfl (stands_mark hstands)
  have hholds := moves_item.ok (Zone.holds_mark (hr.holds hle 1)) hi
  have hitems : items file r = { closed := true, reader := r' } := by
    rw [items]
    simp only [hi]
  rw [hitems]
  exact ⟨rfl, rfl, before_of_stands hholds hstands'⟩

/-- A run over segments reports what is to be reported of them and ends at the closing brace. -/
theorem items_lines (file : Option Text) {ws : List Text} (hws : ∀ w ∈ ws, Segment w)
    (hn : source.drop n = lines ws) (hr : Before source n r) :
    Reported source n ws ((items file r).faults.map (Fault.diagnostic · file)) ∧
      (items file r).closed = true ∧
      ∃ m, source.drop m = ['}'] ∧ Before source m (items file r).reader := by
  induction ws generalizing n r with
  | nil =>
    obtain ⟨hfaults, hclosed, hreader⟩ := items_brace file hn hr
    rw [hfaults]
    exact ⟨.nil, hclosed, n, hn, hreader⟩
  | cons w ws ih =>
    rw [List.forall_mem_cons] at hws
    have hpiece : Piece source w (lines ws) n := ⟨hws.1, lines_landing hws.2, hn⟩
    obtain ⟨fs, r', hcontinues, hafter, hjudged⟩ := items_piece file hpiece hr
    obtain ⟨hreported, hclosed, hreader⟩ := ih hws.2 hpiece.drop_stop hafter
    rw [hcontinues.faults, hcontinues.closed, hcontinues.reader]
    refine ⟨?_, hclosed, hreader⟩
    rcases hjudged with ⟨hw, rfl⟩ | ⟨hw, f, o, rfl, hplace, hinside⟩
    · exact .sound hw hreported
    · exact .broken hw (Compilation.fault_isError file f) (Compilation.fault_kind file f) hplace
        hinside hreported

/-- The reader that an opening in lines of its own leaves stands before what follows. -/
theorem opening_lands {head after : Text} (h : Alone OpeningForm head) (hafter : Landing after)
    (hsource : source = head ++ '\n' :: after) :
    ∃ a r, opening { source } = .ok a r ∧ Before source (head.length + 1) r := by
  obtain ⟨k, x, tail, hx, hspelling, hk⟩ := hafter.spelling
  obtain ⟨ts, a, hform, hspelled⟩ := (alone_iff (n := 0) movable_opening hsource hx hspelling).mp h
  have hstands : Stands { source } _ := (stands_cut rfl).mpr hspelled
  have hkind : k ∈ [Kind.closeBrace, .state, .untilWord] := by
    simp only [List.mem_cons, List.not_mem_nil, or_false] at hk ⊢
    tauto
  obtain ⟨r, hopening, hr⟩ := opening_complete hkind hform hstands
  have hstart : (Zone.whole source).Holds 0 { source } := ⟨rfl, Nat.zero_le _⟩
  have hbefore := before_of_stands (moves_opening.ok hstart hopening) hr
  rw [Nat.zero_add] at hbefore
  exact ⟨a, r, hopening, hbefore⟩

theorem ending_of_before (hn : source.drop n = ['}']) (hr : Before source n r) :
    ∃ r', ending r = .ok () r' :=
  ending_complete rfl rfl (hr.stands (brace_spelled hn) (by simp))

/-- The faults of a source of segments are those of its items. -/
theorem read_lines (file : Option Text) {head : Text} {ws : List Text}
    (hhead : Alone OpeningForm head) (hws : ∀ w ∈ ws, Segment w)
    (hsource : source = head ++ '\n' :: lines ws) :
    Reported source (head.length + 1) ws
      ((read file source).faults.map (Fault.diagnostic · file)) := by
  obtain ⟨a, r, hopening, hbefore⟩ := opening_lands hhead (lines_landing hws) hsource
  have hlines : source.drop (head.length + 1) = lines ws := by
    rw [hsource, ← List.drop_drop, List.drop_left]
    rfl
  obtain ⟨hreported, hclosed, m, hm, hreader⟩ := items_lines file hws hlines hbefore
  obtain ⟨r', hending⟩ := ending_of_before hm hreader
  have hread : (read file source).faults = (items file r).faults := by
    simp [read, hopening, hclosed, hending]
  rw [hread]
  exact hreported

end Runs
end Grammar

namespace Compilation
open Statewright.Language

/-- Reading succeeds exactly if it has nothing to report. -/
theorem parse_ok_iff_clean {file : Option Text} {source : Text} :
    (∃ p, (parse { file } source).2 = .ok p) ↔ (parse { file } source).1.diagnostics = [] := by
  constructor
  · intro h
    obtain ⟨p, hp⟩ := h
    exact parse_clean (parse_ok_iff.mp hp)
  · intro hd
    have hf : (Grammar.read file source).faults = [] := by
      rw [parse_diagnostics] at hd
      exact List.map_eq_nil_iff.mp hd
    cases hr : (Grammar.read file source).program with
    | none => exact absurd hf (Grammar.read_faulty hr)
    | some p => exact ⟨p, (parse_of_program hr hf).1⟩

/-- Errors in one item neither hide nor invent errors in others. -/
theorem items_reported_apart (file : Option Text) {head : Text} {ws : List Text}
    (hhead : Alone Grammar.OpeningForm head) (hws : ∀ w ∈ ws, Segment w) :
    Grammar.Reported (Text.join "\n" (head :: ws ++ [['}']])) (head.length + 1) ws
        (parse { file } (Text.join "\n" (head :: ws ++ [['}']]))).1.diagnostics ∧
      ((∃ p, (parse { file } (Text.join "\n" (head :: ws ++ [['}']]))).2 = .ok p) ↔
        ∀ w ∈ ws, Alone ItemForm w) := by
  have hreported := Grammar.read_lines file hhead hws (Grammar.join_lines head ws)
  rw [← parse_diagnostics] at hreported
  exact ⟨hreported, parse_ok_iff_clean.trans hreported.eq_nil_iff⟩

/-- An item, one with a stray mark behind it, and a block with a flag that is unknown. -/
def mixed : List Text :=
  ["state a\x7b\x7d", "state b\x7b\x7d ;", "until(3)\x7bstate [slow] c\x7b\x7d\x7dgo a;"]

def mixedSource : Text :=
  Text.join "\n" ("fsm m\x7b".toList :: mixed ++ [['}']])

theorem mixed_segments : ∀ w ∈ mixed, Segment w := by
  decide +kernel

theorem opening_alone : Alone Grammar.OpeningForm "fsm m\x7b".toList := by
  have hm : Spelling ['{'] .name ['m'] ['m'] :=
    .name (by decide) (by simp) (fun k hk => by simp [Kind.words] at hk) (by decide)
  have hend := @Spelled.cons "fsm m\x7b".toList 6 [] [] [] .eof [] [] rfl .nil (.eof rfl) .nil
  have hopen := @Spelled.cons _ 5 [] ['{'] [] .openBrace _ _ rfl .nil (.mark (by decide)) hend
  have hname := @Spelled.cons _ 3 [' '] _ _ _ _ _ rfl (.blank (by decide) .nil) hm hopen
  have hfsm := @Spelled.cons _ 0 [] "fsm".toList " m\x7b".toList .fsm _ _ rfl .nil
    (.word (by decide) (by decide)) hname
  exact ⟨[_, _, _], _, _, hfsm, .mk .none .none rfl rfl rfl .nil, rfl⟩

theorem items_reported_apart_mixed :
    Grammar.Reported mixedSource 7 mixed (parse {} mixedSource).1.diagnostics ∧
      (parse {} mixedSource).1.diagnostics.map (·.place) = [⟨3, 11⟩, ⟨4, 17⟩] ∧
      ¬ ∀ w ∈ mixed, Alone ItemForm w := by
  have h := items_reported_apart none opening_alone mixed_segments
  have hplaces : (parse {} mixedSource).1.diagnostics.map (·.place) = [⟨3, 11⟩, ⟨4, 17⟩] := by
    decide +kernel
  refine ⟨h.1, hplaces, ?_⟩
  rw [← h.2, parse_ok_iff_clean]
  intro hclean
  rw [mixedSource, hclean] at hplaces
  cases hplaces

end Compilation
end Statewright
