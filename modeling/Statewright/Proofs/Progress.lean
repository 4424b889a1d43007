import Mathlib.Data.List.Perm.Subperm
import Statewright.Proofs.Recovery
import Statewright.Proofs.Skipping

namespace Statewright
namespace Reader
open Statewright.Language

/-- The rounds of a loop and what comes of them. They go on for as long as they give something,
whether they read anything or not. -/
inductive Loops {α : Type} (round : Read (Option α)) :
    Reader → EStateM.Result Fault Reader (List α) → Prop
  | done : round r = .ok none r' → Loops round r (.ok [] r')
  | fault : round r = .error e r' → Loops round r (.error e r')
  | more : round r = .ok (some a) r' → Loops round r' (.ok as r'') →
      Loops round r (.ok (a :: as) r'')
  | broken : round r = .ok (some a) r' → Loops round r' (.error e r'') →
      Loops round r (.error e r'')

section Loops
variable {α : Type} {round : Read (Option α)} {r r' : Reader}

/-- A loop whose rounds all read something ends by itself. -/
theorem collect_loops
    (h : ∀ {r a r'}, round r = .ok (some a) r' → r'.remaining < r.remaining) (r : Reader) :
    Loops round r (collect round r) := by
  fun_induction collect round r with
  | case1 r e s hr => exact .fault hr
  | case2 r s hr => exact .done hr
  | case3 r a s hr hlt as u hc ih =>
    rw [hc] at ih
    exact .more hr ih
  | case4 r a s hr hlt e u hc ih =>
    rw [hc] at ih
    exact .broken hr ih
  | case5 r a s hr hle => exact absurd (h hr) hle

/-- A loop that ends well ends with a round that gives nothing. -/
theorem Loops.last {as : List α} (h : Loops round r (.ok as r')) :
    ∃ s, round s = .ok none r' := by
  generalize hres : EStateM.Result.ok as r' = result at h
  induction h generalizing as with
  | done hr =>
    cases hres
    exact ⟨_, hr⟩
  | fault _ => cases hres
  | more _ _ ih =>
    cases hres
    exact ih rfl
  | broken _ _ => cases hres

end Loops

/-- Tokens take up room, the end of the source apart. -/
theorem Path.le {source : Text} {n m : Nat} {ts : List Token} (h : Path source n ts m) :
    n + ts.countP (·.kind ≠ .eof) ≤ m := by
  induction h with
  | refl => simp
  | gap _ _ _ ih => omega
  | @token n w after k v ts m _ hs _ ih =>
    rw [List.countP_cons]
    split
    · rename_i hk
      have hpos := hs.length_pos (of_decide_eq_true hk)
      omega
    · omega

end Reader

namespace Grammar
open Statewright.Language Reader

/-- The rounds that are repeated within a rule. -/
inductive Repeats : {α : Type} → Read (Option α) → Prop
  | declarations : Repeats declaration
  | members : Repeats member
  | words : Repeats (do
      if (← peek [.expr, .name]) = .name then some <$> scan .name else return none)
  | starts : Repeats (do
      if (← peek [.semicolon, .start]) = .start then
        let _ ← scan .start
        some <$> argument
      else return none)
  | assignments : Repeats (do
      if (← peek [.semicolon, .comma]) = .comma then
        let _ ← scan .comma
        some <$> assignment
      else return none)
  | flags : Repeats (do
      if (← peek [.closeBracket, .comma]) = .comma then
        let _ ← scan .comma
        some <$> flag
      else return none)
  | states : Repeats (do
      if (← peek [.closeBrace, .state, .untilWord]) = .state then some <$> state true
      else return none)

/-- A round that is repeated has read something if it gives anything. -/
theorem Repeats.eager {α : Type} {round : Read (Option α)} (h : Repeats round) {r r' : Reader}
    {a : α} (hr : round r = .ok (some a) r') : r'.remaining < r.remaining := by
  have hchoice {α : Type} {body : Read (Option α)} {expected : List Kind} {k : Kind}
      {form : List Token → α → Prop} {a : α} (hne : expected ≠ []) (hy : Yields body (Just form))
      (hb : Begins form [k]) (hk : k ≠ .eof)
      (hr : (do if (← peek expected) = k then body else return none : Read (Option α)) r =
        .ok (some a) r') : r'.remaining < r.remaining :=
    (guarded_yields hne hy).eager hb (by simpa using hk.symm) hr
  cases h with
  | declarations => exact declaration_yields.eager declarationForm_begins (by decide) hr
  | members => exact member_yields.eager memberForm_begins (by decide) hr
  | words =>
    exact hchoice (List.cons_ne_nil _ _) (scan_yields .name).just (tokenForm_begins .name) nofun hr
  | starts => exact hchoice (List.cons_ne_nil _ _) start_yields startForm_begins nofun hr
  | assignments =>
    exact hchoice (List.cons_ne_nil _ _) (comma_yields assignment_yields) (commaForm_begins _) nofun
      hr
  | flags =>
    exact hchoice (List.cons_ne_nil _ _) (comma_yields flag_yields) (commaForm_begins _) nofun hr
  | states =>
    exact hchoice (List.cons_ne_nil _ _) (state_yields true).just stateForm_begins nofun hr

/-- The rounds over the items, with the marks that they start from. A round ends them at the closing
brace, or at the end of the source after a fault; or it goes over a whole item; or it goes on behind
its mark after a fault. -/
inductive Rounds (file : Option Text) : Reader → List Nat → Items → Prop
  | closed : item r.mark.2 = .ok none r' → r'.ahead.map Token.kind = some .closeBrace →
      Rounds file r [r.mark.1] { closed := true, reader := r' }
  | ended : item r.mark.2 = .error fault r' →
      ((report file fault r').recover r.mark.1).atEnd = (true, r'') →
      Rounds file r [r.mark.1] { faults := [fault], closed := false, reader := r'' }
  | read : item r.mark.2 = .ok (some i) r' → ItemForm ts i → Passes r ts r' →
      Rounds file r' marks later → Rounds file r (r.mark.1 :: marks) (later.addItem i)
  | recovered : item r.mark.2 = .error fault r' →
      r.mark.1 < ((report file fault r').recover r.mark.1).offset →
      ((report file fault r').recover r.mark.1).atEnd = (false, r'') →
      Rounds file r'' marks later → Rounds file r (r.mark.1 :: marks) (later.addFault fault)

/-- Every round but the one that closes the items has a fault at most. -/
theorem Rounds.faults_le {file : Option Text} {r : Reader} {marks : List Nat} {result : Items}
    (h : Rounds file r marks result) :
    result.faults.length + (if result.closed then 1 else 0) ≤ marks.length := by
  induction h with
  | closed _ _ => exact Nat.le_refl 1
  | ended _ _ => exact Nat.le_refl 1
  | read _ _ _ _ ih => exact Nat.le_succ_of_le ih
  | @recovered _ _ _ marks later _ _ _ _ _ ih =>
    change later.faults.length + 1 + (if later.closed then 1 else 0) ≤ marks.length + 1
    omega

/-- A reader before a round over the items. It is in the source, and a token that was looked at
starts an item or closes them. -/
structure Ready (source : Text) (r : Reader) : Prop where
  holds : (Zone.whole source).Holds 1 r
  ahead : ∀ t, r.ahead = some t → t.kind ∈ [Kind.state, .untilWord, .closeBrace]

section Ready
variable {source : Text} {r r' r'' : Reader} {i : Item} {e : Fault} {file : Option Text}

theorem declaration_none (h : declaration r = .ok none r') :
    ∃ t, r'.ahead = some t ∧ t.kind ∈ [Kind.state, .untilWord, .closeBrace] := by
  obtain ⟨k, s, hp, h⟩ := bind_ok.mp h
  obtain ⟨hk, ⟨t, ht, hkind⟩, _⟩ := peek_sound hp (List.cons_ne_nil _ _)
  split at h
  iterate 4
    obtain ⟨_, _, _, h⟩ := bind_ok.mp h
    obtain ⟨hnone, _⟩ := pure_ok.mp h
    cases hnone
  obtain ⟨_, rfl⟩ := pure_ok.mp h
  refine ⟨t, ht, ?_⟩
  simp only [List.mem_cons, List.not_mem_nil, or_false] at hk ⊢
  grind

theorem ready_opening {a : Option Fragment × Option Clock × Machine}
    (h : opening { source } = .ok a r) : Ready source r := by
  have hstart : (Zone.whole source).Holds 0 { source } := ⟨rfl, Nat.zero_le _⟩
  refine ⟨moves_opening.ok hstart h, ?_⟩
  intro t ht
  simp only [opening, header, bind_ok, pure_ok] at h
  obtain ⟨_, _, _, _, _, ⟨_, _, _, _, _, _, _, s, _, ds, _, hds, _, rfl⟩, _, rfl⟩ := h
  -- the last round over the declarations has looked at what follows them
  have hloops := collect_loops (fun hr => Repeats.declarations.eager hr) s
  rw [hds] at hloops
  obtain ⟨_, hlast⟩ := hloops.last
  obtain ⟨u, hu, hkind⟩ := declaration_none hlast
  obtain rfl : u = t := Option.some.inj (hu.symm.trans ht)
  exact hkind

theorem Ready.after_item (h : Ready source r) (hi : item r.mark.2 = .ok (some i) r') :
    Ready source r' := by
  refine ⟨moves_item.ok (Zone.holds_mark h.holds) hi, ?_⟩
  intro t ht
  rw [item_settles hi] at ht
  cases ht

/-- After an item the reader is behind the mark that it started from. -/
theorem Ready.item_past (h : Ready source r) (hi : item r.mark.2 = .ok (some i) r') :
    r.mark.1 < r'.offset := by
  obtain ⟨ts, hform, hpass⟩ := item_yields hi
  obtain ⟨_, us, hus, hpath⟩ := hpass.path
  have hle := hpath.le
  rw [item_settles hi, Option.toList_none, List.append_nil] at hus
  cases hform with
  | some hform =>
    obtain ⟨t, ts, rfl, hk⟩ := itemForm_begins hform
    have hreal : t.kind ≠ .eof := by
      intro he
      rw [he] at hk
      exact absurd hk (by decide)
    unfold mark at hus hle ⊢
    cases hr : r.ahead with
    | none =>
      -- the item is all behind the mark
      simp only [hr, skipGap, Option.toList_none, List.nil_append] at hus hle ⊢
      rw [hus, List.countP_cons_of_pos (by simpa using hreal)] at hle
      omega
    | some u =>
      -- its first token was looked at
      simp only [hr, Option.toList_some, List.singleton_append] at hus hle ⊢
      obtain ⟨rfl, _⟩ := List.cons.inj hus
      obtain ⟨_, _, hw⟩ := (Zone.holds_some hr).mp h.holds
      obtain ⟨w, _, hs, hstop⟩ := hw.spelled
      have hpos := hs.length_pos hreal
      omega

/-- Recovery goes past the first character of an item, unless that is a brace that closes. -/
theorem itemLength_first_pos {c : Char} {t : Text} (hg : gapLength (c :: t) = 0) (hc : c ≠ '}') :
    0 < itemLength 0 true (c :: t) := by
  rw [itemLength_cons hg]
  split
  · rw [Bool.not_true, Bool.false_and, Bool.false_and, if_neg Bool.false_ne_true]
    omega
  · split <;> omega

theorem recover_offset {start : Nat} (hs : r.source = source) (hn : start ≤ source.length) :
    (r.recover start).offset = start + itemLength 0 true (source.drop start) := by
  simp only [recover, push, hs, Nat.min_eq_left hn]

/-- After a fault, recovery skips something, and leaves less to scan than there was, unless the mark
is at the end. -/
theorem Ready.recover_past (h : Ready source r) (hi : item r.mark.2 = .error e r')
    (hn : r.mark.1 < source.length) :
    0 < itemLength 0 true (source.drop r.mark.1) ∧
      source.length < r.mark.1 + itemLength 0 true (source.drop r.mark.1) + r.remaining := by
  have hgap := (before_mark h.holds).2.2
  unfold mark at hi hn hgap ⊢
  cases hr : r.ahead with
  | none =>
    simp only [hr] at hi hn hgap ⊢
    obtain ⟨rfl, _⟩ := (Zone.holds_none hr).mp h.holds
    obtain ⟨c, t, hd⟩ := List.exists_cons_of_ne_nil (mt List.drop_eq_nil_iff.mp (Nat.not_le.mpr hn))
    have hc : c ≠ '}' := by
      rintro rfl
      -- the brace would have been taken for the end of the items
      have hspelling : Spelling t .closeBrace ['}'] ['}'] := .mark (by decide)
      have hspelled := Spelled.cons (g := []) hd .nil hspelling .nil
      obtain ⟨s, hs, _⟩ := item_closes rfl ((stands_cut (r := r.skipGap) hr).mpr hspelled)
      rw [hi] at hs
      cases hs
    rw [hd] at hgap ⊢
    have hpos := itemLength_first_pos hgap hc
    have hle : r.offset ≤ r.skipGap.offset := Nat.le_add_right _ _
    have hleft : r.remaining = r.source.length - r.offset := by
      simp [Reader.remaining, Reader.rest, hr]
    omega
  | some t =>
    simp only [hr] at hi hn ⊢
    obtain ⟨hsource, _, hw⟩ := (Zone.holds_some hr).mp h.holds
    obtain ⟨w, hd, hs, hstop⟩ := hw.spelled
    have hk : t.kind = .state ∨ t.kind = .untilWord := by
      have hmem := h.ahead t hr
      simp only [List.mem_cons, List.not_mem_nil, or_false] at hmem
      rcases hmem with hk | hk | hk
      · exact .inl hk
      · exact .inr hk
      · have hstands : Stands r [t] := (stands_ahead hr).mpr ⟨rfl, .nil⟩
        obtain ⟨s, hs, _⟩ := item_closes hk hstands
        rw [hi] at hs
        cases hs
    obtain ⟨hne, hfirst⟩ := hs.itemLength_first hk
    have hpos := List.length_pos_iff.mpr hne
    have hleft : r.remaining = source.length - r.offset + 1 := by
      rcases hk with hk | hk <;> simp [Reader.remaining, Reader.rest, hr, hk, hsource]
    rw [hd, hfirst]
    omega

theorem item_none (h : item r = .ok none r') : r'.ahead.map Token.kind = some .closeBrace := by
  obtain ⟨k, s, hp, h⟩ := bind_ok.mp h
  obtain ⟨hk, ⟨t, ht, hkind⟩, _⟩ := peek_sound hp (List.cons_ne_nil _ _)
  split at h
  iterate 2
    obtain ⟨_, _, _, h⟩ := bind_ok.mp h
    obtain ⟨hnone, _⟩ := pure_ok.mp h
    cases hnone
  obtain ⟨_, rfl⟩ := pure_ok.mp h
  simp only [List.mem_cons, List.not_mem_nil, or_false] at hk
  rw [ht, Option.map_some, hkind]
  grind

theorem offset_le_mark (h : r.ahead = none) : r.offset ≤ r.mark.1 := by
  simp only [mark, h, skipGap]
  omega

/-- After a fault the reader is in the source, behind the mark and with less left to scan, unless it
is at the end. -/
theorem Ready.recover (h : Ready source r) (hi : item r.mark.2 = .error e r')
    (ha : ((report file e r').recover r.mark.1).atEnd = (false, r'')) :
    Ready source r'' ∧ r.mark.1 < ((report file e r').recover r.mark.1).offset ∧
      ((report file e r').recover r.mark.1).offset ≤ r''.mark.1 ∧ r''.remaining < r.remaining := by
  have hsource : (report file e r').source = source :=
    (moves_item.error (Zone.holds_mark h.holds) hi).1
  have hmark : r.mark.1 ≤ source.length := (before_mark h.holds).2.1
  have hahead : r''.ahead = none := by
    have hnone : ((report file e r').recover r.mark.1).atEnd.2.ahead = none := rfl
    rwa [ha] at hnone
  have hready : Ready source r'' := by
    have hholds := Zone.holds_atEnd (holds_recover (d := 1) r.mark.1 hsource)
    rw [ha] at hholds
    refine ⟨hholds, fun t ht => ?_⟩
    rw [hahead] at ht
    cases ht
  have hskip : r'' = ((report file e r').recover r.mark.1).skipGap := (congrArg Prod.snd ha).symm
  have hlt : r''.offset < source.length := by
    have hend : decide ((report file e r').source.length ≤
        ((report file e r').recover r.mark.1).skipGap.offset) = false := congrArg Prod.fst ha
    rw [hsource, ← hskip, decide_eq_false_iff_not] at hend
    exact Nat.not_le.mp hend
  have hle : ((report file e r').recover r.mark.1).offset ≤ r''.offset := by
    rw [hskip]
    exact Nat.le_add_right _ _
  have hoffset := recover_offset hsource hmark
  obtain ⟨hpos, hleft⟩ := h.recover_past hi (by omega)
  have hless : r''.remaining = source.length - r''.offset := by
    simp [Reader.remaining, Reader.rest, hahead, hready.holds.1]
  have := offset_le_mark hahead
  refine ⟨hready, ?_, ?_, ?_⟩ <;> omega

/-- The items of a source, round by round, with ascending marks in the source. -/
theorem rounds_of_ready (file : Option Text) (h : Ready source r) :
    ∃ marks, Rounds file r marks (items file r) ∧ marks.Pairwise (· < ·) ∧
      ∀ n ∈ marks, r.mark.1 ≤ n ∧ n ≤ source.length := by
  have hmark {r : Reader} (h : Ready source r) : r.mark.1 ≤ source.length :=
    (before_mark h.holds).2.1
  have hcons {n n' : Nat} {marks : List Nat} (hlt : n < n') (hn : n ≤ source.length)
      (hasc : marks.Pairwise (· < ·)) (hin : ∀ k ∈ marks, n' ≤ k ∧ k ≤ source.length) :
      (n :: marks).Pairwise (· < ·) ∧ ∀ k ∈ n :: marks, n ≤ k ∧ k ≤ source.length := by
    refine ⟨List.pairwise_cons.mpr ⟨fun k hk => ?_, hasc⟩, List.forall_mem_cons.mpr ⟨⟨?_, hn⟩, ?_⟩⟩
    · exact Nat.lt_of_lt_of_le hlt (hin k hk).1
    · exact Nat.le_refl n
    · exact fun k hk => ⟨Nat.le_of_lt (Nat.lt_of_lt_of_le hlt (hin k hk).1), (hin k hk).2⟩
  have hlone {r : Reader} (h : Ready source r) : [r.mark.1].Pairwise (· < ·) ∧
      ∀ n ∈ [r.mark.1], r.mark.1 ≤ n ∧ n ≤ source.length :=
    ⟨List.pairwise_singleton _ _, List.forall_mem_singleton.mpr ⟨Nat.le_refl _, hmark h⟩⟩
  fun_induction items file r with
  | case1 r start marked hm r' hi =>
    have hi : item r.mark.2 = .ok none r' := by rwa [hm]
    exact ⟨[r.mark.1], .closed hi (item_none hi), hlone h⟩
  | case2 r start marked hm i r' hi _ ih =>
    have hi : item r.mark.2 = .ok (some i) r' := by rwa [hm]
    obtain ⟨marks, hrounds, hasc, hin⟩ := ih (h.after_item hi)
    obtain ⟨ts, hform, hpass⟩ := item_yields hi
    have hlt := Nat.lt_of_lt_of_le (h.item_past hi) (offset_le_mark (item_settles hi))
    cases hform with
    | some hform =>
      exact ⟨_, .read hi hform ((passes_mark r).trans hpass) hrounds,
        hcons hlt (hmark h) hasc hin⟩
  | case3 r start marked hm i r' hi hle =>
    have hi : item r.mark.2 = .ok (some i) r' := by rwa [hm]
    exact absurd (item_eager hi) hle
  | case4 r start marked hm e r' hi r'' hr =>
    have hi : item r.mark.2 = .error e r' := by rwa [hm]
    refine ⟨[r.mark.1], .ended hi ?_, hlone h⟩
    rwa [hm]
  | case5 r start marked hm e r' hi ended r'' hr hend _ ih =>
    have hi : item r.mark.2 = .error e r' := by rwa [hm]
    obtain rfl : ended = false := by simpa using hend
    have hr : ((report file e r').recover r.mark.1).atEnd = (false, r'') := by rwa [hm]
    obtain ⟨hready, hpast, hle, _⟩ := h.recover hi hr
    obtain ⟨marks, hrounds, hasc, hin⟩ := ih hready
    exact ⟨_, .recovered hi hpast hr hrounds,
      hcons (Nat.lt_of_lt_of_le hpast hle) (hmark h) hasc hin⟩
  | case6 r start marked hm e r' hi ended r'' hr hend hle =>
    have hi : item r.mark.2 = .error e r' := by rwa [hm]
    obtain rfl : ended = false := by simpa using hend
    have hr : ((report file e r').recover r.mark.1).atEnd = (false, r'') := by rwa [hm]
    exact absurd (h.recover hi hr).2.2.2 hle

end Ready

theorem recover_inside {source : Text} {start : Nat} {r : Reader} (hs : r.source = source)
    (hn : start ≤ source.length) :
    start ≤ (r.recover start).offset ∧ (r.recover start).offset ≤ source.length := by
  have hle := itemLength_le 0 true (source.drop start)
  rw [List.length_drop] at hle
  rw [recover_offset hs hn]
  omega

/-- There is a fault for every place in the source at most, the end being one. -/
theorem read_faults_le (file : Option Text) (source : Text) :
    (read file source).faults.length ≤ source.length + 1 := by
  unfold read
  split
  · exact Nat.le_add_left 1 _
  · rename_i ho
    obtain ⟨marks, hrounds, hasc, hin⟩ := rounds_of_ready file (ready_opening ho)
    have hfaults := hrounds.faults_le
    have hmarks : marks.length ≤ source.length + 1 := by
      have hnodup : marks.Nodup := hasc.imp Nat.ne_of_lt
      have hsub : marks ⊆ List.range (source.length + 1) := fun n hn =>
        List.mem_range.mpr (Nat.lt_succ_of_le (hin n hn).2)
      have hle := (hnodup.subperm hsub).length_le
      rwa [List.length_range] at hle
    dsimp only
    split
    · exact Nat.le_trans (Nat.le_trans (Nat.le_add_right _ _) hfaults) hmarks
    · rename_i hclosed
      rw [if_pos (by simpa using hclosed)] at hfaults
      split
      · rw [stop, List.length_append]
        exact Nat.le_trans hfaults hmarks
      · exact Nat.le_trans (Nat.le_trans (Nat.le_add_right _ _) hfaults) hmarks

end Grammar

namespace Compilation
open Grammar Reader

/-- Reading ends on every source. Within a rule no loop goes on without reading; recovery stays in
the source; the rounds over the items start at ascending marks; and there are at most as many errors
as places in the source. -/
theorem reading_ends (file : Option Text) (source : Text) :
    (∀ (α : Type) (round : Read (Option α)), Repeats round →
      ∀ r, Loops round r (collect round r)) ∧
    (∀ (r : Reader) (start : Nat), r.source = source → start ≤ source.length →
      start ≤ (r.recover start).offset ∧ (r.recover start).offset ≤ source.length) ∧
    (∀ a r, opening { source } = .ok a r → ∃ marks, Rounds file r marks (items file r) ∧
      marks.Pairwise (· < ·) ∧ ∀ n ∈ marks, n ≤ source.length) ∧
    (parse { file } source).1.diagnostics.length ≤ source.length + 1 := by
  refine ⟨?_, ?_, ?_, ?_⟩
  · intro α round hround
    exact collect_loops hround.eager
  · intro r start
    exact recover_inside
  · intro a r ho
    obtain ⟨marks, hrounds, hasc, hin⟩ := rounds_of_ready file (ready_opening ho)
    exact ⟨marks, hrounds, hasc, fun n hn => (hin n hn).2⟩
  · rw [parse_diagnostics, List.length_map]
    exact read_faults_le file source

/-- Two broken items before one that is whole. -/
def brokenSource : Text :=
  "fsm m\x7bstate a\x7bon\x7duntil x;state[start,end]b\x7b\x7d\x7d"

theorem reading_ends_broken : ∃ a r marks, opening { source := brokenSource } = .ok a r ∧
    Rounds none r marks (items none r) ∧ marks.Pairwise (· < ·) ∧
    (∀ n ∈ marks, n ≤ brokenSource.length) ∧
    (items none r).faults.length = 2 ∧ (items none r).items.length = 1 := by
  have h : (match opening { source := brokenSource } with
      | .ok _ r => (items none r).faults.length == 2 && (items none r).items.length == 1
      | .error _ _ => false) = true := by decide +kernel
  split at h
  · rename_i a r ho
    rw [Bool.and_eq_true, beq_iff_eq, beq_iff_eq] at h
    obtain ⟨marks, hrounds, hasc, hin⟩ := (reading_ends none brokenSource).2.2.1 a r ho
    exact ⟨a, r, marks, ho, hrounds, hasc, hin, h⟩
  · cases h

end Compilation
end Statewright
