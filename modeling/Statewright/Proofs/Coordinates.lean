import Statewright.Proofs.Delimited
import Statewright.Proofs.Placement

namespace Statewright
namespace Text

/-- The offsets behind the line breaks of a text that starts at `n`. -/
def startsFrom (n : Nat) : Text → List Nat
  | [] => []
  | c :: t => if c = '\n' then (n + 1) :: startsFrom (n + 1) t else startsFrom (n + 1) t

/-- The offsets where the lines of a text start. -/
def lineStarts (t : Text) : List Nat :=
  0 :: startsFrom 0 t

/-- The line of the offset `o` starts at `p`: behind a line break or at the start of the text, with
no line break up to `o`. -/
structure LineStart (t : Text) (o p : Nat) : Prop where
  le : p ≤ o
  behind : p = 0 ∨ ∃ q, p = q + 1 ∧ t[q]? = some '\n'
  last : '\n' ∉ t.segment p o

/-- In the table of line starts, `line` of them are not behind the offset `o`, and the last of these
is `p`. -/
def Tabled (t : Text) (o line p : Nat) : Prop :=
  ∃ upTo behind, t.lineStarts = upTo ++ behind ∧ (∀ q ∈ upTo, q ≤ o) ∧ (∀ q ∈ behind, o < q) ∧
    upTo.length = line ∧ upTo.getLast? = some p

section Starts
variable {n o q : Nat} {t u : Text}

theorem startsFrom_append (n : Nat) (t u : Text) :
    startsFrom n (t ++ u) = startsFrom n t ++ startsFrom (n + t.length) u := by
  induction t generalizing n with
  | nil => rfl
  | cons c t ih =>
    have hlen : n + (c :: t).length = n + 1 + t.length := by
      rw [List.length_cons]
      omega
    rw [List.cons_append, startsFrom, startsFrom, ih, hlen]
    split <;> rfl

theorem mem_startsFrom (h : q ∈ startsFrom n t) : n < q ∧ q ≤ n + t.length := by
  induction t generalizing n with
  | nil => cases h
  | cons c t ih =>
    rw [startsFrom] at h
    rw [List.length_cons]
    split at h
    · rcases List.mem_cons.mp h with rfl | h
      · omega
      · have := ih h
        omega
    · have := ih h
      omega

/-- Before the start of the last line there are as many line starts as line breaks. -/
theorem lineStarts_ends (t : Text) : ∃ before,
    t.lineStarts = before ++ [t.length - t.lastLine.length] ∧ before.length = t.count '\n' := by
  induction t using List.reverseRecOn with
  | nil => exact ⟨[], rfl, rfl⟩
  | append_singleton t c ih =>
    obtain ⟨before, he, hlen⟩ := ih
    have hstarts : lineStarts (t ++ [c]) = lineStarts t ++ startsFrom t.length [c] := by
      rw [lineStarts, startsFrom_append, Nat.zero_add]
      rfl
    rw [hstarts, he, lastLine_concat, List.count_append, List.length_append]
    by_cases hc : c = '\n'
    · subst hc
      exact ⟨before ++ [t.length - (lastLine t).length], rfl, by simp [hlen]⟩
    · refine ⟨before, ?_, by simp [hc, hlen]⟩
      have hnone : startsFrom t.length [c] = [] := by rw [startsFrom, if_neg hc]; rfl
      rw [hnone, if_neg hc, List.append_nil, List.length_append, List.length_singleton,
        Nat.add_sub_add_right]

/-- A text is its last line behind others. -/
theorem lastLine_split (t : Text) : ∃ front, t = front ++ t.lastLine ∧ '\n' ∉ t.lastLine ∧
    (front = [] ∨ ∃ u, front = u ++ ['\n']) := by
  induction t using List.reverseRecOn with
  | nil => exact ⟨[], rfl, by simp [lastLine], .inl rfl⟩
  | append_singleton t c ih =>
    obtain ⟨front, he, hbreak, hfront⟩ := ih
    rw [lastLine_concat]
    by_cases hc : c = '\n'
    · subst hc
      exact ⟨t ++ ['\n'], by simp, by simp, .inr ⟨t, rfl⟩⟩
    · rw [if_neg hc]
      refine ⟨front, by rw [← List.append_assoc, ← he], ?_, hfront⟩
      rw [List.mem_append, List.mem_singleton, not_or]
      exact ⟨hbreak, Ne.symm hc⟩

theorem length_lastLine_le (t : Text) : t.lastLine.length ≤ t.length := by
  obtain ⟨front, he, _⟩ := lastLine_split t
  have := congrArg List.length he
  rw [List.length_append] at this
  omega

theorem lastLine_of_clean (h : '\n' ∉ t) : t.lastLine = t := by
  obtain ⟨front, he, _, rfl | ⟨u, rfl⟩⟩ := lastLine_split t
  · exact he.symm
  · refine absurd ?_ h
    rw [he]
    simp

theorem lineStart_lastLine (h : o ≤ t.length) :
    LineStart t o (o - (lastLine (t.take o)).length) := by
  have htake : (t.take o).length = o := List.length_take_of_le h
  obtain ⟨front, he, hbreak, hfront⟩ := lastLine_split (t.take o)
  have hp : o - (lastLine (t.take o)).length = front.length := by
    have := congrArg List.length he
    rw [List.length_append, htake] at this
    omega
  refine ⟨Nat.sub_le _ _, ?_, ?_⟩
  · rw [hp]
    rcases hfront with rfl | ⟨u, rfl⟩
    · exact .inl rfl
    · refine .inr ⟨u.length, by simp, ?_⟩
      have hlt : u.length < o := by
        have := congrArg List.length he
        rw [htake] at this
        simp only [List.length_append, List.length_singleton] at this
        omega
      rw [← List.getElem?_take_of_lt hlt, he]
      simp
  · rw [hp, segment, ← List.drop_take]
    nth_rewrite 1 [he]
    rw [List.drop_left]
    exact hbreak

theorem tabled_lastLine (h : o ≤ t.length) :
    Tabled t o ((t.take o).count '\n' + 1) (o - (lastLine (t.take o)).length) := by
  have htake : (t.take o).length = o := List.length_take_of_le h
  obtain ⟨before, he, hlen⟩ := lineStarts_ends (t.take o)
  rw [htake] at he
  refine ⟨lineStarts (t.take o), startsFrom o (t.drop o), ?_, ?_, ?_, ?_, ?_⟩
  · have hsplit := startsFrom_append 0 (t.take o) (t.drop o)
    rw [List.take_append_drop, Nat.zero_add, htake] at hsplit
    rw [lineStarts, hsplit]
    rfl
  · refine List.forall_mem_cons.mpr ⟨Nat.zero_le _, fun q hq => ?_⟩
    have := (mem_startsFrom hq).2
    omega
  · exact fun q hq => (mem_startsFrom hq).1
  · rw [he, List.length_append, hlen, List.length_singleton]
  · rw [he, List.getLast?_concat]

end Starts
end Text

section Places
variable {source : Text} {o : Nat}

/-- A place counts the line breaks before it, and the characters from the start of its line. -/
theorem locate_eq (h : o ≤ source.length) :
    Position.locate source o = ⟨1 + (source.take o).count '\n',
      o - (o - (Text.lastLine (source.take o)).length : Nat) + 1⟩ := by
  have htake : (source.take o).length = o := List.length_take_of_le h
  have hle := Text.length_lastLine_le (source.take o)
  change Position.inSource source o = _
  rw [Position.inSource, seek_eq_foldl _ h, foldl_after, htake]
  have hcolumn : (o : Int) - (o - (Text.lastLine (source.take o)).length : Nat) + 1 =
      (Text.lastLine (source.take o)).length + 1 := by omega
  rw [hcolumn]
  split
  · rename_i hnone
    have hall := Text.lastLine_of_clean (List.count_eq_zero.mp hnone)
    simp only [hnone, hall, htake, Position.first, Position.mk.injEq]
    omega
  · rfl

end Places

namespace Reader
open Statewright.Language

/-- A fragment stands in the source behind the delimiter that it was cut at. -/
theorem cut_fragment {expected : List Kind} {r r' : Reader} {t : Token}
    (h : cut expected r = .ok t r') (hk : t.kind = .block ∨ t.kind = .expr) :
    t.offset + 1 ≤ r.source.length ∧ t.place = .inSource r.source (t.offset + 1) ∧
      ∃ rest, r.source.drop (t.offset + 1) = t.text ++ rest := by
  obtain ⟨_, hspelled, _⟩ := cut_sound h
  have hone := hspelled [] .nil
  cases hone with
  | @cons _ g w rest k v _ hd _ hs _ =>
    obtain ⟨hplain, _⟩ | ⟨_, a, b, rfl⟩ := hs.text
    · exact absurd hk hplain
    · have hdelimiter : r.source.drop (r.offset + g.length) = a :: (v ++ [b]) ++ rest := by
        rw [← List.drop_drop, hd, List.drop_left]
      have hplace : placeOf r.source k (r.offset + g.length) =
          .inSource r.source (r.offset + g.length + 1) := by rw [placeOf, if_pos hk]
      refine ⟨?_, hplace, b :: rest, ?_⟩
      · have hlen := congrArg List.length hdelimiter
        simp only [List.length_drop, List.length_append, List.length_cons] at hlen
        dsimp only
        omega
      · rw [← List.drop_drop, hdelimiter]
        simp

/-- The places in a fragment, by its own line breaks, are those of the source. These are the line,
one more than the line breaks before, and the column, counted from the line's start, which the table
of line starts gives as well; and they increase. -/
theorem places_agree (source : Text) :
    (∀ expected (r : Reader) t r', r.source = source → cut expected r = .ok t r' →
      t.kind = .block ∨ t.kind = .expr → ∀ k : Nat, k ≤ t.text.length →
        (Grammar.fragment t).placeAt k = .locate source (t.offset + 1 + k : Nat)) ∧
    (∀ o : Nat, o ≤ source.length → ∃ p : Nat, Text.LineStart source o p ∧
      Text.Tabled source o ((source.take o).count '\n' + 1) p ∧
      Position.locate source o = ⟨1 + (source.take o).count '\n', o - p + 1⟩) ∧
    ∀ o o' : Nat, o < o' → o' ≤ source.length →
      (Position.locate source o).Before (.locate source o') := by
  refine ⟨?_, fun o ho => ?_, fun o o' hlt ho' => ?_⟩
  · rintro expected r t r' rfl h hk k hle
    obtain ⟨ho, hplace, rest, hd⟩ := cut_fragment h hk
    exact placeAt_inSource (f := Grammar.fragment t) hplace hd hle ho
  · exact ⟨_, Text.lineStart_lastLine ho, Text.tabled_lastLine ho, locate_eq ho⟩
  · obtain ⟨i, rfl⟩ := Nat.exists_eq_add_of_lt hlt
    rw [Nat.add_assoc] at ho' ⊢
    exact inSource_before (Nat.succ_pos i) ho'

/-- A block that starts and ends with a line break. -/
def brokenSource : Text :=
  "a\n \x7b\nb\n\x7d"

theorem places_agree_broken : ∃ t r',
    cut [.block] { source := brokenSource, offset := 1 } = .ok t r' ∧
    t.text.length = 3 ∧ (Grammar.fragment t).placeAt (3 : Nat) =
      .locate brokenSource (t.offset + 1 + 3 : Nat) ∧
    Position.locate brokenSource (6 : Nat) = ⟨3, 2⟩ ∧
    (Position.locate brokenSource (6 : Nat)).Before (.locate brokenSource (7 : Nat)) := by
  have h : (match cut [.block] { source := brokenSource, offset := 1 } with
      | .ok t _ => t.kind == .block && t.text.length == 3
      | .error _ _ => false) = true := by decide +kernel
  split at h
  · rename_i t r' hcut
    rw [Bool.and_eq_true, beq_iff_eq, beq_iff_eq] at h
    obtain ⟨hplaces, _, hbefore⟩ := places_agree brokenSource
    exact ⟨t, r', hcut, h.2, hplaces _ _ _ _ rfl hcut (.inl h.1) 3 (Nat.le_of_eq h.2.symm), rfl,
      hbefore 6 7 (by decide) (by decide)⟩
  · cases h

end Reader
end Statewright
