import Statewright.Proofs.Faults
import Statewright.Proofs.Shown

namespace Statewright
namespace Language

/-- Fragments stand between their delimiters, all else as it is read. -/
theorem Spelling.text {rest w v : Text} {k : Kind} (h : Spelling rest k w v) :
    (¬ (k = .block ∨ k = .expr) ∧ w = v) ∨
      ((k = .block ∨ k = .expr) ∧ ∃ a b, w = a :: (v ++ [b])) := by
  cases h with
  | word hw _ =>
    refine .inl ⟨?_, rfl⟩
    exact Kind.IsWord.not_fragment (.inr (List.mem_map_of_mem (f := (·.2)) hw))
  | name => exact .inl ⟨by simp, rfl⟩
  | int => exact .inl ⟨by simp, rfl⟩
  | mark hm =>
    refine .inl ⟨?_, rfl⟩
    rintro (rfl | rfl) <;> simp [Kind.marks] at hm
  | fragment hm _ =>
    refine .inr ⟨?_, _, _, rfl⟩
    simp only [Kind.fragments, List.mem_cons, Prod.mk.injEq, List.not_mem_nil, or_false] at hm
    rcases hm with ⟨rfl, _⟩ | ⟨rfl, _⟩
    · exact .inl rfl
    · exact .inr rfl
  | eof => exact .inl ⟨by simp, rfl⟩

end Language

/-- What a fault is about, as it stands in the source. -/
def Fault.subject : Fault → Text
  | unrecognized c _ => [c]
  | unterminated _ opener _ _ => [opener]
  | unexpected _ found => found.text
  | unknownFlag word _ => word
  | untyped _ name _ => name
  | retryOverflow _ => "retry"

/-- The end of the source was found where something else was expected. -/
def Fault.atEnd : Fault → Bool
  | unexpected _ found => found.kind = .eof
  | _ => false

namespace Reader
open Statewright.Language

theorem Written.legible {source : Text} {t : Token} {stop : Nat} (h : Written source t stop)
    (ho : t.offset ≤ source.length) : Legible source t := by
  obtain ⟨⟨w, hd, hs, _⟩, hp⟩ := h
  have hl := hs.legible hd ho
  rw [← hp] at hl
  exact hl

/-- A token that is not expected is placed where its text is. -/
theorem Written.placed {source : Text} {t : Token} {stop : Nat} (h : Written source t stop)
    (ho : t.offset ≤ source.length) :
    ∃ o ≤ source.length, t.place = .inSource source o ∧ t.text <+: source.drop o ∧
      (t.kind = .eof → o = source.length) := by
  obtain ⟨⟨w, hd, hs, _⟩, hp⟩ := h
  have hlen := congrArg List.length hd
  simp only [List.length_drop, List.length_append] at hlen
  rw [placeOf] at hp
  rcases hs.text with ⟨hk, rfl⟩ | ⟨hk, a, b, rfl⟩
  · rw [if_neg hk] at hp
    refine ⟨t.offset, ho, hp, ⟨_, hd.symm⟩, fun hend => ?_⟩
    rw [hend] at hs
    obtain ⟨hempty, _, hrest⟩ := hs.of_eof
    rw [hempty, hrest] at hd
    exact Nat.le_antisymm ho (List.drop_eq_nil_iff.mp hd)
  · rw [if_pos hk] at hp
    simp only [List.length_append, List.length_cons] at hlen
    refine ⟨t.offset + 1, by omega, hp, ⟨b :: source.drop stop, ?_⟩, fun hend => ?_⟩
    · rw [← List.drop_drop, hd]
      simp
    · rw [hend] at hk
      simp at hk

theorem Points.placed {source : Text} {o : Nat} {f : Fault} (h : Points source o f)
    (ho : o ≤ source.length) :
    ∃ o ≤ source.length, f.place = .inSource source o ∧ f.subject <+: source.drop o ∧
      (f.atEnd → o = source.length) := by
  have hshown {text : Text} {place : Position} (h : Shows source text place) :
      ∃ o ≤ source.length, place = .inSource source o ∧ text <+: source.drop o ∧
        (false = true → o = source.length) := by
    obtain ⟨o, ho, hp, rest, hd, _⟩ := h
    exact ⟨o, ho, hp, ⟨rest, hd.symm⟩, nofun⟩
  cases h with
  | unrecognized hd _ => exact ⟨o, ho, rfl, ⟨_, hd.symm⟩, nofun⟩
  | unterminated hd _ => exact ⟨o, ho, rfl, ⟨_, hd.symm⟩, nofun⟩
  | unexpected hw =>
    simp only [Fault.atEnd, decide_eq_true_eq]
    exact hw.placed ho
  | unknownFlag hw hk => exact hshown ((hw.legible ho).shown (.inl hk))
  | untyped hw hk => exact hshown ((hw.legible ho).shown (.inl hk))
  | @retryOverflow t _ hw hk =>
    have hretry : ("retry".toList, t.kind) ∈ Kind.words := by simp [hk, Kind.words]
    exact hshown ((hw.legible ho).word_shown hretry)

theorem add_le_of_drop {source w rest : Text} {o : Nat} (hd : source.drop o = w ++ rest)
    (ho : o ≤ source.length) : o + w.length ≤ source.length := by
  have hlen := congrArg List.length hd
  simp only [List.length_drop, List.length_append] at hlen
  omega

/-- The whole source. -/
def Zone.whole (source : Text) : Zone source where
  has _ o := o ≤ source.length
  gap h hd _ := add_le_of_drop hd h
  flat h hd _ _ := add_le_of_drop hd h
  opens h hd _ := add_le_of_drop hd h
  closes h hd _ := add_le_of_drop hd h
  starts h hd _ _ := add_le_of_drop hd h

end Reader

theorem itemLength_le (depth : Nat) (first : Bool) (t : Text) :
    itemLength depth first t ≤ t.length := by
  have hblank (u : Text) : gapLength u ≤ u.length := Language.gapLength_le u
  have hrest {u rest : Text} {c : Char} (h : u.drop (gapLength u) = c :: rest) :
      gapLength u + 1 + rest.length = u.length := by
    have hlen := congrArg List.length h
    have := hblank u
    simp only [List.length_drop, List.length_cons] at hlen
    omega
  fun_induction itemLength depth first t with
  | case1 _ _ t => exact hblank t
  | case2 _ _ t => exact hblank t
  | case3 depth first t blank c rest hd _ _ word _ _ ih =>
    have hlen := hrest hd
    have hmunch := congrArg List.length
      (List.takeWhile_append_dropWhile (p := isNameChar) (l := rest))
    simp only [List.length_append] at hmunch
    simp only [word, List.length_cons]
    omega
  | case4 _ _ t _ rest hd _ _ ih =>
    have hlen := hrest hd
    omega
  | case5 _ t => exact hblank t
  | case6 _ t _ rest _ hd _ _ _ ih =>
    have hlen := hrest hd
    omega
  | case7 _ _ t _ c rest hd _ _ _ _ ih =>
    have hlen := hrest hd
    omega

namespace Grammar
open Statewright.Reader

variable {source : Text} {d : Nat}

theorem moves_item {z : Zone source} : z.Moves (d + 1) item (d + 1) := by
  refine Zone.peek_then (by simp) fun k _ => ?_
  split
  · exact Zone.moves_then (moves_state (moves_first (.inl rfl))) fun _ => Zone.moves_pure
  · exact Zone.moves_then (moves_block (moves_first (.inr rfl))) fun _ => Zone.moves_pure
  · exact Zone.moves_pure

theorem holds_recover (start : Nat) {r : Reader} (h : r.source = source) :
    (Zone.whole source).Holds d (r.recover start) := by
  subst h
  refine ⟨rfl, ?_⟩
  have hle := itemLength_le 0 true (r.source.drop (min start r.source.length))
  rw [List.length_drop] at hle
  change min start r.source.length + _ ≤ r.source.length
  omega

/-- Every round over the items stays in the source, and so do its faults. -/
theorem items_placed (file : Option Text) {r : Reader} (h : (Zone.whole source).Holds (d + 1) r) :
    (Zone.whole source).Holds (d + 1) (items file r).reader ∧
      ∀ f ∈ (items file r).faults, (Zone.whole source).Blames f := by
  have hitem {r : Reader} (h : (Zone.whole source).Holds (d + 1) r) {start : Nat} {marked : Reader}
      (hm : r.mark = (start, marked)) : (Zone.whole source).Holds (d + 1) marked := by
    have hmark := Zone.holds_mark h
    rw [hm] at hmark
    exact hmark
  have hback {e : Fault} {r' : Reader} (he : (Zone.whole source).Faulty e r') {start : Nat}
      {ended : Bool} {r'' : Reader} (hr : ((report file e r').recover start).atEnd = (ended, r'')) :
      (Zone.whole source).Holds (d + 1) r'' := by
    have hend := Zone.holds_atEnd
      (holds_recover (d := d + 1) start (r := report file e r') he.1)
    rw [hr] at hend
    exact hend
  fun_induction items file r with
  | case1 r start marked hm r' hi => exact ⟨moves_item.ok (hitem h hm) hi, by simp⟩
  | case2 r start marked hm i r' hi _ ih => exact ih (moves_item.ok (hitem h hm) hi)
  | case3 r start marked hm i r' hi _ => exact ⟨moves_item.ok (hitem h hm) hi, by simp⟩
  | case4 r start marked hm e r' hi r'' hr =>
    have he := moves_item.error (hitem h hm) hi
    exact ⟨hback he hr, List.forall_mem_singleton.mpr he.2⟩
  | case5 r start marked hm e r' hi ended r'' hr _ _ ih =>
    have he := moves_item.error (hitem h hm) hi
    have hrest := ih (hback he hr)
    exact ⟨hrest.1, List.forall_mem_cons.mpr ⟨he.2, hrest.2⟩⟩
  | case6 r start marked hm e r' hi ended r'' hr =>
    have he := moves_item.error (hitem h hm) hi
    exact ⟨hback he hr, List.forall_mem_singleton.mpr he.2⟩

theorem read_placed (file : Option Text) (source : Text) :
    ∀ f ∈ (read file source).faults, (Zone.whole source).Blames f := by
  have hstart : (Zone.whole source).Holds 0 { source } := ⟨rfl, Nat.zero_le _⟩
  unfold read
  split
  · rename_i ho
    exact List.forall_mem_singleton.mpr (moves_opening.error hstart ho).2
  · rename_i r ho
    obtain ⟨hreader, hfaults⟩ := items_placed file (moves_opening.ok hstart ho)
    dsimp only
    split
    · exact hfaults
    · split
      · rename_i he
        rw [stop, List.forall_mem_append]
        exact ⟨hfaults, List.forall_mem_singleton.mpr (moves_ending.error hreader he).2⟩
      · exact hfaults

end Grammar

/-- Analysis leaves the names and the places of the states as they are. -/
theorem Machine.mem_analyzed_states {m : Machine} {s : State}
    (h : s ∈ m.number.resolve.states) : ∃ t ∈ m.states, t.name = s.name ∧ t.place = s.place := by
  rw [analyzed_states] at h
  obtain ⟨p, hp, rfl⟩ := List.mem_map.mp h
  refine ⟨p.state, ?_, rfl, rfl⟩
  rw [← spots_states]
  exact List.mem_map_of_mem hp

theorem Analysis.unreachable_shown {source : Text} {m : Machine}
    (h : Language.MachineShown source m) :
    ∀ f ∈ unreachable m.number.resolve,
      Language.Shows source (f.issue.subject m.name) f.place := by
  unfold unreachable
  split
  · exact List.forall_mem_nil _
  · intro f hf
    obtain ⟨s, hs, rfl⟩ := List.mem_map.mp hf
    obtain ⟨⟨s, i⟩, hi, rfl⟩ := List.mem_map.mp hs
    have hmem := List.fst_mem_of_mem_zipIdx (List.mem_filter.mp hi).1
    obtain ⟨t, ht, hname, hplace⟩ := Machine.mem_analyzed_states hmem
    have hshown := (h.states t ht).name
    rw [hname, hplace] at hshown
    exact hshown

theorem Analysis.run_shown {source : Text} {m : Machine} (h : Language.MachineShown source m) :
    ∀ f ∈ (Analysis.run m).findings, Language.Shows source (f.issue.subject m.name) f.place := by
  have hchecks : ∀ f ∈ m.checkDeclarations ++ m.checkItems,
      Language.Shows source (f.issue.subject m.name) f.place :=
    fun f hf => h.part (Machine.concerns_checks f hf).part
  unfold run
  dsimp only
  split
  · exact fun f hf => hchecks f (List.mem_append_left _ hf)
  · split
    · exact hchecks
    · rw [List.forall_mem_append]
      exact ⟨hchecks, unreachable_shown h⟩

namespace Compilation
open Statewright.Language

theorem parse_diagnostics (file : Option Text) (source : Text) :
    (parse { file } source).1.diagnostics =
      (Grammar.read file source).faults.map (Fault.diagnostic · file) := by
  simp only [parse]
  split <;> rfl

theorem analyze_diagnostics (c : Compilation) (p : Program) :
    (c.analyze p).1.diagnostics =
      c.diagnostics ++ (Analysis.run p.machine).findings.map (·.diagnostic c.file) := by
  rw [← (report_all (Analysis.run p.machine).findings c).2]
  unfold analyze
  dsimp only
  split <;> rfl

/-- Every fault is placed where the source has what it is about, every finding where the source
shows the name or the word it is about. -/
theorem diagnostics_placed (file : Option Text) (source : Text) :
    (∀ d ∈ (parse { file } source).1.diagnostics, ∃ f : Fault, d = f.diagnostic file ∧
      ∃ o ≤ source.length, d.place = .inSource source o ∧ f.subject <+: source.drop o ∧
        (f.atEnd → o = source.length)) ∧
    ∀ c p, parse { file } source = (c, .ok p) → ∀ d ∈ (c.analyze p).1.diagnostics,
      ∃ f : Finding, d = f.diagnostic file ∧
        Shows source (f.issue.subject p.machine.name) d.place := by
  refine ⟨?_, ?_⟩
  · intro d hd
    rw [parse_diagnostics] at hd
    obtain ⟨f, hf, rfl⟩ := List.mem_map.mp hd
    obtain ⟨_, o, ho, hpoints⟩ := Grammar.read_placed file source f hf
    exact ⟨f, rfl, hpoints.placed ho⟩
  · intro c p hp d hd
    obtain ⟨hderives, hclean⟩ := derives_of_parse hp
    have hfile : c.file = file := by
      have := parse_file { file } source
      rw [hp] at this
      exact this
    rw [analyze_diagnostics, hclean, List.nil_append] at hd
    obtain ⟨f, hf, rfl⟩ := List.mem_map.mp hd
    exact ⟨f, by rw [hfile], Analysis.run_shown hderives.machine_shown f hf⟩

/-- A condition over two lines, the second of which reads an output. -/
def misread : Text :=
  "fsm m\x7boutput int y(0);\nstate a\x7b on(x &&\n    y) go a;\x7d\x7d"

theorem misread_found : ∃ c p, parse {} misread = (c, .ok p) ∧
    ∃ f ∈ (Analysis.run p.machine).findings, f = ⟨.outputRead "y", ⟨3, 5⟩⟩ := by
  have h : (parse {} misread).2.toOption.any (fun p =>
      (Analysis.run p.machine).findings.contains ⟨.outputRead "y", ⟨3, 5⟩⟩) = true := by
    decide +kernel
  generalize parse {} misread = result at h
  obtain ⟨c, result⟩ := result
  cases result with
  | error e => cases h
  | ok p => exact ⟨c, p, rfl, _, by simpa [Except.toOption] using h, rfl⟩

theorem diagnostics_placed_misread : ∃ c p, parse {} misread = (c, .ok p) ∧
    ∃ d ∈ (c.analyze p).1.diagnostics, d.place = ⟨3, 5⟩ ∧ ∃ f : Finding, d = f.diagnostic none ∧
      Shows misread (f.issue.subject p.machine.name) d.place := by
  obtain ⟨c, p, hp, f, hf, rfl⟩ := misread_found
  have hd : Finding.diagnostic ⟨.outputRead "y", ⟨3, 5⟩⟩ c.file ∈ (c.analyze p).1.diagnostics := by
    rw [analyze_diagnostics]
    exact List.mem_append_right _ (List.mem_map_of_mem hf)
  exact ⟨c, p, hp, _, hd, rfl, (diagnostics_placed none misread).2 c p hp _ hd⟩

end Compilation
end Statewright
