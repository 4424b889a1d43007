import Statewright.Proofs.Emission
import Statewright.Proofs.Lines
import Statewright.Proofs.Pieces
import Statewright.Proofs.Words

namespace Statewright

theorem word_unbroken {c : Char} (h : isNameChar c) : Text.isBreak c = false := by
  rw [← Bool.not_eq_true]
  intro hb
  rw [Code.isNameChar_of_blank (Text.blank_of_break hb)] at h
  cases h

namespace Text

/-- A text without line breaks of any kind. -/
def IsUnbroken (t : Text) : Prop :=
  ∀ c ∈ t, isBreak c = false

theorem isUnbroken_of_all {t : Text} (h : t.all (!isBreak ·) = true) : IsUnbroken t := by
  simpa [IsUnbroken] using h

theorem isUnbroken_append {t u : Text} : IsUnbroken (t ++ u) ↔ IsUnbroken t ∧ IsUnbroken u :=
  List.forall_mem_append

theorem isUnbroken_of_word {t : Text} (h : ∀ c ∈ t, isNameChar c) : IsUnbroken t :=
  fun c hc => word_unbroken (h c hc)

theorem ofNat_digits (n : Nat) : ∀ d ∈ ofNat n, isAsciiDigit d := by
  intro d hd
  have h := Nat.isDigit_of_mem_toDigits (by omega) (by omega) hd
  rwa [Char.isDigit] at h

theorem isUnbroken_ofNat (n : Nat) : IsUnbroken (ofNat n) := by
  apply isUnbroken_of_word
  intro d hd
  rw [isNameChar, Bool.or_eq_true]
  exact .inr (ofNat_digits n d hd)

theorem isUnbroken_spaces (n : Nat) : IsUnbroken (spaces n) := by
  intro c hc
  obtain rfl := List.eq_of_mem_replicate hc
  rfl

theorem breakLines_unbroken {t : Text} (h : IsUnbroken t) : breakLines t = [t] := by
  induction t with
  | nil => rfl
  | cons c t ih =>
    obtain ⟨hc, ht⟩ := List.forall_mem_cons.mp h
    obtain ⟨first, others, hfirst, he⟩ := breakLines_other hc t
    rw [ih ht] at hfirst
    cases hfirst
    exact he

end Text

/-- Lines that are indented as they are. -/
def Code.Whole (ls : List Text) : Prop :=
  ∀ l ∈ ls, l ≠ [] ∧ l.IsUnbroken

namespace Code
variable {ls ks : List Text}

theorem whole_nil : Whole [] :=
  List.forall_mem_nil _

theorem whole_cons {l : Text} : Whole (l :: ls) ↔ (l ≠ [] ∧ l.IsUnbroken) ∧ Whole ls :=
  List.forall_mem_cons

theorem whole_append : Whole (ls ++ ks) ↔ Whole ls ∧ Whole ks :=
  List.forall_mem_append

theorem whole_margin (n : Nat) (h : Whole ls) : Whole (ls.map (Text.spaces n ++ ·)) := by
  intro l hl
  obtain ⟨k, hk, rfl⟩ := List.mem_map.mp hl
  obtain ⟨hne, hunbroken⟩ := h k hk
  exact ⟨List.append_ne_nil_of_right_ne_nil _ hne,
    Text.isUnbroken_append.mpr ⟨Text.isUnbroken_spaces n, hunbroken⟩⟩

theorem indent_whole (n : Nat) (h : Whole ls) : indent n ls = ls.map (Text.spaces n ++ ·) := by
  unfold indent
  induction ls with
  | nil => rfl
  | cons l ls ih =>
    obtain ⟨⟨hne, hl⟩, hls⟩ := whole_cons.mp h
    -- a line without breaks comes out of the cutting as it was
    rw [List.flatMap_cons, List.map_append, ih hls, Text.breakLines_unbroken hl]
    simp [hne]

theorem indent_twice (n k : Nat) (h : Whole ls) :
    indent n (indent k ls) = ls.map (Text.spaces (n + k) ++ ·) := by
  rw [indent_whole k h, indent_whole n (whole_margin k h), List.map_map]
  apply List.map_congr_left
  intro l _
  rw [Function.comp_apply, ← List.append_assoc, Text.spaces, Text.spaces,
    List.replicate_append_replicate]
  rfl

end Code

def Move.words (move : Move) : List Text :=
  move.state :: move.label.toList

def Change.words : Change → List Text
  | move m => m.words
  | retry _ bound overflow _ state => bound :: state :: overflow.words

def Actuation.words (a : Actuation) : List Text :=
  a.starts.flatMap Timer.words ++ a.change.words

/-- The lines of an actuation as they stand in a unit. -/
def Actuation.printed (stem : Text) (a : Actuation) : List Text :=
  (a.lines stem).map (Text.spaces 12 ++ ·)

namespace CUnit
open Text (isUnbroken_of_all isUnbroken_append isUnbroken_of_word)

section Lines
variable {stem : Text} (hstem : stem.IsUnbroken)
include hstem

theorem setState_unbroken {name : Text} (hname : name.IsUnbroken) :
    (setState stem name).IsUnbroken := by
  unfold setState stateName
  rw [isUnbroken_append, isUnbroken_append, isUnbroken_append, isUnbroken_append]
  exact ⟨⟨isUnbroken_of_all rfl, ⟨hstem, isUnbroken_of_all rfl⟩, hname⟩, isUnbroken_of_all rfl⟩

theorem move_whole {move : Move} (h : Worded move.words) : Code.Whole (move.lines stem) := by
  obtain ⟨hstate, hlabel⟩ := worded_cons.mp h
  unfold Move.lines
  rw [Code.whole_append, Code.whole_append]
  refine ⟨⟨?_, ?_⟩, ?_⟩
  · intro l hl
    obtain ⟨k, _, rfl⟩ := List.mem_map.mp hl
    refine ⟨by simp, ?_⟩
    rw [isUnbroken_append, isUnbroken_append]
    exact ⟨⟨isUnbroken_of_all rfl, Text.isUnbroken_ofNat k⟩, isUnbroken_of_all rfl⟩
  · intro l hl
    obtain ⟨label, hmem, rfl⟩ := List.mem_map.mp hl
    have hname := isUnbroken_of_word (hlabel label hmem)
    refine ⟨by simp, ?_⟩
    unfold labelName
    rw [isUnbroken_append, isUnbroken_append, isUnbroken_append, isUnbroken_append]
    exact ⟨⟨isUnbroken_of_all rfl, ⟨hstem, isUnbroken_of_all rfl⟩, hname⟩, isUnbroken_of_all rfl⟩
  · exact Code.whole_cons.mpr ⟨⟨List.cons_ne_nil _ _,
      setState_unbroken hstem (isUnbroken_of_word hstate)⟩, Code.whole_nil⟩

/-- The lines of a retry whose words are names. -/
theorem retry_lines {k target : Nat} {bound state : Text} {overflow : Move}
    (h : Worded overflow.words) : (Change.retry k bound overflow target state).lines stem =
      ("if (++fsm->retries[" ++ Text.ofNat k ++ "] >= (" ++ bound ++ ")) \x7b") ::
        ((overflow.lines stem).map (Text.spaces 4 ++ ·) ++
          [("\x7d else \x7b" : Text), Text.spaces 4 ++ setState stem state, "\x7d"]) := by
  rw [Change.lines, Code.indent_whole 4 (move_whole hstem h)]
  rfl

theorem change_whole {change : Change} (h : Worded change.words) :
    Code.Whole (change.lines stem) := by
  cases change with
  | move move => exact move_whole hstem h
  | retry k bound overflow target state =>
    obtain ⟨hbound, h⟩ := worded_cons.mp h
    obtain ⟨hstate, hoverflow⟩ := worded_cons.mp h
    have hset := setState_unbroken hstem (isUnbroken_of_word hstate)
    rw [retry_lines hstem hoverflow, Code.whole_cons, Code.whole_append, Code.whole_cons,
      Code.whole_cons, Code.whole_cons]
    refine ⟨⟨by simp, ?_⟩, Code.whole_margin 4 (move_whole hstem hoverflow),
      ⟨by simp, isUnbroken_of_all rfl⟩, ⟨List.cons_ne_nil _ _, ?_⟩,
      ⟨by simp, isUnbroken_of_all rfl⟩, Code.whole_nil⟩
    · rw [isUnbroken_append, isUnbroken_append, isUnbroken_append, isUnbroken_append]
      exact ⟨⟨⟨⟨isUnbroken_of_all rfl, Text.isUnbroken_ofNat k⟩, isUnbroken_of_all rfl⟩,
        isUnbroken_of_word hbound⟩, isUnbroken_of_all rfl⟩
    · exact isUnbroken_append.mpr ⟨Text.isUnbroken_spaces 4, hset⟩

theorem start_whole {t : Timer} (h : Worded t.words) : Code.Whole (startLines stem t) := by
  obtain ⟨hname, h⟩ := worded_cons.mp h
  obtain ⟨hduration, _⟩ := worded_cons.mp h
  have htimer : (timerName stem t.name).IsUnbroken := by
    unfold timerName
    rw [isUnbroken_append, isUnbroken_append]
    exact ⟨⟨hstem, isUnbroken_of_all rfl⟩, isUnbroken_of_word hname⟩
  rw [startLines, Code.whole_cons, Code.whole_cons]
  refine ⟨⟨by simp, ?_⟩, ⟨by simp, ?_⟩, Code.whole_nil⟩
  · rw [isUnbroken_append, isUnbroken_append, isUnbroken_append, isUnbroken_append]
    exact ⟨⟨⟨⟨isUnbroken_of_all rfl, htimer⟩, isUnbroken_of_all rfl⟩,
      isUnbroken_of_word hduration⟩, isUnbroken_of_all rfl⟩
  · rw [isUnbroken_append, isUnbroken_append]
    exact ⟨⟨isUnbroken_of_all rfl, htimer⟩, isUnbroken_of_all rfl⟩

theorem actuation_whole {a : Actuation} (h : Worded a.words) : Code.Whole (a.lines stem) := by
  obtain ⟨hstarts, hchange⟩ := worded_append.mp h
  apply Code.whole_append.mpr
  refine ⟨?_, change_whole hstem hchange⟩
  intro l hl
  obtain ⟨t, ht, hl⟩ := List.mem_flatMap.mp hl
  exact start_whole hstem (worded_flatMap.mp hstarts t ht) l hl

/-- The lines of a transition stand in the unit line by line. -/
theorem Performs.printed {m : Machine} {unit : List Text} {s : Site} {t : Transition} {e : Text}
    {a : Actuation} (h : Performs m stem unit s t e a) (hw : Worded a.words) :
    a.printed stem <:+: unit := by
  obtain ⟨ks, _, hks, hwritten⟩ := h.written
  have hlines := (Code.indent_within (writtenTransition_holds (List.infix_refl _))).trans hwritten
  rw [Code.indent_twice 8 4 (actuation_whole hstem hw)] at hlines
  exact hlines.trans hks

end Lines

/-- So does the line of its condition, if this has no line breaks. -/
theorem Performs.condition_printed {m : Machine} {stem : Text} {unit : List Text} {s : Site}
    {t : Transition} {e : Text} {a : Actuation} (h : Performs m stem unit s t e a)
    (he : e.IsUnbroken) : Text.spaces 8 ++ ("if (" ++ e ++ ") \x7b") ∈ unit := by
  obtain ⟨ks, _, hks, hwritten⟩ := h.written
  have hline : "if (" ++ e ++ ") \x7b" ∈ writtenTransition m s t stem e a :=
    List.mem_append_left _ List.mem_cons_self
  have hwhole : Code.Whole ["if (" ++ e ++ ") \x7b"] := by
    refine Code.whole_cons.mpr ⟨⟨by simp, ?_⟩, Code.whole_nil⟩
    rw [isUnbroken_append, isUnbroken_append]
    exact ⟨⟨isUnbroken_of_all rfl, he⟩, isUnbroken_of_all rfl⟩
  have hin := (Code.indent_mem hline).trans (hwritten.trans hks)
  rw [Code.indent_whole 8 hwhole] at hin
  exact hin.subset List.mem_cons_self

section Words
variable {m : Machine} {s : Site} {t : Transition} {a : Actuation}

theorem label_worded {j : Jump} (h : ∀ c ∈ j.ref.name, isNameChar c) :
    Worded j.label?.toList := by
  cases j with
  | go r => exact worded_nil
  | err r => exact worded_cons.mpr ⟨h, worded_nil⟩

theorem move_worded (hw : Worded m.words) {j : Jump} (hj : ∀ c ∈ j.ref.name, isNameChar c)
    {move : Move} (h : m.MoveFits j move) : Worded move.words := by
  obtain ⟨s, _, hs, hname, hlabel⟩ := h
  rw [Move.words, hname, hlabel]
  have hstate := worded_cons.mp (Machine.state_worded hw (List.mem_of_getElem? hs))
  exact worded_cons.mpr ⟨hstate.1, label_worded hj⟩

theorem change_worded (hw : Worded m.words) (hs : s ∈ m.sites) (ht : t ∈ s.state.transitions)
    {change : Change} (h : m.ChangeFits s.block t.action change) : Worded change.words := by
  generalize hact : t.action = action at h
  cases h with
  | @jump j move hmove =>
    have hstate := Machine.state_worded hw (Machine.state_of_site hs)
    have hwords := worded_flatMap.mp (worded_cons.mp hstate).2 t ht
    have hjump := (worded_append.mp (worded_append.mp hwords).1).2
    rw [hact] at hjump
    exact move_worded hw (worded_cons.mp hjump).1 hmove
  | @retry k u overflow first target hblock hmove _ hstate =>
    have huntil := Machine.until_worded hw (List.mem_of_getElem? (Machine.site_untils hs hblock))
    obtain ⟨hbound, huntil⟩ := worded_cons.mp huntil
    have hfirst := Machine.state_worded hw (List.mem_of_getElem? hstate)
    exact worded_cons.mpr ⟨hbound, worded_cons.mpr ⟨(worded_cons.mp hfirst).1,
      move_worded hw (worded_cons.mp huntil).1 hmove⟩⟩

/-- In a machine that fits, the words of what a transition does are names. -/
theorem actuation_worded (hw : Worded m.words) (hfits : m.Fits) (hs : s ∈ m.sites)
    (ht : t ∈ s.state.transitions) (ha : Actuation.ofTransition m s.block t = .ok a) :
    Worded a.words := by
  obtain ⟨a', ha', hstarts, hchange⟩ := hfits.actuations s hs t ht
  obtain rfl : a = a' := Except.ok.inj (ha.symm.trans ha')
  refine worded_append.mpr ⟨worded_flatMap.mpr ?_, change_worded hw hs ht hchange⟩
  intro timer htimer
  have hmem : [timer] ∈ t.starts.map fun r => m.timers.filter (·.name = r.name) := by
    rw [← hstarts]
    exact List.mem_map_of_mem htimer
  obtain ⟨r, _, hfilter⟩ := List.mem_map.mp hmem
  have hin : timer ∈ m.timers.filter (·.name = r.name) := by
    rw [hfilter]
    exact List.mem_singleton_self timer
  exact Machine.timer_worded hw (List.mem_filter.mp hin).1

end Words
end CUnit
end Statewright
