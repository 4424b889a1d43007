import Mathlib.Data.List.Forall2
import Statewright.Proofs.Printing

namespace Statewright
namespace CUnit

/-- The line that assigns the state of a name. -/
def assignment (stem aim : Text) : Text :=
  "fsm->state = " ++ stem ++ "_state_" ++ aim ++ ";"

theorem setState_eq (stem aim : Text) : setState stem aim = assignment stem aim := by
  unfold setState stateName assignment
  simp only [List.append_assoc]

/-- Whether a line assigns any state. -/
def setsState (l : Text) : Bool :=
  "fsm->state".toList.isPrefixOf l

/-- Lines that assign a state in the last of them, and none before. -/
inductive Settles (stem aim : Text) : List Text → Prop
  | mk {ls : List Text} : (∀ l ∈ ls, setsState l = false) →
      Settles stem aim (ls ++ [assignment stem aim])

/-- The condition that a timer has run out. -/
def expiry (stem timer : Text) : Text :=
  "fsm->running[" ++ stem ++ "_timer_" ++ timer ++ "] && fsm->timers[" ++ stem ++ "_timer_" ++
    timer ++ "] <= 0"

/-- The lines that start a timer with its duration. -/
def launch (stem : Text) (t : Timer) : List Text :=
  ["fsm->timers[" ++ stem ++ "_timer_" ++ t.name ++ "] = " ++ t.duration ++ ";",
   "fsm->running[" ++ stem ++ "_timer_" ++ t.name ++ "] = 1;"]

/-- The lines of a change of state out of `block`, with the states that the source names. A retry
starts over in the first state of its block, and at the bound takes the overflow. -/
inductive ChangeWritten (m : Machine) (stem : Text) (block : Option (Nat × Until)) :
    Action → List Text → Prop
  | jump {j : Jump} {s : State} {ls : List Text} : m.Leads j s → Settles stem s.name ls →
      ChangeWritten m stem block (.jump j) ls
  | retry {k : Nat} {u : Until} {first out : State} {ls : List Text} : block = some (k, u) →
      u.states.head? = some first → m.Leads u.overflow out → Settles stem out.name ls →
      ChangeWritten m stem block .retry (List.flatten
        [["if (++fsm->retries[" ++ Text.ofNat k ++ "] >= (" ++ u.bound.text ++ ")) \x7b"],
         Code.indent 4 ls, ["\x7d else \x7b", "    " ++ assignment stem first.name, "\x7d"]])

/-- The condition and the lines of a transition refer to the timers and the states that the source
names. -/
structure Refers (m : Machine) (stem : Text) (s : Site) (t : Transition) (c : Text)
    (ls : List Text) : Prop where
  timeout : ∀ r, t.trigger = .timeout r → ∃ timer, m.IsTimer r timer ∧ c = expiry stem timer.name
  lines : ∃ timers change, List.Forall₂ m.IsTimer t.starts timers ∧
    ChangeWritten m stem s.block t.action change ∧ ls = timers.flatMap (launch stem) ++ change

/-- The lines of a transition stand in a unit as they are: the one of its condition, if that is a
timeout, and those of what it does. -/
structure Printed (stem : Text) (unit : List Text) (t : Transition) (c : Text) (a : Actuation) :
    Prop where
  timeout : ∀ r, t.trigger = .timeout r → Text.spaces 8 ++ ("if (" ++ c ++ ") \x7b") ∈ unit
  lines : a.printed stem <:+: unit

section Lines
variable {m : Machine} {stem : Text}

theorem move_settles (move : Move) : Settles stem move.state (move.lines stem) := by
  rw [Move.lines, setState_eq]
  apply Settles.mk
  intro l hl
  rcases List.mem_append.mp hl with hl | hl
  · obtain ⟨n, _, rfl⟩ := List.mem_map.mp hl
    simp [setsState, List.isPrefixOf]
  · obtain ⟨label, _, rfl⟩ := List.mem_map.mp hl
    simp [setsState, List.isPrefixOf]

theorem startLines_eq (t : Timer) : startLines stem t = launch stem t := by
  simp only [startLines, launch, timerName, List.append_assoc]

/-- A change that its action demands is written with the states that it demands. -/
theorem change_written {block : Option (Nat × Until)} {action : Action} {change : Change}
    (h : m.ChangeFits block action change) :
    ChangeWritten m stem block action (change.lines stem) := by
  cases h with
  | @jump j move hmove =>
    obtain ⟨s, hleads, _, hname, _⟩ := hmove
    apply ChangeWritten.jump hleads
    rw [← hname]
    exact move_settles move
  | @retry k u overflow first target hblock hmove hfirst _ =>
    obtain ⟨out, hleads, _, hname, _⟩ := hmove
    rw [Change.lines, setState_eq]
    apply ChangeWritten.retry hblock hfirst hleads
    rw [← hname]
    exact move_settles overflow

theorem condition_timeout {r : Ref} {timer : Timer} (h : m.timerAt r.index = .ok timer) :
    condition m stem (.timeout r) = .ok (expiry stem timer.name) := by
  have he : expiry stem timer.name = "fsm->running[" ++ timerName stem timer.name ++
      "] && fsm->timers[" ++ timerName stem timer.name ++ "] <= 0" := by
    unfold expiry timerName
    simp only [List.append_assoc]
  simp only [condition, h, he]
  rfl

/-- In a machine that fits, what is written for a transition refers to what the source names. -/
theorem refers_of_fits (hfits : m.Fits) {unit : List Text} {s : Site} (hs : s ∈ m.sites)
    {t : Transition} (ht : t ∈ s.state.transitions) {c : Text} {a : Actuation}
    (h : Performs m stem unit s t c a) : Refers m stem s t c (a.lines stem) := by
  obtain ⟨a', ha', hstarts, hchange⟩ := hfits.actuations s hs t ht
  obtain rfl : a = a' := Except.ok.inj (h.actuation.symm.trans ha')
  refine ⟨?_, a.starts, a.change.lines stem, ?_, change_written hchange, ?_⟩
  · intro r hr
    obtain ⟨timer, htimer, his⟩ := hfits.timeouts s hs t ht r hr
    have hc := h.condition
    rw [hr, condition_timeout htimer] at hc
    exact ⟨timer, his, (Except.ok.inj hc).symm⟩
  · -- the equation of the two lists, member by member
    have heq := List.forall₂_eq_eq_eq.symm ▸ hstarts.symm
    rw [List.forall₂_map_left_iff, List.forall₂_map_right_iff] at heq
    exact heq
  · rw [Actuation.lines, List.flatMap_congr fun t _ => startLines_eq t]

theorem expiry_unbroken (hstem : stem.IsUnbroken) {timer : Text} (h : timer.IsUnbroken) :
    (expiry stem timer).IsUnbroken := by
  unfold expiry
  simp only [Text.isUnbroken_append]
  exact ⟨⟨⟨⟨⟨⟨⟨⟨Text.isUnbroken_of_all rfl, hstem⟩, Text.isUnbroken_of_all rfl⟩, h⟩,
    Text.isUnbroken_of_all rfl⟩, hstem⟩, Text.isUnbroken_of_all rfl⟩, h⟩,
    Text.isUnbroken_of_all rfl⟩

/-- With a stem without line breaks nothing that is written for a transition is broken. -/
theorem printed_of_fits (hfits : m.Fits) (hw : Worded m.words) (hstem : stem.IsUnbroken)
    {unit : List Text} {s : Site} (hs : s ∈ m.sites) {t : Transition}
    (ht : t ∈ s.state.transitions) {c : Text} {a : Actuation}
    (h : Performs m stem unit s t c a) : Printed stem unit t c a := by
  constructor
  · intro r hr
    obtain ⟨timer, his, rfl⟩ := (refers_of_fits hfits hs ht h).timeout r hr
    have hmem : timer ∈ m.timers.filter (·.name = r.name) := by
      rw [his]
      exact List.mem_singleton_self timer
    have hwords := Machine.timer_worded hw (List.mem_filter.mp hmem).1
    apply h.condition_printed
    exact expiry_unbroken hstem (Text.isUnbroken_of_word (worded_cons.mp hwords).1)
  · exact h.printed hstem (actuation_worded hw hfits hs ht h.actuation)

end Lines
end CUnit

namespace Compilation
open Statewright.Language CUnit

/-- Compiling a source either rejects it with an error or writes the unit of the program it derives.
Every look-up made for the unit succeeds, and the lines of each transition refer to the states and
timers that the source named. They stand in the unit as they are, unless the stem has line breaks,
which indenting would take up. -/
theorem compile_total (file : Option Text) (source : Text) (stem : Option Text)
    (hb : ∀ p, Derives file source p → ∀ u ∈ p.machine.untils, ∀ digits,
      u.bound = .literal digits → digits.length ≤ digitLimit) :
    (∃ ds, (compile { file } source stem).2 = .error (.rejected ds) ∧ ∃ d ∈ ds, d.isError) ∨
    ∃ p unit, (compile { file } source stem).2 = .ok (p, Text.join "\n" unit ++ "\n") ∧
      Derives file source p.erase ∧
      (∀ d ∈ (compile { file } source stem).1.diagnostics, d.severity = .warning) ∧
      text p (stem.getD p.machine.name) = .ok (Text.join "\n" unit ++ "\n") ∧ p.machine.Fits ∧
      ∀ s ∈ p.machine.sites, ∀ t ∈ s.state.transitions, ∃ c a,
        Performs p.machine (stem.getD p.machine.name) unit s t c a ∧
        Refers p.machine (stem.getD p.machine.name) s t c
          (a.lines (stem.getD p.machine.name)) ∧
        ((stem.getD p.machine.name).IsUnbroken →
          Printed (stem.getD p.machine.name) unit t c a) := by
  rcases parse_cases file source with ⟨c, ds, hp, hds⟩ | ⟨c, q, hp, hq, hc⟩
  · exact .inl ⟨ds, by simp only [compile, hp], hds⟩
  · have hlong : ∀ u ∈ q.machine.untils, u.bound.isLong = false :=
      fun u hu => isLong_eq_false.mpr (hb q hq u hu)
    obtain ⟨hprogram, hiff, hseverity, hcheck⟩ := analyze_of_fresh hc hq.fresh hq.readable hlong
    generalize ha : c.analyze q = result at hprogram hiff hseverity hcheck
    obtain ⟨c', p, r⟩ := result
    dsimp only at hprogram hiff hseverity hcheck
    by_cases hw : q.machine.IllFormed
    · have hr := check_rejected (hiff.mpr hw)
      refine .inl ⟨c'.diagnostics, ?_, hiff.mpr hw⟩
      simp only [compile, hp, ha, hcheck, hr]
    · have hr : r = .ok () := by
        rw [hcheck, check_ok, hiff]
        exact hw
      rw [hr] at ha
      obtain ⟨_, unit, hlines, htext, hcompile, hdiagnostics⟩ := compile_accepted hp ha stem
      have hfits := (unit_accepted hp ha []).1
      have herase : p.erase = q := by
        rw [hprogram, Program.erase, Machine.analyzed_erase]
        exact hq.erased
      refine .inr ⟨p, unit, hcompile, herase ▸ hq, ?_, htext, hfits, ?_⟩
      · intro d hmem
        rw [hdiagnostics] at hmem
        apply (hseverity d hmem).resolve_left
        intro he
        exact hw (hiff.mp ⟨d, hmem, he⟩)
      · intro s hs t ht
        obtain ⟨cond, a, hperforms⟩ := unit_performs hfits hlines hs ht
        have hwords : Worded p.machine.words := by
          rw [hprogram, Machine.words_analyzed]
          exact hq.worded
        exact ⟨cond, a, hperforms, refers_of_fits hfits hs ht hperforms,
          fun hstem => printed_of_fits hfits hwords hstem hs ht hperforms⟩

theorem sample_bounds : ∀ p, Derives none sample p → ∀ u ∈ p.machine.untils, ∀ digits,
    u.bound = .literal digits → digits.length ≤ digitLimit := by
  intro p hp
  obtain ⟨c, q, hq, hlong, _⟩ := sample_read
  have he := parse_ok_iff.mpr hp
  rw [hq] at he
  cases he
  exact fun u hu => isLong_eq_false.mp (hlong u hu)

theorem compile_total_sample :
    (∀ p, Derives none sample p → ∀ u ∈ p.machine.untils, ∀ digits,
      u.bound = .literal digits → digits.length ≤ digitLimit) ∧
    ∃ p unit, (compile {} sample (some "x")).2 = .ok (p, Text.join "\n" unit ++ "\n") ∧
      Derives none sample p.erase ∧
      (∀ d ∈ (compile {} sample (some "x")).1.diagnostics, d.severity = .warning) ∧
      text p "x" = .ok (Text.join "\n" unit ++ "\n") ∧ p.machine.Fits ∧
      ∀ s ∈ p.machine.sites, ∀ t ∈ s.state.transitions, ∃ c a,
        Performs p.machine "x" unit s t c a ∧ Refers p.machine "x" s t c (a.lines "x") ∧
        Printed "x" unit t c a := by
  obtain ⟨c, q, c', p, hp, ha⟩ := sample_accepted
  obtain ⟨_, _, _, _, hcompile, _⟩ := compile_accepted hp ha (some "x")
  refine ⟨sample_bounds, ?_⟩
  rcases compile_total none sample (some "x") sample_bounds with ⟨ds, hrejected, _⟩ | haccepted
  · rw [hcompile] at hrejected
    cases hrejected
  · obtain ⟨p, unit, hok, hderives, hwarnings, htext, hfits, hall⟩ := haccepted
    refine ⟨p, unit, hok, hderives, hwarnings, htext, hfits, ?_⟩
    intro s hs t ht
    obtain ⟨e, a, hperforms, hrefers, hprinted⟩ := hall s hs t ht
    exact ⟨e, a, hperforms, hrefers, hprinted (Text.isUnbroken_of_all rfl)⟩

end Compilation
end Statewright
