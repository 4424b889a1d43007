import Mathlib.Data.List.Infix
import Statewright.Proofs.Emission
import Statewright.Proofs.References

namespace Statewright
namespace CUnit

/-- The value of a numeral in a source. -/
def decimalValue (digits : Text) : Nat :=
  Nat.ofDigitChars 10 digits 0

/-- The base of an integer constant in C. -/
def constantBase (digits : Text) : Nat :=
  if digits.head? = some '0' then 8 else 10

/-- An integer constant in C has digits of its base only. -/
def isConstant (digits : Text) : Bool :=
  !digits.isEmpty &&
    digits.all fun d => Text.isAsciiDigit d && d.toNat - '0'.toNat < constantBase digits

/-- The value of an integer constant in C. There is no upper limit here: a constant that is too large
for every type of C has a value as well. -/
def constantValue? (digits : Text) : Option Nat :=
  if isConstant digits then some (Nat.ofDigitChars (constantBase digits) digits 0) else none

/-- The counter of an until block after so many increments from zero. -/
def counter : Nat → UInt32
  | 0 => 0
  | n + 1 => counter n + 1

/-- The comparison of a counter with a value holds at the `n`-th increment, and at none before. -/
structure FirstReached (value n : Nat) : Prop where
  pos : 0 < n
  holds : value ≤ (counter n).toNat
  first : ∀ k, 0 < k → k < n → (counter k).toNat < value

/-- The comparison with a constant, as it is written, first holds at the `n`-th increment. -/
def Trips (digits : Text) (n : Nat) : Prop :=
  ∃ value, constantValue? digits = some value ∧ FirstReached value n

/-- The line that counts a try of a block. -/
def boundLine (block : Nat) (bound : Bound) : Text :=
  "if (++fsm->retries[" ++ Text.ofNat block ++ "] >= (" ++ bound.text ++ ")) \x7b"

/-- The line that sets a timer. -/
def durationLine (stem : Text) (t : Timer) : Text :=
  "fsm->timers[" ++ timerName stem t.name ++ "] = " ++ t.duration ++ ";"

theorem counter_toNat (n : Nat) : (counter n).toNat = n % UInt32.size := by
  induction n with
  | zero => rfl
  | succ n ih =>
    rw [counter, UInt32.toNat_add, ih, UInt32.toNat_one]
    exact Nat.mod_add_mod n UInt32.size 1

/-- A value that a counter can hold is reached at once when so many increments are made, and no
other is ever reached. -/
theorem firstReached_iff {value n : Nat} (hpos : 0 < value) :
    FirstReached value n ↔ n = value ∧ value < UInt32.size := by
  constructor
  · intro h
    have hholds := h.holds
    rw [counter_toNat] at hholds
    have hfits : value < UInt32.size := Nat.lt_of_le_of_lt hholds (Nat.mod_lt n (by decide))
    refine ⟨?_, hfits⟩
    by_contra hne
    -- the counter has the value itself before it can have any greater one
    have hlt : value < n := by
      have := Nat.mod_le n UInt32.size
      omega
    have hearly := h.first value hpos hlt
    rw [counter_toNat, Nat.mod_eq_of_lt hfits] at hearly
    omega
  · rintro ⟨rfl, hfits⟩
    refine ⟨hpos, ?_, ?_⟩
    · rw [counter_toNat, Nat.mod_eq_of_lt hfits]
    · intro k _ hk
      rw [counter_toNat]
      exact Nat.lt_of_le_of_lt (Nat.mod_le k UInt32.size) hk

section Digits
variable {digits : Text}

theorem ofDigitChars_concat (base : Nat) (ds : Text) (d : Char) :
    Nat.ofDigitChars base (ds ++ [d]) 0 =
      base * Nat.ofDigitChars base ds 0 + (d.toNat - '0'.toNat) := by
  rw [Nat.ofDigitChars_append, Nat.ofDigitChars_cons, Nat.ofDigitChars_nil]

/-- Octal digits read in base eight give no more than in base ten, and the same only if no more than
the last of them counts. -/
theorem octal_le_decimal (h : ∀ d ∈ digits, d.toNat - '0'.toNat < 8) :
    Nat.ofDigitChars 8 digits 0 ≤ decimalValue digits ∧
      (Nat.ofDigitChars 8 digits 0 = decimalValue digits ↔ decimalValue digits < 8) := by
  unfold decimalValue
  induction digits using List.reverseRecOn with
  | nil => simp [Nat.ofDigitChars_nil]
  | append_singleton ds d ih =>
    obtain ⟨hle, _⟩ := ih fun e he => h e (List.mem_append_left _ he)
    have hd := h d (by simp)
    rw [ofDigitChars_concat, ofDigitChars_concat]
    omega

theorem octal_pos (h : 0 < decimalValue digits) : 0 < Nat.ofDigitChars 8 digits 0 := by
  unfold decimalValue at h
  induction digits using List.reverseRecOn with
  | nil => simp [Nat.ofDigitChars_nil] at h
  | append_singleton ds d ih =>
    rw [ofDigitChars_concat] at h ⊢
    by_cases hds : Nat.ofDigitChars 10 ds 0 = 0
    · omega
    · have := ih (Nat.pos_of_ne_zero hds)
      omega

theorem isConstant_iff : isConstant digits ↔ digits ≠ [] ∧
    ∀ d ∈ digits, Text.isAsciiDigit d ∧ d.toNat - '0'.toNat < constantBase digits := by
  simp [isConstant]

/-- A numeral means the same in C as in a source, unless it has a leading zero and more than one
octal digit behind it. -/
theorem constantValue?_eq_decimal (hne : digits ≠ []) (hd : ∀ d ∈ digits, Text.isAsciiDigit d) :
    constantValue? digits = some (decimalValue digits) ↔
      digits.head? ≠ some '0' ∨ decimalValue digits < 8 := by
  have hten : ∀ d ∈ digits, d.toNat - '0'.toNat < 10 := by
    intro d hmem
    have := Language.isAsciiDigit_toNat (hd d hmem)
    change d.toNat - 48 < 10
    omega
  have hconstant := @isConstant_iff digits
  by_cases hzero : digits.head? = some '0'
  · have hbase : constantBase digits = 8 := if_pos hzero
    unfold constantValue?
    rw [hbase] at hconstant ⊢
    by_cases hoct : ∀ d ∈ digits, d.toNat - '0'.toNat < 8
    · rw [if_pos (hconstant.mpr ⟨hne, fun d hmem => ⟨hd d hmem, hoct d hmem⟩⟩), Option.some.injEq,
        (octal_le_decimal hoct).2]
      simp [hzero]
    · rw [if_neg fun h => hoct fun d hmem => ((hconstant.mp h).2 d hmem).2]
      simp only [reduceCtorEq, hzero, ne_eq, not_true_eq_false, false_or, false_iff, Nat.not_lt]
      -- a digit eight or nine alone makes the value so great
      push Not at hoct
      obtain ⟨d, hmem, hlarge⟩ := hoct
      obtain ⟨before, after, rfl⟩ := List.append_of_mem hmem
      unfold decimalValue
      rw [Nat.ofDigitChars_append, Nat.ofDigitChars_cons, Nat.ofDigitChars_eq_ofDigitChars_zero]
      calc 8 ≤ 10 * Nat.ofDigitChars 10 before 0 + (d.toNat - '0'.toNat) := by omega
        _ ≤ 10 ^ after.length * (10 * Nat.ofDigitChars 10 before 0 + (d.toNat - '0'.toNat)) :=
          Nat.le_mul_of_pos_left _ (Nat.pow_pos (by omega))
        _ ≤ _ := Nat.le_add_right _ _
  · have hbase : constantBase digits = 10 := if_neg hzero
    unfold constantValue?
    rw [hbase] at hconstant ⊢
    rw [if_pos (hconstant.mpr ⟨hne, fun d hmem => ⟨hd d hmem, hten d hmem⟩⟩)]
    simp [hzero, decimalValue]

/-- A constant with a digit other than zero is not zero, whatever its base. -/
theorem constantValue?_pos {value : Nat} (h : constantValue? digits = some value)
    (hpos : 0 < decimalValue digits) : 0 < value := by
  unfold constantValue? at h
  split at h
  · obtain rfl := Option.some.inj h
    unfold constantBase
    split
    · exact octal_pos hpos
    · exact hpos
  · cases h

theorem trips_iff {n : Nat} (hpos : 0 < decimalValue digits) :
    Trips digits n ↔ constantValue? digits = some n ∧ n < UInt32.size := by
  constructor
  · rintro ⟨value, hvalue, hfirst⟩
    obtain ⟨rfl, hfits⟩ := (firstReached_iff (constantValue?_pos hvalue hpos)).mp hfirst
    exact ⟨hvalue, hfits⟩
  · rintro ⟨hvalue, hfits⟩
    exact ⟨n, hvalue, (firstReached_iff (constantValue?_pos hvalue hpos)).mpr ⟨rfl, hfits⟩⟩

end Digits

section Lines
variable {m : Machine} {s : Site} {t : Transition} {stem c : Text} {a : Actuation}

theorem boundLine_mem {k target : Nat} {u : Until} {overflow : Move} {name : Text}
    (h : a.change = .retry k u.bound.text overflow target name) :
    boundLine k u.bound ∈ a.lines stem := by
  rw [Actuation.lines, h]
  exact List.mem_append_right _ List.mem_cons_self

theorem durationLine_mem {timer : Timer} (h : timer ∈ a.starts) :
    durationLine stem timer ∈ a.lines stem :=
  List.mem_append_left _ (List.mem_flatMap.mpr ⟨timer, h, List.mem_cons_self⟩)

theorem written_actuation {l : Text} (h : l ∈ a.lines stem) :
    Code.indent 4 [l] <:+: writtenTransition m s t stem c a :=
  writtenTransition_holds ((List.singleton_infix_iff l _).mpr h)

end Lines
end CUnit

namespace Language

theorem Spelling.ne_nil {rest w v : Text} {k : Kind} (h : Spelling rest k w v)
    (hk : k ∈ [Kind.int, .name]) : v ≠ [] := by
  have hfragments : ∀ p ∈ Kind.fragments, p.1 ∉ [Kind.int, .name] := by decide
  cases h with
  | word hm _ =>
    obtain ⟨c, u, rfl, _⟩ := words_spelled hm
    exact List.cons_ne_nil _ _
  | mark _ | name _ _ _ _ => exact List.cons_ne_nil _ _
  | int hne _ _ => exact hne
  | fragment hm _ => exact absurd hk (hfragments _ hm)
  | eof _ => exact absurd hk (by decide)

/-- The duration of a timer is written. -/
theorem Derives.duration_ne_nil {file : Option Text} {source : Text} {p : Program}
    (h : Derives file source p) : ∀ t ∈ p.machine.timers, t.duration ≠ [] := by
  obtain ⟨ts, hsp, hform⟩ := h
  cases hform with
  | mk _ _ _ _ _ hd _ _ _ =>
    intro t ht
    obtain ⟨d, hmem, ht⟩ := List.mem_filterMap.mp ht
    obtain ⟨us, hus, hsub⟩ := hd.mem hmem
    cases hus with
    | var _ => cases ht
    | timer hus =>
      cases hus with
      | mk _ _ _ hconst _ _ =>
        cases ht
        obtain ⟨hk, _, _, hspelling⟩ := hconst.spelled hsp fun t ht => by
          have := hsub (a := t) (by simp [ht])
          simp [this]
        exact hspelling.ne_nil hk

end Language

namespace Machine
variable {m : Machine}

theorem analyzed_bound {u : Until} (hu : u ∈ m.number.resolve.untils) :
    ∃ v ∈ m.untils, v.bound = u.bound := by
  have hmem : u.bound ∈ m.untils.map Until.bound := by
    rw [← analyzed_bounds]
    exact List.mem_map_of_mem hu
  exact List.mem_map.mp hmem

end Machine

namespace Compilation
open Statewright.CUnit

/-- The numerals of an accepted program come to stand in its unit as they are. A comparison with a
bound first holds at the increment that the bound has in C, if a counter can hold that; this is the
one it has in the source exactly if the two readings of the numeral agree. The same goes for the
durations of timers. -/
theorem constants_read {file : Option Text} {source : Text} {c c' : Compilation} {p q : Program}
    (hp : parse { file } source = (c, .ok q)) (ha : c.analyze q = (c', p, .ok ())) (stem : Text) :
    (∀ s ∈ p.machine.sites, ∃ lines, stepCase p.machine stem s = .ok lines ∧
      ∀ t ∈ s.state.transitions,
        (t.action = .retry → ∃ k u, s.block = some (k, u) ∧ p.machine.untils[k]? = some u ∧
          Code.indent 8 (Code.indent 4 [boundLine k u.bound]) <:+: lines) ∧
        ∀ r ∈ t.starts, ∃ timer ∈ p.machine.timers, timer.name = r.name ∧
          Code.indent 8 (Code.indent 4 [durationLine stem timer]) <:+: lines) ∧
    (∀ u ∈ p.machine.untils, ∀ digits, u.bound = .literal digits →
      (∀ n, Trips digits n ↔ constantValue? digits = some n ∧ n < UInt32.size) ∧
      (Trips digits (decimalValue digits) ↔
        (digits.head? ≠ some '0' ∨ decimalValue digits < 8) ∧ decimalValue digits < UInt32.size)) ∧
    ∀ timer ∈ p.machine.timers, (∀ d ∈ timer.duration, Text.isAsciiDigit d) →
      (constantValue? timer.duration = some (decimalValue timer.duration) ↔
        timer.duration.head? ≠ some '0' ∨ decimalValue timer.duration < 8) := by
  obtain ⟨hd, hm, hw⟩ := analyze_accepted hp ha
  have hfits := Machine.analyzed_fits hw hd.fresh
  rw [hm]
  refine ⟨?_, ?_, ?_⟩
  · intro s hs
    obtain ⟨lines, hlines, _, _, htransitions⟩ := stepCase_holds hfits hs stem
    refine ⟨lines, hlines, fun t ht => ?_⟩
    obtain ⟨cond, a, _, hact, hwritten⟩ := htransitions t ht
    obtain ⟨a', hact', hstarts, hchange⟩ := hfits.actuations s hs t ht
    obtain rfl : a = a' := Except.ok.inj (hact.symm.trans hact')
    have hline {l : Text} (hl : l ∈ a.lines stem) :
        Code.indent 8 (Code.indent 4 [l]) <:+: lines :=
      (Code.indent_within (written_actuation hl)).trans hwritten
    refine ⟨?_, ?_⟩
    · intro hretry
      rw [hretry] at hchange
      generalize hc : a.change = change at hchange
      cases hchange with
      | retry hblock _ _ _ =>
        exact ⟨_, _, hblock, Machine.site_untils hs hblock, hline (boundLine_mem hc)⟩
    · intro r hr
      have hmem : q.machine.number.resolve.timers.filter (·.name = r.name) ∈
          a.starts.map ([·]) := by
        rw [hstarts]
        exact List.mem_map_of_mem hr
      obtain ⟨timer, htimer, he⟩ := List.mem_map.mp hmem
      have hfound : timer ∈ q.machine.number.resolve.timers.filter (·.name = r.name) := by
        rw [← he]
        exact List.mem_singleton_self timer
      obtain ⟨hdeclared, hname⟩ := List.mem_filter.mp hfound
      exact ⟨timer, hdeclared, of_decide_eq_true hname, hline (durationLine_mem htimer)⟩
  · intro u hu digits hbound
    obtain ⟨v, hv, hvu⟩ := Machine.analyzed_bound hu
    rw [hbound] at hvu
    have hpos : 0 < decimalValue digits :=
      Nat.pos_of_ne_zero fun hzero => hw (.zeroBound hv hvu hzero)
    have hdigits : ∀ d ∈ digits, Text.isAsciiDigit d := by
      have hreadable := hd.readable v hv
      rw [hvu] at hreadable
      exact hreadable
    have hne : digits ≠ [] := by
      rintro rfl
      exact Nat.lt_irrefl 0 hpos
    refine ⟨fun n => trips_iff hpos, ?_⟩
    rw [trips_iff hpos, constantValue?_eq_decimal hne hdigits]
  · intro timer ht hdigits
    exact constantValue?_eq_decimal (hd.duration_ne_nil timer ht) hdigits

/-- A machine with a bound and a duration that both begin with a zero. -/
def leadingZeroSource : Text :=
  "fsm m\x7btimer d(07);state[start,end]a\x7bon(1)go b start(d);\x7d" ++
    "until(010)\x7bstate b\x7bon(1)retry;\x7d\x7dgo a;\x7d"

theorem leadingZero_accepted : ∃ c q c' p, parse {} leadingZeroSource = (c, .ok q) ∧
    c.analyze q = (c', p, .ok ()) ∧
    (∃ u ∈ p.machine.untils, u.bound = .literal "010".toList) ∧
    ∃ timer ∈ p.machine.timers, timer.duration = "07".toList := by
  have h : accepts none leadingZeroSource (fun m =>
      m.untils.any (·.bound == .literal "010".toList) &&
        m.timers.any (·.duration == "07".toList)) = true := by
    decide +kernel
  obtain ⟨c, q, c', p, hp, ha, hm, htest⟩ := accepted h
  simp only [Bool.and_eq_true, List.any_eq_true, beq_iff_eq] at htest
  obtain ⟨⟨v, hv, hbound⟩, timer, htimer, hduration⟩ := htest
  have hmem : v.bound ∈ p.machine.untils.map Until.bound := by
    rw [hm, Machine.analyzed_bounds]
    exact List.mem_map_of_mem hv
  obtain ⟨u, hu, he⟩ := List.mem_map.mp hmem
  exact ⟨c, q, c', p, hp, ha, ⟨u, hu, he.trans hbound⟩, timer, hm ▸ htimer, hduration⟩

theorem constants_read_leading_zero : ∃ c q c' p, parse {} leadingZeroSource = (c, .ok q) ∧
    c.analyze q = (c', p, .ok ()) ∧
    (∃ u ∈ p.machine.untils, u.bound = .literal "010".toList ∧ Trips "010".toList 8) ∧
    ∃ timer ∈ p.machine.timers, timer.duration = "07".toList ∧
      constantValue? timer.duration = some 7 := by
  obtain ⟨c, q, c', p, hp, ha, ⟨u, hu, hbound⟩, timer, htimer, hduration⟩ := leadingZero_accepted
  obtain ⟨_, hbounds, htimers⟩ := constants_read hp ha []
  refine ⟨c, q, c', p, hp, ha, ⟨u, hu, hbound, ?_⟩, timer, htimer, hduration, ?_⟩
  · exact ((hbounds u hu _ hbound).1 8).mpr (by decide)
  · have hiff := htimers timer htimer
    rw [hduration] at hiff ⊢
    exact (hiff (List.all_eq_true.mp rfl)).mpr (by decide)

/-- The bound of this machine is ten for the analysis, and its overflow is taken at the eighth
try. -/
theorem bound_read_as_octal : ∃ c q c' p, parse {} leadingZeroSource = (c, .ok q) ∧
    c.analyze q = (c', p, .ok ()) ∧ ∃ u ∈ p.machine.untils, ∃ digits, u.bound = .literal digits ∧
      decimalValue digits = 10 ∧ ¬ Trips digits 10 ∧ Trips digits 8 := by
  obtain ⟨c, q, c', p, hp, ha, ⟨u, hu, hbound⟩, _⟩ := leadingZero_accepted
  have hpos : 0 < decimalValue "010".toList := by decide
  refine ⟨c, q, c', p, hp, ha, u, hu, _, hbound, by decide, ?_, ?_⟩
  · rw [trips_iff hpos]
    decide
  · rw [trips_iff hpos]
    decide

end Compilation
end Statewright
