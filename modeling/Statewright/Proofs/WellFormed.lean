import Statewright.Proofs.Annotation
import Statewright.Proofs.Parsing

namespace Statewright

def Action.jump? : Action → Option Jump
  | .jump j => some j
  | .retry => none

def Trigger.condition? : Trigger → Option Fragment
  | .when f => some f
  | .timeout _ => none

def Trigger.timer? : Trigger → Option Ref
  | .when _ => none
  | .timeout r => some r

namespace Machine

def transitions (m : Machine) : List Transition :=
  m.states.flatMap State.transitions

/-- The jumps of the transitions and those of the overflows. -/
def jumps (m : Machine) : List Jump :=
  m.transitions.filterMap (·.action.jump?) ++ m.untils.map Until.overflow

/-- The uses of timers, in timeouts and in starts. -/
def timerRefs (m : Machine) : List Ref :=
  m.transitions.flatMap fun t => t.trigger.timer?.toList ++ t.starts

def outs (m : Machine) : List Assignment :=
  m.states.flatMap State.outs

def conditions (m : Machine) : List Fragment :=
  m.transitions.filterMap (·.trigger.condition?)

/-- Entry code, code of transitions and values of outputs. -/
def code (m : Machine) : List Fragment :=
  m.states.flatMap codeOf

/-- All that can be wrong with a machine. -/
inductive IllFormed (m : Machine) : Prop
  | blankInit : v ∈ m.vars → v.init.text.allBlank → IllFormed m
  | reservedVariable : v ∈ m.vars → v.name ∈ reservedNames → IllFormed m
  | twinVariables : ¬ (m.vars.map Variable.name).Nodup → IllFormed m
  | twinTimers : ¬ (m.timers.map Timer.name).Nodup → IllFormed m
  | twinStates : ¬ (m.states.map State.name).Nodup → IllFormed m
  | stateEnding : s ∈ m.states → s.name ∈ generatedEndings → IllFormed m
  | starts : m.states.countP (·.has .start) ≠ 1 → IllFormed m
  | noEnd : (∀ s ∈ m.states, .final ∉ s.flags) → IllFormed m
  | repeatedFlag : s ∈ m.states → ¬ s.flags.Nodup → IllFormed m
  | zeroBound : u ∈ m.untils → u.bound = .literal digits → Nat.ofDigitChars 10 digits 0 = 0 →
      IllFormed m
  | emptyBlock : u ∈ m.untils → u.states = [] → IllFormed m
  | unknownState : .go r ∈ m.jumps → (∀ s ∈ m.states, s.name ≠ r.name) → IllFormed m
  | badLabel : .err r ∈ m.jumps → r.name = "none".toList ∨ r.name ∈ generatedEndings → IllFormed m
  | noErrState : .err r ∈ m.jumps → (∀ s ∈ m.states, .err ∉ s.flags) → IllFormed m
  | strayRetry : .state s ∈ m.items → t ∈ s.transitions → t.action = .retry → IllFormed m
  | unknownTimer : r ∈ m.timerRefs → (∀ t ∈ m.timers, t.name ≠ r.name) → IllFormed m
  | blankOut : a ∈ m.outs → a.value.text.allBlank → IllFormed m
  | notOutput : a ∈ m.outs → (∀ v ∈ m.vars, v.name = a.name → v.family ≠ .output) → IllFormed m
  | blankCondition : f ∈ m.conditions → f.text.allBlank → IllFormed m
  | outputRead : f ∈ m.conditions → (i, v.name) ∈ Code.references f.text → v ∈ m.vars →
      v.family = .output → IllFormed m
  | hidden : f ∈ m.code → (i, v.name) ∈ Code.declarations f.text → v ∈ m.vars → IllFormed m

end Machine

/-- There is an error among the findings. -/
def Flawed (fs : List Finding) : Prop :=
  ∃ f ∈ fs, f.issue.severity = .error

attribute [simp] Issue.severity

section Flawed
variable {α : Type}

@[simp] theorem flawed_nil : ¬ Flawed [] := by
  simp [Flawed]

@[simp] theorem flawed_singleton {f : Finding} : Flawed [f] ↔ f.issue.severity = .error := by
  simp [Flawed]

@[simp] theorem flawed_append {fs gs : List Finding} :
    Flawed (fs ++ gs) ↔ Flawed fs ∨ Flawed gs := by
  simp [Flawed, or_and_right, exists_or]

@[simp] theorem flawed_flatMap {xs : List α} {check : α → List Finding} :
    Flawed (xs.flatMap check) ↔ ∃ x ∈ xs, Flawed (check x) := by
  constructor
  · rintro ⟨f, hf, he⟩
    obtain ⟨x, hx, hf⟩ := List.mem_flatMap.mp hf
    exact ⟨x, hx, f, hf, he⟩
  · rintro ⟨x, hx, f, hf, he⟩
    exact ⟨f, List.mem_flatMap.mpr ⟨x, hx, hf⟩, he⟩

@[simp] theorem flawed_map {xs : List α} {finding : α → Finding} :
    Flawed (xs.map finding) ↔ ∃ x ∈ xs, (finding x).issue.severity = .error := by
  constructor
  · rintro ⟨f, hf, he⟩
    obtain ⟨x, hx, rfl⟩ := List.mem_map.mp hf
    exact ⟨x, hx, he⟩
  · rintro ⟨x, hx, he⟩
    exact ⟨finding x, List.mem_map_of_mem hx, he⟩

/-- A finding that is made if a test succeeds. -/
@[simp] theorem flawed_ite {test : Prop} [Decidable test] {f : Finding} :
    Flawed (if test then [f] else []) ↔ test ∧ f.issue.severity = .error := by
  split <;> simp_all

@[simp] theorem flawed_unless {test : Prop} [Decidable test] {f : Finding} :
    Flawed (if test then [] else [f]) ↔ ¬ test ∧ f.issue.severity = .error := by
  split <;> simp_all

theorem named_of_find? {name : α → Text} {earlier : List α} {n : Text} {y : α}
    (h : earlier.find? (fun y => name y = n) = some y) : ∃ y ∈ earlier, name y = n :=
  ⟨y, List.mem_of_find?_eq_some h, by simpa using List.find?_some h⟩

/-- A survey finds what the check finds of some member, given those before it. -/
theorem flawed_survey {check : List α → α → List Finding} {earlier xs : List α} :
    Flawed (survey check earlier xs) ↔
      ∃ before x after, xs = before ++ x :: after ∧ Flawed (check (earlier ++ before) x) := by
  induction xs generalizing earlier with
  | nil => simp [survey]
  | cons y ys ih =>
    rw [survey, flawed_append, ih]
    constructor
    · rintro (h | ⟨before, x, after, rfl, h⟩)
      · exact ⟨[], y, ys, rfl, by simpa using h⟩
      · exact ⟨y :: before, x, after, rfl, by simpa using h⟩
    · rintro ⟨before, x, after, he, h⟩
      cases before with
      | nil =>
        cases he
        exact .inl (by simpa using h)
      | cons z before =>
        cases he
        exact .inr ⟨before, x, after, rfl, by simpa using h⟩

/-- Values are not distinct exactly if one of them comes again. -/
theorem not_nodup_iff {β : Type} {value : α → β} {xs : List α} :
    ¬ (xs.map value).Nodup ↔
      ∃ before x after, xs = before ++ x :: after ∧ ∃ y ∈ before, value y = value x := by
  induction xs with
  | nil => simp
  | cons z zs ih =>
    rw [List.map_cons, List.nodup_cons, Classical.not_and_iff_not_or_not, Classical.not_not, ih]
    constructor
    · rintro (h | ⟨before, x, after, rfl, y, hy, he⟩)
      · obtain ⟨x, hx, he⟩ := List.mem_map.mp h
        obtain ⟨before, after, rfl⟩ := List.append_of_mem hx
        exact ⟨z :: before, x, after, rfl, z, by simp, he.symm⟩
      · exact ⟨z :: before, x, after, rfl, y, by simp [hy], he⟩
    · rintro ⟨before, x, after, he, y, hy, hv⟩
      cases before with
      | nil => cases hy
      | cons w before =>
        cases he
        rcases List.mem_cons.mp hy with rfl | hy
        · exact .inl (List.mem_map.mpr ⟨x, by simp, hv.symm⟩)
        · exact .inr ⟨before, x, after, rfl, y, hy, hv⟩

/-- A survey that finds the bad members, and those whose value was there before. -/
theorem flawed_survey_iff {β : Type} (value : α → β) (bad : α → Prop) {xs : List α}
    {check : List α → α → List Finding}
    (h : ∀ earlier x, Flawed (check earlier x) ↔ bad x ∨ ∃ y ∈ earlier, value y = value x) :
    Flawed (survey check [] xs) ↔ (∃ x ∈ xs, bad x) ∨ ¬ (xs.map value).Nodup := by
  rw [flawed_survey, not_nodup_iff]
  simp only [List.nil_append, h]
  constructor
  · rintro ⟨before, x, after, rfl, hb | hy⟩
    · exact .inl ⟨x, by simp, hb⟩
    · exact .inr ⟨before, x, after, rfl, hy⟩
  · rintro (⟨x, hx, hb⟩ | ⟨before, x, after, rfl, hy⟩)
    · obtain ⟨before, after, rfl⟩ := List.append_of_mem hx
      exact ⟨before, x, after, rfl, .inl hb⟩
    · exact ⟨before, x, after, rfl, .inr hy⟩

end Flawed

namespace Bound

/-- The value of a numeral is zero if it has no other digit. -/
theorem ofDigitChars_eq_zero {digits : Text} (h : ∀ d ∈ digits, Text.isAsciiDigit d) :
    Nat.ofDigitChars 10 digits 0 = 0 ↔ digits.all (· == '0') := by
  induction digits with
  | nil => simp
  | cons d ds ih =>
    obtain ⟨hlow, _⟩ := Language.isAsciiDigit_toNat (h d (by simp))
    have hzero : d.toNat - '0'.toNat = 0 ↔ d = '0' := by
      rw [← Char.toNat_inj]
      change d.toNat - 48 = 0 ↔ d.toNat = 48
      omega
    rw [Nat.ofDigitChars_cons, Nat.ofDigitChars_eq_ofDigitChars_zero]
    simp only [Nat.mul_zero, Nat.zero_add, Nat.add_eq_zero_iff, List.all_cons, Bool.and_eq_true]
    rw [ih fun e he => h e (by simp [he]), Nat.mul_eq_zero, hzero]
    simp

/-- A bound as a source can have it: a literal is a numeral and a name is not. -/
def Readable : Bound → Prop
  | literal digits => ∀ d ∈ digits, Text.isAsciiDigit d
  | named name => ∃ c ∈ name, Text.isAsciiDigit c = false

theorem isZero_iff {b : Bound} (h : b.Readable) :
    b.isZero ↔ ∃ digits, b = .literal digits ∧ Nat.ofDigitChars 10 digits 0 = 0 := by
  cases b with
  | named name => simp [isZero]
  | literal digits => simp [isZero, ofDigitChars_eq_zero h]

end Bound

namespace Machine
variable {m : Machine}

theorem flawed_checkVariable (earlier : List Variable) (v : Variable) :
    Flawed (checkVariable earlier v) ↔
      (v.init.text.allBlank ∨ v.name ∈ reservedNames) ∨ ∃ y ∈ earlier, y.name = v.name := by
  unfold checkVariable
  rw [flawed_append, flawed_ite, or_assoc]
  simp only [Issue.severity, and_true]
  refine or_congr_right ?_
  split
  · rename_i hr
    simp [List.contains_iff_mem.mp hr]
  · rename_i hr
    have hr : v.name ∉ reservedNames := by simpa using hr
    split
    · rename_i y hy
      simp only [flawed_singleton, Issue.severity, true_iff]
      exact .inr (named_of_find? hy)
    · rename_i hy
      simpa [hr] using hy

theorem flawed_checkTimer (earlier : List Timer) (t : Timer) :
    Flawed (checkTimer earlier t) ↔ False ∨ ∃ y ∈ earlier, y.name = t.name := by
  unfold checkTimer
  split
  · rename_i y hy
    simp only [flawed_singleton, Issue.severity, true_iff]
    exact .inr (named_of_find? hy)
  · rename_i hy
    simpa using hy

theorem flawed_checkStateName (earlier : List State) (s : State) :
    Flawed (m.checkStateName earlier s) ↔
      s.name ∈ generatedEndings ∨ ∃ y ∈ earlier, y.name = s.name := by
  unfold checkStateName
  split
  · rename_i y hy
    simp only [flawed_singleton, Issue.severity, true_iff]
    exact .inr (named_of_find? hy)
  · rename_i hy
    have hy : ∀ y ∈ earlier, y.name ≠ s.name := by simpa using hy
    rw [flawed_ite, List.contains_iff_mem]
    simp only [Issue.severity, and_true]
    constructor
    · exact .inl
    · rintro (h | ⟨y, hmem, he⟩)
      · exact h
      · exact absurd he (hy y hmem)

theorem flawed_checkStarts : Flawed m.checkStarts ↔ m.states.countP (·.has .start) ≠ 1 := by
  unfold checkStarts
  rw [List.countP_eq_length_filter]
  split
  · rename_i he
    simp [he]
  · rename_i first others he
    rw [he, flawed_map]
    cases others <;> simp

theorem flawed_checkEnds : Flawed m.checkEnds ↔ ∀ s ∈ m.states, .final ∉ s.flags := by
  unfold checkEnds
  rw [flawed_unless]
  simp [State.has]

/-- More than one state for errors is odd but no error. -/
theorem flawed_checkErrs : ¬ Flawed m.checkErrs := by
  unfold checkErrs
  split
  · exact flawed_nil
  · rw [flawed_map]
    simp

theorem flawed_checkFlags (s : State) : Flawed (checkFlags s) ↔ ¬ s.flags.Nodup := by
  unfold checkFlags
  rw [flawed_survey_iff id fun _ => False]
  · simp
  · intro earlier flag
    rw [flawed_ite, List.contains_iff_mem]
    simp

theorem flawed_checkBlock (u : Until) :
    Flawed (checkBlock u) ↔ u.bound.isZero ∨ u.states = [] := by
  unfold checkBlock
  rw [flawed_append, flawed_ite, flawed_ite]
  simp

theorem flawed_checkTimerRef (r : Ref) :
    Flawed (m.checkTimerRef r) ↔ ∀ t ∈ m.timers, t.name ≠ r.name := by
  unfold checkTimerRef timerNumber?
  rw [flawed_unless]
  simp

theorem flawed_checkLabel (r : Ref) :
    Flawed (m.checkLabel r) ↔ r.name = "none".toList ∨ r.name ∈ generatedEndings := by
  unfold checkLabel
  split
  · simp_all
  · rw [flawed_ite, List.contains_iff_mem]
    simp_all

/-- What is wrong with a jump. -/
def BadJump (m : Machine) : Jump → Prop
  | .go r => ∀ s ∈ m.states, s.name ≠ r.name
  | .err r =>
    (r.name = "none".toList ∨ r.name ∈ generatedEndings) ∨ ∀ s ∈ m.states, .err ∉ s.flags

theorem flawed_checkJump (j : Jump) : Flawed (m.checkJump j) ↔ m.BadJump j := by
  cases j with
  | go r =>
    unfold checkJump stateNumber? BadJump
    rw [flawed_unless]
    simp
  | err r =>
    unfold checkJump flagged? BadJump
    rw [flawed_append, flawed_checkLabel, flawed_unless]
    simp [State.has]

theorem flawed_checkTransition (nested : Bool) (t : Transition) :
    Flawed (m.checkTransition nested t) ↔
      (∃ j, t.action.jump? = some j ∧ m.BadJump j) ∨ (t.action = .retry ∧ nested = false) ∨
        ∃ r ∈ t.trigger.timer?.toList ++ t.starts, ∀ x ∈ m.timers, x.name ≠ r.name := by
  unfold checkTransition
  simp only [flawed_append, flawed_flatMap, flawed_checkTimerRef, List.mem_append, or_and_right,
    exists_or]
  cases t.action with
  | jump j =>
    cases t.trigger <;>
      simp [flawed_checkJump, flawed_checkTimerRef, Action.jump?, Trigger.timer?, or_assoc]
  | retry =>
    cases t.trigger <;>
      simp [flawed_checkTimerRef, Action.jump?, Trigger.timer?, or_assoc]

theorem flawed_checkOut (a : Assignment) :
    Flawed (m.checkOut a) ↔
      a.value.text.allBlank ∨ ∀ v, m.declared? a.name = some v → v.family ≠ .output := by
  unfold checkOut
  rw [flawed_append, flawed_ite]
  cases m.declared? a.name <;> simp

theorem flawed_checkCondition (t : Transition) :
    Flawed (m.checkCondition t) ↔
      ∃ f, t.trigger.condition? = some f ∧
        (f.text.allBlank ∨ ∃ u ∈ m.uses f.text, u.2.family = .output) := by
  unfold checkCondition
  cases t.trigger with
  | timeout r => simp [Trigger.condition?]
  | when f =>
    rw [flawed_append, flawed_ite, flawed_map]
    simp [Trigger.condition?]

theorem flawed_checkCode (f : Fragment) : Flawed (m.checkCode f) ↔ ∃ u, u ∈ m.hides f.text := by
  unfold checkCode
  rw [flawed_map]
  simp

theorem flawed_checkItems :
    Flawed m.checkItems ↔
      (∃ s ∈ m.sites, Flawed (m.checkState s.block.isSome s.state)) ∨
        ∃ u ∈ m.untils, m.BadJump u.overflow := by
  have h (k : Nat) (items : List Item) : Flawed (items.flatMap m.checkItem) ↔
      (∃ s ∈ sitesFrom k items, Flawed (m.checkState s.block.isSome s.state)) ∨
        ∃ u ∈ items.filterMap Item.until?, m.BadJump u.overflow := by
    fun_induction sitesFrom k items with
    | case1 k => simp
    | case2 k s items ih =>
      rw [List.flatMap_cons, flawed_append, ih]
      simp [checkItem, Item.until?, or_assoc]
    | case3 k u items ih =>
      rw [List.flatMap_cons, flawed_append, ih, checkItem, flawed_append, flawed_flatMap,
        flawed_checkJump]
      simp [Item.until?, or_and_right, exists_or]
      grind
  exact h 0 m.items

theorem flawed_checkState (nested : Bool) (s : State) :
    Flawed (m.checkState nested s) ↔
      (∃ t ∈ s.transitions, Flawed (m.checkTransition nested t)) ∨
        (∃ a ∈ s.outs, Flawed (m.checkOut a)) ∨
        (∃ t ∈ s.transitions, Flawed (m.checkCondition t)) ∨
        ∃ f ∈ codeOf s, Flawed (m.checkCode f) := by
  unfold checkState
  simp only [flawed_append, flawed_flatMap, or_assoc]

theorem declared?_some {name : Text} {v : Variable} (h : m.declared? name = some v) :
    v ∈ m.vars ∧ v.name = name := by
  unfold declared? at h
  split at h
  · cases h
  · exact ⟨List.mem_of_find?_eq_some h, by simpa using List.find?_some h⟩

/-- The names of the variables can be told apart and are free to be used. -/
structure Named (m : Machine) : Prop where
  distinct : (m.vars.map Variable.name).Nodup
  free : ∀ v ∈ m.vars, v.name ∉ reservedNames

theorem named_or_not (m : Machine) :
    m.Named ∨ (∃ v ∈ m.vars, v.name ∈ reservedNames) ∨ ¬ (m.vars.map Variable.name).Nodup := by
  by_cases hd : (m.vars.map Variable.name).Nodup
  · by_cases hf : ∃ v ∈ m.vars, v.name ∈ reservedNames
    · exact .inr (.inl hf)
    · exact .inl ⟨hd, fun v hv hr => hf ⟨v, hv, hr⟩⟩
  · exact .inr (.inr hd)

/-- Under such names each variable is what its name stands for. -/
theorem Named.declared? (h : m.Named) {v : Variable} (hv : v ∈ m.vars) :
    m.declared? v.name = some v := by
  have hfree : reservedNames.contains v.name = false := by
    simpa using h.free v hv
  rw [Machine.declared?, hfree, if_neg Bool.false_ne_true]
  obtain ⟨before, after, he⟩ := List.append_of_mem hv
  have hd := h.distinct
  rw [he, List.map_append, List.map_cons, List.nodup_append] at hd
  have hn : before.find? (fun w => decide (w.name = v.name)) = none := by
    rw [List.find?_eq_none]
    intro w hw
    have hne := hd.2.2 w.name (List.mem_map_of_mem hw) v.name (by simp)
    simpa using hne
  simp [he, List.find?_append, hn]

/-- The names of a code that stand for variables. -/
theorem mem_declared {names : List (Nat × Text)} {i : Nat} {v : Variable} :
    (i, v) ∈ names.filterMap (fun r => (m.declared? r.2).map (r.1, ·)) ↔
      ∃ name, (i, name) ∈ names ∧ m.declared? name = some v := by
  simp only [List.mem_filterMap, Option.map_eq_some_iff, Prod.exists, Prod.mk.injEq]
  constructor
  · rintro ⟨_, name, hr, _, hd, rfl, rfl⟩
    exact ⟨name, hr, hd⟩
  · rintro ⟨name, hr, hd⟩
    exact ⟨i, name, hr, v, hd, rfl, rfl⟩

theorem state_of_site {s : Site} (h : s ∈ m.sites) : s.state ∈ m.states := by
  rw [← sites_states]
  exact List.mem_map_of_mem h

/-- A state without a block around it is an item of its own. -/
theorem lone_site {s : State} : ⟨s, none⟩ ∈ m.sites ↔ .state s ∈ m.items := by
  have h (k : Nat) (items : List Item) : ⟨s, none⟩ ∈ sitesFrom k items ↔ .state s ∈ items := by
    fun_induction sitesFrom k items with
    | case1 k => simp
    | case2 k t items ih => simp [ih]
    | case3 k u items ih => simp [ih]
  exact h 0 m.items

theorem transition_of_site {s : Site} {t : Transition} (h : s ∈ m.sites)
    (ht : t ∈ s.state.transitions) : t ∈ m.transitions :=
  List.mem_flatMap.mpr ⟨s.state, state_of_site h, ht⟩

theorem BadJump.illFormed {j : Jump} (hj : j ∈ m.jumps) (h : m.BadJump j) : IllFormed m := by
  cases j with
  | go r => exact .unknownState hj h
  | err r =>
    rcases h with h | h
    · exact .badLabel hj h
    · exact .noErrState hj h

theorem illFormed_of_transition {s : Site} {t : Transition} (hs : s ∈ m.sites)
    (ht : t ∈ s.state.transitions) (h : Flawed (m.checkTransition s.block.isSome t)) :
    IllFormed m := by
  have hmem := transition_of_site hs ht
  rcases (flawed_checkTransition _ t).mp h with ⟨j, hj, hbad⟩ | ⟨hr, hn⟩ | ⟨r, hr, hbad⟩
  · have hj : j ∈ m.jumps := List.mem_append_left _ (List.mem_filterMap.mpr ⟨t, hmem, hj⟩)
    exact hbad.illFormed hj
  · obtain ⟨state, block⟩ := s
    cases block with
    | none => exact .strayRetry (lone_site.mp hs) ht hr
    | some b => cases hn
  · exact .unknownTimer (List.mem_flatMap.mpr ⟨t, hmem, hr⟩) hbad

/-- What the checks of the uses find is wrong, if the variables have good names. -/
theorem illFormed_of_items (hn : m.Named) (h : Flawed m.checkItems) : IllFormed m := by
  rcases flawed_checkItems.mp h with ⟨s, hs, h⟩ | ⟨u, hu, hbad⟩
  · have hstate := state_of_site hs
    rcases (flawed_checkState _ _).mp h with ⟨t, ht, h⟩ | ⟨a, ha, h⟩ | ⟨t, ht, h⟩ | ⟨f, hf, h⟩
    · exact illFormed_of_transition hs ht h
    · have hmem : a ∈ m.outs := List.mem_flatMap.mpr ⟨s.state, hstate, ha⟩
      rcases (flawed_checkOut a).mp h with h | h
      · exact .blankOut hmem h
      · exact .notOutput hmem fun v hv he => h v (he ▸ hn.declared? hv)
    · obtain ⟨f, hf, h⟩ := (flawed_checkCondition t).mp h
      have hmem : f ∈ m.conditions := List.mem_filterMap.mpr ⟨t, transition_of_site hs ht, hf⟩
      rcases h with h | ⟨⟨i, v⟩, hu, ho⟩
      · exact .blankCondition hmem h
      · obtain ⟨name, hr, hd⟩ := mem_declared.mp hu
        obtain ⟨hv, rfl⟩ := declared?_some hd
        exact .outputRead hmem hr hv ho
    · obtain ⟨⟨i, v⟩, hu⟩ := (flawed_checkCode f).mp h
      obtain ⟨name, hr, hd⟩ := mem_declared.mp hu
      obtain ⟨hv, rfl⟩ := declared?_some hd
      exact .hidden (List.mem_flatMap.mpr ⟨s.state, hstate, hf⟩) hr hv
  · exact hbad.illFormed (List.mem_append_right _ (List.mem_map_of_mem hu))

theorem flawed_of_state {s : State} (hs : s ∈ m.states)
    (h : ∀ nested, Flawed (m.checkState nested s)) : Flawed m.checkItems := by
  rw [← sites_states] at hs
  obtain ⟨site, hsite, rfl⟩ := List.mem_map.mp hs
  exact flawed_checkItems.mpr (.inl ⟨site, hsite, h _⟩)

theorem flawed_of_transition {t : Transition} (ht : t ∈ m.transitions)
    (h : ∀ nested, Flawed (m.checkTransition nested t)) : Flawed m.checkItems := by
  obtain ⟨s, hs, ht⟩ := List.mem_flatMap.mp ht
  exact flawed_of_state hs fun nested => (flawed_checkState nested s).mpr (.inl ⟨t, ht, h nested⟩)

theorem flawed_of_jump {j : Jump} (hj : j ∈ m.jumps) (h : m.BadJump j) : Flawed m.checkItems := by
  rcases List.mem_append.mp hj with hj | hj
  · obtain ⟨t, ht, hj⟩ := List.mem_filterMap.mp hj
    exact flawed_of_transition ht fun nested =>
      (flawed_checkTransition nested t).mpr (.inl ⟨j, hj, h⟩)
  · obtain ⟨u, hu, rfl⟩ := List.mem_map.mp hj
    exact flawed_checkItems.mpr (.inr ⟨u, hu, h⟩)

theorem flawed_of_condition {f : Fragment} (hf : f ∈ m.conditions)
    (h : f.text.allBlank ∨ ∃ u ∈ m.uses f.text, u.2.family = .output) : Flawed m.checkItems := by
  obtain ⟨t, ht, hf⟩ := List.mem_filterMap.mp hf
  obtain ⟨s, hs, ht⟩ := List.mem_flatMap.mp ht
  refine flawed_of_state hs fun nested => (flawed_checkState nested s).mpr ?_
  exact .inr (.inr (.inl ⟨t, ht, (flawed_checkCondition t).mpr ⟨f, hf, h⟩⟩))

theorem flawed_of_out {a : Assignment} (ha : a ∈ m.outs)
    (h : a.value.text.allBlank ∨ ∀ v, m.declared? a.name = some v → v.family ≠ .output) :
    Flawed m.checkItems := by
  obtain ⟨s, hs, ha⟩ := List.mem_flatMap.mp ha
  refine flawed_of_state hs fun nested => (flawed_checkState nested s).mpr ?_
  exact .inr (.inl ⟨a, ha, (flawed_checkOut a).mpr h⟩)

theorem flawed_of_code {f : Fragment} {u : Nat × Variable} (hf : f ∈ m.code)
    (h : u ∈ m.hides f.text) : Flawed m.checkItems := by
  obtain ⟨s, hs, hf⟩ := List.mem_flatMap.mp hf
  refine flawed_of_state hs fun nested => (flawed_checkState nested s).mpr ?_
  exact .inr (.inr (.inr ⟨f, hf, (flawed_checkCode f).mpr ⟨u, h⟩⟩))

/-- What the checks of the declarations find. -/
theorem flawed_checkDeclarations (hlong : ∀ u ∈ m.untils, u.bound.isLong = false) :
    Flawed m.checkDeclarations ↔
      ((∃ v ∈ m.vars, v.init.text.allBlank ∨ v.name ∈ reservedNames) ∨
          ¬ (m.vars.map Variable.name).Nodup) ∨
        ¬ (m.timers.map Timer.name).Nodup ∨
        ((∃ s ∈ m.states, s.name ∈ generatedEndings) ∨ ¬ (m.states.map State.name).Nodup) ∨
        m.states.countP (·.has .start) ≠ 1 ∨ (∀ s ∈ m.states, .final ∉ s.flags) ∨
        (∃ s ∈ m.states, ¬ s.flags.Nodup) ∨ ∃ u ∈ m.untils, u.bound.isZero ∨ u.states = [] := by
  have hall : m.untils.takeWhile (!·.bound.isLong) = m.untils := by
    have h : ∀ u ∈ m.untils, (!u.bound.isLong) = true := by simpa using hlong
    simpa using @List.takeWhile_append_of_pos _ _ m.untils [] h
  unfold checkDeclarations
  rw [hall]
  simp only [flawed_append, flawed_flatMap, flawed_survey_iff _ _ flawed_checkVariable,
    flawed_survey_iff _ _ flawed_checkTimer, flawed_survey_iff _ _ (flawed_checkStateName (m := m)),
    flawed_checkStarts, flawed_checkEnds, flawed_checkErrs, flawed_checkFlags, flawed_checkBlock,
    and_false, exists_false, false_or, or_false, or_assoc]

/-- The checks find an error exactly if something is wrong. -/
theorem flawed_iff (hd : ∀ u ∈ m.untils, u.bound.Readable)
    (hlong : ∀ u ∈ m.untils, u.bound.isLong = false) :
    Flawed (m.checkDeclarations ++ m.checkItems) ↔ IllFormed m := by
  rw [flawed_append, flawed_checkDeclarations hlong]
  constructor
  · rintro (((⟨v, hv, h | h⟩ | h) | h | (⟨s, hs, h⟩ | h) | h | h | ⟨s, hs, h⟩ | ⟨u, hu, h | h⟩) | h)
    · exact .blankInit hv h
    · exact .reservedVariable hv h
    · exact .twinVariables h
    · exact .twinTimers h
    · exact .stateEnding hs h
    · exact .twinStates h
    · exact .starts h
    · exact .noEnd h
    · exact .repeatedFlag hs h
    · obtain ⟨digits, hb, hz⟩ := (Bound.isZero_iff (hd u hu)).mp h
      exact .zeroBound hu hb hz
    · exact .emptyBlock hu h
    · rcases named_or_not m with hn | ⟨v, hv, hr⟩ | hn
      · exact illFormed_of_items hn h
      · exact .reservedVariable hv hr
      · exact .twinVariables hn
  · intro h
    -- only with good names is a variable in a fragment sure to be the one that is meant
    rcases named_or_not m with hn | ⟨v, hv, hr⟩ | hn
    · cases h with
      | blankInit hv h => exact .inl (.inl (.inl ⟨_, hv, .inl h⟩))
      | reservedVariable hv h => exact .inl (.inl (.inl ⟨_, hv, .inr h⟩))
      | twinVariables h => exact .inl (.inl (.inr h))
      | twinTimers h => exact .inl (.inr (.inl h))
      | twinStates h => exact .inl (.inr (.inr (.inl (.inr h))))
      | stateEnding hs h => exact .inl (.inr (.inr (.inl (.inl ⟨_, hs, h⟩))))
      | starts h => exact .inl (.inr (.inr (.inr (.inl h))))
      | noEnd h => exact .inl (.inr (.inr (.inr (.inr (.inl h)))))
      | repeatedFlag hs h => exact .inl (.inr (.inr (.inr (.inr (.inr (.inl ⟨_, hs, h⟩))))))
      | zeroBound hu hb h =>
        have hz := (Bound.isZero_iff (hd _ hu)).mpr ⟨_, hb, h⟩
        exact .inl (.inr (.inr (.inr (.inr (.inr (.inr ⟨_, hu, .inl hz⟩))))))
      | emptyBlock hu h => exact .inl (.inr (.inr (.inr (.inr (.inr (.inr ⟨_, hu, .inr h⟩))))))
      | unknownState hj h => exact .inr (flawed_of_jump hj h)
      | badLabel hj h => exact .inr (flawed_of_jump hj (.inl h))
      | noErrState hj h => exact .inr (flawed_of_jump hj (.inr h))
      | strayRetry hs ht h =>
        have hf := (flawed_checkTransition (m := m) false _).mpr (.inr (.inl ⟨h, rfl⟩))
        have hf := (flawed_checkState _ _).mpr (.inl ⟨_, ht, hf⟩)
        exact .inr (flawed_checkItems.mpr (.inl ⟨_, lone_site.mpr hs, hf⟩))
      | unknownTimer hr h =>
        obtain ⟨t, ht, hr⟩ := List.mem_flatMap.mp hr
        refine .inr (flawed_of_transition ht fun nested => ?_)
        exact (flawed_checkTransition nested t).mpr (.inr (.inr ⟨_, hr, h⟩))
      | blankOut ha h => exact .inr (flawed_of_out ha (.inl h))
      | notOutput ha h =>
        refine .inr (flawed_of_out ha (.inr fun v hv => ?_))
        obtain ⟨hmem, he⟩ := declared?_some hv
        exact h v hmem he
      | blankCondition hf h => exact .inr (flawed_of_condition hf (.inl h))
      | outputRead hf hr hv h =>
        have hu := mem_declared.mpr ⟨_, hr, hn.declared? hv⟩
        exact .inr (flawed_of_condition hf (.inr ⟨_, hu, h⟩))
      | hidden hf hr hv =>
        have hu := mem_declared.mpr ⟨_, hr, hn.declared? hv⟩
        exact .inr (flawed_of_code hf hu)
    · exact .inl (.inl (.inl ⟨v, hv, .inr hr⟩))
    · exact .inl (.inl (.inr hn))

end Machine

namespace Language

/-- Integers and names, and only they, are not spelled by a table, so neither can be the other. -/
theorem Spelling.readable {rest w v : Text} {k : Kind} (h : Spelling rest k w v)
    (hk : k ∈ [Kind.int, .name]) :
    (if k = .int then Bound.literal v else .named v).Readable := by
  have hwords : ∀ p ∈ Kind.words, p.2 ∉ [Kind.int, .name] := by decide
  have hmarks : ∀ p ∈ Kind.marks, p.2 ∉ [Kind.int, .name] := by decide
  have hfragments : ∀ p ∈ Kind.fragments, p.1 ∉ [Kind.int, .name] := by decide
  cases h with
  | word hm _ => exact absurd hk (hwords _ hm)
  | mark hm => exact absurd hk (hmarks _ hm)
  | fragment hm _ => exact absurd hk (hfragments _ hm)
  | eof _ => exact absurd hk (by decide)
  | int _ hd _ => exact hd
  | @name c w hc _ _ _ =>
    refine ⟨c, by simp, Bool.eq_false_iff.mpr fun hd => ?_⟩
    have h₁ := isNameStart_toNat hc
    have h₂ := isAsciiDigit_toNat hd
    omega

theorem Spelled.mem {source : Text} {n : Nat} {ts : List Token} (h : Spelled source n ts)
    {t : Token} (ht : t ∈ ts) : ∃ rest w, Spelling rest t.kind w t.text := by
  induction h with
  | nil => cases ht
  | cons _ _ hs _ ih =>
    rcases List.mem_cons.mp ht with rfl | ht
    · exact ⟨_, _, hs⟩
    · exact ih ht

theorem ConstantForm.spelled {source : Text} {n : Nat} {ts us : List Token} {t : Token}
    (h : ConstantForm us t) (hs : Spelled source n ts) (hsub : us ⊆ ts) :
    t.kind ∈ [Kind.int, .name] ∧ ∃ rest w, Spelling rest t.kind w t.text := by
  have ht : t ∈ us ∧ t.kind ∈ [Kind.int, .name] := by
    cases h with
    | int hk | name hk => simp [hk]
  exact ⟨ht.2, hs.mem (hsub ht.1)⟩

theorem ConstantForm.readable {source : Text} {n : Nat} {ts us : List Token} {t : Token}
    (h : ConstantForm us t) (hs : Spelled source n ts) (hsub : us ⊆ ts) :
    (boundOf t).Readable := by
  obtain ⟨hk, _, _, hsp⟩ := h.spelled hs hsub
  exact hsp.readable hk

theorem Derives.readable {file : Option Text} {source : Text} {p : Program}
    (h : Derives file source p) : ∀ u ∈ p.machine.untils, u.bound.Readable := by
  obtain ⟨ts, hsp, hform⟩ := h
  cases hform with
  | mk _ _ _ _ _ _ hi _ _ =>
    intro u hu
    obtain ⟨i, hmem, hu⟩ := List.mem_filterMap.mp hu
    obtain ⟨us, h, hsub⟩ := hi.mem hmem
    cases h with
    | state _ => cases hu
    | block h =>
      cases h with
      | mk _ _ hd _ _ _ _ _ _ =>
        cases hu
        refine hd.readable hsp fun t ht => ?_
        have := hsub (a := t) (by simp [ht])
        simp [this]

end Language

namespace Analysis

/-- That a state cannot be reached is no error. -/
theorem flawed_unreachable (m : Machine) : ¬ Flawed (unreachable m) := by
  unfold unreachable
  cases m.start with
  | none => exact flawed_nil
  | some start =>
    rw [flawed_map]
    simp

/-- An analysis that nothing cuts short. -/
theorem run_of_fresh {m : Machine} (h : m.Fresh) (hlong : ∀ u ∈ m.untils, u.bound.isLong = false) :
    run m = ⟨m.number.resolve,
      (m.checkDeclarations ++ m.checkItems) ++ unreachable m.number.resolve, none⟩ := by
  have hany : m.untils.any (·.bound.isLong) = false := by simpa using hlong
  have hstray : m.number.resolve.start.any m.number.resolve.strays = false := by
    cases m.number.resolve.start <;> simp [h.strays]
  simp only [run, hany, hstray, Bool.false_eq_true, ↓reduceIte]

end Analysis

namespace Compilation
open Statewright.Language

theorem isLong_eq_false {b : Bound} :
    b.isLong = false ↔ ∀ digits, b = .literal digits → digits.length ≤ digitLimit := by
  cases b <;> simp [Bound.isLong]

theorem finding_isError (f : Finding) (file : Option Text) :
    (f.diagnostic file).isError = true ↔ f.issue.severity = .error :=
  decide_eq_true_iff

theorem reported_error (fs : List Finding) (file : Option Text) :
    (∃ d ∈ fs.map (·.diagnostic file), d.isError = true) ↔ Flawed fs := by
  constructor
  · rintro ⟨d, hd, he⟩
    obtain ⟨f, hf, rfl⟩ := List.mem_map.mp hd
    exact ⟨f, hf, (finding_isError f file).mp he⟩
  · rintro ⟨f, hf, he⟩
    exact ⟨_, List.mem_map_of_mem hf, (finding_isError f file).mpr he⟩

theorem severity_cases (i : Issue) : i.severity = .error ∨ i.severity = .warning := by
  cases i <;> simp

theorem report_all (fs : List Finding) (c : Compilation) :
    (fs.foldl (fun c f => c.report (f.diagnostic c.file)) c).file = c.file ∧
    (fs.foldl (fun c f => c.report (f.diagnostic c.file)) c).diagnostics =
      c.diagnostics ++ fs.map (·.diagnostic c.file) := by
  induction fs generalizing c with
  | nil => simp
  | cons f fs ih =>
    obtain ⟨hfile, hd⟩ := ih (c.report (f.diagnostic c.file))
    refine ⟨hfile, ?_⟩
    rw [List.foldl_cons, hd, List.map_cons]
    simp [report, note]

/-- What an analysis of a fresh machine reports, and whether it succeeds. -/
theorem analyze_of_fresh {c : Compilation} {p : Program} (hc : c.diagnostics = [])
    (h : p.machine.Fresh) (hd : ∀ u ∈ p.machine.untils, u.bound.Readable)
    (hlong : ∀ u ∈ p.machine.untils, u.bound.isLong = false) :
    (c.analyze p).2.1 = { p with machine := p.machine.number.resolve } ∧
    ((∃ d ∈ (c.analyze p).1.diagnostics, d.isError) ↔ p.machine.IllFormed) ∧
    (∀ d ∈ (c.analyze p).1.diagnostics, d.isError ∨ d.severity = .warning) ∧
    (c.analyze p).2.2 = (c.analyze p).1.check := by
  simp only [analyze, Analysis.run_of_fresh h hlong, note, report_all, hc, List.nil_append]
  refine ⟨trivial, ?_, ?_, trivial⟩
  · rw [reported_error, flawed_append, Machine.flawed_iff hd hlong]
    exact or_iff_left (Analysis.flawed_unreachable _)
  · intro d hd
    obtain ⟨f, _, rfl⟩ := List.mem_map.mp hd
    rcases severity_cases f.issue with h | h
    · exact .inl ((finding_isError f _).mpr h)
    · exact .inr h

theorem check_ok (c : Compilation) : c.check = .ok () ↔ ¬ ∃ d ∈ c.diagnostics, d.isError := by
  unfold check hasErrors
  split
  · rename_i h
    simpa using List.any_eq_true.mp h
  · rename_i h
    simpa using h

theorem check_rejected {c : Compilation} (h : ∃ d ∈ c.diagnostics, d.isError) :
    c.check = .error (.rejected c.diagnostics) := by
  rw [check, hasErrors, if_pos (List.any_eq_true.mpr h)]

/-- Analysis is exact: of a program just read it reports an error if and only if something is wrong
with the machine, and then fails with what it reported. -/
theorem analyze_exact {file : Option Text} {source : Text} {c : Compilation} {p : Program}
    (hp : parse { file } source = (c, .ok p))
    (hb : ∀ u ∈ p.machine.untils, ∀ digits, u.bound = .literal digits →
      digits.length ≤ digitLimit) :
    ((∃ d ∈ (c.analyze p).1.diagnostics, d.isError) ↔ p.machine.IllFormed) ∧
    ((c.analyze p).2.2 = .ok () ↔ ¬ p.machine.IllFormed) ∧
    (p.machine.IllFormed →
      (c.analyze p).2.2 = .error (.rejected (c.analyze p).1.diagnostics)) := by
  obtain ⟨hd, hc⟩ := derives_of_parse hp
  have hlong : ∀ u ∈ p.machine.untils, u.bound.isLong = false :=
    fun u hu => isLong_eq_false.mpr (hb u hu)
  obtain ⟨_, hiff, _, hcheck⟩ := analyze_of_fresh hc hd.fresh hd.readable hlong
  refine ⟨hiff, ?_, ?_⟩
  · rw [hcheck, check_ok, hiff]
  · intro h
    rw [hcheck, check_rejected (hiff.mpr h)]

/-- A machine with a timer, a block that may be tried three times, and a state for errors. -/
def sample : Text :=
  "fsm m\x7btimer w(5);state[start]a\x7bon(x)go b start(w);\x7d" ++
    "until(3)\x7bstate b\x7bon timeout(w)retry;\x7d\x7derr e;state[end,err]c\x7b\x7d\x7d"

theorem sample_read : ∃ c p, parse {} sample = (c, .ok p) ∧
    (∀ u ∈ p.machine.untils, u.bound.isLong = false) ∧
    p.machine.checkDeclarations ++ p.machine.checkItems = [] := by
  have h : (parse {} sample).2.toOption.any (fun p => p.machine.untils.all (!·.bound.isLong) &&
      (p.machine.checkDeclarations ++ p.machine.checkItems).isEmpty) = true := by decide +kernel
  generalize parse {} sample = result at h
  obtain ⟨c, result⟩ := result
  cases result with
  | error e => cases h
  | ok p =>
    simp only [Except.toOption, Option.any_some, Bool.and_eq_true] at h
    exact ⟨c, p, rfl, by simpa using h.1, by simpa using h.2⟩

theorem analyze_exact_sample : ∃ c p, parse {} sample = (c, .ok p) ∧
    (∀ u ∈ p.machine.untils, ∀ digits, u.bound = .literal digits → digits.length ≤ digitLimit) ∧
    ((∃ d ∈ (c.analyze p).1.diagnostics, d.isError) ↔ p.machine.IllFormed) ∧
    ((c.analyze p).2.2 = .ok () ↔ ¬ p.machine.IllFormed) ∧
    (p.machine.IllFormed →
      (c.analyze p).2.2 = .error (.rejected (c.analyze p).1.diagnostics)) := by
  obtain ⟨c, p, hp, hlong, _⟩ := sample_read
  have hb : ∀ u ∈ p.machine.untils, ∀ digits, u.bound = .literal digits →
      digits.length ≤ digitLimit :=
    fun u hu => isLong_eq_false.mp (hlong u hu)
  exact ⟨c, p, hp, hb, analyze_exact hp hb⟩

end Compilation
end Statewright
