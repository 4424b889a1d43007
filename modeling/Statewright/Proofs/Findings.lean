import Statewright.Proofs.WellFormed

namespace Statewright

/-- The text that stands where a finding is made, in a machine of the given name. -/
def Issue.subject (machine : Text) : Issue → Text
  | emptyInit _ name | reservedVariable name | duplicateVariable name _ | duplicateTimer name _
  | duplicateState name _ | stateClash name _ | manyStarts name _ | alsoErr name _
  | repeatedFlag name _ | unknownState name | unknownTimer name | labelClash name _
  | noErrState name | emptyOut name | unknownOutput name | notOutput name _ | outputRead name
  | hidden name _ | unreachable name => name
  | noneLabel => "none"
  | noStart | noEnd => machine
  | zeroBound _ | emptyBlock => "until"
  | strayRetry | emptyCondition => "on"

namespace Machine

/-- The parts of a machine that something can be found about, by the text that stands for each and
its place. -/
inductive Part (m : Machine) : Text → Position → Prop
  | machine : Part m m.name m.place
  | var : v ∈ m.vars → Part m v.name v.place
  | timer : t ∈ m.timers → Part m t.name t.place
  | state : s ∈ m.states → Part m s.name s.place
  | block : u ∈ m.untils → Part m "until" u.place
  | jump : j ∈ m.jumps → Part m j.ref.name j.ref.place
  | timerRef : r ∈ m.timerRefs → Part m r.name r.place
  | transition : t ∈ m.transitions → Part m "on" t.place
  | out : a ∈ m.outs → Part m a.name a.place
  | reference : f ∈ m.conditions → (i, v) ∈ m.uses f.text → Part m v.name (f.placeAt i)
  | declaration : f ∈ m.code → (i, v) ∈ m.hides f.text → Part m v.name (f.placeAt i)

/-- A finding about a part of the machine, and not about what can be reached. -/
structure Concerns (m : Machine) (f : Finding) : Prop where
  part : m.Part (f.issue.subject m.name) f.place
  reachable : ∀ name, f.issue ≠ .unreachable name

section Checks
variable {m : Machine}

theorem forall_ite {P : Finding → Prop} {test : Prop} [Decidable test] {f : Finding} (h : P f) :
    ∀ g ∈ (if test then [f] else []), P g := by
  split <;> simp [h]

theorem forall_unless {P : Finding → Prop} {test : Prop} [Decidable test] {f : Finding} (h : P f) :
    ∀ g ∈ (if test then [] else [f]), P g := by
  split <;> simp [h]

theorem forall_survey {α : Type} {P : Finding → Prop} {check : List α → α → List Finding}
    {earlier xs : List α} (h : ∀ before, ∀ x ∈ xs, ∀ f ∈ check before x, P f) :
    ∀ f ∈ survey check earlier xs, P f := by
  induction xs generalizing earlier with
  | nil => simp [survey]
  | cons x xs ih =>
    rw [survey, List.forall_mem_append]
    exact ⟨h earlier x (by simp), ih fun before y hy => h before y (by simp [hy])⟩

theorem forall_flatMap {α : Type} {P : Finding → Prop} {check : α → List Finding} {xs : List α}
    (h : ∀ x ∈ xs, ∀ f ∈ check x, P f) : ∀ f ∈ xs.flatMap check, P f := by
  intro f hf
  obtain ⟨x, hx, hf⟩ := List.mem_flatMap.mp hf
  exact h x hx f hf

theorem concerns_checkVariable {v : Variable} (hv : v ∈ m.vars) (earlier : List Variable) :
    ∀ f ∈ checkVariable earlier v, m.Concerns f := by
  unfold checkVariable
  rw [List.forall_mem_append]
  refine ⟨forall_ite ⟨.var hv, nofun⟩, ?_⟩
  split
  · exact List.forall_mem_singleton.mpr ⟨.var hv, nofun⟩
  · split
    · exact List.forall_mem_singleton.mpr ⟨.var hv, nofun⟩
    · exact List.forall_mem_nil _

theorem concerns_checkTimer {t : Timer} (ht : t ∈ m.timers) (earlier : List Timer) :
    ∀ f ∈ checkTimer earlier t, m.Concerns f := by
  unfold checkTimer
  split
  · exact List.forall_mem_singleton.mpr ⟨.timer ht, nofun⟩
  · exact List.forall_mem_nil _

theorem concerns_checkStateName {s : State} (hs : s ∈ m.states) (earlier : List State) :
    ∀ f ∈ m.checkStateName earlier s, m.Concerns f := by
  unfold checkStateName
  split
  · exact List.forall_mem_singleton.mpr ⟨.state hs, nofun⟩
  · exact forall_ite ⟨.state hs, nofun⟩

/-- Of the states with a flag, those after the first. -/
theorem mem_states_of_others {flag : Flag} {first s : State} {others : List State}
    (h : m.states.filter (·.has flag) = first :: others) (hs : s ∈ others) : s ∈ m.states := by
  have hmem : s ∈ m.states.filter (·.has flag) := by
    rw [h]
    exact List.mem_cons_of_mem _ hs
  exact (List.mem_filter.mp hmem).1

theorem concerns_checkStarts : ∀ f ∈ m.checkStarts, m.Concerns f := by
  unfold checkStarts
  split
  · exact List.forall_mem_singleton.mpr ⟨.machine, nofun⟩
  · rename_i first others he
    intro f hf
    obtain ⟨s, hs, rfl⟩ := List.mem_map.mp hf
    exact ⟨.state (mem_states_of_others he hs), nofun⟩

theorem concerns_checkErrs : ∀ f ∈ m.checkErrs, m.Concerns f := by
  unfold checkErrs
  split
  · exact List.forall_mem_nil _
  · rename_i first others he
    intro f hf
    obtain ⟨s, hs, rfl⟩ := List.mem_map.mp hf
    exact ⟨.state (mem_states_of_others he hs), nofun⟩

theorem concerns_checkFlags {s : State} (hs : s ∈ m.states) :
    ∀ f ∈ checkFlags s, m.Concerns f :=
  forall_survey fun _ _ _ => forall_ite ⟨.state hs, nofun⟩

theorem concerns_checkBlock {u : Until} (hu : u ∈ m.untils) :
    ∀ f ∈ checkBlock u, m.Concerns f := by
  unfold checkBlock
  rw [List.forall_mem_append]
  exact ⟨forall_ite ⟨.block hu, nofun⟩, forall_ite ⟨.block hu, nofun⟩⟩

theorem concerns_checkDeclarations : ∀ f ∈ m.checkDeclarations, m.Concerns f := by
  unfold checkDeclarations
  simp only [List.forall_mem_append]
  refine ⟨⟨⟨⟨⟨⟨⟨?_, ?_⟩, ?_⟩, concerns_checkStarts⟩, ?_⟩, concerns_checkErrs⟩, ?_⟩, ?_⟩
  · exact forall_survey fun before v hv => concerns_checkVariable hv before
  · exact forall_survey fun before t ht => concerns_checkTimer ht before
  · exact forall_survey fun before s hs => concerns_checkStateName hs before
  · exact forall_unless ⟨.machine, nofun⟩
  · exact forall_flatMap fun s hs => concerns_checkFlags hs
  · exact forall_flatMap fun u hu => concerns_checkBlock (List.takeWhile_subset _ hu)

theorem concerns_checkTimerRef {r : Ref} (hr : r ∈ m.timerRefs) :
    ∀ f ∈ m.checkTimerRef r, m.Concerns f :=
  forall_unless ⟨.timerRef hr, nofun⟩

theorem concerns_checkJump {j : Jump} (hj : j ∈ m.jumps) : ∀ f ∈ m.checkJump j, m.Concerns f := by
  cases j with
  | go r => exact forall_unless ⟨.jump hj, nofun⟩
  | err r =>
    unfold checkJump
    rw [List.forall_mem_append]
    refine ⟨?_, forall_unless ⟨.jump hj, nofun⟩⟩
    unfold checkLabel
    split
    · rename_i hnone
      have hpart : m.Part r.name r.place := .jump hj
      rw [hnone] at hpart
      exact List.forall_mem_singleton.mpr ⟨hpart, nofun⟩
    · exact forall_ite ⟨.jump hj, nofun⟩

theorem concerns_checkTransition {t : Transition} (ht : t ∈ m.transitions) (nested : Bool) :
    ∀ f ∈ m.checkTransition nested t, m.Concerns f := by
  have htimer {r : Ref} (hr : r ∈ t.trigger.timer?.toList ++ t.starts) : r ∈ m.timerRefs :=
    List.mem_flatMap.mpr ⟨t, ht, hr⟩
  unfold checkTransition
  simp only [List.forall_mem_append]
  refine ⟨⟨?_, ?_⟩, ?_⟩
  · cases ha : t.action with
    | jump j =>
      refine concerns_checkJump (List.mem_append_left _ (List.mem_filterMap.mpr ⟨t, ht, ?_⟩))
      rw [ha, Action.jump?]
    | retry => exact forall_unless ⟨.transition ht, fun _ h => by cases h⟩
  · cases htr : t.trigger with
    | when f => exact List.forall_mem_nil _
    | timeout r => exact concerns_checkTimerRef (htimer (by simp [htr, Trigger.timer?]))
  · exact forall_flatMap fun r hr => concerns_checkTimerRef (htimer (by simp [hr]))

theorem concerns_checkOut {a : Assignment} (ha : a ∈ m.outs) :
    ∀ f ∈ m.checkOut a, m.Concerns f := by
  unfold checkOut
  rw [List.forall_mem_append]
  refine ⟨forall_ite ⟨.out ha, nofun⟩, ?_⟩
  split
  · exact List.forall_mem_singleton.mpr ⟨.out ha, nofun⟩
  · exact forall_unless ⟨.out ha, nofun⟩

theorem concerns_checkCondition {t : Transition} (ht : t ∈ m.transitions) :
    ∀ f ∈ m.checkCondition t, m.Concerns f := by
  unfold checkCondition
  cases htr : t.trigger with
  | timeout r => exact List.forall_mem_nil _
  | when condition =>
    have hc : condition ∈ m.conditions :=
      List.mem_filterMap.mpr ⟨t, ht, by rw [htr, Trigger.condition?]⟩
    rw [List.forall_mem_append]
    refine ⟨forall_ite ⟨.transition ht, fun _ h => by cases h⟩, ?_⟩
    intro f hf
    obtain ⟨u, hu, rfl⟩ := List.mem_map.mp hf
    exact ⟨.reference hc (List.mem_filter.mp hu).1, fun _ h => by cases h⟩

theorem concerns_checkCode {code : Fragment} (hc : code ∈ m.code) :
    ∀ f ∈ m.checkCode code, m.Concerns f := by
  intro f hf
  obtain ⟨u, hu, rfl⟩ := List.mem_map.mp hf
  exact ⟨.declaration hc hu, nofun⟩

theorem concerns_checkState {s : State} (hs : s ∈ m.states) (nested : Bool) :
    ∀ f ∈ m.checkState nested s, m.Concerns f := by
  have htransition {t : Transition} (ht : t ∈ s.transitions) : t ∈ m.transitions :=
    List.mem_flatMap.mpr ⟨s, hs, ht⟩
  unfold checkState
  simp only [List.forall_mem_append]
  refine ⟨⟨⟨?_, ?_⟩, ?_⟩, ?_⟩
  · exact forall_flatMap fun t ht => concerns_checkTransition (htransition ht) nested
  · exact forall_flatMap fun a ha => concerns_checkOut (List.mem_flatMap.mpr ⟨s, hs, ha⟩)
  · exact forall_flatMap fun t ht => concerns_checkCondition (htransition ht)
  · exact forall_flatMap fun f hf => concerns_checkCode (List.mem_flatMap.mpr ⟨s, hs, hf⟩)

theorem concerns_checkItem {i : Item} (hi : i ∈ m.items) :
    ∀ f ∈ m.checkItem i, m.Concerns f := by
  have hstate {s : State} (hs : s ∈ i.states) : s ∈ m.states := List.mem_flatMap.mpr ⟨i, hi, hs⟩
  cases i with
  | state s => exact concerns_checkState (hstate (by simp [Item.states])) false
  | block u =>
    have hu : u ∈ m.untils := List.mem_filterMap.mpr ⟨_, hi, rfl⟩
    unfold checkItem
    rw [List.forall_mem_append]
    refine ⟨?_, concerns_checkJump (List.mem_append_right _ (List.mem_map_of_mem hu))⟩
    exact forall_flatMap fun s hs => concerns_checkState (hstate hs) true

/-- Whatever the checks find concerns a part of the machine. -/
theorem concerns_checks : ∀ f ∈ m.checkDeclarations ++ m.checkItems, m.Concerns f := by
  rw [List.forall_mem_append]
  exact ⟨concerns_checkDeclarations, forall_flatMap fun i hi => concerns_checkItem hi⟩

end Checks
end Machine

theorem Compilation.parse_file (c : Compilation) (source : Text) :
    (c.parse source).1.file = c.file := by
  simp only [parse]
  split <;> rfl

end Statewright
