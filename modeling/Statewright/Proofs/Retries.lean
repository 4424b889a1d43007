import Statewright.Proofs.Execution

namespace Statewright

/-- A change that was carried out: from which state to which, the block whose try it counted, and
whether that was one too many. -/
structure Taken where
  source : Nat
  target : Nat
  retried : Option Nat
  overflowed : Bool

namespace Machine

/-- The runs of a machine, with the changes taken, the last one first. A step that does nothing
leaves the run as it is. -/
inductive Runs (m : Machine) (value : Text → Nat) : List Taken → Config → Prop
  | start : m.start = some n → Runs m value [] ⟨n, List.replicate m.untils.length 0⟩
  | step : Runs m value taken c → m.sites[c.state]? = some s → t ∈ s.state.transitions →
      Actuation.ofTransition m s.block t = .ok a →
      Runs m value
        (⟨c.state, (a.change.apply value c).state, a.change.retried, a.change.overflows value c⟩ ::
          taken)
        (a.change.apply value c)

/-- The run by the given choices of transitions, the last one first, if it can be made. -/
def run? (m : Machine) (value : Text → Nat) : List Nat → Option (List Taken × Config)
  | [] => m.start.map fun n => ([], ⟨n, List.replicate m.untils.length 0⟩)
  | i :: choices =>
    match m.run? value choices with
    | none => none
    | some (taken, c) =>
      match m.sites[c.state]? with
      | none => none
      | some s =>
        match s.state.transitions[i]? with
        | none => none
        | some t =>
          match Actuation.ofTransition m s.block t with
          | .error _ => none
          | .ok a =>
            some (⟨c.state, (a.change.apply value c).state, a.change.retried,
              a.change.overflows value c⟩ :: taken, a.change.apply value c)

theorem run?_runs {m : Machine} {value : Text → Nat} {choices : List Nat} {taken : List Taken}
    {c : Config} (h : m.run? value choices = some (taken, c)) : m.Runs value taken c := by
  induction choices generalizing taken c with
  | nil =>
    obtain ⟨n, hn, he⟩ := Option.map_eq_some_iff.mp h
    cases he
    exact .start hn
  | cons i choices ih =>
    unfold run? at h
    split at h
    · cases h
    · rename_i hr
      split at h
      · cases h
      · rename_i hs
        split at h
        · cases h
        · rename_i ht
          split at h
          · cases h
          · rename_i ha
            cases h
            exact .step (ih hr) hs (List.mem_of_getElem? ht) ha

/-- The number of the until block around a state. -/
def blockOf (m : Machine) (n : Nat) : Option Nat :=
  (m.sites[n]?.bind Site.block).map (·.1)

/-- Whether a block starts to count anew: it is entered from outside, or its overflow is taken. -/
def restarts (m : Machine) (k : Nat) (e : Taken) : Bool :=
  (m.blockOf e.source ≠ some k && m.blockOf e.target = some k) ||
    (e.retried = some k && e.overflowed)

/-- The retries taken in a block since it last started to count. -/
def tries (m : Machine) (k : Nat) (taken : List Taken) : Nat :=
  (taken.takeWhile (!m.restarts k ·)).countP (·.retried = some k)

theorem tries_cons (m : Machine) (k : Nat) (e : Taken) (taken : List Taken) :
    m.tries k (e :: taken) =
      if m.restarts k e then 0 else m.tries k taken + if e.retried = some k then 1 else 0 := by
  unfold tries
  rw [List.takeWhile_cons]
  cases m.restarts k e with
  | true => rfl
  | false => simp [List.countP_cons]

theorem blockOf_lt {m : Machine} {n k : Nat} (h : m.blockOf n = some k) : k < m.untils.length := by
  simp only [blockOf, Option.map_eq_some_iff, Option.bind_eq_some_iff] at h
  obtain ⟨⟨k, u⟩, ⟨s, hs, hb⟩, rfl⟩ := h
  exact (List.getElem?_eq_some_iff.mp (site_untils (List.mem_of_getElem? hs) hb)).1

/-- What the change of a transition out of a state can be. A jump clears the counter of the block
that it leaves, and an overflow that of its own block. -/
inductive Effect (m : Machine) (n : Nat) : Change → Prop
  | move : move.target < m.states.length →
      move.cleared = (m.blockOf n).toList.filter (m.blockOf move.target ≠ some ·) →
      Effect m n (.move move)
  | retry : m.blockOf n = some k → m.untils[k]? = some u →
      overflow.target < m.states.length → overflow.cleared = [k] →
      target < m.states.length → m.blockOf target = some k →
      Effect m n (.retry k u.bound.text overflow target state)

/-- What holds of every configuration that a machine comes to. -/
structure Counted (m : Machine) (value : Text → Nat) (taken : List Taken) (c : Config) : Prop where
  state : c.state < m.states.length
  outside : ∀ j < m.untils.length, m.blockOf c.state ≠ some j → c.retries[j]? = some 0
  inside : ∀ j, m.blockOf c.state = some j → c.retries[j]? = some (m.tries j taken)
  below : ∀ (j : Nat) (u : Until) (x : Nat), m.untils[j]? = some u → c.retries[j]? = some x →
    x = 0 ∨ x < boundValue value u.bound.text

theorem counted_start {m : Machine} {value : Text → Nat} {n : Nat} (h : n < m.states.length) :
    m.Counted value [] ⟨n, List.replicate m.untils.length 0⟩ := by
  refine ⟨h, ?_, ?_, ?_⟩
  · intro j hj _
    simp [hj]
  · intro j hj
    simp [blockOf_lt hj, tries]
  · intro j u x _ hx
    obtain ⟨_, rfl⟩ := by simpa [List.getElem?_replicate] using hx
    exact .inl rfl

section Step
variable {m : Machine} {value : Text → Nat} {taken : List Taken} {c : Config}

/-- A jump keeps the counters right. -/
theorem counted_move (h : m.Counted value taken c) {move : Move}
    (ht : move.target < m.states.length)
    (hc : move.cleared = (m.blockOf c.state).toList.filter (m.blockOf move.target ≠ some ·)) :
    m.Counted value (⟨c.state, move.target, none, false⟩ :: taken) (move.apply c) := by
  have hmem (j : Nat) : j ∈ move.cleared ↔
      m.blockOf c.state = some j ∧ m.blockOf move.target ≠ some j := by
    rw [hc]
    simp [List.mem_filter]
  refine ⟨ht, ?_, ?_, ?_⟩
  · intro j hj hout
    simp only [Move.apply, clear_getElem?, hmem] at hout ⊢
    by_cases hin : m.blockOf c.state = some j
    · simp [hin, hout, h.inside j hin]
    · simp [hin, h.outside j hj hin]
  · intro j hin
    simp only [Move.apply, clear_getElem?, hmem] at hin ⊢
    simp only [hin, ne_eq, not_true_eq_false, and_false, ↓reduceIte, tries_cons, restarts]
    by_cases hfrom : m.blockOf c.state = some j
    · simp [hfrom, h.inside j hfrom]
    · simp [hfrom, h.outside j (blockOf_lt hin) hfrom]
  · intro j u x hu hx
    simp only [Move.apply, clear_getElem?] at hx
    split at hx
    · obtain ⟨_, _, rfl⟩ := Option.map_eq_some_iff.mp hx
      exact .inl rfl
    · exact h.below j u x hu hx

/-- So does a retry that the bound allows. -/
theorem counted_retry (h : m.Counted value taken c) {k target : Nat} {u : Until}
    (hk : m.blockOf c.state = some k) (hu : m.untils[k]? = some u)
    (ht : target < m.states.length) (hin : m.blockOf target = some k)
    (hlt : c.retries.getD k 0 + 1 < boundValue value u.bound.text) :
    m.Counted value (⟨c.state, target, some k, false⟩ :: taken)
      ⟨target, c.retries.modify k (· + 1)⟩ := by
  have hx := h.inside k hk
  refine ⟨ht, ?_, ?_, ?_⟩
  · intro j hj hout
    have hne : k ≠ j := by
      rintro rfl
      exact hout hin
    have hfrom : m.blockOf c.state ≠ some j := by
      rw [hk]
      simpa using hne
    simp [hne, h.outside j hj hfrom]
  · intro j hj
    obtain rfl : k = j := Option.some.inj (hin.symm.trans hj)
    simp [hx, tries_cons, restarts, hk]
  · intro j v y hv hy
    rw [List.getElem?_modify] at hy
    by_cases hne : k = j
    · subst hne
      obtain rfl : u = v := Option.some.inj (hu.symm.trans hv)
      simp only [hx, List.getD_eq_getElem?_getD, Option.getD_some] at hlt
      simp only [hx, ↓reduceIte, Option.map_eq_map, Option.map_some, Option.some.injEq] at hy
      omega
    · simp only [hne, ↓reduceIte, Option.map_eq_map, Option.map_id'] at hy
      exact h.below j v y hv hy

/-- And so does one that is too many, with the overflow it leads to. -/
theorem counted_overflow (h : m.Counted value taken c) {k : Nat} {overflow : Move}
    (hk : m.blockOf c.state = some k) (ht : overflow.target < m.states.length)
    (hc : overflow.cleared = [k]) :
    m.Counted value (⟨c.state, overflow.target, some k, true⟩ :: taken)
      (overflow.apply { c with retries := c.retries.modify k (· + 1) }) := by
  have hx := h.inside k hk
  have hget (j : Nat) : (clear overflow.cleared (c.retries.modify k (· + 1)))[j]? =
      if j = k then some 0 else c.retries[j]? := by
    rw [hc, clear_getElem?, List.getElem?_modify]
    by_cases hj : j = k
    · subst hj
      simp [hx]
    · simp [hj, Ne.symm hj]
  refine ⟨ht, ?_, ?_, ?_⟩
  · intro j hj _
    simp only [Move.apply, hget]
    split
    · rfl
    · rename_i hne
      refine h.outside j hj ?_
      rw [hk]
      simpa using Ne.symm hne
  · intro j hin
    simp only [Move.apply] at hin
    simp only [Move.apply, hget, tries_cons, restarts, hin, hk]
    by_cases hj : j = k
    · simp [hj]
    · have hfrom : m.blockOf c.state ≠ some j := by
        rw [hk]
        simpa using Ne.symm hj
      simp [hj, Ne.symm hj, h.outside j (blockOf_lt hin) hfrom]
  · intro j u x hu hx
    simp only [Move.apply, hget] at hx
    split at hx
    · exact .inl (Option.some.inj hx).symm
    · exact h.below j u x hu hx

/-- One step keeps the counters right. -/
theorem counted_step (h : m.Counted value taken c) {change : Change}
    (he : m.Effect c.state change) :
    m.Counted value
      (⟨c.state, (change.apply value c).state, change.retried, change.overflows value c⟩ :: taken)
      (change.apply value c) := by
  cases he with
  | move ht hc => exact counted_move h ht hc
  | @retry k u target overflow state hk hu ho hc ht hin =>
    cases hover : (Change.retry k u.bound.text overflow target state).overflows value c with
    | true =>
      simp only [Change.apply, hover, ↓reduceIte]
      exact counted_overflow h hk ho hc
    | false =>
      simp only [Change.apply, hover, Bool.false_eq_true, ↓reduceIte]
      simp only [Change.overflows, decide_eq_false_iff_not, Nat.not_le] at hover
      exact counted_retry h hk hu ht hin hover

end Step

/-- A property that holds at the start and is kept by every effect holds over a whole run. -/
theorem Runs.counted {m : Machine} {value : Text → Nat} {taken : List Taken} {c : Config}
    (h : m.Runs value taken c) (hstart : ∀ n, m.start = some n → n < m.states.length)
    (heffect : ∀ n s t a, m.sites[n]? = some s → t ∈ s.state.transitions →
      Actuation.ofTransition m s.block t = .ok a → m.Effect n a.change) :
    m.Counted value taken c := by
  induction h with
  | start hn => exact counted_start (hstart _ hn)
  | step _ hs ht ha ih => exact counted_step ih (heffect _ _ _ _ hs ht ha)

theorem changeOf_of_ok {m : Machine} {block : Option (Nat × Until)} {t : Transition}
    {a : Actuation} (h : Actuation.ofTransition m block t = .ok a) :
    Actuation.changeOf m block t = .ok a.change := by
  unfold Actuation.ofTransition at h
  cases hs : t.starts.mapM fun r => m.timerAt r.index with
  | error e =>
    rw [hs] at h
    cases h
  | ok starts =>
    cases hc : Actuation.changeOf m block t with
    | error e =>
      rw [hs, hc] at h
      cases h
    | ok change =>
      rw [hs, hc] at h
      cases h
      rfl

section Analyzed
variable {m : Machine}

theorem analyzed_blockOf {p : Spot} (hp : p ∈ m.spots) :
    m.number.resolve.blockOf p.number = p.frame.map Frame.number := by
  unfold blockOf
  rw [analyzed_sites, List.getElem?_map, mem_spots.mp hp]
  cases hb : p.block <;> simp [finishSite, Spot.frame, hb]

/-- A frame has the numbers of the states whose block it is. -/
theorem frame_has {p : Spot} (hp : p ∈ m.spots) {f : Frame} {u : Until}
    (hf : p.block = some (f, u)) {n : Nat} (hn : n < m.states.length) :
    f.has n = true ↔ m.number.resolve.blockOf n = some f.number := by
  have hlt : n < m.spots.length := by rwa [← spots_states, List.length_map] at hn
  have hq := List.getElem?_eq_getElem hlt
  have hmem := List.getElem_mem hlt
  have hnum := spots_getElem? hq
  have h := spotsFrom_frame hp hf hmem
  rwa [← analyzed_blockOf hmem, hnum] at h

/-- The transitions of an accepted machine have no other effects. -/
theorem analyzed_effect (hw : ¬ m.IllFormed) (hf : m.Fresh) (n : Nat) (s : Site) (t : Transition)
    (a : Actuation) (hs : m.number.resolve.sites[n]? = some s) (ht : t ∈ s.state.transitions)
    (ha : Actuation.ofTransition m.number.resolve s.block t = .ok a) :
    m.number.resolve.Effect n a.change := by
  have hsite := List.mem_of_getElem? hs
  rw [analyzed_sites, List.getElem?_map] at hs
  obtain ⟨p, hp, rfl⟩ := Option.map_eq_some_iff.mp hs
  obtain rfl := spots_getElem? hp
  have hp := List.mem_of_getElem? hp
  rw [finishSite_transitions] at ht
  obtain ⟨t₀, ht₀, rfl⟩ := List.mem_map.mp ht
  have hchange := changeOf_of_ok ha
  cases hact : t₀.action with
  | jump j =>
    obtain ⟨move, n, hc, _, hn, hto, hcleared⟩ := changeOf_jump hw hf hp ht₀ hact
    rw [hc] at hchange
    rw [← Except.ok.inj hchange]
    have hlt := jumpTarget?_lt hn
    refine .move (by rwa [hto, analyzed_states_length]) ?_
    rw [hcleared, hto, analyzed_blockOf hp]
    cases hb : p.block with
    | none => simp [Spot.frame, hb]
    | some b =>
      have hhas := frame_has hp hb hlt
      by_cases hin : b.1.has n <;> simp_all [Spot.frame]
  | retry =>
    obtain ⟨f, u, overflow, n, s, hb, hc, _, hn, hto, hcleared, _, _⟩ :=
      changeOf_retry hw hf hp ht₀ hact
    rw [hc] at hchange
    rw [← Except.ok.inj hchange]
    have hblock : m.number.resolve.blockOf p.number = some f.number := by
      rw [analyzed_blockOf hp]
      simp [Spot.frame, hb]
    have hu : m.number.resolve.untils[f.number]? =
        some (m.finishBlock f u) := by
      refine site_untils hsite ?_
      simp only [finishSite, hb, Option.map_some]
    obtain ⟨_, hfirst, hlt⟩ := frame_first hp hb
    have hin := (frame_has hp hb hlt).mp hfirst
    refine .retry (u := m.finishBlock f u) hblock hu ?_ hcleared ?_ hin
    · rw [hto, analyzed_states_length]
      exact jumpTarget?_lt hn
    · rwa [analyzed_states_length]

theorem analyzed_start (hf : m.Fresh) {n : Nat} (h : m.number.resolve.start = some n) :
    n < m.number.resolve.states.length := by
  change (m.flagged? .start).or m.start = some n at h
  rw [hf.start, Option.or_none] at h
  rw [analyzed_states_length]
  exact (List.findIdx?_eq_some_iff_getElem.mp h).1

theorem analyzed_bounds (m : Machine) :
    m.number.resolve.untils.map Until.bound = m.untils.map Until.bound := by
  have h (n k : Nat) (items : List Item) :
      ((m.number.resolveItems m.number.allLabels n k (Item.numberFrom n items)).filterMap
        Item.until?).map Until.bound = (items.filterMap Item.until?).map Until.bound := by
    fun_induction spotsFrom n k items with
    | case1 n k => rfl
    | case2 n k s items ih => exact ih
    | case3 n k u items ih =>
      simp only [Item.numberFrom, resolveItems, List.length_mapIdx]
      change _ :: _ = u.bound :: _
      exact congrArg _ ih
  exact h 0 0 m.items

end Analyzed

/-- What the runs of a unit rest on. -/
structure Sound (m : Machine) : Prop where
  fits : m.Fits
  distinct : (m.states.map State.name).Nodup
  worded : Worded m.words
  readable : ∀ u ∈ m.untils, u.bound.Readable
  free : ∀ v ∈ m.vars, v.name ∉ reservedNames
  start : ∀ n, m.start = some n → n < m.states.length
  effect : ∀ n s t a, m.sites[n]? = some s → t ∈ s.state.transitions →
    Actuation.ofTransition m s.block t = .ok a → m.Effect n a.change

section Sound
variable {m : Machine} {n : Nat} {s : Site} {t : Transition} {a : Actuation}

theorem Sound.fit (h : m.Sound) (hs : m.sites[n]? = some s) (ht : t ∈ s.state.transitions)
    (ha : Actuation.ofTransition m s.block t = .ok a) :
    m.ChangeFits s.block t.action a.change := by
  obtain ⟨a', ha', _, hfits⟩ := h.fits.actuations s (List.mem_of_getElem? hs) t ht
  obtain rfl : a = a' := Except.ok.inj (ha.symm.trans ha')
  exact hfits

/-- The changes of a sound machine can be carried out. -/
theorem Sound.named (h : m.Sound) (hs : m.sites[n]? = some s) (ht : t ∈ s.state.transitions)
    (ha : Actuation.ofTransition m s.block t = .ok a) : CUnit.ChangeNamed m a.change := by
  -- the counters are those of the effect, the names those that the source demands
  have heffect := h.effect n s t a hs ht ha
  have hfits := h.fit hs ht ha
  generalize a.change = change at heffect hfits
  generalize t.action = action at hfits
  cases hfits with
  | jump hmove =>
    obtain ⟨state, _, hstate, hname, _⟩ := hmove
    cases heffect with
    | move _ hcleared =>
      refine ⟨?_, by rw [hstate, hname, Option.map_some]⟩
      intro k hk
      rw [hcleared, List.mem_filter, Option.mem_toList] at hk
      exact blockOf_lt hk.1
  | @retry k u overflow first target hblock hmove _ hstate =>
    obtain ⟨out, _, hout, hname, _⟩ := hmove
    generalize u.bound.text = bound at heffect
    cases heffect with
    | retry _ hu _ hcleared _ _ =>
      have hk := (List.getElem?_eq_some_iff.mp hu).1
      refine ⟨hk, ⟨?_, by rw [hout, hname, Option.map_some]⟩, by rw [hstate, Option.map_some]⟩
      intro j hj
      rw [hcleared, List.mem_singleton] at hj
      exact hj ▸ hk

theorem Sound.actuation (h : m.Sound) (hs : m.sites[n]? = some s) (ht : t ∈ s.state.transitions)
    (ha : Actuation.ofTransition m s.block t = .ok a) : Worded a.words :=
  CUnit.actuation_worded h.worded h.fits (List.mem_of_getElem? hs) ht ha

end Sound
end Machine

/-- What was done by a transition, going by the source: a retry counts a try of the block around
its state, which is one too many if it comes to the bound. -/
def Site.taken (s : Site) (value : Text → Nat) (t : Transition) (c c' : Config) : Taken :=
  match t.action, s.block with
  | .retry, some (k, u) =>
    ⟨c.state, c'.state, some k, u.bound.value value ≤ c.retries.getD k 0 + 1⟩
  | _, _ => ⟨c.state, c'.state, none, false⟩

theorem Machine.Sound.taken {m : Machine} (h : m.Sound) {s : Site} {t : Transition}
    {a : Actuation} {value : Text → Nat} {c c' : Config} (hs : m.sites[c.state]? = some s)
    (ht : t ∈ s.state.transitions) (ha : Actuation.ofTransition m s.block t = .ok a) :
    s.taken value t c c' = ⟨c.state, c'.state, a.change.retried, a.change.overflows value c⟩ := by
  have hfits := h.fit hs ht ha
  generalize a.change = change at hfits
  generalize hact : t.action = action at hfits
  unfold Site.taken
  cases hfits with
  | jump _ =>
    rw [hact]
    rfl
  | @retry k u overflow first target hblock _ _ _ =>
    have hu := site_untils (List.mem_of_getElem? hs) hblock
    rw [hact, hblock]
    simp only [Change.retried, Change.overflows]
    rw [boundValue_text value (h.readable u (List.mem_of_getElem? hu))]

namespace CUnit

/-- The runs of a unit, with what was done, the last first. The lines of the function that sets the
machine up are carried out on any data; then at each step those written for any one transition of
the current state. A step that does nothing leaves the run as it is. -/
inductive Runs (p : Program) (stem : Text) (unit : List Text) (value : Text → Nat) :
    List Taken → Config → Prop
  | start : start p.machine = .ok s → (initDeclaration p stem s.name).lines <:+: unit →
      c.retries.length = p.machine.untils.length →
      execute (stateEnumerators p.machine stem) value (initBody p stem s.name) c = some c' →
      Runs p stem unit value [] c'
  | step : Runs p stem unit value taken c → p.machine.sites[c.state]? = some s →
      t ∈ s.state.transitions → Performs p.machine stem unit s t e a → a.printed stem <:+: unit →
      execute (stateEnumerators p.machine stem) value (a.printed stem) c = some c' →
      Runs p stem unit value (s.taken value t c c' :: taken) c'

theorem start_eq {m : Machine} {s : State} (h : start m = .ok s) :
    ∃ n, m.start = some n ∧ m.states[n]? = some s := by
  unfold start at h
  split at h
  · rename_i s' hs
    cases h
    exact Option.bind_eq_some_iff.mp hs
  · cases h

end CUnit

theorem Machine.Runs.length {m : Machine} {value : Text → Nat} {taken : List Taken} {c : Config}
    (h : m.Runs value taken c) : c.retries.length = m.untils.length := by
  induction h with
  | start _ => exact List.length_replicate
  | step _ _ _ _ ih => exact (Change.apply_length value _ _).trans ih

section Link
variable {p : Program} {stem : Text} {unit : List Text} {value : Text → Nat} {taken : List Taken}
  {c : Config} (h : p.machine.Sound) (hstem : stem.IsUnbroken)
include h hstem

/-- What the lines of a unit do is what its machine does. -/
theorem CUnit.Runs.machine (hr : CUnit.Runs p stem unit value taken c) :
    p.machine.Runs value taken c := by
  induction hr with
  | start hs _ hc hrun =>
    obtain ⟨n, hn, hs⟩ := CUnit.start_eq hs
    have hstate := congrArg (Option.map State.name) hs
    rw [CUnit.execute_init stem h.distinct (Machine.variables_worded h.worded) h.free hstate hc]
      at hrun
    cases hrun
    exact .start hn
  | step _ hs ht hperforms _ hrun ih =>
    have ha := hperforms.actuation
    rw [CUnit.execute_actuation h.distinct hstem ih.length (h.named hs ht ha)
      (h.actuation hs ht ha)] at hrun
    cases hrun
    rw [h.taken hs ht ha]
    exact .step ih hs ht ha

/-- And the other way round. -/
theorem Machine.Runs.written {s : State} (hs : CUnit.start p.machine = .ok s)
    (hlines : CUnit.lines p stem s.name = .ok unit) (hr : p.machine.Runs value taken c) :
    CUnit.Runs p stem unit value taken c := by
  induction hr with
  | start hn =>
    obtain ⟨n, hn', hs'⟩ := CUnit.start_eq hs
    obtain rfl : n = _ := Option.some.inj (hn'.symm.trans hn)
    have hinit : (CUnit.initDeclaration p stem s.name).lines <:+: unit := by
      apply CUnit.declaration_within hlines
      intro cases
      simp [CUnit.declarations]
    -- any data will do before the start, such as those that it ends with
    have hsize : (Config.mk n (List.replicate p.machine.untils.length 0)).retries.length =
        p.machine.untils.length := List.length_replicate
    refine .start hs hinit hsize ?_
    have hstate := congrArg (Option.map State.name) hs'
    exact CUnit.execute_init stem h.distinct (Machine.variables_worded h.worded) h.free hstate hsize
  | @step taken c s t a hr hs ht ha ih =>
    obtain ⟨condition, a', hperforms⟩ :=
      CUnit.unit_performs h.fits hlines (List.mem_of_getElem? hs) ht
    obtain rfl : a = a' := Except.ok.inj (ha.symm.trans hperforms.actuation)
    have hwords := h.actuation hs ht ha
    rw [← h.taken hs ht ha]
    refine .step ih hs ht hperforms (hperforms.printed hstem hwords) ?_
    exact CUnit.execute_actuation h.distinct hstem hr.length (h.named hs ht ha) hwords

end Link

namespace Compilation
open CUnit

theorem sound_of_accepted {file : Option Text} {source : Text} {c c' : Compilation}
    {p q : Program} (hp : parse { file } source = (c, .ok q))
    (ha : c.analyze q = (c', p, .ok ())) : p.machine.Sound := by
  obtain ⟨hd, hm, hw⟩ := analyze_accepted hp ha
  rw [hm]
  refine ⟨Machine.analyzed_fits hw hd.fresh, Machine.analyzed_distinct hw, ?_, ?_, ?_,
    fun n => Machine.analyzed_start hd.fresh, Machine.analyzed_effect hw hd.fresh⟩
  · rw [Machine.words_analyzed]
    exact hd.worded
  · intro u hu
    have hmem : u.bound ∈ q.machine.untils.map Until.bound := by
      rw [← Machine.analyzed_bounds]
      exact List.mem_map_of_mem hu
    obtain ⟨v, hv, he⟩ := List.mem_map.mp hmem
    exact he ▸ hd.readable v hv
  · intro v hv hr
    exact hw (.reservedVariable hv hr)

/-- The unit of an accepted program, with a stem that has no line breaks, as the machine's name has
none, has its state enumeration and the function that sets it up, and this leads from any data to
the start state with every counter at zero. Over every run of the unit the machine is in one of its
states, and the lines written for each transition of that state can be carried out and make its
change. The counter of a block that it is not in is zero, that of the block it is in is the number
of retries since the block was entered, or its overflow taken, or the run began; and a counter that
is not zero is below the bound. -/
theorem retries_exact {file : Option Text} {source : Text} {c c' : Compilation} {p q : Program}
    (hp : parse { file } source = (c, .ok q)) (ha : c.analyze q = (c', p, .ok ())) {stem : Text}
    (hstem : stem.IsUnbroken) (value : Text → Nat) :
    ∃ s n unit, start p.machine = .ok s ∧ p.machine.start = some n ∧
      lines p stem s.name = .ok unit ∧ text p stem = .ok (Text.join "\n" unit ++ "\n") ∧
      (stateEnumeration p.machine stem).lines <:+: unit ∧
      (initDeclaration p stem s.name).lines <:+: unit ∧
      (∀ config : Config, config.retries.length = p.machine.untils.length →
        execute (stateEnumerators p.machine stem) value (initBody p stem s.name) config =
          some ⟨n, List.replicate p.machine.untils.length 0⟩) ∧
      ∀ taken config, Runs p stem unit value taken config →
        config.state < p.machine.states.length ∧
        (∃ s, p.machine.sites[config.state]? = some s ∧
          ∀ t ∈ s.state.transitions, ∃ e a, Performs p.machine stem unit s t e a ∧
            a.printed stem <:+: unit ∧
            execute (stateEnumerators p.machine stem) value (a.printed stem) config =
              some (a.change.apply value config)) ∧
        ∀ j u, p.machine.untils[j]? = some u → ∃ x, config.retries[j]? = some x ∧
          (p.machine.blockOf config.state ≠ some j → x = 0) ∧
          (p.machine.blockOf config.state = some j → x = p.machine.tries j taken) ∧
          (x = 0 ∨ x < u.bound.value value) := by
  have hsound := sound_of_accepted hp ha
  obtain ⟨hfits, s, unit, hs, hlines, htext⟩ := unit_accepted hp ha stem
  obtain ⟨n, hn, hstate⟩ := start_eq hs
  refine ⟨s, n, unit, hs, hn, hlines, htext, ?_, ?_, ?_, ?_⟩
  · apply declaration_within hlines
    intro cases
    simp [declarations]
  · apply declaration_within hlines
    intro cases
    simp [declarations]
  · intro config hsize
    have hwords := Machine.variables_worded hsound.worded
    exact execute_init stem hsound.distinct hwords hsound.free
      (congrArg (Option.map State.name) hstate) hsize
  · intro taken config hr
    have hrun := hr.machine hsound hstem
    have hcounted := hrun.counted hsound.start hsound.effect
    refine ⟨hcounted.state, ?_, ?_⟩
    · have hlt : config.state < p.machine.sites.length := by
        have h := hcounted.state
        rwa [← Machine.sites_states, List.length_map] at h
      refine ⟨_, List.getElem?_eq_getElem hlt, ?_⟩
      intro t ht
      obtain ⟨e, a, hperforms⟩ := unit_performs hfits hlines (List.getElem_mem hlt) ht
      have hs := List.getElem?_eq_getElem hlt
      have hwords := hsound.actuation hs ht hperforms.actuation
      refine ⟨e, a, hperforms, hperforms.printed hstem hwords, ?_⟩
      apply execute_actuation hsound.distinct hstem hrun.length _ hwords
      exact hsound.named hs ht hperforms.actuation
    · intro j u hu
      have hj := (List.getElem?_eq_some_iff.mp hu).1
      by_cases hin : p.machine.blockOf config.state = some j
      · have hx := hcounted.inside j hin
        refine ⟨_, hx, fun h => absurd hin h, fun _ => rfl, ?_⟩
        rw [← boundValue_text value (hsound.readable u (List.mem_of_getElem? hu))]
        exact hcounted.below j u _ hu hx
      · exact ⟨0, hcounted.outside j hj hin, fun _ => rfl, fun h => absurd h hin, .inl rfl⟩

/-- The sample, after it went to its block and was retried there twice. -/
theorem sample_retried : ∃ c q c' p taken, parse {} sample = (c, .ok q) ∧
    c.analyze q = (c', p, .ok ()) ∧ p.machine.Runs (fun _ => 0) taken ⟨1, [2]⟩ := by
  let test (m : Machine) : Bool :=
    (m.number.resolve.run? (fun _ => 0) [0, 0, 0]).any fun r =>
      r.2.state == 1 && r.2.retries == [2]
  have htest : accepts none sample test = true := by decide +kernel
  obtain ⟨c, q, c', p, hp, ha, hm, hrun⟩ := accepted htest
  obtain ⟨⟨taken, state, retries⟩, hmem, he⟩ := (Option.any_eq_true _ _).mp hrun
  simp only [Bool.and_eq_true, beq_iff_eq] at he
  obtain ⟨rfl, rfl⟩ := he
  refine ⟨c, q, c', p, taken, hp, ha, ?_⟩
  rw [hm]
  exact Machine.run?_runs hmem

theorem retries_exact_sample : ∃ c q c' p s n unit taken, parse {} sample = (c, .ok q) ∧
    c.analyze q = (c', p, .ok ()) ∧ start p.machine = .ok s ∧ p.machine.start = some n ∧
    text p "x" = .ok (Text.join "\n" unit ++ "\n") ∧
    (initDeclaration p "x" s.name).lines <:+: unit ∧
    (∀ config : Config, config.retries.length = p.machine.untils.length →
      execute (stateEnumerators p.machine "x") (fun _ => 0) (initBody p "x" s.name) config =
        some ⟨n, List.replicate p.machine.untils.length 0⟩) ∧
    Runs p "x" unit (fun _ => 0) taken ⟨1, [2]⟩ ∧
    1 < p.machine.states.length ∧
    (∃ s, p.machine.sites[1]? = some s ∧
      ∀ t ∈ s.state.transitions, ∃ e a, Performs p.machine "x" unit s t e a ∧
        a.printed "x" <:+: unit ∧
        execute (stateEnumerators p.machine "x") (fun _ => 0) (a.printed "x") ⟨1, [2]⟩ =
          some (a.change.apply (fun _ => 0) ⟨1, [2]⟩)) ∧
    ∀ j u, p.machine.untils[j]? = some u → ∃ x, [2][j]? = some x ∧
      (p.machine.blockOf 1 ≠ some j → x = 0) ∧
      (p.machine.blockOf 1 = some j → x = p.machine.tries j taken) ∧
      (x = 0 ∨ x < u.bound.value fun _ => 0) := by
  obtain ⟨c, q, c', p, taken, hp, ha, hr⟩ := sample_retried
  have hstem : Text.IsUnbroken "x" := Text.isUnbroken_of_all rfl
  obtain ⟨s, n, unit, hs, hn, hlines, htext, _, hinit, hset, hruns⟩ :=
    retries_exact hp ha hstem fun _ => 0
  have hrun := hr.written (sound_of_accepted hp ha) hstem hs hlines
  exact ⟨c, q, c', p, s, n, unit, taken, hp, ha, hs, hn, htext, hinit, hset, hrun, hruns _ _ hrun⟩

end Compilation
end Statewright
