import Statewright.Compilation
import Statewright.Proofs.WellFormed

namespace Statewright
namespace Machine

/-- The state that a jump is to lead to, by what the source says. -/
inductive Leads (m : Machine) : Jump → State → Prop
  | go : m.states.filter (·.name = r.name) = [s] → Leads m (.go r) s
  | err : m.states.find? (·.has .err) = some s → Leads m (.err r) s

/-- A move to the state that its jump is to lead to. -/
def MoveFits (m : Machine) (j : Jump) (move : Move) : Prop :=
  ∃ s, m.Leads j s ∧ m.states[move.target]? = some s ∧ move.state = s.name ∧
    move.label = j.label?

/-- A change as its action demands; a retry starts over in the first state of the block. -/
inductive ChangeFits (m : Machine) (block : Option (Nat × Until)) : Action → Change → Prop
  | jump : m.MoveFits j move → ChangeFits m block (.jump j) (.move move)
  | retry : block = some (k, u) → m.MoveFits u.overflow overflow → u.states.head? = some s →
      m.states[target]? = some s →
      ChangeFits m block .retry (.retry k u.bound.text overflow target s.name)

/-- The only timer of a name. -/
def IsTimer (m : Machine) (r : Ref) (t : Timer) : Prop :=
  m.timers.filter (·.name = r.name) = [t]

/-- Every look-up that the unit is written from succeeds, with what the source named. -/
structure Fits (m : Machine) : Prop where
  states : ∀ i s, m.states[i]? = some s → m.stateAt s.index = .ok (i, s.name)
  timeouts : ∀ s ∈ m.sites, ∀ t ∈ s.state.transitions, ∀ r, t.trigger = .timeout r →
    ∃ timer, m.timerAt r.index = .ok timer ∧ m.IsTimer r timer
  actuations : ∀ s ∈ m.sites, ∀ t ∈ s.state.transitions,
    ∃ a, Actuation.ofTransition m s.block t = .ok a ∧
      a.starts.map ([·]) = t.starts.map (fun r => m.timers.filter (·.name = r.name)) ∧
      m.ChangeFits s.block t.action a.change

/-- Where names are distinct, a member is the only one of its name. -/
theorem filter_name {α β : Type} [DecidableEq β] {name : α → β} {xs : List α} (hd : (xs.map name).Nodup) {x : α}
    (hx : x ∈ xs) : xs.filter (fun y => name y = name x) = [x] := by
  obtain ⟨before, after, rfl⟩ := List.append_of_mem hx
  rw [List.map_append, List.map_cons, List.nodup_append, List.nodup_cons] at hd
  obtain ⟨_, ⟨ha, _⟩, hb⟩ := hd
  have hbefore : before.filter (fun y => decide (name y = name x)) = [] := by
    rw [List.filter_eq_nil_iff]
    intro y hy
    have hne := hb (name y) (List.mem_map_of_mem hy) (name x) (by simp)
    simpa using hne
  have hafter : after.filter (fun y => decide (name y = name x)) = [] := by
    rw [List.filter_eq_nil_iff]
    intro y hy he
    exact ha (of_decide_eq_true he ▸ List.mem_map_of_mem hy)
  rw [List.filter_append, hbefore, List.filter_cons_of_pos (by simp), hafter, List.nil_append]

theorem stateAt_eq {m : Machine} {n : Nat} {s : State} (h : m.states[n]? = some s) :
    m.stateAt (some (n : Int)) = .ok (n, s.name) := by
  obtain ⟨hlt, _⟩ := List.getElem?_eq_some_iff.mp h
  have hp : position? m.states.length (some (n : Int)) = some n := if_pos hlt
  simp [stateAt, hp, h]

theorem timerAt_eq {m : Machine} {n : Nat} {t : Timer} (h : m.timers[n]? = some t) :
    m.timerAt (some (n : Int)) = .ok t := by
  obtain ⟨hlt, _⟩ := List.getElem?_eq_some_iff.mp h
  have hp : position? m.timers.length (some (n : Int)) = some n := if_pos hlt
  simp [timerAt, hp, h]

theorem changeOf_of_jump {m : Machine} {block : Option (Nat × Until)} {t : Transition} {j : Jump}
    {move : Move} (h : t.action = .jump j) (hm : Actuation.moveOf m j t.link = .ok move) :
    Actuation.changeOf m block t = .ok (.move move) := by
  simp only [Actuation.changeOf, h, hm]
  rfl

theorem changeOf_of_retry {m : Machine} {k target : Nat} {u : Until} {t : Transition}
    {overflow : Move} {state : Text} (h : t.action = .retry)
    (hm : Actuation.moveOf m u.overflow u.link = .ok overflow)
    (hs : m.stateAt t.link.target = .ok (target, state)) :
    Actuation.changeOf m (some (k, u)) t =
      .ok (.retry k u.bound.text overflow target state) := by
  simp only [Actuation.changeOf, h, hm, hs]
  rfl

theorem position?_some {size n : Nat} {index : Option Int} (h : position? size index = some n) :
    index = some (n : Int) := by
  unfold position? at h
  split at h
  · split at h
    · cases h
      rfl
    · cases h
  · cases h

theorem stateAt_ok {m : Machine} {index : Option Int} {n : Nat} {name : Text}
    (h : m.stateAt index = .ok (n, name)) :
    index = some (n : Int) ∧ ∃ s, m.states[n]? = some s ∧ s.name = name := by
  unfold stateAt at h
  split at h
  · rename_i hfound
    obtain ⟨i, hi, hfound⟩ := Option.bind_eq_some_iff.mp hfound
    obtain ⟨s, hs, rfl⟩ := Option.map_eq_some_iff.mp hfound
    cases h
    exact ⟨position?_some hi, s, hs, rfl⟩
  · cases h

theorem moveOf_ok {m : Machine} {j : Jump} {link : Link} {move : Move}
    (h : Actuation.moveOf m j link = .ok move) :
    m.stateAt link.target = .ok (move.target, move.state) := by
  unfold Actuation.moveOf at h
  cases hs : m.stateAt link.target with
  | error e =>
    rw [hs] at h
    cases h
  | ok found =>
    rw [hs] at h
    cases h
    rfl

/-- A change with the states that were looked up for it. -/
inductive Found (m : Machine) (block : Option (Nat × Until)) (t : Transition) : Change → Prop
  | jump {j : Jump} {move : Move} : t.action = .jump j →
      m.stateAt t.link.target = .ok (move.target, move.state) → Found m block t (.move move)
  | retry {k target : Nat} {u : Until} {overflow : Move} {state : Text} : t.action = .retry →
      block = some (k, u) → m.stateAt u.link.target = .ok (overflow.target, overflow.state) →
      m.stateAt t.link.target = .ok (target, state) →
      Found m block t (.retry k u.bound.text overflow target state)

theorem change_found {m : Machine} {block : Option (Nat × Until)} {t : Transition}
    {change : Change} (h : Actuation.changeOf m block t = .ok change) : m.Found block t change := by
  unfold Actuation.changeOf at h
  split at h
  · rename_i j hj
    cases hm : Actuation.moveOf m j t.link with
    | error e =>
      rw [hm] at h
      cases h
    | ok move =>
      rw [hm] at h
      cases h
      exact .jump hj (moveOf_ok hm)
  · cases h
  · rename_i k u hr
    cases hm : Actuation.moveOf m u.overflow u.link with
    | error e =>
      rw [hm] at h
      cases h
    | ok overflow =>
      cases hs : m.stateAt t.link.target with
      | error e =>
        rw [hm, hs] at h
        cases h
      | ok found =>
        rw [hm, hs] at h
        cases h
        exact .retry hr rfl (moveOf_ok hm) hs

theorem analyzed_getElem? {m : Machine} {p : Spot} (hp : p ∈ m.spots) :
    m.number.resolve.states[p.number]? =
      some (m.finishState p.frame p.number p.state) := by
  rw [analyzed_states, List.getElem?_map, mem_spots.mp hp]
  rfl

theorem analyzed_names (m : Machine) :
    m.number.resolve.states.map State.name = m.states.map State.name := by
  rw [analyzed_states, ← spots_states, List.map_map, List.map_map]
  rfl

theorem analyzed_stateNumber? (m : Machine) (name : Text) :
    m.number.resolve.stateNumber? name = m.stateNumber? name := by
  unfold stateNumber?
  rw [analyzed_states]
  exact m.findIdx?_spots _ _ fun _ => rfl

theorem analyzed_flagged? (m : Machine) (flag : Flag) :
    m.number.resolve.flagged? flag = m.flagged? flag := by
  unfold flagged?
  rw [analyzed_states]
  exact m.findIdx?_spots _ _ fun _ => rfl

/-- A jump leads where it did before its name was resolved. -/
theorem analyzed_jumpTarget? (m : Machine) (j : Jump) :
    m.number.resolve.jumpTarget? (m.finishJump j) = m.jumpTarget? j := by
  cases j with
  | go r =>
    obtain ⟨index, h⟩ : ∃ index, m.finishJump (.go r) = .go { r with index } := by
      dsimp only [finishJump, resolveJump]
      cases m.number.stateNumber? r.name with
      | none => exact ⟨r.index, rfl⟩
      | some n => exact ⟨some n, rfl⟩
    rw [h]
    exact analyzed_stateNumber? m r.name
  | err r => exact analyzed_flagged? m .err

/-- The number that a jump is resolved to is that of the state it is to lead to. -/
theorem leads_of_target {m : Machine} (hd : (m.states.map State.name).Nodup) {j : Jump} {n : Nat}
    (h : m.jumpTarget? j = some n) : ∃ s, m.states[n]? = some s ∧ m.Leads j s := by
  cases j with
  | go r =>
    obtain ⟨hlt, hname, _⟩ := List.findIdx?_eq_some_iff_getElem.mp h
    have hf := filter_name hd (List.getElem_mem hlt)
    rw [of_decide_eq_true hname] at hf
    exact ⟨_, List.getElem?_eq_getElem hlt, .go hf⟩
  | err r =>
    have hlt := jumpTarget?_lt h
    refine ⟨_, List.getElem?_eq_getElem hlt, .err ?_⟩
    have hn : m.states.findIdx? (·.has .err) = some n := h
    rw [List.find?_eq_bind_findIdx?_getElem?, hn, Option.bind_some, List.getElem?_eq_getElem hlt]

theorem transition_of_spot {m : Machine} {p : Spot} (hp : p ∈ m.spots) {t : Transition}
    (ht : t ∈ p.state.transitions) : t ∈ m.transitions :=
  transition_of_site (site_of_spot hp) ht

theorem timers_of_transition {m : Machine} {t : Transition} (ht : t ∈ m.transitions) {r : Ref}
    (hr : r ∈ t.trigger.timer?.toList ++ t.starts) : r ∈ m.timerRefs :=
  List.mem_flatMap.mpr ⟨t, ht, hr⟩

/-- The first state of a block has the first number of its frame. -/
theorem block_first {m : Machine} {p : Spot} (hp : p ∈ m.spots) {f : Frame} {u : Until}
    (hb : p.block = some (f, u)) :
    ∃ s, (m.finishBlock f u).states.head? = some s ∧
      m.number.resolve.states[f.first]? = some s := by
  have hpos := (frame_first hp hb).1
  have hs : u.states[0]? = some u.states[0] := List.getElem?_eq_getElem hpos
  have hspot : ⟨f.first + 0, u.states[0], some (f, u)⟩ ∈ m.spots := spotsFrom_block hp hb hs
  refine ⟨_, ?_, analyzed_getElem? hspot⟩
  rw [List.head?_eq_getElem?]
  simp only [finishBlock, List.getElem?_mapIdx, hs]
  rfl

section Accepted
variable {m : Machine} (hw : ¬ m.IllFormed)
include hw

theorem jump_found {j : Jump} (hj : j ∈ m.jumps) : ∃ n, m.jumpTarget? j = some n := by
  refine Option.isSome_iff_exists.mp (Classical.byContradiction fun hn => hw ?_)
  cases j with
  | go r =>
    have hnone : m.stateNumber? r.name = none := by simpa [jumpTarget?] using hn
    exact .unknownState hj (by simpa [stateNumber?] using hnone)
  | err r =>
    have hnone : m.flagged? .err = none := by simpa [jumpTarget?] using hn
    exact .noErrState hj (by simpa [flagged?, State.has] using hnone)

theorem timer_found {r : Ref} (hr : r ∈ m.timerRefs) :
    ∃ n timer, m.timerNumber? r.name = some n ∧ m.timers[n]? = some timer ∧ m.IsTimer r timer := by
  have hsome : (m.timerNumber? r.name).isSome := by
    refine Classical.byContradiction fun hn => hw (.unknownTimer hr ?_)
    have hnone : m.timers.findIdx? (·.name = r.name) = none := by simpa [timerNumber?] using hn
    simpa using hnone
  obtain ⟨n, hn⟩ := Option.isSome_iff_exists.mp hsome
  obtain ⟨hlt, hname, _⟩ := List.findIdx?_eq_some_iff_getElem.mp hn
  have hd : (m.timers.map Timer.name).Nodup := Classical.byContradiction fun h => hw (.twinTimers h)
  refine ⟨n, m.timers[n], hn, List.getElem?_eq_getElem hlt, ?_⟩
  have hf := filter_name hd (List.getElem_mem hlt)
  rwa [of_decide_eq_true hname] at hf

theorem analyzed_distinct : (m.number.resolve.states.map State.name).Nodup := by
  rw [analyzed_names]
  exact Classical.byContradiction fun h => hw (.twinStates h)

/-- The move of a jump whose link has its target. -/
theorem moveOf_fits {j : Jump} {n : Nat} {link : Link} (h : m.jumpTarget? j = some n)
    (hl : link.target = some (n : Int)) :
    ∃ move, Actuation.moveOf m.number.resolve (m.finishJump j) link = .ok move ∧
      m.number.resolve.MoveFits (m.finishJump j) move ∧
      move.cleared = link.leaves ∧ move.target = n := by
  rw [← analyzed_jumpTarget?] at h
  generalize m.finishJump j = j at h ⊢
  obtain ⟨s, hs, hleads⟩ := leads_of_target (analyzed_distinct hw) h
  refine ⟨⟨link.leaves, j.label?, n, s.name⟩, ?_, ⟨s, hleads, hs, rfl, rfl⟩, rfl, rfl⟩
  unfold Actuation.moveOf
  rw [hl, stateAt_eq hs]
  cases j <;> rfl

theorem resolved_timer {r : Ref} (hr : r ∈ m.timerRefs) :
    ∃ timer, m.number.resolve.timerAt (m.number.resolveTimer r).index = .ok timer ∧
      m.number.resolve.IsTimer (m.number.resolveTimer r) timer := by
  obtain ⟨n, timer, hn, ht, his⟩ := timer_found hw hr
  have h : m.number.resolveTimer r = { r with index := some (n : Int) } := by
    unfold resolveTimer
    rw [number_timerNumber?, hn]
  rw [h]
  exact ⟨timer, timerAt_eq (m := m.number.resolve) ht, his⟩

/-- The timers that a transition starts. -/
theorem resolved_starts (rs : List Ref) (hr : ∀ r ∈ rs, r ∈ m.timerRefs) :
    ∃ timers, (rs.map m.number.resolveTimer).mapM (fun r => m.number.resolve.timerAt r.index) =
        .ok timers ∧
      timers.map ([·]) = (rs.map m.number.resolveTimer).map fun r =>
        m.number.resolve.timers.filter (·.name = r.name) := by
  induction rs with
  | nil => exact ⟨[], rfl, rfl⟩
  | cons r rs ih =>
    obtain ⟨timer, ht, his⟩ := resolved_timer hw (hr r (by simp))
    obtain ⟨timers, hts, hall⟩ := ih fun q hq => hr q (by simp [hq])
    refine ⟨timer :: timers, ?_, ?_⟩
    · rw [List.map_cons, List.mapM_cons, ht, hts]
      rfl
    · rw [List.map_cons, hall, ← his]
      rfl

/-- What a jump out of a state does: it clears the counter of the block that it leaves. -/
theorem changeOf_jump (hf : m.Fresh) {p : Spot} (hp : p ∈ m.spots) {t : Transition}
    (ht : t ∈ p.state.transitions) {j : Jump} (hj : t.action = .jump j) :
    ∃ move n, Actuation.changeOf m.number.resolve (m.finishSite p).block
        (m.finishTransition p.frame t) = .ok (.move move) ∧
      m.number.resolve.MoveFits (m.finishJump j) move ∧
      m.jumpTarget? j = some n ∧ move.target = n ∧
      move.cleared = (p.frame.toList.filter fun b => !b.has n).map Frame.number := by
  have hmem : j ∈ m.jumps := by
    refine List.mem_append_left _ (List.mem_filterMap.mpr ⟨t, transition_of_spot hp ht, ?_⟩)
    rw [hj]
    rfl
  obtain ⟨n, hn⟩ := jump_found hw hmem
  have haction : (m.finishTransition p.frame t).action = .jump (m.finishJump j) := by
    rw [finishTransition_action, hj, finishAction]
  obtain ⟨htarget, hleaves⟩ := finishTransition_jump (hf.link hp ht) hj hn p.frame
  obtain ⟨move, hmove, hfits, hcleared, hto⟩ := moveOf_fits hw hn htarget
  refine ⟨move, n, ?_, hfits, hn, hto, hcleared.trans hleaves⟩
  exact changeOf_of_jump haction hmove

/-- What a retry does: it counts a try of the block around it, and the overflow of that block
clears the count. -/
theorem changeOf_retry (hf : m.Fresh) {p : Spot} (hp : p ∈ m.spots) {t : Transition}
    (ht : t ∈ p.state.transitions) (hr : t.action = .retry) :
    ∃ f u overflow n s, p.block = some (f, u) ∧
      Actuation.changeOf m.number.resolve (m.finishSite p).block
        (m.finishTransition p.frame t) =
          .ok (.retry f.number u.bound.text overflow f.first s.name) ∧
      m.number.resolve.MoveFits (m.finishJump u.overflow) overflow ∧
      m.jumpTarget? u.overflow = some n ∧ overflow.target = n ∧ overflow.cleared = [f.number] ∧
      (m.finishBlock f u).states.head? = some s ∧
      m.number.resolve.states[f.first]? = some s := by
  cases hb : p.block with
  | none =>
    have hlone : p.site = ⟨p.state, none⟩ := by
      simp only [Spot.site, hb, Option.map_none]
    exact (hw (.strayRetry (lone_site.mp (hlone ▸ site_of_spot hp)) ht hr)).elim
  | some b =>
    obtain ⟨f, u⟩ := b
    have hmem : u.overflow ∈ m.jumps :=
      List.mem_append_right _ (List.mem_map_of_mem (List.mem_of_getElem? (spots_untils hp hb)))
    obtain ⟨n, hn⟩ := jump_found hw hmem
    obtain ⟨htarget, hleaves⟩ := finishBlock_link (hf.overflow hp hb) hn f
    obtain ⟨overflow, hmove, hfits, hcleared, hto⟩ := moveOf_fits hw hn htarget
    obtain ⟨s, hhead, hfirst⟩ := block_first hp hb
    refine ⟨f, u, overflow, n, s, rfl, ?_, hfits, hn, hto, hcleared.trans hleaves, hhead, hfirst⟩
    have hframe : p.frame = some f := by
      simp only [Spot.frame, hb, Option.map_some]
    have hblock : (m.finishSite p).block = some (f.number, m.finishBlock f u) := by
      simp only [finishSite, hb, Option.map_some]
    have haction : (m.finishTransition (some f) t).action = .retry := by
      rw [finishTransition_action, hr, finishAction]
    rw [hframe, hblock]
    refine changeOf_of_retry haction hmove ?_
    rw [finishTransition_retry hr f, stateAt_eq hfirst]

/-- The change of every transition can be found, and is as its action demands. -/
theorem changeOf_fits (hf : m.Fresh) {p : Spot} (hp : p ∈ m.spots) {t : Transition}
    (ht : t ∈ p.state.transitions) :
    ∃ change, Actuation.changeOf m.number.resolve (m.finishSite p).block
        (m.finishTransition p.frame t) = .ok change ∧
      m.number.resolve.ChangeFits (m.finishSite p).block (m.finishTransition p.frame t).action
        change := by
  rw [finishTransition_action]
  cases ha : t.action with
  | jump j =>
    obtain ⟨move, _, hc, hfits, _⟩ := changeOf_jump hw hf hp ht ha
    exact ⟨_, hc, .jump hfits⟩
  | retry =>
    obtain ⟨f, u, overflow, _, s, hb, hc, hfits, _, _, _, hhead, hfirst⟩ :=
      changeOf_retry hw hf hp ht ha
    refine ⟨_, hc, .retry (u := m.finishBlock f u) ?_ hfits hhead hfirst⟩
    simp only [finishSite, hb, Option.map_some]

/-- An accepted machine fits once it is analyzed. -/
theorem analyzed_fits (hf : m.Fresh) : m.number.resolve.Fits := by
  refine ⟨?_, ?_, ?_⟩
  · intro i s hs
    have hindex : s.index = some (i : Int) := by
      rw [analyzed_states, List.getElem?_map] at hs
      obtain ⟨p, hp, rfl⟩ := Option.map_eq_some_iff.mp hs
      rw [← spots_getElem? hp]
      rfl
    rw [hindex, stateAt_eq hs]
  · intro s hs t' ht' r' hr'
    rw [analyzed_sites] at hs
    obtain ⟨p, hp, rfl⟩ := List.mem_map.mp hs
    rw [finishSite_transitions] at ht'
    obtain ⟨t, ht, rfl⟩ := List.mem_map.mp ht'
    change m.number.resolveTrigger t.trigger = .timeout r' at hr'
    cases htr : t.trigger with
    | when f => simp [resolveTrigger, htr] at hr'
    | timeout r =>
      simp only [resolveTrigger, htr, Trigger.timeout.injEq] at hr'
      subst hr'
      refine resolved_timer hw (timers_of_transition (transition_of_spot hp ht) ?_)
      simp [htr, Trigger.timer?]
  · intro s hs t' ht'
    rw [analyzed_sites] at hs
    obtain ⟨p, hp, rfl⟩ := List.mem_map.mp hs
    rw [finishSite_transitions] at ht'
    obtain ⟨t, ht, rfl⟩ := List.mem_map.mp ht'
    have hmem := transition_of_spot hp ht
    obtain ⟨starts, hstarts, hall⟩ := resolved_starts hw t.starts
      fun r hr => timers_of_transition hmem (by simp [hr])
    obtain ⟨change, hc, hfits⟩ := changeOf_fits hw hf hp ht
    have hs : (m.finishTransition p.frame t).starts.mapM
        (fun r => m.number.resolve.timerAt r.index) = .ok starts := hstarts
    refine ⟨⟨starts, change⟩, ?_, hall, hfits⟩
    simp only [Actuation.ofTransition, hs, hc]
    rfl

end Accepted

/-- The start state of an accepted machine. -/
theorem start_found {m : Machine} (hw : ¬ m.IllFormed) :
    ∃ s, CUnit.start m.number.resolve = .ok s := by
  have hcount : m.states.countP (·.has .start) = 1 :=
    Classical.byContradiction fun h => hw (.starts h)
  have hpos : 0 < m.states.countP (·.has .start) := by omega
  obtain ⟨s, hs, hflag⟩ := List.countP_pos_iff.mp hpos
  have hsome : (m.flagged? .start).isSome := by
    rw [flagged?, List.findIdx?_isSome, List.any_eq_true]
    exact ⟨s, hs, hflag⟩
  obtain ⟨n, hn⟩ := Option.isSome_iff_exists.mp hsome
  have hlt : n < m.number.resolve.states.length := by
    rw [analyzed_states_length]
    exact (List.findIdx?_eq_some_iff_getElem.mp hn).1
  have hstart : m.number.resolve.start = some n := by
    change (m.flagged? .start).or m.start = some n
    rw [hn, Option.some_or]
  refine ⟨m.number.resolve.states[n], ?_⟩
  unfold CUnit.start
  rw [hstart, Option.bind_some, List.getElem?_eq_getElem hlt]

end Machine

namespace CUnit

theorem mapM_succeeds {ε α β : Type} {f : α → Except ε β} {xs : List α}
    (h : ∀ x ∈ xs, ∃ y, f x = .ok y) : ∃ ys, xs.mapM f = .ok ys := by
  induction xs with
  | nil => exact ⟨[], rfl⟩
  | cons x xs ih =>
    obtain ⟨y, hy⟩ := h x (by simp)
    obtain ⟨ys, hys⟩ := ih fun z hz => h z (by simp [hz])
    exact ⟨y :: ys, by rw [List.mapM_cons, hy, hys]; rfl⟩

theorem forM_succeeds {ε α : Type} {f : α → Except ε Unit} {xs : List α}
    (h : ∀ x ∈ xs, f x = .ok ()) : xs.forM f = .ok () := by
  induction xs with
  | nil => rfl
  | cons x xs ih =>
    rw [List.forM_eq_forM, List.forM_cons, h x (by simp)]
    exact ih fun y hy => h y (by simp [hy])

variable {m : Machine} (h : m.Fits)
include h

theorem condition_succeeds {s : Site} (hs : s ∈ m.sites) {t : Transition}
    (ht : t ∈ s.state.transitions) (stem : Text) : ∃ c, condition m stem t.trigger = .ok c := by
  cases htr : t.trigger with
  | when f => exact ⟨_, rfl⟩
  | timeout r =>
    obtain ⟨timer, hr, _⟩ := h.timeouts s hs t ht r htr
    simp only [condition, hr]
    exact ⟨_, rfl⟩

theorem transitionLines_succeeds {s : Site} (hs : s ∈ m.sites) {t : Transition}
    (ht : t ∈ s.state.transitions) (stem : Text) : ∃ ls, transitionLines m stem s t = .ok ls := by
  obtain ⟨text, htext⟩ := condition_succeeds h hs ht stem
  obtain ⟨a, ha, _⟩ := h.actuations s hs t ht
  simp only [transitionLines, htext, ha]
  exact ⟨_, rfl⟩

theorem stepCase_succeeds {s : Site} (hs : s ∈ m.sites) (stem : Text) :
    ∃ ls, stepCase m stem s = .ok ls := by
  obtain ⟨ts, hts⟩ := mapM_succeeds fun t ht => transitionLines_succeeds h hs ht stem
  simp only [stepCase, caseLines, hts]
  exact ⟨_, rfl⟩

theorem checkStates_succeeds : checkStates m = .ok () := by
  refine forM_succeeds fun s hs => ?_
  obtain ⟨i, hi⟩ := List.mem_iff_getElem?.mp hs
  rw [h.states i s hi]
  rfl

omit h in
/-- The unit of a machine that fits can be written. -/
theorem text_succeeds {p : Program} (h : p.machine.Fits) {s : State}
    (hs : start p.machine = .ok s) (stem : Text) :
    ∃ ls, lines p stem s.name = .ok ls ∧ text p stem = .ok (Text.join "\n" ls ++ "\n") := by
  obtain ⟨cases, hcases⟩ := mapM_succeeds fun site hsite => stepCase_succeeds h hsite stem
  obtain ⟨ls, hls⟩ : ∃ ls, lines p stem s.name = .ok ls := by
    simp only [lines, checkStates_succeeds h, stepLines, hcases]
    exact ⟨_, rfl⟩
  refine ⟨ls, hls, ?_⟩
  simp only [text, hs, hls, bind, Except.bind]
  rfl

end CUnit

namespace Compilation
open Statewright.Language

theorem parse_cases (file : Option Text) (source : Text) :
    (∃ c ds, parse { file } source = (c, .error (.rejected ds)) ∧ ∃ d ∈ ds, d.isError) ∨
    ∃ c p, parse { file } source = (c, .ok p) ∧ Derives file source p ∧ c.diagnostics = [] := by
  by_cases hex : ∃ p, Derives file source p
  · obtain ⟨p, hp⟩ := hex
    exact .inr ⟨_, p, Prod.ext rfl (parse_ok_iff.mpr hp), hp, parse_clean hp⟩
  · obtain ⟨ds, hr, hne, hall⟩ := parse_rejected fun p hp => hex ⟨p, hp⟩
    obtain ⟨d, hd⟩ := List.exists_mem_of_ne_nil ds hne
    exact .inl ⟨_, ds, Prod.ext rfl hr, d, hd, (hall d hd).1⟩

theorem generate_succeeds (c : Compilation) {p : Program} (h : p.machine.Fits) {s : State}
    (hs : CUnit.start p.machine = .ok s) (stem : Option Text) :
    ∃ c' ls, c.generate p stem = (c', .ok (Text.join "\n" ls ++ "\n")) ∧
      c'.diagnostics = c.diagnostics ∧
      CUnit.lines p (stem.getD p.machine.name) s.name = .ok ls ∧
      CUnit.text p (stem.getD p.machine.name) = .ok (Text.join "\n" ls ++ "\n") := by
  obtain ⟨ls, hls, htext⟩ := CUnit.text_succeeds h hs (stem.getD p.machine.name)
  refine ⟨c.note (.generating p.machine.name (stem.getD p.machine.name)), ls, ?_, rfl, hls, htext⟩
  simp only [generate, hs, htext]

/-- An analysis that succeeds was not cut short by a bound. -/
theorem analyze_bounds {c : Compilation} {p : Program} (h : (c.analyze p).2.2 = .ok ()) :
    ∀ u ∈ p.machine.untils, u.bound.isLong = false := by
  refine Classical.byContradiction fun hn => ?_
  have hany : p.machine.untils.any (·.bound.isLong) = true := by simpa using hn
  simp [analyze, Analysis.run, hany] at h

/-- What is known of a program that analysis accepts. -/
theorem analyze_accepted {file : Option Text} {source : Text} {c c' : Compilation}
    {p q : Program} (hp : parse { file } source = (c, .ok q))
    (ha : c.analyze q = (c', p, .ok ())) :
    Derives file source q ∧ p.machine = q.machine.number.resolve ∧ ¬ q.machine.IllFormed := by
  obtain ⟨hd, hc⟩ := derives_of_parse hp
  have hlong := analyze_bounds (c := c) (p := q) (by rw [ha])
  obtain ⟨hprogram, hiff, _, hcheck⟩ := analyze_of_fresh hc hd.fresh hd.readable hlong
  rw [ha] at hprogram hiff hcheck
  dsimp only at hprogram hiff hcheck
  refine ⟨hd, by rw [hprogram], ?_⟩
  rw [← hiff]
  exact (check_ok c').mp hcheck.symm

/-- Whether a source can be read, nothing is found wrong with its machine, and this passes a
test. -/
def accepts (file : Option Text) (source : Text) (test : Machine → Bool) : Bool :=
  (parse { file } source).2.toOption.any fun q =>
    q.machine.untils.all (!·.bound.isLong) &&
      ((q.machine.checkDeclarations ++ q.machine.checkItems).isEmpty && test q.machine)

theorem accepted {file : Option Text} {source : Text} {test : Machine → Bool}
    (h : accepts file source test) :
    ∃ c q c' p, parse { file } source = (c, .ok q) ∧ c.analyze q = (c', p, .ok ()) ∧
      p.machine = q.machine.number.resolve ∧ test q.machine := by
  unfold accepts at h
  generalize hparse : parse { file } source = result at h
  obtain ⟨c, result⟩ := result
  cases result with
  | error e => cases h
  | ok q =>
    simp only [Except.toOption, Option.any_some, Bool.and_eq_true, List.isEmpty_iff] at h
    obtain ⟨hlong, hclean, htest⟩ := h
    obtain ⟨hd, hc⟩ := derives_of_parse hparse
    have hshort : ∀ u ∈ q.machine.untils, u.bound.isLong = false := by simpa using hlong
    have hw : ¬ q.machine.IllFormed := by
      rw [← Machine.flawed_iff hd.readable hshort, hclean]
      exact flawed_nil
    obtain ⟨hprogram, hiff, _, hcheck⟩ := analyze_of_fresh hc hd.fresh hd.readable hshort
    rw [← hiff, ← check_ok, ← hcheck] at hw
    exact ⟨c, q, (c.analyze q).1, (c.analyze q).2.1, rfl, Prod.ext rfl (Prod.ext rfl hw),
      by rw [hprogram], htest⟩

theorem sample_accepted : ∃ c q c' p, parse {} sample = (c, .ok q) ∧
    c.analyze q = (c', p, .ok ()) := by
  have h : accepts none sample (fun _ => true) = true := by decide +kernel
  obtain ⟨c, q, c', p, hp, ha, _⟩ := accepted h
  exact ⟨c, q, c', p, hp, ha⟩

/-- The unit of a program that analysis accepts. -/
theorem unit_accepted {file : Option Text} {source : Text} {c c' : Compilation} {p q : Program}
    (hp : parse { file } source = (c, .ok q)) (ha : c.analyze q = (c', p, .ok ())) (stem : Text) :
    p.machine.Fits ∧ ∃ s ls, CUnit.start p.machine = .ok s ∧ CUnit.lines p stem s.name = .ok ls ∧
      CUnit.text p stem = .ok (Text.join "\n" ls ++ "\n") := by
  obtain ⟨hd, hm, hw⟩ := analyze_accepted hp ha
  have hfits := Machine.analyzed_fits hw hd.fresh
  obtain ⟨s, hs⟩ := Machine.start_found hw
  rw [← hm] at hfits hs
  obtain ⟨ls, hls, htext⟩ := CUnit.text_succeeds hfits hs stem
  exact ⟨hfits, s, ls, hs, hls, htext⟩

/-- The compilation of a program that analysis accepts goes on to its unit. -/
theorem compile_accepted {file : Option Text} {source : Text} {c c' : Compilation} {p q : Program}
    (hp : parse { file } source = (c, .ok q)) (ha : c.analyze q = (c', p, .ok ()))
    (stem : Option Text) :
    ∃ s unit, CUnit.lines p (stem.getD p.machine.name) s = .ok unit ∧
      CUnit.text p (stem.getD p.machine.name) = .ok (Text.join "\n" unit ++ "\n") ∧
      (compile { file } source stem).2 = .ok (p, Text.join "\n" unit ++ "\n") ∧
      (compile { file } source stem).1.diagnostics = c'.diagnostics := by
  obtain ⟨hfits, s, _, hs, _, _⟩ := unit_accepted hp ha (stem.getD p.machine.name)
  obtain ⟨c'', unit, hg, hd, hlines, htext⟩ := c'.generate_succeeds hfits hs stem
  refine ⟨s.name, unit, hlines, htext, ?_⟩
  simp only [compile, hp, ha, hg, hd, and_self]

end Compilation
end Statewright
