import Statewright.Proofs.Erasure

namespace Statewright

/-- A state with its number and the until block around it, with the block's frame. -/
structure Spot where
  number : Nat
  state : State
  block : Option (Frame × Until)

namespace Spot

def site (p : Spot) : Site :=
  ⟨p.state, p.block.map fun b => (b.1.number, b.2)⟩

def frame (p : Spot) : Option Frame :=
  p.block.map (·.1)

end Spot

namespace Machine

/-- The spots of some items, the next state having the number `n` and the next block `k`. -/
def spotsFrom (n k : Nat) : List Item → List Spot
  | [] => []
  | .state s :: items => ⟨n, s, none⟩ :: spotsFrom (n + 1) k items
  | .block u :: items =>
    u.states.mapIdx (fun i s => ⟨n + i, s, some (⟨k, n, u.states.length⟩, u)⟩) ++
      spotsFrom (n + u.states.length) (k + 1) items

def spots (m : Machine) : List Spot :=
  spotsFrom 0 0 m.items

theorem spotsFrom_sites (n k : Nat) (items : List Item) :
    (spotsFrom n k items).map Spot.site = sitesFrom k items := by
  fun_induction spotsFrom n k items with
  | case1 n k => rfl
  | case2 n k s items ih => simp [sitesFrom, ih, Spot.site]
  | case3 n k u items ih =>
    rw [List.map_append, ih, sitesFrom]
    congr 1
    exact List.ext_getElem? fun i => by simp [Spot.site, Function.comp_def]

theorem sitesFrom_states (k : Nat) (items : List Item) :
    (sitesFrom k items).map Site.state = items.flatMap Item.states := by
  fun_induction sitesFrom k items with
  | case1 k => rfl
  | case2 k s items ih => simp [Item.states, ih]
  | case3 k u items ih => simp [Item.states, ih, Function.comp_def]

theorem spots_sites (m : Machine) : m.spots.map Spot.site = m.sites :=
  spotsFrom_sites 0 0 m.items

theorem sites_states (m : Machine) : m.sites.map Site.state = m.states :=
  sitesFrom_states 0 m.items

theorem spots_states (m : Machine) : m.spots.map Spot.state = m.states := by
  rw [← sites_states, ← spots_sites, List.map_map]
  rfl

/-- The spots are numbered without a gap. -/
theorem spotsFrom_numbers (n k : Nat) (items : List Item) :
    (spotsFrom n k items).map Spot.number = List.range' n (spotsFrom n k items).length := by
  fun_induction spotsFrom n k items with
  | case1 n k => rfl
  | case2 n k s items ih => simp [ih, List.range'_succ]
  | case3 n k u items ih =>
    rw [List.map_append, ih, List.length_append, List.length_mapIdx, ← List.range'_append_1]
    congr 1
    exact List.ext_getElem (by simp) (by simp)

theorem spots_getElem? {m : Machine} {i : Nat} {p : Spot} (h : m.spots[i]? = some p) :
    p.number = i := by
  have hi : i < m.spots.length := (List.getElem?_eq_some_iff.mp h).1
  have hn : m.spots.map Spot.number = List.range' 0 m.spots.length := spotsFrom_numbers 0 0 m.items
  have hg := congrArg (·[i]?) hn
  simp only [List.getElem?_map, h, Option.map_some, List.getElem?_range' hi] at hg
  simpa using hg

theorem mem_spots {m : Machine} {p : Spot} : p ∈ m.spots ↔ m.spots[p.number]? = some p := by
  constructor
  · intro h
    obtain ⟨i, hi⟩ := List.mem_iff_getElem?.mp h
    rw [spots_getElem? hi, hi]
  · exact List.mem_of_getElem?

/-- A spot lies behind the first number given out, and within the frame of its block. -/
theorem spotsFrom_bounds {n k : Nat} {items : List Item} {p : Spot}
    (hp : p ∈ spotsFrom n k items) :
    n ≤ p.number ∧ ∀ f u, p.block = some (f, u) →
      n ≤ f.first ∧ k ≤ f.number ∧ f.size = u.states.length ∧ f.has p.number := by
  fun_induction spotsFrom n k items with
  | case1 n k => cases hp
  | case2 n k s items ih =>
    rcases List.mem_cons.mp hp with rfl | hp
    · exact ⟨Nat.le_refl _, by simp⟩
    · obtain ⟨hn, hb⟩ := ih hp
      refine ⟨by omega, ?_⟩
      intro f u hu
      obtain ⟨h₁, h₂, h₃⟩ := hb f u hu
      exact ⟨by omega, h₂, h₃⟩
  | case3 n k u items ih =>
    rcases List.mem_append.mp hp with hp | hp
    · obtain ⟨i, hi, rfl⟩ := List.mem_mapIdx.mp hp
      refine ⟨by simp, ?_⟩
      rintro f v hv
      cases hv
      simp [Frame.has, hi]
    · obtain ⟨hn, hb⟩ := ih hp
      refine ⟨by omega, ?_⟩
      intro f v hv
      obtain ⟨h₁, h₂, h₃⟩ := hb f v hv
      exact ⟨by omega, by omega, h₃⟩

/-- The frame of a block has exactly the numbers of the states in it. -/
theorem spotsFrom_frame {n k : Nat} {items : List Item} {p q : Spot} {f : Frame} {u : Until}
    (hp : p ∈ spotsFrom n k items) (hf : p.block = some (f, u)) (hq : q ∈ spotsFrom n k items) :
    f.has q.number = true ↔ q.frame.map Frame.number = some f.number := by
  fun_induction spotsFrom n k items with
  | case1 n k => cases hp
  | case2 n k s items ih =>
    rcases List.mem_cons.mp hp with rfl | hp
    · cases hf
    rcases List.mem_cons.mp hq with rfl | hq
    · have hb := (spotsFrom_bounds hp).2 f u hf
      simp [Spot.frame, Frame.has]
      omega
    · exact ih hp hq
  | case3 n k v items ih =>
    rcases List.mem_append.mp hp with hp | hp
    · obtain ⟨i, hi, rfl⟩ := List.mem_mapIdx.mp hp
      cases hf
      rcases List.mem_append.mp hq with hq | hq
      · obtain ⟨j, hj, rfl⟩ := List.mem_mapIdx.mp hq
        simp [Spot.frame, Frame.has, hj]
      · obtain ⟨hn, hb⟩ := spotsFrom_bounds hq
        have hlt : Frame.has ⟨k, n, u.states.length⟩ q.number = false := by
          simp [Frame.has]
          omega
        rw [hlt]
        cases hqb : q.block with
        | none => simp [Spot.frame, hqb]
        | some b =>
          have hk := (hb b.1 b.2 hqb).2.1
          simp [Spot.frame, hqb]
          omega
    · have hb := (spotsFrom_bounds hp).2 f u hf
      rcases List.mem_append.mp hq with hq | hq
      · obtain ⟨j, hj, rfl⟩ := List.mem_mapIdx.mp hq
        simp [Spot.frame, Frame.has]
        omega
      · exact ih hp hq

/-- The states of a block stand from the first number of its frame on. -/
theorem spotsFrom_block {n k i : Nat} {items : List Item} {p : Spot} {f : Frame} {u : Until}
    {s : State} (hp : p ∈ spotsFrom n k items) (hf : p.block = some (f, u))
    (hs : u.states[i]? = some s) : ⟨f.first + i, s, some (f, u)⟩ ∈ spotsFrom n k items := by
  fun_induction spotsFrom n k items with
  | case1 n k => cases hp
  | case2 n k t items ih =>
    rcases List.mem_cons.mp hp with rfl | hp
    · cases hf
    · exact List.mem_cons_of_mem _ (ih hp)
  | case3 n k v items ih =>
    rcases List.mem_append.mp hp with hp | hp
    · obtain ⟨j, hj, rfl⟩ := List.mem_mapIdx.mp hp
      cases hf
      obtain ⟨hi, rfl⟩ := List.getElem?_eq_some_iff.mp hs
      exact List.mem_append_left _ (List.mem_mapIdx.mpr ⟨i, hi, rfl⟩)
    · exact List.mem_append_right _ (ih hp)

section Finish
variable (m : Machine)

def finishJump (j : Jump) : Jump :=
  m.number.resolveJump m.number.allLabels j

def finishAction : Action → Action
  | .jump j => .jump (m.finishJump j)
  | .retry => .retry

def finishTransition (frame : Option Frame) (t : Transition) : Transition :=
  m.number.resolveTransition m.number.allLabels frame t

/-- A state as analysis leaves it. -/
def finishState (frame : Option Frame) (n : Nat) (s : State) : State :=
  m.number.resolveState m.number.allLabels frame { s with index := some n }

/-- An until block as analysis leaves it. -/
def finishBlock (f : Frame) (u : Until) : Until :=
  { u with
    states := u.states.mapIdx fun i s => m.finishState (some f) (f.first + i) s
    overflow := m.finishJump u.overflow
    link := m.number.linkJump m.number.allLabels (some f) true u.overflow u.link }

def finishSite (p : Spot) : Site :=
  ⟨m.finishState p.frame p.number p.state,
    p.block.map fun b => (b.1.number, m.finishBlock b.1 b.2)⟩

theorem finishTransition_action (frame : Option Frame) (t : Transition) :
    (m.finishTransition frame t).action = m.finishAction t.action := by
  cases h : t.action <;> simp [finishTransition, resolveTransition, h, finishAction, finishJump]

theorem finishSite_transitions (p : Spot) :
    (m.finishSite p).state.transitions = p.state.transitions.map (m.finishTransition p.frame) :=
  rfl

theorem resolveItems_sites (n k : Nat) (items : List Item) :
    sitesFrom k (m.number.resolveItems m.number.allLabels n k (Item.numberFrom n items)) =
      (spotsFrom n k items).map m.finishSite := by
  fun_induction spotsFrom n k items with
  | case1 n k => rfl
  | case2 n k s items ih =>
    simp only [Item.numberFrom, resolveItems, sitesFrom, ih, List.map_cons]
    rfl
  | case3 n k u items ih =>
    simp only [Item.numberFrom, resolveItems, sitesFrom, List.length_mapIdx, ih, List.map_append]
    congr 1
    refine List.ext_getElem? fun i => ?_
    simp only [List.getElem?_map, List.getElem?_mapIdx, Option.map_map]
    cases u.states[i]? with
    | none => rfl
    | some s =>
      simp only [Option.map_some, Function.comp_def, finishSite, finishBlock, Spot.frame,
        finishState]
      congr 5
      exact List.ext_getElem? fun i => by simp [Function.comp_def]

end Finish

/-- The sites of an analyzed machine. -/
theorem analyzed_sites (m : Machine) :
    m.number.resolve.sites = m.spots.map (m.finishSite) :=
  resolveItems_sites m 0 0 m.items

theorem spotsFrom_untils {n k : Nat} {items : List Item} {p : Spot} {f : Frame} {u : Until}
    (hp : p ∈ spotsFrom n k items) (hf : p.block = some (f, u)) :
    (items.filterMap Item.until?)[f.number - k]? = some u := by
  fun_induction spotsFrom n k items with
  | case1 n k => cases hp
  | case2 n k s items ih =>
    rcases List.mem_cons.mp hp with rfl | hp
    · cases hf
    · exact ih hp
  | case3 n k v items ih =>
    change (v :: items.filterMap Item.until?)[f.number - k]? = some u
    rcases List.mem_append.mp hp with hp | hp
    · obtain ⟨j, hj, rfl⟩ := List.mem_mapIdx.mp hp
      cases hf
      simp
    · have hk := ((spotsFrom_bounds hp).2 f u hf).2.1
      have hsub : f.number - k = (f.number - (k + 1)) + 1 := by omega
      rw [hsub, List.getElem?_cons_succ]
      exact ih hp

/-- A block's number is its position among the blocks. -/
theorem spots_untils {m : Machine} {p : Spot} {f : Frame} {u : Until} (hp : p ∈ m.spots)
    (hf : p.block = some (f, u)) : m.untils[f.number]? = some u :=
  spotsFrom_untils hp hf

theorem site_untils {m : Machine} {s : Site} (hs : s ∈ m.sites) {k : Nat} {u : Until}
    (hb : s.block = some (k, u)) : m.untils[k]? = some u := by
  rw [← spots_sites] at hs
  obtain ⟨p, hp, rfl⟩ := List.mem_map.mp hs
  simp only [Spot.site, Option.map_eq_some_iff, Prod.mk.injEq] at hb
  obtain ⟨⟨f, v⟩, hf, rfl, rfl⟩ := hb
  exact spots_untils hp hf

theorem numberFrom_states (n k : Nat) (items : List Item) :
    (Item.numberFrom n items).flatMap Item.states =
      (spotsFrom n k items).map fun p => { p.state with index := some (p.number : Int) } := by
  fun_induction spotsFrom n k items with
  | case1 n k => rfl
  | case2 n k s items ih =>
    simp only [Item.numberFrom, List.flatMap_cons, ih, List.map_cons, Item.states,
      List.singleton_append]
  | case3 n k u items ih =>
    simp only [Item.numberFrom, List.flatMap_cons, ih, List.map_append, Item.states]
    congr 1
    exact List.ext_getElem? fun i => by simp [Function.comp_def]

theorem number_states (m : Machine) :
    m.number.states = m.spots.map fun p => { p.state with index := some (p.number : Int) } :=
  numberFrom_states 0 0 m.items

/-- A state is found at the same place if what it is found by is unchanged. -/
theorem findIdx?_spots (m : Machine) (state : Spot → State) (test : State → Bool)
    (h : ∀ p, test (state p) = test p.state) :
    (m.spots.map state).findIdx? test = m.states.findIdx? test := by
  have htest : test ∘ state = test ∘ Spot.state := funext h
  rw [← spots_states, List.findIdx?_map, List.findIdx?_map, htest]

@[simp] theorem number_stateNumber? (m : Machine) (name : Text) :
    m.number.stateNumber? name = m.stateNumber? name := by
  unfold stateNumber?
  rw [number_states]
  exact m.findIdx?_spots _ _ fun _ => rfl

@[simp] theorem number_flagged? (m : Machine) (flag : Flag) :
    m.number.flagged? flag = m.flagged? flag := by
  unfold flagged?
  rw [number_states]
  exact m.findIdx?_spots _ _ fun _ => rfl

@[simp] theorem number_timerNumber? (m : Machine) (name : Text) :
    m.number.timerNumber? name = m.timerNumber? name :=
  rfl

@[simp] theorem number_jumpTarget? (m : Machine) (j : Jump) :
    m.number.jumpTarget? j = m.jumpTarget? j := by
  cases j <;> simp [jumpTarget?]

theorem analyzed_states (m : Machine) :
    m.number.resolve.states =
      m.spots.map fun p => m.finishState p.frame p.number p.state := by
  rw [← sites_states, analyzed_sites, List.map_map]
  rfl

@[simp] theorem analyzed_states_length (m : Machine) :
    m.number.resolve.states.length = m.states.length := by
  rw [analyzed_states, ← spots_states, List.length_map, List.length_map]

/-- A number that a name or a flag was resolved to is that of a state. -/
theorem jumpTarget?_lt {m : Machine} {j : Jump} {n : Nat} (h : m.jumpTarget? j = some n) :
    n < m.states.length := by
  cases j with
  | go r | err r =>
    obtain ⟨hlt, _⟩ := List.findIdx?_eq_some_iff_getElem.mp h
    exact hlt

/-- The link of a jump that had none. -/
theorem linkJump_empty (m : Machine) (labels : List Text) (block : Option Frame) (overflow : Bool)
    (j : Jump) :
    (m.linkJump labels block overflow j {}).target = (m.jumpTarget? j).map Int.ofNat ∧
    ∀ n, m.jumpTarget? j = some n → (m.linkJump labels block overflow j {}).leaves =
      (block.toList.filter fun b => overflow || !b.has n).map Frame.number := by
  unfold linkJump
  cases m.jumpTarget? j with
  | none => exact ⟨rfl, by simp⟩
  | some n =>
    refine ⟨rfl, ?_⟩
    intro _ h
    cases h
    simp

section Link
variable {m : Machine}

/-- The link of a jump, which clears the counter of the block that it leaves. -/
theorem finishTransition_jump {t : Transition} {j : Jump} {n : Nat} (hl : t.link = {})
    (hj : t.action = .jump j) (hn : m.jumpTarget? j = some n) (frame : Option Frame) :
    (m.finishTransition frame t).link.target = some (n : Int) ∧
    (m.finishTransition frame t).link.leaves =
      (frame.toList.filter fun b => !b.has n).map Frame.number := by
  rw [← number_jumpTarget?] at hn
  obtain ⟨htarget, hleaves⟩ := linkJump_empty m.number m.number.allLabels frame false j
  simp only [finishTransition, resolveTransition, hj, hl, htarget, hleaves n hn, hn]
  exact ⟨rfl, rfl⟩

theorem finishTransition_retry {t : Transition} (hr : t.action = .retry) (f : Frame) :
    (m.finishTransition (some f) t).link.target = some (f.first : Int) := by
  simp [finishTransition, resolveTransition, hr, linkRetry]

/-- The link of an overflow, which always clears the counter of its block. -/
theorem finishBlock_link {u : Until} {n : Nat} (hl : u.link = {})
    (hn : m.jumpTarget? u.overflow = some n) (f : Frame) :
    (m.finishBlock f u).link.target = some (n : Int) ∧
    (m.finishBlock f u).link.leaves = [f.number] := by
  rw [← number_jumpTarget?] at hn
  obtain ⟨htarget, hleaves⟩ := linkJump_empty m.number m.number.allLabels (some f) true u.overflow
  simp only [finishBlock, hl, htarget, hleaves n hn, hn]
  exact ⟨rfl, rfl⟩

end Link

/-- A machine that analysis has not written into yet. -/
structure Fresh (m : Machine) : Prop where
  start : m.start = none
  links : ∀ s ∈ m.states, ∀ t ∈ s.transitions, t.link = {}
  overflows : ∀ u ∈ m.untils, u.link = {}

theorem fresh_of_erased {m : Machine} (h : m.erase = m) : m.Fresh := by
  have hitems {i : Item} (hi : i ∈ m.items) : i.erase = i :=
    erased_of_map (congrArg Machine.items h) hi
  refine ⟨(congrArg Machine.start h).symm, ?_, ?_⟩
  · intro s hs t ht
    obtain ⟨i, hi, hs⟩ := List.mem_flatMap.mp hs
    have hstate : s.erase = s := by
      cases i with
      | state s' =>
        obtain rfl := List.mem_singleton.mp hs
        exact Item.state.inj (hitems hi)
      | block u => exact erased_of_map (congrArg Until.states (Item.block.inj (hitems hi))) hs
    have htransition := erased_of_map (congrArg State.transitions hstate) ht
    exact (congrArg Transition.link htransition).symm
  · intro u hu
    obtain ⟨i, hi, hu⟩ := List.mem_filterMap.mp hu
    cases i with
    | state s => cases hu
    | block v =>
      cases hu
      exact (congrArg Until.link (Item.block.inj (hitems hi))).symm

theorem Fresh.link {m : Machine} (h : m.Fresh) {p : Spot} (hp : p ∈ m.spots) {t : Transition}
    (ht : t ∈ p.state.transitions) : t.link = {} := by
  refine h.links p.state ?_ t ht
  rw [← spots_states]
  exact List.mem_map_of_mem hp

theorem Fresh.overflow {m : Machine} (h : m.Fresh) {p : Spot} (hp : p ∈ m.spots) {f : Frame}
    {u : Until} (hf : p.block = some (f, u)) : u.link = {} :=
  h.overflows u (List.mem_of_getElem? (spots_untils hp hf))

theorem site_of_spot {m : Machine} {p : Spot} (hp : p ∈ m.spots) : p.site ∈ m.sites := by
  rw [← spots_sites]
  exact List.mem_map_of_mem hp

theorem spot_lt {m : Machine} {p : Spot} (hp : p ∈ m.spots) : p.number < m.states.length := by
  obtain ⟨hlt, _⟩ := List.getElem?_eq_some_iff.mp (mem_spots.mp hp)
  rwa [← spots_states, List.length_map]

/-- The first number of a frame is that of a state in it. -/
theorem frame_first {m : Machine} {p : Spot} (hp : p ∈ m.spots) {f : Frame} {u : Until}
    (hf : p.block = some (f, u)) :
    0 < u.states.length ∧ f.has f.first = true ∧ f.first < m.states.length := by
  have hlt := spot_lt hp
  obtain ⟨_, _, hsize, hhas⟩ := (spotsFrom_bounds hp).2 f u hf
  simp only [Frame.has, Bool.and_eq_true, decide_eq_true_eq] at hhas ⊢
  omega

/-- The state that an action leads to: that of its jump, or the first one of the block. -/
def targetOf (m : Machine) (frame : Option Frame) : Action → Option Nat
  | .jump j => m.jumpTarget? j
  | .retry => frame.map Frame.first

theorem resolved_target (m : Machine) (labels : List Text) (frame : Option Frame) (t : Transition)
    (h : t.link = {}) :
    (m.resolveTransition labels frame t).link.target =
      (m.targetOf frame t.action).map Int.ofNat := by
  unfold resolveTransition targetOf
  rw [h]
  cases t.action with
  | jump j => exact (linkJump_empty m labels frame false j).1
  | retry => cases frame <;> rfl

theorem targetOf_lt {m : Machine} {p : Spot} (hp : p ∈ m.spots) {a : Action} {n : Nat}
    (h : m.number.targetOf p.frame a = some n) : n < m.states.length := by
  cases a with
  | jump j =>
    simp only [targetOf, number_jumpTarget?] at h
    exact jumpTarget?_lt h
  | retry =>
    simp only [targetOf, Spot.frame, Option.map_map, Option.map_eq_some_iff] at h
    obtain ⟨⟨f, u⟩, hf, rfl⟩ := h
    exact (frame_first hp hf).2.2

/-- Every edge of an analyzed machine ends at one of its states. -/
theorem Fresh.edges {m : Machine} (h : m.Fresh) {p : Spot} (hp : p ∈ m.spots) {target : Int}
    (ht : target ∈ edges (m.finishSite p)) :
    ∃ n : Nat, n < m.states.length ∧ target = n := by
  unfold Machine.edges at ht
  rcases List.mem_append.mp ht with ht | ht
  · obtain ⟨t', ht', htarget⟩ := List.mem_filterMap.mp ht
    obtain ⟨t, ht, rfl⟩ := List.mem_map.mp ht'
    rw [resolved_target _ _ _ _ (h.link hp ht), Option.map_eq_some_iff] at htarget
    obtain ⟨n, hn, rfl⟩ := htarget
    exact ⟨n, targetOf_lt hp hn, rfl⟩
  · obtain ⟨b, hb, htarget⟩ := List.mem_filterMap.mp ht
    obtain ⟨⟨f, u⟩, hu, rfl⟩ := Option.map_eq_some_iff.mp (Option.mem_toList.mp hb)
    simp only [finishBlock, h.overflow hp hu, (linkJump_empty _ _ _ _ _).1,
      Option.map_eq_some_iff, number_jumpTarget?] at htarget
    obtain ⟨n, hn, rfl⟩ := htarget
    exact ⟨n, jumpTarget?_lt hn, rfl⟩

theorem Fresh.strays {m : Machine} (h : m.Fresh) (start : Nat) :
    m.number.resolve.strays start = false := by
  simp only [Machine.strays, List.any_eq_false, Bool.not_eq_true]
  intro n _ target ht
  unfold edgesOf at ht
  rw [analyzed_sites, List.getElem?_map] at ht
  cases hp : m.spots[n]? with
  | none => simp [hp] at ht
  | some p =>
    simp only [hp, Option.map_some, Option.getD_some] at ht
    obtain ⟨i, hi, rfl⟩ := h.edges (List.mem_of_getElem? hp) ht
    simp
    omega

end Machine

theorem Language.Derives.fresh {file : Option Text} {source : Text} {p : Program}
    (h : Derives file source p) : p.machine.Fresh :=
  Machine.fresh_of_erased (congrArg Program.machine h.erased)

end Statewright
