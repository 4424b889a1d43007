import Mathlib.Logic.Relation
import Statewright.Proofs.Findings
import Statewright.Proofs.Retries

namespace Statewright

section Explore
variable {next : Nat → List Nat} {size : Nat} {seen pending : List Nat}

/-- What was seen stays seen. -/
theorem mem_explore_of_seen {i : Nat} (h : i ∈ seen) : i ∈ explore next size seen pending := by
  fun_induction explore next size seen pending with
  | case1 seen => exact h
  | case2 seen n pending hn ih => exact ih (List.mem_cons_of_mem n h)
  | case3 seen n pending hn ih => exact ih h

/-- What is pending and in range will be seen. -/
theorem mem_explore_of_pending {i : Nat} (h : i ∈ pending) (hlt : i < size) :
    i ∈ explore next size seen pending := by
  fun_induction explore next size seen pending with
  | case1 seen => cases h
  | case2 seen n pending hn ih =>
    rcases List.mem_cons.mp h with rfl | h
    · exact mem_explore_of_seen List.mem_cons_self
    · exact ih (List.mem_append_right _ h)
  | case3 seen n pending hn ih =>
    rcases List.mem_cons.mp h with rfl | h
    · have hseen : i ∈ seen := Classical.byContradiction fun hns => hn ⟨hlt, hns⟩
      exact mem_explore_of_seen hseen
    · exact ih h

/-- A search stays within what is closed under the edges. -/
theorem explore_within {inside : Nat → Prop} (hnext : ∀ i, inside i → ∀ j ∈ next i, inside j)
    (hseen : ∀ i ∈ seen, inside i) (hpending : ∀ i ∈ pending, inside i) :
    ∀ i ∈ explore next size seen pending, inside i := by
  fun_induction explore next size seen pending with
  | case1 seen => exact hseen
  | case2 seen n pending hn ih =>
    have hinside := hpending n List.mem_cons_self
    refine ih ?_ ?_
    · exact List.forall_mem_cons.mpr ⟨hinside, hseen⟩
    · rw [List.forall_mem_append]
      exact ⟨hnext n hinside, fun i hi => hpending i (List.mem_cons_of_mem n hi)⟩
  | case3 seen n pending hn ih =>
    exact ih hseen fun i hi => hpending i (List.mem_cons_of_mem n hi)

/-- What a search finds is closed, if the edges out of what was seen lead to what was seen or is
pending. -/
theorem explore_closed
    (h : ∀ i ∈ seen, ∀ j ∈ next i, j < size → j ∈ seen ∨ j ∈ pending) :
    ∀ i ∈ explore next size seen pending, ∀ j ∈ next i, j < size →
      j ∈ explore next size seen pending := by
  fun_induction explore next size seen pending with
  | case1 seen =>
    intro i hi j hj hlt
    exact (h i hi j hj hlt).resolve_right List.not_mem_nil
  | case2 seen n pending hn ih =>
    apply ih
    intro i hi j hj hlt
    rcases List.mem_cons.mp hi with rfl | hi
    · exact .inr (List.mem_append_left _ hj)
    · rcases h i hi j hj hlt with hs | hp
      · exact .inl (List.mem_cons_of_mem n hs)
      · rcases List.mem_cons.mp hp with rfl | hp
        · exact .inl List.mem_cons_self
        · exact .inr (List.mem_append_right _ hp)
  | case3 seen n pending hn ih =>
    apply ih
    intro i hi j hj hlt
    rcases h i hi j hj hlt with hs | hp
    · exact .inl hs
    · rcases List.mem_cons.mp hp with rfl | hp
      · exact .inl (Classical.byContradiction fun hns => hn ⟨hlt, hns⟩)
      · exact .inr hp

/-- A search finds what chains of edges lead to, if they all stay in range. -/
theorem mem_explore_iff {start i : Nat} (hstart : start < size)
    (hrange : ∀ i, ∀ j ∈ next i, j < size) :
    i ∈ explore next size [] [start] ↔ Relation.ReflTransGen (fun i j => j ∈ next i) start i := by
  constructor
  · refine explore_within ?_ (List.forall_mem_nil _) (List.forall_mem_singleton.mpr .refl) i
    intro i hi j hj
    exact hi.tail hj
  · intro h
    induction h with
    | refl => exact mem_explore_of_pending (List.mem_singleton_self _) hstart
    | @tail i j _ hj ih =>
      exact explore_closed (List.forall_mem_nil _) i ih j hj (hrange i j hj)

end Explore

namespace Machine

/-- An edge from a state to another, by their numbers: a transition leads there, or the overflow of
the until block around it. -/
inductive Edge (m : Machine) (i j : Nat) : Prop
  | transition : m.sites[i]? = some s → t ∈ s.state.transitions → t.link.target = some (j : Int) →
      Edge m i j
  | overflow : m.sites[i]? = some s → s.block = some (k, u) → u.link.target = some (j : Int) →
      Edge m i j

/-- A chain of edges leads from one state to another. -/
def Reaches (m : Machine) : Nat → Nat → Prop :=
  Relation.ReflTransGen m.Edge

/-- The numbers, in order, of the states that cannot be reached. -/
structure Unreached (m : Machine) (start : Nat) (numbers : List Nat) : Prop where
  ordered : numbers.Pairwise (· < ·)
  exact : ∀ i, i ∈ numbers ↔ i < m.states.length ∧ ¬ m.Reaches start i

/-- The warning that the state with a number cannot be reached. -/
def unreachableAt (m : Machine) (n : Nat) : Option Finding :=
  m.states[n]?.map fun s => ⟨.unreachable s.name, s.place⟩

theorem mem_edgesOf {m : Machine} {i j : Nat} : (j : Int) ∈ m.edgesOf i ↔ m.Edge i j := by
  unfold edgesOf
  cases hs : m.sites[i]? with
  | none =>
    refine ⟨fun h => absurd h (by simp), ?_⟩
    intro h
    cases h with
    | transition hs' _ _ | overflow hs' _ _ => simp [hs] at hs'
  | some s =>
    simp only [Option.map_some, Option.getD_some, edges, List.mem_append, List.mem_filterMap,
      Option.mem_toList]
    constructor
    · rintro (⟨t, ht, hj⟩ | ⟨⟨k, u⟩, hb, hj⟩)
      · exact .transition hs ht hj
      · exact .overflow hs hb hj
    · intro h
      cases h with
      | transition hs' ht hj =>
        cases hs.symm.trans hs'
        exact .inl ⟨_, ht, hj⟩
      | overflow hs' hb hj =>
        cases hs.symm.trans hs'
        exact .inr ⟨_, hb, hj⟩

theorem mem_next {m : Machine} {i j : Nat} : j ∈ m.next i ↔ m.Edge i j := by
  rw [← mem_edgesOf]
  simp only [next, List.mem_map, List.mem_filter, decide_eq_true_eq]
  constructor
  · rintro ⟨target, ⟨hmem, hnonneg⟩, rfl⟩
    rwa [Int.toNat_of_nonneg hnonneg]
  · intro h
    exact ⟨j, ⟨h, Int.natCast_nonneg j⟩, Int.toNat_natCast j⟩

/-- The edges of an analyzed machine end at its states. -/
theorem Fresh.edge_lt {m : Machine} (h : m.Fresh) {i j : Nat} (he : m.number.resolve.Edge i j) :
    j < m.number.resolve.states.length := by
  have hmem := mem_edgesOf.mpr he
  unfold edgesOf at hmem
  rw [analyzed_sites, List.getElem?_map] at hmem
  cases hp : m.spots[i]? with
  | none => simp [hp] at hmem
  | some p =>
    simp only [hp, Option.map_some, Option.getD_some] at hmem
    obtain ⟨n, hn, hj⟩ := h.edges (List.mem_of_getElem? hp) hmem
    rw [analyzed_states_length]
    omega

theorem Fresh.mem_reached {m : Machine} (h : m.Fresh) {start i : Nat}
    (hs : start < m.number.resolve.states.length) :
    i ∈ m.number.resolve.reached start ↔ m.number.resolve.Reaches start i := by
  have hrel : (fun i j => j ∈ m.number.resolve.next i) = m.number.resolve.Edge :=
    funext fun _ => funext fun _ => propext mem_next
  unfold reached Reaches
  rw [mem_explore_iff hs fun i j hj => h.edge_lt (mem_next.mp hj), hrel]

/-- The warnings are those about the states that no chain of edges leads to. -/
theorem Fresh.unreached {m : Machine} (h : m.Fresh) {start : Nat}
    (hs : m.number.resolve.start = some start) :
    ∃ numbers, m.number.resolve.Unreached start numbers ∧
      (Analysis.unreachable m.number.resolve).map some =
        numbers.map m.number.resolve.unreachableAt := by
  have hmem {i : Nat} := h.mem_reached (i := i) (analyzed_start h hs)
  unfold Analysis.unreachable
  rw [hs]
  generalize m.number.resolve = r at hmem
  have hzip : ∀ p ∈ r.states.zipIdx, r.states[p.2]? = some p.1 :=
    fun p hp => List.mem_zipIdx_iff_getElem?.mp hp
  refine ⟨(r.states.zipIdx.filter fun p => !(r.reached start).contains p.2).map (·.2),
    ⟨?_, ?_⟩, ?_⟩
  · have hsub := (List.filter_sublist (p := fun p => !(r.reached start).contains p.2)
      (l := r.states.zipIdx)).map (·.2)
    refine List.Pairwise.sublist hsub ?_
    rw [show (fun p : State × Nat => p.2) = Prod.snd from rfl, List.zipIdx_map_snd]
    exact List.pairwise_lt_range'
  · intro i
    rw [List.mem_map]
    constructor
    · rintro ⟨p, hp, rfl⟩
      obtain ⟨hp, hr⟩ := List.mem_filter.mp hp
      refine ⟨(List.getElem?_eq_some_iff.mp (hzip p hp)).1, fun hreach => ?_⟩
      simp [hmem.mpr hreach] at hr
    · rintro ⟨hlt, hr⟩
      refine ⟨(r.states[i], i), List.mem_filter.mpr ⟨?_, ?_⟩, rfl⟩
      · exact List.mem_zipIdx_iff_getElem?.mpr (List.getElem?_eq_getElem hlt)
      · simpa using fun hi => hr (hmem.mp hi)
  · simp only [Machine.unreached, List.map_map]
    refine List.map_congr_left fun p hp => ?_
    have hstate := hzip p (List.mem_filter.mp hp).1
    simp only [Function.comp_apply, unreachableAt, hstate, Option.map_some]

/-- Wherever the change of a transition leads, there is an edge to. -/
theorem edge_of_change {m : Machine} {value : Text → Nat} {c : Config} {s : Site} {t : Transition}
    {change : Change} (hs : m.sites[c.state]? = some s) (ht : t ∈ s.state.transitions)
    (h : Actuation.changeOf m s.block t = .ok change) :
    m.Edge c.state (change.apply value c).state := by
  cases change_found h with
  | jump _ htarget => exact .transition hs ht (stateAt_ok htarget).1
  | retry _ hb hover htarget =>
    rw [Change.apply]
    split
    · exact .overflow hs hb (stateAt_ok hover).1
    · exact .transition hs ht (stateAt_ok htarget).1

/-- A run only comes to states that chains of edges lead to. -/
theorem Runs.reaches {m : Machine} {value : Text → Nat} {taken : List Taken} {c : Config}
    (h : m.Runs value taken c) {start : Nat} (hs : m.start = some start) :
    m.Reaches start c.state := by
  induction h with
  | start hn =>
    cases hs.symm.trans hn
    exact .refl
  | step _ hsite ht ha ih => exact ih.tail (edge_of_change hsite ht (changeOf_of_ok ha))

theorem analyzed_start_eq {m : Machine} {n : Nat} (h : m.flagged? .start = some n) :
    m.number.resolve.start = some n := by
  change (m.flagged? .start).or m.start = some n
  rw [h, Option.some_or]

end Machine

namespace Compilation
open Statewright.Language

/-- The analysis of a program just read never meets an edge that ends nowhere. -/
theorem analyze_strays {c : Compilation} {p : Program} (h : p.machine.Fresh) :
    (c.analyze p).2.2 ≠ .error (.aborted .strayTarget) := by
  cases hany : p.machine.untils.any (·.bound.isLong) with
  | true =>
    simp [analyze, Analysis.run, hany]
  | false =>
    have hlong : ∀ u ∈ p.machine.untils, u.bound.isLong = false := by simpa using hany
    simp only [analyze, Analysis.run_of_fresh h hlong, check]
    split <;> simp

/-- Of a program just read that has a start state, each state that no chain of edges leads to from
there is warned about once, in the order of declaration, and no other; and no run of an accepted
program or of its unit comes to one of these. -/
theorem unreachable_exact {file : Option Text} {source : Text} {c : Compilation} {q : Program}
    {n : Nat} (hp : parse { file } source = (c, .ok q))
    (hn : q.machine.flagged? .start = some n) :
    q.machine.number.resolve.strays n = false ∧
    (c.analyze q).2.2 ≠ .error (.aborted .strayTarget) ∧
    ∃ numbers, q.machine.number.resolve.Unreached n numbers ∧
      (Analysis.unreachable q.machine.number.resolve).map some =
        numbers.map q.machine.number.resolve.unreachableAt ∧
      ((∀ u ∈ q.machine.untils, ∀ digits, u.bound = .literal digits →
          digits.length ≤ digitLimit) →
        ∃ others, (∀ f ∈ others, ∀ name, f.issue ≠ .unreachable name) ∧
          (c.analyze q).1.diagnostics =
            (others ++ Analysis.unreachable q.machine.number.resolve).map
              (·.diagnostic file)) ∧
      ∀ c' p, c.analyze q = (c', p, .ok ()) → p.machine = q.machine.number.resolve ∧
        (∀ value taken config, p.machine.Runs value taken config → config.state ∉ numbers) ∧
        ∀ stem unit value taken config, Text.IsUnbroken stem →
          CUnit.Runs p stem unit value taken config → config.state ∉ numbers := by
  obtain ⟨hd, hc⟩ := derives_of_parse hp
  have hstart := Machine.analyzed_start_eq hn
  obtain ⟨numbers, hnumbers, hwarnings⟩ := hd.fresh.unreached hstart
  refine ⟨hd.fresh.strays n, analyze_strays hd.fresh, numbers, hnumbers, hwarnings, ?_, ?_⟩
  · intro hb
    have hlong : ∀ u ∈ q.machine.untils, u.bound.isLong = false :=
      fun u hu => isLong_eq_false.mpr (hb u hu)
    have hfile : c.file = file := by
      have h := congrArg (·.1.file) hp
      simpa only [parse_file] using h.symm
    refine ⟨q.machine.checkDeclarations ++ q.machine.checkItems,
      fun f hf => (Machine.concerns_checks f hf).reachable, ?_⟩
    simp only [analyze, Analysis.run_of_fresh hd.fresh hlong, note, report_all, hc, hfile,
      List.nil_append]
  · intro c' p ha
    obtain ⟨_, hm, _⟩ := analyze_accepted hp ha
    have hruns : ∀ value taken config, p.machine.Runs value taken config →
        config.state ∉ numbers := by
      intro value taken config hr hmem
      rw [hm] at hr
      exact ((hnumbers.exact _).mp hmem).2 (hr.reaches hstart)
    refine ⟨hm, hruns, ?_⟩
    intro stem unit value taken config hstem hr
    exact hruns value taken config (hr.machine (sound_of_accepted hp ha) hstem)

/-- A machine that goes to and fro between two states and never comes to its end. -/
def stranded : Text :=
  "fsm m\x7bstate[start]a\x7bon(x)go b;\x7dstate b\x7bon(y)go a;\x7d" ++
    "state[end]c\x7bon(z)go a;\x7d\x7d"

theorem stranded_read : ∃ c q, parse {} stranded = (c, .ok q) ∧
    q.machine.flagged? .start = some 0 ∧ q.machine.number.resolve.states.length = 3 ∧
    q.machine.number.resolve.next 0 = [1] ∧ q.machine.number.resolve.next 1 = [0] := by
  have h : (parse {} stranded).2.toOption.any (fun q => q.machine.flagged? .start == some 0 &&
      (q.machine.number.resolve.states.length == 3 &&
        (q.machine.number.resolve.next 0 == [1] && q.machine.number.resolve.next 1 == [0]))) =
      true := by decide +kernel
  generalize parse {} stranded = result at h
  obtain ⟨c, result⟩ := result
  cases result with
  | error e => cases h
  | ok q =>
    simp only [Except.toOption, Option.any_some, Bool.and_eq_true, beq_iff_eq] at h
    exact ⟨c, q, rfl, h⟩

theorem unreachable_exact_stranded : ∃ c q numbers, parse {} stranded = (c, .ok q) ∧
    q.machine.flagged? .start = some 0 ∧ q.machine.number.resolve.Unreached 0 numbers ∧
    2 ∈ numbers ∧
    (Analysis.unreachable q.machine.number.resolve).map some =
      numbers.map q.machine.number.resolve.unreachableAt := by
  obtain ⟨c, q, hq, hstart, hsize, hzero, hone⟩ := stranded_read
  obtain ⟨_, _, numbers, hnumbers, hwarnings, _⟩ := unreachable_exact hq hstart
  have hreach : ∀ i, q.machine.number.resolve.Reaches 0 i → i = 0 ∨ i = 1 := by
    intro i h
    induction h with
    | refl => exact .inl rfl
    | tail _ he ih =>
      have hj := Machine.mem_next.mpr he
      rcases ih with rfl | rfl
      · exact .inr (List.mem_singleton.mp (hzero ▸ hj))
      · exact .inl (List.mem_singleton.mp (hone ▸ hj))
  refine ⟨c, q, numbers, hq, hstart, hnumbers, ?_, hwarnings⟩
  refine (hnumbers.exact 2).mpr ⟨by omega, fun h => ?_⟩
  have := hreach 2 h
  omega

end Compilation
end Statewright
