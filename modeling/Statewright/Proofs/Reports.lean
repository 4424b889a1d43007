import Mathlib.Data.List.Basic
import Mathlib.Data.List.Flatten
import Statewright.Proofs.Landmarks
import Statewright.Proofs.Lookups

namespace Statewright
open scoped List

/-- The problems that are told from one another by their messages. -/
inductive Problem
  | unknownState | unknownTimer | strayRetry | noErrState | duplicate | manyStarts | emptyCondition
  deriving DecidableEq

namespace Problem

def all : List Problem :=
  [unknownState, unknownTimer, strayRetry, noErrState, duplicate, manyStarts, emptyCondition]

/-- How the messages about a problem begin. -/
def opening : Problem → Text
  | unknownState => "unknown state '"
  | unknownTimer => "unknown timer '"
  | strayRetry => "retry is only allowed "
  | noErrState => "err "
  | duplicate => "duplicate "
  | manyStarts => "multiple start states: "
  | emptyCondition => "empty condition"

/-- How they end; only those about labels begin like others. -/
def ending : Problem → Text
  | noErrState => " needs a state flagged err to go to"
  | _ => []

def describes (x : Problem) (message : Text) : Bool :=
  x.opening.isPrefixOf message && x.ending.isSuffixOf message

/-- The places of the findings about a problem. -/
def places (x : Problem) (fs : List Finding) : List Position :=
  (fs.filter (x.describes ·.issue.message)).map Finding.place

theorem mem_all (x : Problem) : x ∈ all := by
  cases x <;> decide

end Problem

namespace Issue

/-- The problem that an issue is about. -/
def problem? : Issue → Option Problem
  | unknownState _ => some .unknownState
  | unknownTimer _ => some .unknownTimer
  | strayRetry => some .strayRetry
  | noErrState _ => some .noErrState
  | duplicateVariable _ _ | duplicateTimer _ _ | duplicateState _ _ => some .duplicate
  | manyStarts _ _ => some .manyStarts
  | emptyCondition => some .emptyCondition
  | _ => none

/-- The problem whose messages begin like that of an issue. -/
def opener? : Issue → Option Problem
  | noneLabel | labelClash _ _ => some .noErrState
  | i => i.problem?

/-- The label that clashes, if one does, is one that can. -/
def isSound : Issue → Bool
  | labelClash label _ => generatedEndings.contains label
  | _ => true

/-- An issue that is about none of the problems. -/
def isAside (i : Issue) : Bool :=
  i.isSound && i.problem?.isNone

theorem openers (i : Issue) :
    Problem.all.filter (·.opening.isPrefixOf i.message) = i.opener?.toList := by
  cases i with
  | emptyInit family name =>
    cases family <;>
      (dsimp only [Problem.all, List.filter, Problem.opening, message, Family.word,
        String.reduceToList]
       rfl)
  | _ =>
    dsimp only [Problem.all, List.filter, Problem.opening, message, String.reduceToList]
    rfl

theorem opens_iff (x : Problem) (i : Issue) :
    x.opening.isPrefixOf i.message ↔ i.opener? = some x := by
  rw [← Option.mem_toList, ← openers, List.mem_filter]
  simp [Problem.mem_all]

/-- A message that ends like one about a label without a state to go to ends with an `o`. -/
theorem not_ends {message : Text} {c : Char} (h : message.getLast? = some c) (hc : c ≠ 'o') :
    Problem.noErrState.ending.isSuffixOf message = false := by
  rw [Bool.eq_false_iff]
  intro hs
  obtain ⟨u, rfl⟩ := List.isSuffixOf_iff_suffix.mp hs
  rw [List.getLast?_append] at h
  have hlast : Problem.noErrState.ending.getLast? = some 'o' := by decide
  rw [hlast] at h
  exact hc (Option.some.inj h).symm

theorem labelClash_ends {label machine : Text} (h : label ∈ generatedEndings) :
    Problem.noErrState.ending.isSuffixOf (labelClash label machine).message = false := by
  have hlast {c : Char} (hc : label.getLast? = some c) :
      (labelClash label machine).message.getLast? = some c := by
    obtain ⟨u, hu⟩ : ∃ u, (labelClash label machine).message = u ++ label := ⟨_, rfl⟩
    rw [hu, List.getLast?_append, hc, Option.some_or]
  simp only [generatedEndings, List.mem_cons, List.not_mem_nil, or_false] at h
  obtain rfl | rfl | rfl := h
  · exact not_ends (c := 't') (hlast rfl) (by decide)
  · exact not_ends (c := 'e') (hlast rfl) (by decide)
  · exact not_ends (c := 's') (hlast rfl) (by decide)

theorem noErrState_ends (label : Text) :
    Problem.noErrState.ending.isSuffixOf (noErrState label).message :=
  List.isSuffixOf_iff_suffix.mpr (List.suffix_append _ _)

theorem opener_of_problem {x : Problem} {i : Issue} (h : i.problem? = some x) :
    i.opener? = some x := by
  cases i with
  | noneLabel | labelClash _ _ => cases h
  | _ => exact h

/-- A message tells what problem an issue is about. -/
theorem describes_message (x : Problem) {i : Issue} (h : i.isSound) :
    x.describes i.message = decide (i.problem? = some x) := by
  unfold Problem.describes
  by_cases hx : i.opener? = some x
  · rw [(opens_iff x i).mpr hx, Bool.true_and]
    -- the beginning settles it, except for what is said about labels
    cases i with
    | noneLabel =>
      cases hx
      exact not_ends rfl (by decide)
    | labelClash label machine =>
      cases hx
      exact labelClash_ends (List.contains_iff_mem.mp h)
    | noErrState label =>
      cases hx
      exact noErrState_ends label
    | _ => cases hx <;> rfl
  · rw [Bool.eq_false_iff.mpr (mt (opens_iff x i).mp hx), Bool.false_and]
    exact (decide_eq_false (mt opener_of_problem hx)).symm

end Issue

/-- The members of a list that come after one of the same name. -/
def repeats {α : Type} (name : α → Text) (xs : List α) : List α :=
  (xs.zipIdx.filter fun x => (xs.take x.2).any (name · = name x.1)).map Prod.fst

theorem repeats_sublist {α : Type} (name : α → Text) (xs : List α) : repeats name xs <+ xs := by
  have h := (List.filter_sublist (l := xs.zipIdx)
    (p := fun x => (xs.take x.2).any (name · = name x.1))).map Prod.fst
  rwa [List.zipIdx_map_fst] at h

def State.jumps (s : State) : List Jump :=
  s.transitions.filterMap (·.action.jump?)

/-- The jumps of an item, the overflow of a block behind those of its states. -/
def Item.jumps : Item → List Jump
  | state s => s.jumps
  | block u => u.states.flatMap State.jumps ++ [u.overflow]

/-- The states of an item that no block is around. -/
def Item.lone : Item → List State
  | state s => [s]
  | block _ => []

namespace Machine
variable (m : Machine)

/-- A jump that leads nowhere: to a state that is not declared, or to an error where no state is
flagged for errors. -/
def misses : Problem → Jump → Bool
  | .unknownState, .go r => m.states.all (·.name ≠ r.name)
  | .noErrState, .err _ => m.states.all (!·.has .err)
  | _, _ => false

/-- The places where a machine has a problem: those of the names, declarations and transitions that
have it. -/
def troubles : Problem → List Position
  | .unknownState =>
    ((m.items.flatMap Item.jumps).filter (m.misses .unknownState)).map (·.ref.place)
  | .unknownTimer =>
    (m.timerRefs.filter fun r => m.timers.all (·.name ≠ r.name)).map Ref.place
  | .strayRetry =>
    (((m.items.flatMap Item.lone).flatMap State.transitions).filter (·.action = .retry)).map
      Transition.place
  | .noErrState => ((m.items.flatMap Item.jumps).filter (m.misses .noErrState)).map (·.ref.place)
  | .duplicate =>
    (((repeats Variable.name m.vars).filter (!reservedNames.contains ·.name)).map Variable.place ++
      (repeats Timer.name m.timers).map Timer.place) ++
      (repeats State.name m.states).map State.place
  | .manyStarts => (m.states.filter (·.has .start)).tail.map State.place
  | .emptyCondition =>
    (m.transitions.filter fun t => t.trigger.condition?.any (·.text.allBlank)).map Transition.place

end Machine

namespace Problem
variable (x : Problem) {m : Machine} {fs gs : List Finding}

theorem places_append : x.places (fs ++ gs) = x.places fs ++ x.places gs := by
  simp [places]

theorem places_flatMap {α : Type} (xs : List α) (f : α → List Finding) :
    x.places (xs.flatMap f) = xs.flatMap fun a => x.places (f a) := by
  simp [places, List.filter_flatMap, List.map_flatMap]

theorem places_singleton {i : Issue} (h : i.isSound) (q : Position) :
    x.places [⟨i, q⟩] = if i.problem? = some x then [q] else [] := by
  have hd := i.describes_message x h
  by_cases hx : i.problem? = some x
  · rw [decide_eq_true hx] at hd
    simp [places, hd, hx]
  · rw [decide_eq_false hx] at hd
    simp [places, hd, hx]

theorem places_aside (h : ∀ f ∈ fs, f.issue.isAside) : x.places fs = [] := by
  unfold places
  rw [List.map_eq_nil_iff, List.filter_eq_nil_iff]
  intro f hf
  have haside := h f hf
  simp only [Issue.isAside, Bool.and_eq_true, Option.isNone_iff_eq_none] at haside
  rw [Issue.describes_message x haside.1, haside.2]
  simp

/-- The places of what a survey finds about members with an earlier one of their name. -/
theorem places_survey {α : Type} {check : List α → α → List Finding} {name : α → Text}
    {counts : α → Bool} {place : α → Position}
    (h : ∀ earlier a, x.places (check earlier a) =
      if counts a && earlier.any (name · = name a) then [place a] else []) (xs : List α) :
    x.places (survey check [] xs) = ((repeats name xs).filter counts).map place := by
  -- a survey under way has seen the members before, and counts positions from there
  have hfrom (earlier xs : List α) : x.places (survey check earlier xs) =
      ((((xs.zipIdx earlier.length).filter fun a =>
        ((earlier ++ xs).take a.2).any (name · = name a.1)).map Prod.fst).filter counts).map
          place := by
    induction xs generalizing earlier with
    | nil => rfl
    | cons a xs ih =>
      have hrest := ih (earlier ++ [a])
      rw [List.length_append, List.length_singleton, List.append_assoc] at hrest
      rw [survey, places_append, h, hrest, List.zipIdx_cons, List.filter_cons]
      dsimp only
      rw [List.take_left]
      by_cases hsame : earlier.any (name · = name a)
      · by_cases hcounts : counts a <;> simp [hsame, hcounts]
      · simp [hsame]
  exact hfrom [] xs

/-- Findings that hang on a search: one about a problem if it succeeds, none if not. -/
theorem places_find? {α : Type} {p : α → Bool} {xs : List α} {y : Problem} {q : Position}
    (hsome : ∀ a, xs.find? p = some a →
      ∃ i : Issue, i.isSound ∧ i.problem? = some y ∧ fs = [⟨i, q⟩])
    (hnone : xs.find? p = none → ∀ f ∈ fs, f.issue.isAside) :
    x.places fs = if decide (y = x) && xs.any p then [q] else [] := by
  cases hf : xs.find? p with
  | none =>
    have hany : xs.any p = false := by simpa using hf
    rw [hany, Bool.and_false]
    exact x.places_aside (hnone hf)
  | some a =>
    have hany : xs.any p = true := List.any_eq_true.mpr
      ⟨a, List.mem_of_find?_eq_some hf, List.find?_some hf⟩
    obtain ⟨i, hsound, hproblem, rfl⟩ := hsome a hf
    rw [x.places_singleton hsound, hproblem, hany, Bool.and_true]
    simp

theorem places_map {α : Type} (xs : List α) {issue : α → Issue} {y : Problem}
    (h : ∀ a, (issue a).isSound ∧ (issue a).problem? = some y) (place : α → Position) :
    x.places (xs.map fun a => ⟨issue a, place a⟩) = if y = x then xs.map place else [] := by
  induction xs with
  | nil => simp [places]
  | cons a xs ih =>
    rw [List.map_cons, ← List.singleton_append, places_append, ih, x.places_singleton (h a).1,
      (h a).2]
    by_cases hy : y = x <;> simp [hy]

theorem places_unless {i : Issue} {y : Problem} (h : i.isSound ∧ i.problem? = some y) (test : Bool)
    (q : Position) :
    x.places (if test then [] else [⟨i, q⟩]) = if decide (y = x) && !test then [q] else [] := by
  cases test with
  | true => simp [places]
  | false => simp [x.places_singleton h.1, h.2]

theorem flatMap_if {α β : Type} {p : α → Bool} {f : α → β} (xs : List α) :
    (xs.flatMap fun a => if p a then [f a] else []) = (xs.filter p).map f := by
  induction xs with
  | nil => rfl
  | cons a xs ih => by_cases ha : p a <;> simp [ha, ih]

section Declarations

theorem places_checkVariable (earlier : List Variable) (v : Variable) :
    x.places (Machine.checkVariable earlier v) =
      if (decide (duplicate = x) && !reservedNames.contains v.name) &&
        earlier.any (·.name = v.name) then [v.place] else [] := by
  unfold Machine.checkVariable
  rw [places_append, x.places_aside (Machine.forall_ite rfl), List.nil_append]
  split
  · rename_i hr
    rw [x.places_aside (List.forall_mem_singleton.mpr rfl), hr]
    simp
  · rename_i hr
    rw [Bool.eq_false_iff.mpr hr, Bool.not_false, Bool.and_true]
    refine x.places_find? (fun first h => ?_) fun h => ?_
    · exact ⟨.duplicateVariable v.name first, rfl, rfl, by rw [h]⟩
    · rw [h]
      exact List.forall_mem_nil _

theorem places_checkTimer (earlier : List Timer) (t : Timer) :
    x.places (Machine.checkTimer earlier t) =
      if decide (duplicate = x) && earlier.any (·.name = t.name) then [t.place] else [] := by
  unfold Machine.checkTimer
  refine x.places_find? (fun first h => ?_) fun h => ?_
  · exact ⟨.duplicateTimer t.name first, rfl, rfl, by rw [h]⟩
  · rw [h]
    exact List.forall_mem_nil _

theorem places_checkStateName (earlier : List State) (s : State) :
    x.places (m.checkStateName earlier s) =
      if decide (duplicate = x) && earlier.any (·.name = s.name) then [s.place] else [] := by
  unfold Machine.checkStateName
  refine x.places_find? (fun first h => ?_) fun h => ?_
  · exact ⟨.duplicateState s.name first, rfl, rfl, by rw [h]⟩
  · rw [h]
    exact Machine.forall_ite rfl

theorem places_checkStarts : x.places m.checkStarts =
    if manyStarts = x then (m.states.filter (·.has .start)).tail.map State.place
    else [] := by
  unfold Machine.checkStarts
  cases m.states.filter (·.has .start) with
  | nil =>
    dsimp only
    rw [x.places_aside (List.forall_mem_singleton.mpr rfl)]
    simp
  | cons first others =>
    exact x.places_map others (fun _ => ⟨rfl, rfl⟩) State.place

theorem aside_checkErrs : ∀ f ∈ m.checkErrs, f.issue.isAside := by
  unfold Machine.checkErrs
  cases m.states.filter (·.has .err) with
  | nil => exact List.forall_mem_nil _
  | cons first others =>
    intro f hf
    obtain ⟨s, _, rfl⟩ := List.mem_map.mp hf
    rfl

theorem aside_checkBlock (u : Until) : ∀ f ∈ Machine.checkBlock u, f.issue.isAside := by
  unfold Machine.checkBlock
  rw [List.forall_mem_append]
  exact ⟨Machine.forall_ite rfl, Machine.forall_ite rfl⟩

/-- What is found about declarations is a name declared again, or one more start state. -/
theorem places_checkDeclarations : x.places m.checkDeclarations =
    (((repeats Variable.name m.vars).filter fun v =>
          decide (duplicate = x) && !reservedNames.contains v.name).map Variable.place ++
        ((repeats Timer.name m.timers).filter fun _ => decide (duplicate = x)).map
          Timer.place ++
        ((repeats State.name m.states).filter fun _ => decide (duplicate = x)).map
          State.place) ++
      if manyStarts = x then (m.states.filter (·.has .start)).tail.map State.place
      else [] := by
  have hends : ∀ f ∈ m.checkEnds, f.issue.isAside := Machine.forall_unless rfl
  have hflags : ∀ f ∈ m.states.flatMap Machine.checkFlags, f.issue.isAside :=
    Machine.forall_flatMap fun s _ => Machine.forall_survey fun _ _ _ => Machine.forall_ite rfl
  have hblocks : ∀ f ∈ (m.untils.takeWhile (!·.bound.isLong)).flatMap Machine.checkBlock,
      f.issue.isAside :=
    Machine.forall_flatMap fun u _ => aside_checkBlock u
  unfold Machine.checkDeclarations
  simp only [places_append, x.places_aside hends, x.places_aside aside_checkErrs,
    x.places_aside hflags, x.places_aside hblocks, List.append_nil, places_checkStarts,
    x.places_survey x.places_checkVariable, x.places_survey x.places_checkTimer,
    x.places_survey x.places_checkStateName]

end Declarations

section Items

theorem aside_checkLabel (r : Ref) : ∀ f ∈ m.checkLabel r, f.issue.isAside := by
  unfold Machine.checkLabel
  split
  · exact List.forall_mem_singleton.mpr rfl
  · split
    · rename_i h
      refine List.forall_mem_singleton.mpr ?_
      simp [Issue.isAside, Issue.isSound, Issue.problem?, List.contains_iff_mem.mp h]
    · exact List.forall_mem_nil _

theorem places_checkJump (j : Jump) :
    x.places (m.checkJump j) = if m.misses x j then [j.ref.place] else [] := by
  cases j with
  | go r =>
    have h := x.places_unless (i := .unknownState r.name) ⟨rfl, rfl⟩
      (m.stateNumber? r.name).isSome r.place
    rw [Machine.checkJump, h, Machine.stateNumber?, List.findIdx?_isSome]
    cases x <;> simp [Machine.misses, Jump.ref, List.any_eq_not_all_not]
  | err r =>
    have h := x.places_unless (i := .noErrState r.name) ⟨rfl, rfl⟩
      (m.flagged? .err).isSome r.place
    rw [Machine.checkJump, places_append, x.places_aside (aside_checkLabel r), h,
      Machine.flagged?, List.findIdx?_isSome]
    cases x <;> simp [Machine.misses, Jump.ref, List.any_eq_not_all_not]

theorem places_checkTimerRef (r : Ref) :
    x.places (m.checkTimerRef r) =
      if decide (unknownTimer = x) && m.timers.all (·.name ≠ r.name) then [r.place] else [] := by
  have h := x.places_unless (i := .unknownTimer r.name) ⟨rfl, rfl⟩
    (m.timerNumber? r.name).isSome r.place
  rw [Machine.checkTimerRef, h, Machine.timerNumber?, List.findIdx?_isSome]
  simp [List.any_eq_not_all_not]

theorem places_checkTransition (nested : Bool) (t : Transition) :
    x.places (m.checkTransition nested t) =
      ((t.action.jump?.toList.filter (m.misses x)).map (·.ref.place) ++
        if (decide (strayRetry = x) && !nested) && decide (t.action = .retry) then [t.place]
        else []) ++
      ((t.trigger.timer?.toList ++ t.starts).filter fun r =>
        decide (unknownTimer = x) && m.timers.all (·.name ≠ r.name)).map Ref.place := by
  unfold Machine.checkTransition
  rw [places_append, places_append, places_flatMap, List.filter_append, List.map_append,
    ← List.append_assoc]
  refine congrArg₂ (· ++ ·) (congrArg₂ (· ++ ·) ?_ ?_) ?_
  · cases t.action with
    | jump j => by_cases hj : m.misses x j <;> simp [places_checkJump, Action.jump?, hj]
    | retry =>
      dsimp only
      rw [x.places_unless (i := .strayRetry) ⟨rfl, rfl⟩]
      simp [Action.jump?]
  · cases t.trigger with
    | when f => rfl
    | timeout r =>
      dsimp only [Trigger.timer?]
      rw [places_checkTimerRef, ← flatMap_if]
      simp
  · simp only [places_checkTimerRef, flatMap_if]

theorem places_checkCondition (t : Transition) :
    x.places (m.checkCondition t) =
      if decide (emptyCondition = x) && t.trigger.condition?.any (·.text.allBlank) then [t.place]
      else [] := by
  unfold Machine.checkCondition
  cases t.trigger with
  | timeout r => simp [places, Trigger.condition?]
  | when f =>
    have hreads : ∀ g ∈ ((m.uses f.text).filter (·.2.family = .output)).map (fun u =>
        Finding.mk (.outputRead u.2.name) (f.placeAt u.1)), g.issue.isAside := by
      intro g hg
      obtain ⟨u, _, rfl⟩ := List.mem_map.mp hg
      rfl
    dsimp only
    rw [places_append, x.places_aside hreads, List.append_nil]
    by_cases hblank : f.text.allBlank
    · simp [hblank, Trigger.condition?, x.places_singleton (i := .emptyCondition) rfl,
        Issue.problem?]
    · simp [hblank, Trigger.condition?, places]

theorem aside_checkOut (a : Assignment) : ∀ f ∈ m.checkOut a, f.issue.isAside := by
  unfold Machine.checkOut
  rw [List.forall_mem_append]
  refine ⟨Machine.forall_ite rfl, ?_⟩
  split
  · exact List.forall_mem_singleton.mpr rfl
  · exact Machine.forall_unless rfl

theorem aside_checkCode (c : Fragment) : ∀ f ∈ m.checkCode c, f.issue.isAside := by
  intro f hf
  obtain ⟨u, _, rfl⟩ := List.mem_map.mp hf
  rfl

theorem places_checkState (nested : Bool) (s : State) :
    x.places (m.checkState nested s) =
      (s.transitions.flatMap fun t => x.places (m.checkTransition nested t)) ++
        (s.transitions.filter fun t =>
          decide (emptyCondition = x) && t.trigger.condition?.any (·.text.allBlank)).map
            Transition.place := by
  unfold Machine.checkState
  rw [places_append, places_append, places_append,
    x.places_aside (Machine.forall_flatMap fun a _ => aside_checkOut a),
    x.places_aside (Machine.forall_flatMap fun c _ => aside_checkCode c), List.append_nil,
    List.append_nil, places_flatMap, places_flatMap]
  simp only [places_checkCondition, flatMap_if]

theorem places_checkItems :
    x.places m.checkItems = m.items.flatMap fun i => x.places (m.checkItem i) :=
  x.places_flatMap m.items m.checkItem

theorem places_block (u : Until) : x.places (m.checkItem (.block u)) =
    (u.states.flatMap fun s => x.places (m.checkState true s)) ++
      if m.misses x u.overflow then [u.overflow.ref.place] else [] := by
  rw [Machine.checkItem, places_append, places_flatMap, places_checkJump]

/-- The jumps that lead nowhere. -/
theorem places_jumps (hx : x = unknownState ∨ x = noErrState) : x.places m.checkItems =
    ((m.items.flatMap Item.jumps).filter (m.misses x)).map (·.ref.place) := by
  have hstate (nested : Bool) (s : State) : x.places (m.checkState nested s) =
      (s.jumps.filter (m.misses x)).map (·.ref.place) := by
    rw [places_checkState, State.jumps, List.filterMap_eq_flatMap_toList, List.filter_flatMap,
      List.map_flatMap]
    obtain rfl | rfl := hx <;> simp [places_checkTransition]
  rw [places_checkItems, List.filter_flatMap, List.map_flatMap]
  refine List.flatMap_congr fun i _ => ?_
  cases i with
  | state s => exact hstate false s
  | block u =>
    rw [places_block, Item.jumps, List.filter_append, List.map_append, List.filter_flatMap,
      List.map_flatMap]
    simp only [hstate]
    by_cases hu : m.misses x u.overflow <;> simp [hu]

/-- What is found in a state by itself, in a block or not. -/
theorem places_states {f : State → List Position} (hx : m.misses x = fun _ => false)
    (h : ∀ nested s, x.places (m.checkState nested s) = f s) :
    x.places m.checkItems = m.states.flatMap f := by
  rw [places_checkItems, Machine.states, List.flatMap_assoc]
  refine List.flatMap_congr fun i _ => ?_
  cases i with
  | state s =>
    rw [Item.states, List.flatMap_singleton]
    exact h false s
  | block u =>
    rw [places_block, hx]
    simp [h, Item.states]

theorem places_timers : unknownTimer.places m.checkItems =
    (m.timerRefs.filter fun r => m.timers.all (·.name ≠ r.name)).map Ref.place := by
  have hnone : m.misses unknownTimer = fun _ => false := rfl
  have hstate (nested : Bool) (s : State) : unknownTimer.places (m.checkState nested s) =
      s.transitions.flatMap fun t => ((t.trigger.timer?.toList ++ t.starts).filter fun r =>
        m.timers.all (·.name ≠ r.name)).map Ref.place := by
    rw [places_checkState]
    simp [places_checkTransition, hnone]
  rw [unknownTimer.places_states hnone hstate, Machine.timerRefs, Machine.transitions]
  simp only [List.filter_flatMap, List.map_flatMap, List.flatMap_assoc]

theorem places_conditions : emptyCondition.places m.checkItems =
    (m.transitions.filter fun t => t.trigger.condition?.any (·.text.allBlank)).map
      Transition.place := by
  have hnone : m.misses emptyCondition = fun _ => false := rfl
  have hstate (nested : Bool) (s : State) : emptyCondition.places (m.checkState nested s) =
      (s.transitions.filter fun t => t.trigger.condition?.any (·.text.allBlank)).map
        Transition.place := by
    rw [places_checkState]
    simp [places_checkTransition, hnone]
  rw [emptyCondition.places_states hnone hstate, Machine.transitions]
  simp only [List.filter_flatMap, List.map_flatMap]

/-- Declarations are not checked again where they are used. -/
theorem places_items (hx : x = duplicate ∨ x = manyStarts) : x.places m.checkItems = [] := by
  have hnone : m.misses x = fun _ => false := by
    obtain rfl | rfl := hx <;> rfl
  have hstate (nested : Bool) (s : State) : x.places (m.checkState nested s) = [] := by
    rw [places_checkState]
    obtain rfl | rfl := hx <;> simp [places_checkTransition, hnone]
  rw [x.places_states hnone hstate]
  exact List.flatMap_eq_nil_iff.mpr fun _ _ => rfl

/-- Retries are allowed in a block, so that the states of blocks do not count here. -/
theorem places_retries : strayRetry.places m.checkItems =
    (((m.items.flatMap Item.lone).flatMap State.transitions).filter (·.action = .retry)).map
      Transition.place := by
  have hnone : m.misses strayRetry = fun _ => false := rfl
  have htransition (nested : Bool) (t : Transition) :
      strayRetry.places (m.checkTransition nested t) =
        if !nested && decide (t.action = .retry) then [t.place] else [] := by
    simp [places_checkTransition, hnone]
  have hstate (nested : Bool) (s : State) : strayRetry.places (m.checkState nested s) =
      (s.transitions.filter fun t => !nested && decide (t.action = .retry)).map
        Transition.place := by
    rw [places_checkState]
    simp only [htransition, flatMap_if]
    simp
  rw [places_checkItems, List.flatMap_assoc, List.filter_flatMap, List.map_flatMap]
  refine List.flatMap_congr fun i _ => ?_
  cases i with
  | state s =>
    rw [Item.lone, List.flatMap_singleton]
    exact hstate false s
  | block u =>
    rw [places_block, hnone]
    simp [hstate, Item.lone]

/-- The checks find a problem at the places where a machine has it. -/
theorem places_checks : x.places (m.checkDeclarations ++ m.checkItems) = m.troubles x := by
  rw [places_append, places_checkDeclarations]
  cases x with
  | unknownState | noErrState => simp [places_jumps, Machine.troubles]
  | unknownTimer => simp [places_timers, Machine.troubles]
  | strayRetry => simp [places_retries, Machine.troubles]
  | duplicate => simp [places_items, Machine.troubles]
  | manyStarts => simp [places_items, Machine.troubles]
  | emptyCondition => simp [places_conditions, Machine.troubles]

end Items
end Problem

section Marks

theorem transition_marks (t : Transition) : [t.place] <+ t.marks :=
  (List.nil_sublist _).cons_cons _

theorem jump_marks (t : Transition) : t.action.jump?.toList.map (·.ref.place) <+ t.marks :=
  ((List.sublist_append_left _ _).trans (List.sublist_append_right _ _)).cons _

theorem timer_marks (t : Transition) :
    (t.trigger.timer?.toList ++ t.starts).map Ref.place <+ t.marks := by
  rw [List.map_append]
  exact ((List.Sublist.refl _).append (List.sublist_append_right _ _)).cons _

theorem State.transitions_marks {f : Transition → List Position} (h : ∀ t, f t <+ t.marks)
    (s : State) : s.transitions.flatMap f <+ s.marks :=
  (List.Sublist.flatMap_right _ fun t _ => h t).cons _

namespace Machine
variable (m : Machine)

theorem states_marks {f : State → List Position} (h : ∀ s, f s <+ s.marks) :
    m.states.flatMap f <+ m.items.flatMap Item.marks := by
  rw [states, List.flatMap_assoc]
  refine List.Sublist.flatMap_right _ fun i _ => ?_
  cases i with
  | state s =>
    rw [Item.states, List.flatMap_singleton]
    exact h s
  | block u =>
    exact (List.Sublist.flatMap_right _ fun s _ => h s).trans (List.sublist_append_left _ _)

theorem transitions_marks {f : Transition → List Position} (h : ∀ t, f t <+ t.marks) :
    m.transitions.flatMap f <+ m.items.flatMap Item.marks := by
  rw [transitions, List.flatMap_assoc]
  exact m.states_marks (State.transitions_marks h)

theorem jumps_marks :
    (m.items.flatMap Item.jumps).map (·.ref.place) <+ m.items.flatMap Item.marks := by
  have hstate (s : State) : s.jumps.map (·.ref.place) <+ s.marks := by
    rw [State.jumps, List.filterMap_eq_flatMap_toList, List.map_flatMap]
    exact State.transitions_marks jump_marks s
  rw [List.map_flatMap]
  refine List.Sublist.flatMap_right _ fun i _ => ?_
  cases i with
  | state s => exact hstate s
  | block u =>
    rw [Item.jumps, List.map_append, List.map_flatMap]
    exact (List.Sublist.flatMap_right _ fun s _ => hstate s).append (List.Sublist.refl _)

theorem lone_sublist : m.items.flatMap Item.lone <+ m.states := by
  refine List.Sublist.flatMap_right _ fun i _ => ?_
  cases i with
  | state s => exact List.Sublist.refl _
  | block u => exact List.nil_sublist _

/-- A problem has one of the places that tell the parts of a machine apart. -/
theorem troubles_sublist (x : Problem) : m.troubles x <+ m.marks := by
  have hitems : m.items.flatMap Item.marks <+ m.marks := List.sublist_append_right _ _
  have hstates : m.states.map State.place <+ m.items.flatMap Item.marks := by
    rw [List.map_eq_flatMap]
    exact m.states_marks fun s => (List.nil_sublist _).cons_cons _
  have htransitions : m.transitions.map Transition.place <+ m.items.flatMap Item.marks := by
    rw [List.map_eq_flatMap]
    exact m.transitions_marks transition_marks
  cases x with
  | unknownState | noErrState =>
    exact ((List.filter_sublist.map _).trans m.jumps_marks).trans hitems
  | unknownTimer =>
    refine List.Sublist.trans ((List.filter_sublist.map _).trans ?_) hitems
    rw [timerRefs, List.map_flatMap]
    exact m.transitions_marks timer_marks
  | strayRetry =>
    have hlone := (m.lone_sublist.flatMap State.transitions).map Transition.place
    exact (((List.filter_sublist.map _).trans hlone).trans htransitions).trans hitems
  | emptyCondition => exact ((List.filter_sublist.map _).trans htransitions).trans hitems
  | manyStarts =>
    have hstarts : (m.states.filter (·.has .start)).tail <+ m.states :=
      (List.tail_sublist _).trans List.filter_sublist
    exact ((hstarts.map _).trans hstates).trans hitems
  | duplicate =>
    refine List.Sublist.append (List.Sublist.append ?_ ?_) ?_
    · exact (List.filter_sublist.trans (repeats_sublist _ _)).map _
    · exact (repeats_sublist _ _).map _
    · exact ((repeats_sublist _ _).map _).trans hstates

end Machine
end Marks

/-- A problem is reported by an error at each of its places, of which no two are the same, by no
more than one, and nowhere else. -/
structure ReportedOnce (ds : List Diagnostic) (x : Problem) (places : List Position) : Prop where
  distinct : places.Nodup
  once : ∀ q ∈ places, ∃ d, ds.filter (fun e => e.place = q && x.describes e.message) = [d] ∧
    d.isError
  only : ∀ d ∈ ds, x.describes d.message → d.place ∈ places

theorem Issue.severity_of_opener {x : Problem} {i : Issue} (h : i.opener? = some x) :
    i.severity = .error := by
  cases i with
  | alsoErr _ _ | unreachable _ => cases h
  | _ => rfl

theorem reportedOnce_of_places {x : Problem} {fs : List Finding} (file : Option Text)
    (h : (x.places fs).Nodup) :
    ReportedOnce (fs.map (·.diagnostic file)) x (x.places fs) := by
  refine ⟨h, fun q hq => ?_, fun d hd hx => ?_⟩
  · obtain ⟨f, hf, rfl⟩ := List.mem_map.mp hq
    have hone := Machine.filter_name h hf
    rw [List.filter_filter] at hone
    refine ⟨f.diagnostic file, ?_, ?_⟩
    · rw [List.filter_map]
      exact congrArg (List.map (Finding.diagnostic · file)) hone
    · have hopens := (Bool.and_eq_true_iff.mp (List.mem_filter.mp hf).2).1
      exact decide_eq_true (Issue.severity_of_opener ((Issue.opens_iff x f.issue).mp hopens))
  · obtain ⟨f, hf, rfl⟩ := List.mem_map.mp hd
    exact List.mem_map.mpr ⟨f, List.mem_filter.mpr ⟨hf, hx⟩, rfl⟩

theorem Analysis.aside_unreachable (m : Machine) : ∀ f ∈ unreachable m, f.issue.isAside := by
  unfold unreachable
  split
  · exact List.forall_mem_nil _
  · intro f hf
    obtain ⟨s, _, rfl⟩ := List.mem_map.mp hf
    rfl

namespace Compilation

/-- Whatever else is wrong with a program, each of its problems is reported. -/
theorem problems_reported_once {file : Option Text} {source : Text} {c : Compilation} {p : Program}
    (hp : parse { file } source = (c, .ok p))
    (hb : ∀ u ∈ p.machine.untils, ∀ digits, u.bound = .literal digits →
      digits.length ≤ digitLimit) (x : Problem) :
    ReportedOnce (c.analyze p).1.diagnostics x (p.machine.troubles x) := by
  obtain ⟨hd, hc⟩ := derives_of_parse hp
  have hlong : ∀ u ∈ p.machine.untils, u.bound.isLong = false :=
    fun u hu => isLong_eq_false.mpr (hb u hu)
  have hplaces : x.places (Analysis.run p.machine).findings = p.machine.troubles x := by
    rw [Analysis.run_of_fresh hd.fresh hlong, Problem.places_append, Problem.places_checks,
      x.places_aside (Analysis.aside_unreachable _), List.append_nil]
  have hnodup : (x.places (Analysis.run p.machine).findings).Nodup := by
    rw [hplaces]
    exact (p.machine.troubles_sublist x).nodup hd.marks_nodup
  rw [analyze_diagnostics, hc, List.nil_append, ← hplaces]
  exact reportedOnce_of_places c.file hnodup

/-- A machine with every problem at once. -/
def troubledSource : Text :=
  "fsm m\x7bvar int x(0);var int x(1);timer t(1);timer t(2);" ++
    "state[start]a\x7bon( )go nowhere;on timeout(u)retry;on(1)err e start(v);\x7d" ++
    "state[start]a\x7b\x7duntil(2)\x7bstate b\x7bon(1)retry;\x7d\x7dgo gone;\x7d"

theorem problems_reported_once_together : ∃ c p, parse {} troubledSource = (c, .ok p) ∧
    (∀ u ∈ p.machine.untils, ∀ digits, u.bound = .literal digits → digits.length ≤ digitLimit) ∧
    ∀ x, p.machine.troubles x ≠ [] ∧
      ReportedOnce (c.analyze p).1.diagnostics x (p.machine.troubles x) := by
  have h : (parse {} troubledSource).2.toOption.any (fun p =>
      p.machine.untils.all (!·.bound.isLong) &&
        Problem.all.all fun x => !(p.machine.troubles x).isEmpty) = true := by decide +kernel
  generalize hp : parse {} troubledSource = result at h
  obtain ⟨c, result⟩ := result
  cases result with
  | error e => cases h
  | ok p =>
    simp only [Except.toOption, Option.any_some, Bool.and_eq_true] at h
    have hb : ∀ u ∈ p.machine.untils, ∀ digits, u.bound = .literal digits →
        digits.length ≤ digitLimit := by
      intro u hu
      have hlong := List.all_eq_true.mp h.1 u hu
      exact isLong_eq_false.mp (by simpa using hlong)
    refine ⟨c, p, rfl, hb, fun x => ⟨?_, problems_reported_once hp hb x⟩⟩
    have hx := List.all_eq_true.mp h.2 x x.mem_all
    simpa using hx

end Compilation
end Statewright
