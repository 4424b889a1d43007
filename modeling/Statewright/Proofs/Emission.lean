import Statewright.Proofs.Lookups

namespace Statewright
namespace Code
variable {n : Nat} {l : Text} {ls ks : List Text}

theorem indent_append (n : Nat) (ls ks : List Text) :
    indent n (ls ++ ks) = indent n ls ++ indent n ks := by
  rw [indent, List.flatMap_append, List.map_append]
  rfl

theorem indent_within (h : ls <:+: ks) : indent n ls <:+: indent n ks := by
  obtain ⟨before, after, rfl⟩ := h
  rw [indent_append, indent_append]
  exact List.infix_append _ _ _

theorem indent_mem (h : l ∈ ls) : indent n [l] <:+: indent n ls := by
  obtain ⟨before, after, rfl⟩ := List.append_of_mem h
  exact indent_within ⟨before, after, by simp⟩

end Code

namespace CUnit
variable {m : Machine} {s : Site} {t : Transition} {stem c : Text} {a : Actuation}

theorem mapM_found {ε α β : Type} {f : α → Except ε β} {xs : List α} {ys : List β}
    (h : xs.mapM f = .ok ys) {x : α} (hx : x ∈ xs) : ∃ y ∈ ys, f x = .ok y := by
  induction xs generalizing ys with
  | nil => cases hx
  | cons z xs ih =>
    rw [List.mapM_cons] at h
    cases hz : f z with
    | error e =>
      rw [hz] at h
      cases h
    | ok y =>
      cases hzs : xs.mapM f with
      | error e =>
        rw [hz, hzs] at h
        cases h
      | ok rest =>
        rw [hz, hzs] at h
        cases h
        rcases List.mem_cons.mp hx with rfl | hx
        · exact ⟨y, List.mem_cons_self, hz⟩
        · obtain ⟨y', hy', he⟩ := ih hzs hx
          exact ⟨y', List.mem_cons_of_mem _ hy', he⟩

/-- The lines of a transition with its condition and what it does. -/
def writtenTransition (m : Machine) (s : Site) (t : Transition) (stem c : Text) (a : Actuation) :
    List Text :=
  List.flatten
    [["if (" ++ c ++ ") \x7b"], blockLines m 4 t.code, Code.indent 4 (outLines m s.state),
     Code.indent 4 (a.lines stem), ["    break;", "\x7d"]]

theorem transitionLines_eq (hc : condition m stem t.trigger = .ok c)
    (ha : Actuation.ofTransition m s.block t = .ok a) :
    transitionLines m stem s t = .ok (writtenTransition m s t stem c a) := by
  simp only [transitionLines, hc, ha]
  rfl

/-- What a transition does is written among its lines. -/
theorem writtenTransition_holds {ks : List Text} (h : ks <:+: a.lines stem) :
    Code.indent 4 ks <:+: writtenTransition m s t stem c a :=
  (Code.indent_within h).trans (List.infix_of_mem_flatten (by simp))

/-- The case of a state is written, and holds all that the state has. -/
theorem stepCase_holds (h : m.Fits) (hs : s ∈ m.sites) (stem : Text) :
    ∃ ls, stepCase m stem s = .ok ls ∧
      Code.indent 8 (blockLines m 0 s.state.entry) <:+: ls ∧
      Code.indent 8 (outLines m s.state) <:+: ls ∧
      ∀ t ∈ s.state.transitions, ∃ c a, condition m stem t.trigger = .ok c ∧
        Actuation.ofTransition m s.block t = .ok a ∧
        Code.indent 8 (writtenTransition m s t stem c a) <:+: ls := by
  obtain ⟨ts, hts⟩ := mapM_succeeds fun t ht => transitionLines_succeeds h hs ht stem
  let body := blockLines m 0 s.state.entry ++ ts.flatten ++ outLines m s.state
  obtain ⟨first, last, hcase⟩ : ∃ first last,
      stepCase m stem s = .ok (List.flatten [first, Code.indent 8 body, last]) := by
    refine ⟨["    case " ++ stateName stem s.state.name ++ ":"], ["        break;"], ?_⟩
    simp only [stepCase, caseLines, hts]
    rfl
  have hbody {ks : List Text} (hks : ks <:+: body) :
      Code.indent 8 ks <:+: List.flatten [first, Code.indent 8 body, last] :=
    (Code.indent_within hks).trans ⟨first, last, by simp⟩
  refine ⟨_, hcase, hbody ⟨[], ts.flatten ++ outLines m s.state, by simp [body]⟩,
    hbody ⟨_, [], List.append_nil _⟩, ?_⟩
  intro t ht
  obtain ⟨c, hc⟩ := condition_succeeds h hs ht stem
  obtain ⟨a, ha, _⟩ := h.actuations s hs t ht
  refine ⟨c, a, hc, ha, hbody ?_⟩
  obtain ⟨written, hmem, he⟩ := mapM_found hts ht
  rw [transitionLines_eq hc ha] at he
  cases he
  obtain ⟨before, after, rfl⟩ := List.append_of_mem hmem
  exact ⟨blockLines m 0 s.state.entry ++ before.flatten, after.flatten ++ outLines m s.state,
    by simp [body]⟩

theorem functionLines_holds {head : Text} {ks body : List Text} (h : ks <:+: body) :
    ks <:+: functionLines head body :=
  h.trans (List.infix_of_mem_flatten (by simp))

/-- The step function has the case of every state. -/
theorem stepLines_cases {p : Program} {ls : List Text} (h : stepLines p stem = .ok ls)
    (hs : s ∈ p.machine.sites) :
    ∃ ks, stepCase p.machine stem s = .ok ks ∧ ks <:+: ls := by
  unfold stepLines at h
  cases hcases : p.machine.sites.mapM (stepCase p.machine stem) with
  | error e =>
    rw [hcases] at h
    cases h
  | ok cases =>
    rw [hcases] at h
    cases h
    obtain ⟨ks, hks, he⟩ := mapM_found hcases hs
    refine ⟨ks, he, functionLines_holds ?_⟩
    apply (List.infix_of_mem_flatten hks).trans
    apply List.infix_of_mem_flatten
    simp only [List.mem_cons, true_or, or_true]

/-- The parts of a unit, in order. -/
theorem lines_parts {p : Program} {start : Text} {ls : List Text}
    (h : lines p stem start = .ok ls) :
    ∃ step, stepLines p stem = .ok step ∧ ls = List.flatten
      [heading p.file stem, declLines p.decl, stateEnum p.machine stem, errEnum p.machine stem,
       timerEnum p.machine stem, structLines p stem, clockLines p stem,
       tableLines (stateTable stem) (p.machine.states.map State.name),
       tableLines (errTable stem) (noError :: p.machine.labels),
       lookupLines stem (stateFunction stem) (stateTable stem) "state",
       lookupLines stem (errFunction stem) (errTable stem) "err", doneLines p.machine stem,
       initLines p stem start, step] := by
  unfold lines at h
  dsimp only at h
  cases hc : checkStates p.machine with
  | error e =>
    rw [hc] at h
    cases h
  | ok _ =>
    cases hs : stepLines p stem with
    | error e =>
      rw [hc, hs] at h
      cases h
    | ok step =>
      rw [hc, hs] at h
      cases h
      refine ⟨step, rfl, ?_⟩
      simp only [List.flatten_cons, List.flatten_nil, List.append_nil, List.append_assoc]

/-- What a unit has for a transition, in the case of its state: its condition, and behind it the
lines of what it does. -/
structure Performs (m : Machine) (stem : Text) (unit : List Text) (s : Site) (t : Transition)
    (c : Text) (a : Actuation) : Prop where
  condition : condition m stem t.trigger = .ok c
  actuation : Actuation.ofTransition m s.block t = .ok a
  written : ∃ ks, stepCase m stem s = .ok ks ∧ ks <:+: unit ∧
    Code.indent 8 (writtenTransition m s t stem c a) <:+: ks

/-- The unit of a machine that fits has the lines of every transition. -/
theorem unit_performs {p : Program} (h : p.machine.Fits) {start : Text} {ls : List Text}
    (hls : lines p stem start = .ok ls) (hs : s ∈ p.machine.sites)
    (ht : t ∈ s.state.transitions) : ∃ c a, Performs p.machine stem ls s t c a := by
  obtain ⟨step, hstep, rfl⟩ := lines_parts hls
  obtain ⟨ks, hks, hin⟩ := stepLines_cases hstep hs
  obtain ⟨ks', hks', _, _, hall⟩ := stepCase_holds h hs stem
  obtain rfl := Except.ok.inj (hks.symm.trans hks')
  obtain ⟨c, a, hc, ha, hwritten⟩ := hall t ht
  refine ⟨c, a, hc, ha, ks, hks, ?_, hwritten⟩
  apply hin.trans
  apply List.infix_of_mem_flatten
  simp

end CUnit
end Statewright
