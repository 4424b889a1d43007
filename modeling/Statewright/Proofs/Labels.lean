import Mathlib.Data.List.Infix
import Statewright.Proofs.Emission
import Statewright.Proofs.Identifiers
import Statewright.Proofs.References

namespace Statewright

/-- The labels of a list without later repetitions, added one after the other. -/
theorem foldl_addLabel_eq (labels : List Text) : labels.foldl addLabel [] = labels.eraseDups := by
  induction labels using List.reverseRecOn with
  | nil => rfl
  | append_singleton labels l ih =>
    rw [List.foldl_append, ih, List.foldl_cons, List.foldl_nil, List.eraseDups_append]
    unfold addLabel
    by_cases hl : l ∈ labels
    · simp [List.removeAll, hl]
    · simp [List.removeAll, hl, List.eraseDups_cons]

/-- The label that a jump uses, with its link. -/
def Jump.error? (link : Link) : Jump → Option (Ref × Link)
  | go _ => none
  | err r => some (r, link)

def Transition.error? (t : Transition) : Option (Ref × Link) :=
  t.action.jump?.bind (·.error? t.link)

def State.errors (s : State) : List (Ref × Link) :=
  s.transitions.filterMap Transition.error?

/-- The uses of labels in an item, in source order. -/
def Item.errors : Item → List (Ref × Link)
  | state s => s.errors
  | block u => u.states.flatMap State.errors ++ (u.overflow.error? u.link).toList

/-- The uses of labels, in source order. -/
def Machine.errors (m : Machine) : List (Ref × Link) :=
  m.items.flatMap Item.errors

/-- The use of a label has its number, in the link and at the name: its position in the list, from 1
on. -/
structure Numbered (labels : List Text) (r : Ref) (link : Link) (k : Nat) : Prop where
  link : link.label = some k
  name : r.index = some (k : Int)
  pos : 1 ≤ k
  le : k ≤ labels.length
  label : labels[k - 1]? = some r.name

/-- What analysis writes at the use of a label. -/
def numbers (e : Ref × Link) : Ref × Option Nat :=
  (e.1, e.2.label)

/-- A use of a label with its number. -/
def withNumber (labels : List Text) (e : Ref × Link) : Ref × Option Nat :=
  ({ e.1 with index := some (labelNumber labels e.1.name : Nat) },
    some (labelNumber labels e.1.name))

namespace Machine
variable (m : Machine) (labels : List Text)

theorem resolveJump_error (block : Option Frame) (overflow : Bool) (j : Jump) (link : Link) :
    ((m.resolveJump labels j).error? (m.linkJump labels block overflow j link)).map numbers =
      (j.error? link).map (withNumber labels) := by
  cases j with
  | go r =>
    dsimp only [resolveJump]
    cases m.stateNumber? r.name <;> rfl
  | err r =>
    unfold linkJump
    cases m.jumpTarget? (.err r) <;> rfl

theorem resolveTransition_error (block : Option Frame) (t : Transition) :
    (m.resolveTransition labels block t).error?.map numbers =
      t.error?.map (withNumber labels) := by
  cases ha : t.action with
  | jump j =>
    simp only [Transition.error?, resolveTransition, ha, Action.jump?, Option.bind_some]
    exact m.resolveJump_error labels block false j t.link
  | retry => simp only [Transition.error?, resolveTransition, ha, Action.jump?, Option.bind_none,
      Option.map_none]

theorem resolveState_errors (block : Option Frame) (s : State) :
    (m.resolveState labels block s).errors.map numbers =
      s.errors.map (withNumber labels) := by
  simp only [State.errors, resolveState, List.filterMap_map, List.map_filterMap,
    Function.comp_def, resolveTransition_error]

/-- Resolving names numbers the uses of labels, and leaves them in their order. -/
theorem resolveItems_errors (n k : Nat) (items : List Item) :
    ((m.resolveItems labels n k items).flatMap Item.errors).map numbers =
      (items.flatMap Item.errors).map (withNumber labels) := by
  fun_induction resolveItems m labels n k items with
  | case1 n k => rfl
  | case2 n k s items ih =>
    rw [List.flatMap_cons, List.flatMap_cons, List.map_append, List.map_append, ih]
    exact congrArg (· ++ _) (m.resolveState_errors labels none s)
  | case3 n k u items frame ih =>
    rw [List.flatMap_cons, List.flatMap_cons, List.map_append, List.map_append, ih]
    refine congrArg (· ++ _) ?_
    simp only [Item.errors, List.map_append, List.map_flatMap, List.flatMap_map,
      resolveState_errors, ← Option.toList_map, resolveJump_error]

theorem numberFrom_errors (n : Nat) (items : List Item) :
    (Item.numberFrom n items).flatMap Item.errors = items.flatMap Item.errors := by
  fun_induction Item.numberFrom n items with
  | case1 n => rfl
  | case2 n s items ih =>
    rw [List.flatMap_cons, List.flatMap_cons, ih]
    rfl
  | case3 n u items ih =>
    rw [List.flatMap_cons, List.flatMap_cons, ih]
    refine congrArg (· ++ _) (congrArg (· ++ _) ?_)
    rw [List.flatMap_def, List.flatMap_def]
    refine congrArg List.flatten (List.ext_getElem? fun i => ?_)
    rw [List.getElem?_map, List.getElem?_mapIdx, Option.map_map, List.getElem?_map]
    rfl

theorem jump_label (j : Jump) (link : Link) :
    j.label? = (j.error? link).map fun e => e.1.name := by
  cases j <;> rfl

theorem state_labels (s : State) :
    s.transitions.filterMap Transition.label? = s.errors.map fun e => e.1.name := by
  rw [State.errors, List.map_filterMap]
  refine List.filterMap_congr fun t _ => ?_
  unfold Transition.label? Transition.error?
  cases t.action with
  | jump j => exact jump_label j t.link
  | retry => rfl

/-- The labels of items are those of their uses. -/
theorem labels_errors (items : List Item) :
    items.flatMap Item.labels = (items.flatMap Item.errors).map fun e => e.1.name := by
  rw [List.map_flatMap]
  refine List.flatMap_congr fun i _ => ?_
  cases i with
  | state s => exact state_labels s
  | block u =>
    simp only [Item.labels, Item.errors, state_labels, List.map_append, List.map_flatMap,
      jump_label u.overflow u.link, Option.toList_map]

/-- The labels of an analyzed machine are numbered by their first uses. -/
theorem analyzed_labels {m : Machine} (hf : m.labels = []) :
    m.number.resolve.labels = (m.errors.map fun e => e.1.name).eraseDups ∧
    m.number.resolve.errors.map numbers = m.errors.map (withNumber m.number.resolve.labels) := by
  refine ⟨?_, ?_⟩
  · change ((Item.numberFrom 0 m.items).flatMap Item.labels).foldl addLabel m.labels = _
    rw [numberFrom_labels, hf, foldl_addLabel_eq, labels_errors]
    rfl
  · change ((m.number.resolveItems m.number.allLabels 0 0 (Item.numberFrom 0 m.items)).flatMap
      Item.errors).map numbers = _
    rw [resolveItems_errors, numberFrom_errors]
    rfl

/-- Every use of a label in an analyzed machine has its number. -/
theorem analyzed_numbered {m : Machine} (hf : m.labels = []) {e : Ref × Link}
    (he : e ∈ m.number.resolve.errors) : ∃ k, Numbered m.number.resolve.labels e.1 e.2 k := by
  obtain ⟨hlabels, hnumbers⟩ := analyzed_labels hf
  have hmem : numbers e ∈ m.errors.map (withNumber m.number.resolve.labels) := by
    rw [← hnumbers]
    exact List.mem_map_of_mem he
  obtain ⟨e₀, he₀, heq⟩ := List.mem_map.mp hmem
  have hlabel : e₀.1.name ∈ m.number.resolve.labels := by
    rw [hlabels, List.mem_eraseDups]
    exact List.mem_map_of_mem he₀
  obtain ⟨hname, hlink⟩ := Prod.mk.inj heq
  rw [← hname]
  have hlt := List.idxOf_lt_length_iff.mpr hlabel
  exact ⟨labelNumber m.number.resolve.labels e₀.1.name, hlink.symm, rfl, Nat.le_add_left _ _, hlt,
    List.getElem?_idxOf hlabel⟩

section Uses
variable {m}

theorem error_of_transition {t : Transition} (ht : t ∈ m.transitions) {e : Ref × Link}
    (he : t.error? = some e) : e ∈ m.errors := by
  obtain ⟨s, hs, ht⟩ := List.mem_flatMap.mp ht
  obtain ⟨i, hi, hs⟩ := List.mem_flatMap.mp hs
  have hmem : e ∈ s.errors := List.mem_filterMap.mpr ⟨t, ht, he⟩
  refine List.mem_flatMap.mpr ⟨i, hi, ?_⟩
  cases i with
  | state s' =>
    obtain rfl := List.mem_singleton.mp hs
    exact hmem
  | block u => exact List.mem_append_left _ (List.mem_flatMap.mpr ⟨s, hs, hmem⟩)

theorem error_of_overflow {u : Until} (hu : u ∈ m.untils) {e : Ref × Link}
    (he : u.overflow.error? u.link = some e) : e ∈ m.errors := by
  obtain ⟨i, hi, hu⟩ := List.mem_filterMap.mp hu
  cases i with
  | state s => cases hu
  | block v =>
    cases hu
    refine List.mem_flatMap.mpr ⟨_, hi, List.mem_append_right _ ?_⟩
    rw [he]
    exact List.mem_singleton_self e

end Uses
end Machine

namespace CUnit
variable {m : Machine} {s : Site} {t : Transition} {stem : Text} {a : Actuation}

/-- The line that sets an error. -/
def errorLine (stem label : Text) : Text :=
  "fsm->err = " ++ labelName stem label ++ ";"

/-- The use of a label with its number, which is the position of the label in the enumeration and in
the table. -/
structure Placed (m : Machine) (stem : Text) (r : Ref) (link : Link) (k : Nat) : Prop
    extends Numbered m.labels r link k where
  enumerator : ((errorEntries m stem).map Enumerator.name)[k]? = some (labelName stem r.name)
  entry : (noError :: m.labels)[k]? = some r.name

/-- Where a transition that leads to an error sets it among its own lines, itself or in the
overflow of its block. -/
structure ErrorsSet (m : Machine) (stem : Text) (s : Site) (t : Transition) (ls : List Text) :
    Prop where
  jump : ∀ r, t.action = .jump (.err r) → (∃ k, Placed m stem r t.link k) ∧
    [errorLine stem r.name] <:+: ls
  overflow : t.action = .retry → ∀ n u r, s.block = some (n, u) → u.overflow = .err r →
    (∃ k, Placed m stem r u.link k) ∧ Code.indent 4 [errorLine stem r.name] <:+: ls

/-- The labels of a machine in the lines of a unit: the enumeration, the table, and the transitions
that set an error. -/
structure LabelsWritten (m : Machine) (stem : Text) (ls : List Text) : Prop where
  distinct : ((errorEntries m stem).map Enumerator.name).Nodup
  enumeration : (errorEnumeration m stem).lines <:+: ls
  table : (Declaration.table (errTable stem) (noError :: m.labels)).lines <:+: ls
  cases : ∀ s ∈ m.sites, (∃ ks, stepCase m stem s = .ok ks ∧ ks <:+: ls) ∧
    ∀ t ∈ s.state.transitions, ∃ e a, Performs m stem ls s t e a ∧
      ErrorsSet m stem s t (a.lines stem)

theorem placed_of_numbered {r : Ref} {link : Link} {k : Nat}
    (h : Numbered m.labels r link k) : Placed m stem r link k := by
  obtain ⟨n, rfl⟩ := Nat.exists_eq_add_of_le' h.pos
  have hlabel : m.labels[n]? = some r.name := h.label
  refine ⟨h, ?_, hlabel⟩
  simp [errorEntries, hlabel]

theorem errorLine_within {move : Move} {label : Text} (h : move.label = some label) :
    [errorLine stem label] <:+: move.lines stem := by
  refine (List.singleton_infix_iff _ _).mpr (List.mem_append_left _ (List.mem_append_right _ ?_))
  rw [h]
  exact List.mem_singleton_self (errorLine stem label)

theorem errorLine_move {move : Move} {label : Text} (h : a.change = .move move)
    (hl : move.label = some label) : [errorLine stem label] <:+: a.lines stem := by
  rw [Actuation.lines, h]
  exact (errorLine_within hl).trans (List.suffix_append _ _).isInfix

theorem errorLine_overflow {k target : Nat} {bound : Text} {overflow : Move} {name label : Text}
    (h : a.change = .retry k bound overflow target name) (hl : overflow.label = some label) :
    Code.indent 4 [errorLine stem label] <:+: a.lines stem := by
  rw [Actuation.lines, h]
  have hchange : Code.indent 4 (overflow.lines stem) <:+:
      (Change.retry k bound overflow target name).lines stem :=
    List.infix_of_mem_flatten (by simp)
  exact ((Code.indent_within (errorLine_within hl)).trans hchange).trans
    (List.suffix_append _ _).isInfix

theorem errorEntries_names : (errorEntries m stem).map Enumerator.name =
    (noError :: m.labels).map (labelName stem) := by
  simp [errorEntries, Function.comp_def]

end CUnit

namespace Machine
open Statewright.CUnit
variable {m : Machine} (hw : ¬ m.IllFormed) (hl : m.labels = [])
include hw hl

theorem errorEntries_nodup (stem : Text) :
    ((errorEntries m.number.resolve stem).map Enumerator.name).Nodup := by
  rw [errorEntries_names]
  have hendings := (errEndings_nodup hw hl).sublist
    ((List.sublist_cons_self _ _).trans ((List.sublist_cons_self _ _).trans
      (List.sublist_cons_self _ _)))
  exact List.Nodup.map (List.append_right_injective (stem ++ ("_err_" : Text))) hendings

/-- The lines of each transition set the error that it leads to. -/
theorem errors_set (hf : m.Fresh) {s : Site} (hs : s ∈ m.number.resolve.sites) {t : Transition}
    (ht : t ∈ s.state.transitions) {a : Actuation}
    (ha : Actuation.ofTransition m.number.resolve s.block t = .ok a) (stem : Text) :
    ErrorsSet m.number.resolve stem s t (a.lines stem) := by
  obtain ⟨a', ha', _, hchange⟩ := (analyzed_fits hw hf).actuations s hs t ht
  obtain rfl : a = a' := Except.ok.inj (ha.symm.trans ha')
  generalize hc : a.change = change at hchange
  constructor
  · intro r hr
    rw [hr] at hchange
    cases hchange with
    | jump hmove =>
      obtain ⟨_, _, _, _, hlabel⟩ := hmove
      have huse : (r, t.link) ∈ m.number.resolve.errors :=
        error_of_transition (transition_of_site hs ht) (by rw [Transition.error?, hr]; rfl)
      obtain ⟨k, hk⟩ := analyzed_numbered hl huse
      exact ⟨⟨k, placed_of_numbered hk⟩, errorLine_move hc hlabel⟩
  · intro hretry n u r hblock hover
    rw [hretry] at hchange
    cases hchange with
    | retry hblock' hmove _ _ =>
      cases hblock.symm.trans hblock'
      obtain ⟨_, _, _, _, hlabel⟩ := hmove
      rw [hover] at hlabel
      have huse : (r, u.link) ∈ m.number.resolve.errors :=
        error_of_overflow (List.mem_of_getElem? (site_untils hs hblock)) (by rw [hover]; rfl)
      obtain ⟨k, hk⟩ := analyzed_numbered hl huse
      exact ⟨⟨k, placed_of_numbered hk⟩, errorLine_overflow hc hlabel⟩

end Machine

namespace CUnit
variable {p q : Program}

/-- The unit of an accepted program has its labels at their positions. -/
theorem labels_written (hm : p.machine = q.machine.number.resolve) (hw : ¬ q.machine.IllFormed)
    (hf : q.machine.Fresh) (hl : q.machine.labels = []) (stem : Text) :
    ∃ ls, text p stem = .ok (Text.join "\n" ls ++ "\n") ∧ LabelsWritten p.machine stem ls := by
  have hfits := Machine.analyzed_fits hw hf
  obtain ⟨start, hstart⟩ := Machine.start_found hw
  rw [← hm] at hfits hstart
  obtain ⟨ls, hls, htext⟩ := text_succeeds hfits hstart stem
  refine ⟨ls, htext, ?_, ?_, ?_, ?_⟩
  · rw [hm]
    exact Machine.errorEntries_nodup hw hl stem
  · apply declaration_within hls
    intro cases
    simp [declarations]
  · apply declaration_within hls
    intro cases
    simp [declarations]
  · intro s hs
    constructor
    · obtain ⟨step, hstep, rfl⟩ := lines_parts hls
      obtain ⟨ks, hks, hin⟩ := stepLines_cases hstep hs
      exact ⟨ks, hks, hin.trans (List.infix_of_mem_flatten (by simp))⟩
    · intro t ht
      obtain ⟨e, a, hperforms⟩ := unit_performs hfits hls hs ht
      refine ⟨e, a, hperforms, ?_⟩
      have ha := hperforms.actuation
      rw [hm] at hs ha ⊢
      exact Machine.errors_set hw hl hf hs ht ha stem

end CUnit

namespace Compilation
open Statewright.CUnit

theorem analyze_long {c : Compilation} {p : Program} (h : ∃ u ∈ p.machine.untils, u.bound.isLong) :
    (c.analyze p).2.2 = .error (.aborted .longBound) := by
  have hany : p.machine.untils.any (·.bound.isLong) = true := List.any_eq_true.mpr h
  simp only [analyze, Analysis.run, hany, if_true]

/-- Unless a bound is too long to be analyzed, the labels of a program are those of its jumps to
errors in source order, without later repetitions, and each such jump has the number of its label.
If the program is accepted, the number is the position of the label in the unit, and the enumerator
there is the one that the jump assigns. -/
theorem labels_by_first_use {file : Option Text} {source : Text} {c c' : Compilation}
    {p q : Program} {result : Except Failure Unit} (hp : parse { file } source = (c, .ok q))
    (ha : c.analyze q = (c', p, result)) :
    ((∃ u ∈ q.machine.untils, u.bound.isLong) ∧ result = .error (.aborted .longBound)) ∨
    (p.machine.labels = (q.machine.errors.map fun e => e.1.name).eraseDups ∧
      p.machine.errors.map (fun e => e.1.name) = q.machine.errors.map (fun e => e.1.name) ∧
      (∀ e ∈ p.machine.errors, ∃ k, Numbered p.machine.labels e.1 e.2 k) ∧
      (result = .ok () → ∀ stem, ∃ ls, text p stem = .ok (Text.join "\n" ls ++ "\n") ∧
        LabelsWritten p.machine stem ls)) := by
  obtain ⟨hd, hc⟩ := derives_of_parse hp
  have hl : q.machine.labels = [] := (congrArg (·.machine.labels) hd.erased).symm
  by_cases hlong : ∃ u ∈ q.machine.untils, u.bound.isLong
  · have hresult := analyze_long (c := c) hlong
    rw [ha] at hresult
    exact .inl ⟨hlong, hresult⟩
  · refine .inr ?_
    have hshort : ∀ u ∈ q.machine.untils, u.bound.isLong = false := by
      intro u hu
      exact Bool.eq_false_iff.mpr fun h => hlong ⟨u, hu, h⟩
    have hm : p.machine = q.machine.number.resolve := by
      have h := (analyze_of_fresh hc hd.fresh hd.readable hshort).1
      rw [ha] at h
      exact congrArg (·.machine) h
    obtain ⟨hlabels, hnumbers⟩ := Machine.analyzed_labels hl
    refine ⟨by rw [hm, hlabels], ?_, ?_, ?_⟩
    · have h := congrArg (List.map fun e => e.1.name) hnumbers
      rw [List.map_map, List.map_map] at h
      rw [hm]
      exact h
    · intro e he
      rw [hm] at he ⊢
      exact Machine.analyzed_numbered hl he
    · intro hok stem
      rw [hok] at ha
      exact labels_written hm (analyze_accepted hp ha).2.2 hd.fresh hl stem

/-- A machine that uses a label twice, and another one in an overflow. -/
def labelledSource : Text :=
  "fsm m\x7bstate[start]a\x7bon(1)err late;on(2)err early;on(3)go b;\x7d" ++
    "until(3)\x7bstate b\x7bon(1)retry;on(2)err late;\x7d\x7derr stuck;state[end,err]c\x7b\x7d\x7d"

theorem labels_by_first_use_repeated : ∃ c q c' p, parse {} labelledSource = (c, .ok q) ∧
    c.analyze q = (c', p, .ok ()) ∧
    q.machine.errors.map (fun e => e.1.name) =
      ["late".toList, "early".toList, "late".toList, "stuck".toList] ∧
    p.machine.labels = ["late".toList, "early".toList, "stuck".toList] ∧
    (∀ e ∈ p.machine.errors, ∃ k, Numbered p.machine.labels e.1 e.2 k) ∧
    ∀ stem, ∃ ls, text p stem = .ok (Text.join "\n" ls ++ "\n") ∧
      LabelsWritten p.machine stem ls := by
  have h : accepts none labelledSource (fun m => m.errors.map (fun e => e.1.name) ==
      ["late".toList, "early".toList, "late".toList, "stuck".toList]) = true := by
    decide +kernel
  obtain ⟨c, q, c', p, hp, ha, _, htest⟩ := accepted h
  have huses := beq_iff_eq.mp htest
  obtain ⟨_, hfailed⟩ | ⟨hlabels, _, hnumbered, hwritten⟩ := labels_by_first_use hp ha
  · cases hfailed
  · rw [huses] at hlabels
    exact ⟨c, q, c', p, hp, ha, huses, hlabels, hnumbered, hwritten rfl⟩

end Compilation
end Statewright
