import Mathlib.Data.List.Nodup
import Statewright.Proofs.Declarations

namespace Statewright
namespace CUnit

/-- What follows `_state_` in identifiers at file scope. -/
def stateEndings (m : Machine) : List Text :=
  "t" :: "names" :: "name" :: m.states.map State.name

/-- What follows `_err_` in identifiers at file scope. -/
def errEndings (m : Machine) : List Text :=
  "t" :: "names" :: "name" :: "none" :: m.labels

/-- What follows the stem in the other identifiers at file scope, those of timers apart. -/
def plainEndings (timed : Bool) : List Text :=
  ["_t", if timed then "_time" else "_period", "_done", "_init", "_step"]

/-- What follows the stem in the identifiers at file scope. -/
def endings (p : Program) : List Text :=
  List.flatten
    [(stateEndings p.machine).map ("_state_" ++ ·), (errEndings p.machine).map ("_err_" ++ ·),
     (p.machine.timers.map Timer.name).map ("_timer_" ++ ·), plainEndings (isTimed p)]

/-- The names of the structure's members. -/
def memberNames (p : Program) : List Text :=
  List.flatten
    [["state", "err"],
     p.machine.vars.map Variable.name,
     if p.machine.timers.isEmpty then [] else ["timers", "running"],
     if p.machine.untils.isEmpty then [] else ["retries"],
     if isTimed p then ["last_time"] else []]

section Declared
variable (p : Program) (stem start : Text) (cases : List Case)

theorem flatMap_identifiers :
    (declarations p stem start cases).flatMap Declaration.identifiers =
      p.machine.states.map (fun s => stateName stem s.name) ++ stateType stem ::
      (labelName stem noError :: p.machine.labels.map (labelName stem)) ++ errType stem ::
      p.machine.timers.map (fun t => timerName stem t.name) ++
      [machineType stem, clockFunction p stem, stateTable stem, errTable stem, stateFunction stem,
        errFunction stem, doneFunction stem, initFunction stem, stepFunction stem] := by
  have htimers : (timerDeclarations p.machine stem).flatMap Declaration.identifiers =
      p.machine.timers.map fun t => timerName stem t.name := by
    unfold timerDeclarations
    cases p.machine.timers <;> simp [Declaration.identifiers]
  simp only [declarations, stateEnumeration, stateEntries, errorEnumeration, errorEntries,
    lookupDeclaration, doneDeclaration, initDeclaration, stepDeclaration, List.flatten_cons,
    List.flatten_nil, List.flatMap_append, htimers, List.flatMap_cons, List.flatMap_nil,
    Declaration.identifiers, List.map_map, List.map_cons, Option.toList, List.append_assoc,
    List.cons_append, List.nil_append]
  rfl

theorem map_endings : (endings p).map (stem ++ ·) =
    (stateType stem :: stateTable stem :: stateFunction stem ::
      p.machine.states.map (fun s => stateName stem s.name)) ++
    (errType stem :: errTable stem :: errFunction stem :: labelName stem noError ::
      p.machine.labels.map (labelName stem)) ++
    p.machine.timers.map (fun t => timerName stem t.name) ++
    [machineType stem, clockFunction p stem, doneFunction stem, initFunction stem,
      stepFunction stem] := by
  have hlabel : labelName stem = fun l => stem ++ ("_err_" ++ l) :=
    funext fun l => List.append_assoc stem _ l
  have hclock : stem ++ (if isTimed p then ("_time" : Text) else "_period") =
      clockFunction p stem := by
    unfold clockFunction
    split <;> rfl
  simp only [endings, stateEndings, errEndings, plainEndings, List.map_append, List.map_cons,
    List.map_nil, List.map_map, hclock, hlabel, Function.comp_def, stateName, timerName,
    List.append_assoc, List.flatten_cons, List.flatten_nil]
  rfl

theorem declarations_identifiers :
    ((declarations p stem start cases).flatMap Declaration.identifiers).Perm
      ((endings p).map (stem ++ ·)) := by
  rw [flatMap_identifiers, map_endings, List.perm_iff_count]
  intro name
  simp only [List.count_append, List.count_cons, List.count_nil]
  omega

theorem flatMap_members :
    (declarations p stem start cases).flatMap Declaration.members = memberNames p := by
  have htimers : (timerDeclarations p.machine stem).flatMap Declaration.members = [] := by
    unfold timerDeclarations
    cases p.machine.timers <;> rfl
  have hmembers : (members p stem).map Member.name = memberNames p := by
    simp only [members, memberNames, List.map_flatten, List.map_cons, List.map_nil, List.map_map]
    congr 1
    congr 1
    congr 1
    congr 1
    · cases p.machine.timers <;> rfl
    · congr 1
      · cases p.machine.untils <;> rfl
      · cases isTimed p <;> rfl
  simp only [declarations, stateEnumeration, errorEnumeration, lookupDeclaration, doneDeclaration,
    initDeclaration, stepDeclaration, List.flatten_cons, List.flatten_nil, List.flatMap_append,
    htimers, List.flatMap_cons, List.flatMap_nil, Declaration.members, hmembers, List.append_nil,
    List.nil_append]

/-- There are two switches, one over the final states and one over the cases of all states. -/
theorem switch_labels :
    ((declarations p stem start cases).filterMap Declaration.switch?).map Switch.labels =
      [(p.machine.states.filter (·.has .final)).map (fun s => stateName stem s.name),
        cases.map Case.label] := by
  have htimers : (timerDeclarations p.machine stem).filterMap Declaration.switch? = [] := by
    unfold timerDeclarations
    cases p.machine.timers <;> rfl
  simp only [declarations, List.flatten_cons, List.flatten_nil, List.filterMap_append, htimers]
  exact congrArg (· :: [cases.map Case.label]) (List.map_map ..)

end Declared

/-- Names after one text differ from all that do not begin with it. -/
theorem disjoint_of_begin {first : Text} {names others : List Text}
    (h : ∀ w ∈ others, ¬ first <+: w) : (names.map (first ++ ·)).Disjoint others := by
  intro w hw ho
  obtain ⟨name, _, rfl⟩ := List.mem_map.mp hw
  exact h _ ho (List.prefix_append first name)

theorem disjoint_of_begins {first second : Text} {names others : List Text}
    (h : ∀ w, ¬ first <+: second ++ w) :
    (names.map (first ++ ·)).Disjoint (others.map (second ++ ·)) := by
  refine disjoint_of_begin fun w hw => ?_
  obtain ⟨name, _, rfl⟩ := List.mem_map.mp hw
  exact h name

theorem plainEndings_nodup (timed : Bool) : (plainEndings timed).Nodup := by
  cases timed <;> decide

/-- Endings are distinct if the names that they are made of are. -/
theorem endings_nodup {p : Program} (hs : (stateEndings p.machine).Nodup)
    (hl : (errEndings p.machine).Nodup) (ht : (p.machine.timers.map Timer.name).Nodup) :
    (endings p).Nodup := by
  have hmap {names : List Text} (first : Text) (h : names.Nodup) :
      (names.map (first ++ ·)).Nodup :=
    List.Nodup.map (List.append_right_injective first) h
  have hplain : ∀ w ∈ plainEndings (isTimed p),
      ¬ "_state_".toList <+: w ∧ ¬ "_err_".toList <+: w ∧ ¬ "_timer_".toList <+: w := by
    cases isTimed p <;> decide
  unfold endings
  rw [List.nodup_flatten]
  refine ⟨?_, ?_⟩
  · simp only [List.forall_mem_cons]
    exact ⟨hmap _ hs, hmap _ hl, hmap _ ht, plainEndings_nodup _, List.forall_mem_nil _⟩
  · simp only [List.pairwise_cons, List.forall_mem_cons, List.Pairwise.nil, and_true]
    refine ⟨⟨?_, ?_, ?_, List.forall_mem_nil _⟩, ⟨?_, ?_, List.forall_mem_nil _⟩,
      ⟨?_, List.forall_mem_nil _⟩, List.forall_mem_nil _⟩
    · exact disjoint_of_begins (by simp)
    · exact disjoint_of_begins (by simp)
    · exact disjoint_of_begin fun w hw => (hplain w hw).1
    · exact disjoint_of_begins (by simp)
    · exact disjoint_of_begin fun w hw => (hplain w hw).2.1
    · exact disjoint_of_begin fun w hw => (hplain w hw).2.2

/-- Member names are distinct if the variables have names of their own. -/
theorem memberNames_nodup {p : Program} (hd : (p.machine.vars.map Variable.name).Nodup)
    (hf : ∀ v ∈ p.machine.vars, v.name ∉ reservedNames) : (memberNames p).Nodup := by
  have hvars : ∀ name ∈ p.machine.vars.map Variable.name, name ∉ reservedNames := by
    intro name hname
    obtain ⟨v, hv, rfl⟩ := List.mem_map.mp hname
    exact hf v hv
  have hsub : List.Sublist (memberNames p) (List.flatten
      [["state".toList, "err".toList], p.machine.vars.map Variable.name,
        ["timers".toList, "running".toList], ["retries".toList], ["last_time".toList]]) := by
    refine .append (.refl _) (.append (.refl _) (.append ?_ (.append ?_ (.append ?_ (.refl _)))))
    · split
      · exact List.nil_sublist _
      · exact .refl _
    · split
      · exact List.nil_sublist _
      · exact .refl _
    · split
      · exact .refl _
      · exact List.nil_sublist _
  have hreserved : ∀ name ∈ ["state".toList, "err".toList, "timers".toList, "running".toList,
      "retries".toList, "last_time".toList], name ∈ reservedNames := by decide
  have hfixed : ["state".toList, "err".toList, "timers".toList, "running".toList,
      "retries".toList, "last_time".toList].Nodup := by decide
  have hdisjoint : (p.machine.vars.map Variable.name).Disjoint ["state".toList, "err".toList,
      "timers".toList, "running".toList, "retries".toList, "last_time".toList] :=
    fun name hv hname => hvars name hv (hreserved name hname)
  refine hsub.nodup (List.Perm.nodup ?_ (List.Nodup.append hd hfixed hdisjoint))
  rw [List.perm_iff_count]
  intro name
  simp only [List.flatten_cons, List.flatten_nil, List.count_append, List.count_cons,
    List.count_nil]
  omega

end CUnit

theorem addLabel_nodup {labels : List Text} (h : labels.Nodup) (label : Text) :
    (addLabel labels label).Nodup := by
  unfold addLabel
  split
  · exact h
  · rename_i hn
    have hn : label ∉ labels := by simpa using hn
    exact List.Nodup.append h (List.nodup_singleton label) (List.disjoint_singleton.mpr hn)

theorem mem_addLabel {labels : List Text} {label l : Text} (h : l ∈ addLabel labels label) :
    l ∈ labels ∨ l = label := by
  unfold addLabel at h
  split at h
  · exact .inl h
  · exact (List.mem_append.mp h).imp_right List.mem_singleton.mp

/-- Labels that are collected are distinct, and each is one of those given. -/
theorem foldl_addLabel {labels : List Text} (h : labels.Nodup) (new : List Text) :
    (new.foldl addLabel labels).Nodup ∧
    ∀ l ∈ new.foldl addLabel labels, l ∈ labels ∨ l ∈ new := by
  induction new generalizing labels with
  | nil => exact ⟨h, fun l hl => .inl hl⟩
  | cons label new ih =>
    obtain ⟨hd, hmem⟩ := ih (addLabel_nodup h label)
    refine ⟨hd, fun l hl => ?_⟩
    rcases hmem l hl with hl | hl
    · rcases mem_addLabel hl with hl | rfl
      · exact .inl hl
      · exact .inr List.mem_cons_self
    · exact .inr (List.mem_cons_of_mem _ hl)

namespace Machine

theorem numberFrom_labels (n : Nat) (items : List Item) :
    (Item.numberFrom n items).flatMap Item.labels = items.flatMap Item.labels := by
  fun_induction Item.numberFrom n items with
  | case1 n => rfl
  | case2 n s items ih =>
    rw [List.flatMap_cons, List.flatMap_cons, ih]
    rfl
  | case3 n u items ih =>
    have hstates : (u.states.mapIdx fun i s => { s with index := some ((n + i : Nat) : Int) }).map
        State.transitions = u.states.map State.transitions :=
      List.ext_getElem? fun i => by simp [Function.comp_def]
    have hlabels (states : List State) :
        (states.flatMap fun s => s.transitions.filterMap Transition.label?) =
          (states.map State.transitions).flatMap fun ts => ts.filterMap Transition.label? := by
      rw [List.flatMap_map]
    rw [List.flatMap_cons, List.flatMap_cons, ih]
    simp only [Item.labels, hlabels, hstates]

/-- The labels of an item are those of its jumps. -/
theorem label_of_item {m : Machine} {i : Item} (hi : i ∈ m.items) {l : Text} (hl : l ∈ i.labels) :
    ∃ r, .err r ∈ m.jumps ∧ r.name = l := by
  have hjump {j : Jump} (hj : j ∈ m.jumps) (hl : j.label? = some l) :
      ∃ r, .err r ∈ m.jumps ∧ r.name = l := by
    cases j with
    | go r => cases hl
    | err r => exact ⟨r, hj, Option.some.inj hl⟩
  have hstate {s : State} (hs : s ∈ i.states)
      (hl : l ∈ s.transitions.filterMap Transition.label?) :
      ∃ r, .err r ∈ m.jumps ∧ r.name = l := by
    obtain ⟨t, ht, hl⟩ := List.mem_filterMap.mp hl
    have hmem : t ∈ m.transitions :=
      List.mem_flatMap.mpr ⟨s, List.mem_flatMap.mpr ⟨i, hi, hs⟩, ht⟩
    unfold Transition.label? at hl
    split at hl
    · rename_i j ha
      refine hjump (List.mem_append_left _ (List.mem_filterMap.mpr ⟨t, hmem, ?_⟩)) hl
      rw [ha, Action.jump?]
    · cases hl
  cases i with
  | state s => exact hstate List.mem_cons_self hl
  | block u =>
    rcases List.mem_append.mp hl with hl | hl
    · obtain ⟨s, hs, hl⟩ := List.mem_flatMap.mp hl
      exact hstate hs hl
    · refine hjump (List.mem_append_right _ (List.mem_map_of_mem ?_)) (Option.mem_toList.mp hl)
      exact List.mem_filterMap.mpr ⟨_, hi, rfl⟩

section Accepted
variable {m : Machine} (hw : ¬ m.IllFormed)
include hw

/-- The labels of an accepted machine are distinct, and none is one that the unit has anyway. -/
theorem errEndings_nodup (hf : m.labels = []) : (CUnit.errEndings m.number.resolve).Nodup := by
  have hlabels : m.number.resolve.labels = (m.items.flatMap Item.labels).foldl addLabel [] := by
    change ((Item.numberFrom 0 m.items).flatMap Item.labels).foldl addLabel m.labels = _
    rw [numberFrom_labels, hf]
  obtain ⟨hd, hmem⟩ := foldl_addLabel List.nodup_nil (m.items.flatMap Item.labels)
  rw [← hlabels] at hd hmem
  have hfree : ∀ l ∈ m.number.resolve.labels, l ≠ "none".toList ∧ l ∉ generatedEndings := by
    intro l hl
    obtain ⟨i, hi, hl⟩ := List.mem_flatMap.mp ((hmem l hl).resolve_left List.not_mem_nil)
    obtain ⟨r, hr, rfl⟩ := label_of_item hi hl
    exact ⟨fun h => hw (.badLabel hr (.inl h)), fun h => hw (.badLabel hr (.inr h))⟩
  have hfixed : ["t".toList, "names".toList, "name".toList, "none".toList].Nodup := by decide
  refine List.Nodup.append hfixed hd fun l hfix hl => ?_
  obtain ⟨hnone, hgenerated⟩ := hfree l hl
  revert hfix
  simp only [List.mem_cons, List.not_mem_nil, or_false]
  rintro (rfl | rfl | rfl | rfl)
  · exact hgenerated (by decide)
  · exact hgenerated (by decide)
  · exact hgenerated (by decide)
  · exact hnone rfl

theorem stateEndings_nodup : (CUnit.stateEndings m.number.resolve).Nodup := by
  have hfree : ∀ name ∈ m.number.resolve.states.map State.name, name ∉ generatedEndings := by
    rw [analyzed_names]
    intro name hname h
    obtain ⟨s, hs, rfl⟩ := List.mem_map.mp hname
    exact hw (.stateEnding hs h)
  have hfixed : ["t".toList, "names".toList, "name".toList].Nodup := by decide
  have hgenerated : ∀ name ∈ ["t".toList, "names".toList, "name".toList],
      name ∈ generatedEndings := by decide
  exact List.Nodup.append hfixed (analyzed_distinct hw)
    fun name hfix hname => hfree name hname (hgenerated name hfix)

end Accepted
end Machine

namespace Compilation
open Statewright.Language CUnit

/-- The unit of an accepted program, with any stem, is its heading, the foreign declarations and
those of the unit. The ordinary identifiers at file scope are distinct, and so are the members of
the structure. Its switches are that over the final states and that over all states, and no label
comes twice in either. -/
theorem identifiers_distinct {file : Option Text} {source : Text} {c c' : Compilation}
    {p q : Program} (hp : parse { file } source = (c, .ok q)) (ha : c.analyze q = (c', p, .ok ()))
    (stem : Text) :
    ∃ s cases, start p.machine = .ok s ∧
      p.machine.sites.mapM (stepCase p.machine stem) = .ok (cases.map Case.lines) ∧
      text p stem = .ok (Text.join "\n" (heading p.file stem ++ declLines p.decl ++
        (declarations p stem s.name cases).flatMap Declaration.lines) ++ "\n") ∧
      ((declarations p stem s.name cases).flatMap Declaration.identifiers).Perm
        ((endings p).map (stem ++ ·)) ∧
      ((declarations p stem s.name cases).flatMap Declaration.identifiers).Nodup ∧
      (declarations p stem s.name cases).flatMap Declaration.members = memberNames p ∧
      ((declarations p stem s.name cases).flatMap Declaration.members).Nodup ∧
      ((declarations p stem s.name cases).filterMap Declaration.switch?).map Switch.labels =
        [(p.machine.states.filter (·.has .final)).map (fun s => stateName stem s.name),
          p.machine.states.map (fun s => stateName stem s.name)] ∧
      ∀ d ∈ (declarations p stem s.name cases).filterMap Declaration.switch?, d.labels.Nodup := by
  obtain ⟨hd, hm, hw⟩ := analyze_accepted hp ha
  obtain ⟨_, s, unit, hs, hlines, htext⟩ := unit_accepted hp ha stem
  obtain ⟨cases, hcases, hlabels, rfl⟩ := lines_declarations hlines
  have hlabelled : (p.machine.states.map fun s => stateName stem s.name).Nodup := by
    have hnames := Machine.analyzed_distinct hw
    rw [← hm] at hnames
    have h := List.Nodup.map (List.append_right_injective (stem ++ ("_state_" : Text))) hnames
    rwa [List.map_map] at h
  have hendings : (endings p).Nodup := by
    apply endings_nodup
    · rw [hm]
      exact Machine.stateEndings_nodup hw
    · rw [hm]
      exact Machine.errEndings_nodup hw (congrArg (·.machine.labels) hd.erased).symm
    · rw [hm]
      exact Classical.byContradiction fun h => hw (.twinTimers h)
  have hidentifiers := declarations_identifiers p stem s.name cases
  have hmembers := flatMap_members p stem s.name cases
  have hswitches := switch_labels p stem s.name cases
  rw [hlabels] at hswitches
  refine ⟨s, cases, hs, hcases, htext, hidentifiers, ?_, hmembers, ?_, hswitches, ?_⟩
  · rw [hidentifiers.nodup_iff]
    exact List.Nodup.map (List.append_right_injective stem) hendings
  · rw [hmembers]
    apply memberNames_nodup
    · rw [hm]
      exact Classical.byContradiction fun h => hw (.twinVariables h)
    · rw [hm]
      exact fun v hv h => hw (.reservedVariable hv h)
  · intro d hmem
    have hlabel := List.mem_map_of_mem (f := Switch.labels) hmem
    rw [hswitches, List.mem_cons, List.mem_singleton] at hlabel
    rcases hlabel with hlabel | hlabel
    · rw [hlabel]
      exact (List.filter_sublist.map _).nodup hlabelled
    · rwa [hlabel]

theorem identifiers_distinct_sample : ∃ c q c' p s cases, parse {} sample = (c, .ok q) ∧
    c.analyze q = (c', p, .ok ()) ∧ start p.machine = .ok s ∧
    p.machine.sites.mapM (stepCase p.machine "x") = .ok (cases.map Case.lines) ∧
    text p "x" = .ok (Text.join "\n" (heading p.file "x" ++ declLines p.decl ++
      (declarations p "x" s.name cases).flatMap Declaration.lines) ++ "\n") ∧
    ((declarations p "x" s.name cases).flatMap Declaration.identifiers).Perm
      ((endings p).map ("x".toList ++ ·)) ∧
    ((declarations p "x" s.name cases).flatMap Declaration.identifiers).Nodup ∧
    (declarations p "x" s.name cases).flatMap Declaration.members = memberNames p ∧
    ((declarations p "x" s.name cases).flatMap Declaration.members).Nodup ∧
    ((declarations p "x" s.name cases).filterMap Declaration.switch?).map Switch.labels =
      [(p.machine.states.filter (·.has .final)).map (fun s => stateName "x" s.name),
        p.machine.states.map (fun s => stateName "x" s.name)] ∧
    ∀ d ∈ (declarations p "x" s.name cases).filterMap Declaration.switch?, d.labels.Nodup := by
  obtain ⟨c, q, c', p, hp, ha⟩ := sample_accepted
  obtain ⟨s, cases, h⟩ := identifiers_distinct hp ha "x"
  exact ⟨c, q, c', p, s, cases, hp, ha, h⟩

end Compilation
end Statewright
