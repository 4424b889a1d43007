import Statewright.Analysis
import Statewright.Proofs.Language

namespace Statewright

def Fragment.erase (f : Fragment) : Fragment :=
  { f with references := [] }

def Ref.erase (r : Ref) : Ref :=
  { r with index := none }

def Jump.erase : Jump → Jump
  | go r => go r.erase
  | err r => err r.erase

def Action.erase : Action → Action
  | jump j => jump j.erase
  | retry => retry

def Trigger.erase : Trigger → Trigger
  | when f => when f.erase
  | timeout r => timeout r.erase

def Transition.erase (t : Transition) : Transition :=
  { t with
    trigger := t.trigger.erase
    code := t.code.map Fragment.erase
    action := t.action.erase
    starts := t.starts.map Ref.erase
    link := {} }

def Assignment.erase (a : Assignment) : Assignment :=
  { a with value := a.value.erase }

def State.erase (s : State) : State :=
  { s with
    entry := s.entry.map Fragment.erase
    transitions := s.transitions.map Transition.erase
    outs := s.outs.map Assignment.erase
    index := none }

def Until.erase (u : Until) : Until :=
  { u with states := u.states.map State.erase, overflow := u.overflow.erase, link := {} }

def Item.erase : Item → Item
  | state s => state s.erase
  | block u => block u.erase

def Machine.erase (m : Machine) : Machine :=
  { m with
    items := m.items.map Item.erase
    numbered := false
    labels := []
    start := none
    err := none }

def Program.erase (p : Program) : Program :=
  { p with machine := p.machine.erase }

/-- A list whose members are all erased is erased. -/
theorem map_erased {α : Type} {erase : α → α} {as : List α} (h : ∀ a ∈ as, erase a = a) :
    as.map erase = as := by
  rw [List.map_congr_left h, List.map_id']

theorem erased_of_map {α : Type} {erase : α → α} {as : List α} (h : as.map erase = as) {a : α}
    (ha : a ∈ as) : erase a = a := by
  have hmap : as.map erase = as.map id := by rw [h, List.map_id]
  exact List.map_inj_left.mp hmap a ha

namespace Machine
variable (m : Machine) (labels : List Text)

@[simp] theorem resolveFragment_erase (f : Fragment) : (m.resolveFragment f).erase = f.erase :=
  rfl

@[simp] theorem resolveTimer_erase (r : Ref) : (m.resolveTimer r).erase = r.erase := by
  unfold resolveTimer
  cases m.timerNumber? r.name <;> rfl

@[simp] theorem resolveJump_erase (j : Jump) : (m.resolveJump labels j).erase = j.erase := by
  cases j with
  | go r =>
    dsimp only [resolveJump]
    cases m.stateNumber? r.name <;> rfl
  | err r => rfl

@[simp] theorem resolveTrigger_erase (t : Trigger) : (m.resolveTrigger t).erase = t.erase := by
  cases t <;> simp [resolveTrigger, Trigger.erase]

@[simp] theorem resolveTransition_erase (frame : Option Frame) (t : Transition) :
    (m.resolveTransition labels frame t).erase = t.erase := by
  cases h : t.action <;>
    simp [resolveTransition, Transition.erase, Action.erase, Function.comp_def, h]

@[simp] theorem resolveState_erase (frame : Option Frame) (s : State) :
    (m.resolveState labels frame s).erase = s.erase := by
  simp [resolveState, State.erase, Assignment.erase, Function.comp_def]

theorem resolveItems_erase (n k : Nat) (items : List Item) :
    (m.resolveItems labels n k items).map Item.erase = items.map Item.erase := by
  fun_induction resolveItems m labels n k items with
  | case1 n k => rfl
  | case2 n k s items ih => simp [Item.erase, ih]
  | case3 n k u items frame ih => simp [Item.erase, Until.erase, Function.comp_def, ih]

theorem numberFrom_erase (n : Nat) (items : List Item) :
    (Item.numberFrom n items).map Item.erase = items.map Item.erase := by
  fun_induction Item.numberFrom n items with
  | case1 n => rfl
  | case2 n s items ih =>
    rw [List.map_cons, List.map_cons, ih]
    rfl
  | case3 n u items ih =>
    have hstates : (u.states.mapIdx fun i s => { s with index := some ((n + i : Nat) : Int) }).map
        State.erase = u.states.map State.erase :=
      List.ext_getElem? fun i => by
        rw [List.getElem?_map, List.getElem?_map, List.getElem?_mapIdx, Option.map_map]
        rfl
    rw [List.map_cons, List.map_cons, ih]
    simp only [Item.erase, Until.erase, hstates]

/-- Analysis writes nothing but what erasing takes away. -/
theorem analyzed_erase : m.number.resolve.erase = m.erase := by
  have hitems : m.number.resolve.items.map Item.erase = m.items.map Item.erase := by
    rw [← numberFrom_erase 0 m.items]
    exact resolveItems_erase m.number m.number.allLabels 0 0 m.number.items
  unfold erase
  rw [hitems]
  rfl

end Machine

namespace Language

/-- Each of a number of forms stands within their tokens. -/
theorem Many.mem {α : Type} {form : List Token → α → Prop} {ts : List Token} {as : List α}
    (h : Many form ts as) {a : α} (ha : a ∈ as) : ∃ us, form us a ∧ us ⊆ ts := by
  induction h with
  | nil => cases ha
  | @cons ts b us bs hb _ ih =>
    rcases List.mem_cons.mp ha with rfl | ha
    · exact ⟨ts, hb, List.subset_append_left ts us⟩
    · obtain ⟨vs, hv, hsub⟩ := ih ha
      exact ⟨vs, hv, List.Subset.trans hsub (List.subset_append_right ts us)⟩

theorem Many.erased {α : Type} {form : List Token → α → Prop} {erase : α → α}
    (hform : ∀ us a, form us a → erase a = a) {ts : List Token} {as : List α}
    (h : Many form ts as) : as.map erase = as := by
  refine map_erased fun a ha => ?_
  obtain ⟨us, hu, _⟩ := h.mem ha
  exact hform us a hu

theorem RawForm.erased {k : Kind} {ts : List Token} {f : Fragment} (h : RawForm k ts f) :
    f.erase = f := by
  cases h
  rfl

theorem Opt.erased {k : Kind} {ts : List Token} {f : Option Fragment}
    (h : Opt (RawForm k) ts f) : f.map Fragment.erase = f := by
  cases h with
  | none => rfl
  | some h => rw [Option.map_some, h.erased]

theorem StartForm.erased {ts : List Token} {r : Ref} (h : StartForm ts r) : r.erase = r := by
  cases h with
  | mk _ h =>
    cases h
    rfl

theorem JumpForm.erased {ts : List Token} {j : Jump} (h : JumpForm ts j) : j.erase = j := by
  cases h <;> rfl

theorem ActionForm.erased {ts : List Token} {a : Action} (h : ActionForm ts a) : a.erase = a := by
  cases h with
  | jump h => rw [Action.erase, h.erased]
  | retry _ => rfl

theorem TriggerForm.erased {ts : List Token} {t : Trigger} (h : TriggerForm ts t) :
    t.erase = t := by
  cases h with
  | when h => rw [Trigger.erase, h.erased]
  | timeout _ h =>
    cases h
    rfl

theorem TransitionForm.erased {ts : List Token} {t : Transition} (h : TransitionForm ts t) :
    t.erase = t := by
  cases h with
  | mk _ ht hc ha hs _ =>
    simp only [Transition.erase, ht.erased, hc.erased, ha.erased,
      hs.erased fun _ _ h => h.erased]

theorem AssignmentForm.erased {ts : List Token} {a : Assignment} (h : AssignmentForm ts a) :
    a.erase = a := by
  cases h with
  | mk _ h => simp only [Assignment.erase, h.erased]

theorem OutsForm.erased {ts : List Token} {as : List Assignment} (h : OutsForm ts as) :
    ∀ a ∈ as, a.erase = a := by
  cases h with
  | mk _ hfirst hrest _ =>
    intro a ha
    rcases List.mem_cons.mp ha with rfl | ha
    · exact hfirst.erased
    · obtain ⟨_, hcomma, _⟩ := hrest.mem ha
      cases hcomma with
      | mk _ h => exact h.erased

theorem transitions_erased {ts : List Token} {members : List (Transition ⊕ List Assignment)}
    (h : Many MemberForm ts members) :
    (members.filterMap Sum.getLeft?).map Transition.erase = members.filterMap Sum.getLeft? := by
  refine map_erased fun t ht => ?_
  obtain ⟨m, hm, he⟩ := List.mem_filterMap.mp ht
  obtain ⟨_, h, _⟩ := h.mem hm
  cases h with
  | transition h =>
    cases he
    exact h.erased
  | outs _ => cases he

theorem outs_erased {ts : List Token} {members : List (Transition ⊕ List Assignment)}
    (h : Many MemberForm ts members) :
    (members.filterMap Sum.getRight?).flatten.map Assignment.erase =
      (members.filterMap Sum.getRight?).flatten := by
  refine map_erased fun a ha => ?_
  obtain ⟨as, has, ha⟩ := List.mem_flatten.mp ha
  obtain ⟨m, hm, he⟩ := List.mem_filterMap.mp has
  obtain ⟨_, h, _⟩ := h.mem hm
  cases h with
  | transition _ => cases he
  | outs h =>
    cases he
    exact h.erased a ha

theorem StateForm.erased {ts : List Token} {s : State} (h : StateForm ts s) : s.erase = s := by
  cases h with
  | mk _ _ _ _ hentry hm _ =>
    simp only [State.erase, hentry.erased, transitions_erased hm, outs_erased hm]

theorem ItemForm.erased {ts : List Token} {i : Item} (h : ItemForm ts i) : i.erase = i := by
  cases h with
  | state h => rw [Item.erase, h.erased]
  | block h =>
    cases h with
    | mk _ _ _ _ _ hs _ hj _ =>
      simp only [Item.erase, Until.erase, hj.erased, hs.erased fun _ _ h => h.erased]

/-- What a source derives has nothing of an analysis in it. -/
theorem Derives.erased {file : Option Text} {source : Text} {p : Program}
    (h : Derives file source p) : p.erase = p := by
  obtain ⟨ts, _, hform⟩ := h
  cases hform with
  | mk _ _ _ _ _ _ hi _ _ =>
    simp only [Program.erase, Machine.erase, hi.erased fun _ _ h => h.erased]

end Language
end Statewright
