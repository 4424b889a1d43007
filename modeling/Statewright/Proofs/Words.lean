import Statewright.Proofs.WellFormed

namespace Statewright

/-- Texts of characters that names have. -/
def Worded (ts : List Text) : Prop :=
  ∀ t ∈ ts, ∀ c ∈ t, isNameChar c

section Worded
variable {ts us : List Text} {t : Text}

@[simp] theorem worded_nil : Worded [] := by
  simp [Worded]

@[simp] theorem worded_cons : Worded (t :: ts) ↔ (∀ c ∈ t, isNameChar c) ∧ Worded ts :=
  List.forall_mem_cons

@[simp] theorem worded_append : Worded (ts ++ us) ↔ Worded ts ∧ Worded us :=
  List.forall_mem_append

theorem worded_flatMap {α : Type} {words : α → List Text} {xs : List α} :
    Worded (xs.flatMap words) ↔ ∀ x ∈ xs, Worded (words x) := by
  simp only [Worded, List.mem_flatMap]
  exact ⟨fun h x hx n hn => h n ⟨x, hx, hn⟩, fun h n ⟨x, hx, hn⟩ => h x hx n hn⟩

end Worded

def Transition.words (t : Transition) : List Text :=
  t.trigger.timer?.toList.map Ref.name ++ t.action.jump?.toList.map (·.ref.name) ++
    t.starts.map Ref.name

def State.words (s : State) : List Text :=
  s.name :: s.transitions.flatMap Transition.words

def Until.words (u : Until) : List Text :=
  [u.bound.text, u.overflow.ref.name]

def Item.words (i : Item) : List Text :=
  i.states.flatMap State.words ++ i.until?.toList.flatMap Until.words

def Timer.words (t : Timer) : List Text :=
  [t.name, t.duration]

/-- The names and numerals of a machine. -/
def Machine.words (m : Machine) : List Text :=
  m.name :: (m.vars.map Variable.name ++ m.timers.flatMap Timer.words ++
    m.items.flatMap Item.words)

section Erase

theorem Transition.words_erase (t : Transition) : t.erase.words = t.words := by
  have htrigger : t.trigger.erase.timer?.toList.map Ref.name =
      t.trigger.timer?.toList.map Ref.name := by
    cases t.trigger <;> rfl
  have haction : t.action.erase.jump?.toList.map (·.ref.name) =
      t.action.jump?.toList.map (·.ref.name) := by
    cases t.action with
    | jump j => cases j <;> rfl
    | retry => rfl
  simp only [words, erase, htrigger, haction, List.map_map]
  rfl

theorem State.words_erase (s : State) : s.erase.words = s.words := by
  simp only [words, erase, List.flatMap_map, Transition.words_erase]

theorem Until.words_erase (u : Until) : u.erase.words = u.words := by
  simp only [words, erase]
  cases u.overflow <;> rfl

theorem Item.words_erase (i : Item) : i.erase.words = i.words := by
  cases i with
  | state s => simp [words, erase, states, until?, State.words_erase]
  | block u =>
    have hstates : u.erase.states.flatMap State.words = u.states.flatMap State.words := by
      simp only [Until.erase, List.flatMap_map, State.words_erase]
    simp [words, erase, states, until?, hstates, Until.words_erase]

/-- Analysis keeps the words. -/
theorem Machine.words_analyzed (m : Machine) : m.number.resolve.words = m.words := by
  have h (m : Machine) : m.erase.words = m.words := by
    simp only [words, erase, List.flatMap_map, Item.words_erase]
  rw [← h, analyzed_erase, h]

end Erase

namespace Machine
variable {m : Machine} (h : Worded m.words)
include h

theorem variables_worded : Worded (m.vars.map Variable.name) :=
  (worded_append.mp (worded_append.mp (worded_cons.mp h).2).1).1

theorem timer_worded {t : Timer} (ht : t ∈ m.timers) : Worded t.words :=
  worded_flatMap.mp (worded_append.mp (worded_append.mp (worded_cons.mp h).2).1).2 t ht

theorem items_worded : Worded (m.items.flatMap Item.words) :=
  (worded_append.mp (worded_cons.mp h).2).2

theorem state_worded {s : State} (hs : s ∈ m.states) : Worded s.words := by
  obtain ⟨i, hi, hs⟩ := List.mem_flatMap.mp hs
  have hitem := worded_flatMap.mp (items_worded h) i hi
  exact worded_flatMap.mp (worded_append.mp hitem).1 s hs

theorem until_worded {u : Until} (hu : u ∈ m.untils) : Worded u.words := by
  obtain ⟨i, hi, hu⟩ := List.mem_filterMap.mp hu
  have hitem := worded_flatMap.mp (items_worded h) i hi
  exact worded_flatMap.mp (worded_append.mp hitem).2 u (Option.mem_toList.mpr hu)

end Machine

namespace Language
variable {ts : List Token}

theorem Spelling.worded {rest w v : Text} {k : Kind} (h : Spelling rest k w v)
    (hk : k = .name ∨ k = .int) : ∀ c ∈ v, isNameChar c := by
  cases h with
  | word hm _ =>
    have hwords : ∀ p ∈ Kind.words, p.2 ≠ .name ∧ p.2 ≠ .int := by decide
    obtain ⟨hname, hint⟩ := hwords _ hm
    rcases hk with rfl | rfl <;> contradiction
  | name hc hw _ _ => exact List.forall_mem_cons.mpr ⟨by simp [isNameChar, hc], hw⟩
  | int _ hw _ =>
    intro c hc
    simp [isNameChar, hw c hc]
  | mark hm =>
    have hmarks : ∀ p ∈ Kind.marks, p.2 ≠ .name ∧ p.2 ≠ .int := by decide
    obtain ⟨hname, hint⟩ := hmarks _ hm
    rcases hk with rfl | rfl <;> contradiction
  | fragment hm _ =>
    have hfragments : ∀ p ∈ Kind.fragments, p.1 ≠ .name ∧ p.1 ≠ .int := by decide
    obtain ⟨hname, hint⟩ := hfragments _ hm
    rcases hk with rfl | rfl <;> contradiction
  | eof _ => simp

/-- Tokens whose names and numerals have the characters of names only. -/
def Tidy (ts : List Token) : Prop :=
  ∀ t ∈ ts, t.kind = .name ∨ t.kind = .int → ∀ c ∈ t.text, isNameChar c

@[simp] theorem tidy_cons {t : Token} : Tidy (t :: ts) ↔
    (t.kind = .name ∨ t.kind = .int → ∀ c ∈ t.text, isNameChar c) ∧ Tidy ts :=
  List.forall_mem_cons

@[simp] theorem tidy_append {us : List Token} : Tidy (ts ++ us) ↔ Tidy ts ∧ Tidy us :=
  List.forall_mem_append

theorem Spelled.tidy {source : Text} {n : Nat} (h : Spelled source n ts) : Tidy ts := by
  intro t ht hk
  obtain ⟨_, _, hs⟩ := h.mem ht
  exact hs.worded hk

theorem Many.worded {α : Type} {form : List Token → α → Prop} {words : α → List Text}
    {as : List α} (h : Many form ts as) (hts : Tidy ts)
    (hform : ∀ {us a}, form us a → Tidy us → Worded (words a)) : Worded (as.flatMap words) := by
  induction h with
  | nil => exact worded_nil
  | cons ha _ ih =>
    obtain ⟨hus, hvs⟩ := tidy_append.mp hts
    rw [List.flatMap_cons, worded_append]
    exact ⟨hform ha hus, ih hvs⟩

theorem ArgumentForm.worded {r : Ref} (h : ArgumentForm ts r) (hts : Tidy ts) :
    ∀ c ∈ r.name, isNameChar c := by
  cases h with
  | mk _ hn _ => exact hts _ (by simp) (.inl hn)

theorem JumpForm.worded {j : Jump} (h : JumpForm ts j) (hts : Tidy ts) :
    ∀ c ∈ j.ref.name, isNameChar c := by
  cases h with
  | go _ hn | err _ hn => exact hts _ (by simp) (.inl hn)

theorem ConstantForm.worded {t : Token} (h : ConstantForm ts t) (hts : Tidy ts) :
    ∀ c ∈ t.text, isNameChar c := by
  cases h with
  | int hk => exact hts _ (by simp) (.inr hk)
  | name hk => exact hts _ (by simp) (.inl hk)

theorem boundOf_text (t : Token) : (boundOf t).text = t.text := by
  unfold boundOf
  split <;> rfl

theorem VariableForm.worded {v : Variable} (h : VariableForm ts v) (hts : Tidy ts) :
    ∀ c ∈ v.name, isNameChar c := by
  cases h with
  | mk _ _ _ hn _ _ => exact hts _ (by simp) (.inl hn)

theorem TimerForm.worded {t : Timer} (h : TimerForm ts t) (hts : Tidy ts) : Worded t.words := by
  cases h with
  | mk _ hn _ hconst _ _ =>
    simp only [tidy_cons, tidy_append] at hts
    obtain ⟨_, hname, _, hduration, _⟩ := hts
    exact worded_cons.mpr ⟨hname (.inl hn),
      worded_cons.mpr ⟨hconst.worded hduration, worded_nil⟩⟩

theorem TransitionForm.worded {t : Transition} (h : TransitionForm ts t) (hts : Tidy ts) :
    Worded t.words := by
  cases h with
  | mk _ ht _ ha hs _ =>
    simp only [tidy_cons, tidy_append] at hts
    obtain ⟨_, htrigger, _, haction, hstarts, _⟩ := hts
    refine worded_append.mpr ⟨worded_append.mpr ⟨?_, ?_⟩, ?_⟩
    · cases ht with
      | when _ => exact worded_nil
      | timeout _ h => exact worded_cons.mpr ⟨h.worded (tidy_cons.mp htrigger).2, worded_nil⟩
    · cases ha with
      | jump h => exact worded_cons.mpr ⟨h.worded haction, worded_nil⟩
      | retry _ => exact worded_nil
    · dsimp only
      rw [List.map_eq_flatMap]
      refine hs.worded hstarts fun h hus => ?_
      cases h with
      | mk _ h => exact worded_cons.mpr ⟨h.worded (tidy_cons.mp hus).2, worded_nil⟩

theorem StateForm.worded {s : State} (h : StateForm ts s) (hts : Tidy ts) : Worded s.words := by
  cases h with
  | mk _ _ hn _ _ hmembers _ =>
    simp only [tidy_cons, tidy_append] at hts
    obtain ⟨_, _, hname, _, _, htidy, _⟩ := hts
    refine worded_cons.mpr ⟨hname (.inl hn), worded_flatMap.mpr fun t ht => ?_⟩
    obtain ⟨member, hmem, ht⟩ := List.mem_filterMap.mp ht
    obtain ⟨us, hform, hsub⟩ := hmembers.mem hmem
    cases hform with
    | transition h =>
      cases ht
      exact h.worded fun t ht => htidy t (hsub ht)
    | outs _ => cases ht

theorem ItemForm.worded {i : Item} (h : ItemForm ts i) (hts : Tidy ts) : Worded i.words := by
  cases h with
  | state h =>
    refine worded_append.mpr ⟨?_, worded_nil⟩
    rw [Item.states, List.flatMap_singleton]
    exact h.worded hts
  | block h =>
    cases h with
    | mk _ _ hconst _ _ hstates _ hjump _ =>
      simp only [tidy_cons, tidy_append] at hts
      obtain ⟨_, _, hbound, _, _, htidy, _, hoverflow, _⟩ := hts
      refine worded_append.mpr ⟨hstates.worded htidy StateForm.worded, ?_⟩
      refine worded_cons.mpr ⟨?_, worded_cons.mpr ⟨hjump.worded hoverflow, worded_nil⟩⟩
      rw [boundOf_text]
      exact hconst.worded hbound

/-- The words of a tree that was read are made of the characters of names. -/
theorem Derives.worded {file : Option Text} {source : Text} {p : Program}
    (h : Derives file source p) : Worded p.machine.words := by
  obtain ⟨ts, hspelled, hform⟩ := h
  have hts := hspelled.tidy
  cases hform with
  | mk _ _ _ hn _ hd hitems _ _ =>
    simp only [tidy_cons, tidy_append] at hts
    obtain ⟨_, _, _, hname, _, hdeclared, htidy, _⟩ := hts
    refine worded_cons.mpr ⟨hname (.inl hn), worded_append.mpr ⟨worded_append.mpr ⟨?_, ?_⟩,
      hitems.worded htidy ItemForm.worded⟩⟩
    · intro name hmem
      obtain ⟨v, hv, rfl⟩ := List.mem_map.mp hmem
      obtain ⟨d, hmem, hv⟩ := List.mem_filterMap.mp hv
      obtain ⟨us, hus, hsub⟩ := hd.mem hmem
      cases hus with
      | timer _ => cases hv
      | var hus =>
        cases hv
        exact hus.worded fun t ht => hdeclared t (hsub ht)
    · apply worded_flatMap.mpr
      intro t ht
      obtain ⟨d, hmem, ht⟩ := List.mem_filterMap.mp ht
      obtain ⟨us, hus, hsub⟩ := hd.mem hmem
      cases hus with
      | var _ => cases ht
      | timer hus =>
        cases ht
        exact hus.worded fun t ht => hdeclared t (hsub ht)

end Language
end Statewright
