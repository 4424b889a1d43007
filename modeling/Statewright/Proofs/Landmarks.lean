import Statewright.Proofs.Placement

namespace Statewright
open scoped List

/-- Two offsets of a source have different places. -/
theorem inSource_ne {source : Text} {o i : Nat} (hi : 0 < i) (h : o + i ≤ source.length) :
    Position.inSource source (o + i) ≠ Position.inSource source o := by
  intro he
  have hbefore := inSource_before hi h
  rw [he, Position.Before] at hbefore
  omega

/-- The places of what can be told apart in a transition, in source order. -/
def Transition.marks (t : Transition) : List Position :=
  t.place :: (t.trigger.timer?.toList.map Ref.place ++
    (t.action.jump?.toList.map (·.ref.place) ++ t.starts.map Ref.place))

def State.marks (s : State) : List Position :=
  s.place :: s.transitions.flatMap Transition.marks

def Item.marks : Item → List Position
  | state s => s.marks
  | block u => u.states.flatMap State.marks ++ [u.overflow.ref.place]

/-- The places of variables, timers, states and transitions, and of the names used in these. -/
def Machine.marks (m : Machine) : List Position :=
  (m.vars.map Variable.place ++ m.timers.map Timer.place) ++ m.items.flatMap Item.marks

namespace Language

/-- The places of tokens; the end of a source is none. -/
def landmarks (ts : List Token) : List Position :=
  (ts.filter (·.kind ≠ .eof)).map Token.place

section Tokens
variable {source rest w v : Text} {k : Kind} {n o : Nat} {ts us : List Token} {t : Token}

theorem landmarks_append : landmarks (ts ++ us) = landmarks ts ++ landmarks us := by
  simp [landmarks]

theorem landmarks_cons (hk : t.kind ≠ .eof) : landmarks (t :: ts) = t.place :: landmarks ts := by
  simp [landmarks, hk]

theorem landmarks_tail : landmarks ts <+ landmarks (t :: ts) :=
  ((List.sublist_cons_self t ts).filter _).map _

/-- The place of a token is that of one of its characters. -/
theorem Spelling.place (h : Spelling rest k w v) (source : Text) (o : Nat) :
    ∃ i ≤ w.length, placeOf source k o = .inSource source (o + i) ∧ (k ≠ .eof → i < w.length) := by
  have hpos := h.length_pos
  obtain ⟨hk, rfl⟩ | ⟨hk, a, b, rfl⟩ := h.text
  · exact ⟨0, Nat.zero_le _, by rw [placeOf, if_neg hk]; rfl, hpos⟩
  · exact ⟨1, by simp, by rw [placeOf, if_pos hk], fun _ => by simp⟩

theorem Spelled.places (h : Spelled source n ts) (hn : n ≤ source.length) :
    ∀ t ∈ ts, ∃ o, n ≤ o ∧ o ≤ source.length ∧ t.place = .inSource source o := by
  induction h with
  | nil => exact List.forall_mem_nil _
  | @cons n g w rest k v ts hd _ hs _ ih =>
    have hlen := congrArg List.length hd
    simp only [List.length_drop, List.length_append] at hlen
    obtain ⟨i, hi, hplace, _⟩ := hs.place source (n + g.length)
    refine List.forall_mem_cons.mpr ⟨⟨_, ?_, ?_, hplace⟩, fun t ht => ?_⟩
    · omega
    · omega
    · obtain ⟨o, hle, ho, hp⟩ := ih (by omega) t ht
      exact ⟨o, by omega, ho, hp⟩

/-- Tokens are placed apart from one another. -/
theorem Spelled.landmarks_nodup (h : Spelled source n ts) (hn : n ≤ source.length) :
    (landmarks ts).Nodup := by
  induction h with
  | nil => exact List.nodup_nil
  | @cons n g w rest k v ts hd _ hs hts ih =>
    have hlen := congrArg List.length hd
    simp only [List.length_drop, List.length_append] at hlen
    have hend : n + g.length + w.length ≤ source.length := by omega
    by_cases hk : k = .eof
    · simpa [landmarks, hk] using ih hend
    · rw [landmarks_cons hk, List.nodup_cons]
      refine ⟨fun hmem => ?_, ih hend⟩
      obtain ⟨i, _, hplace, hi⟩ := hs.place source (n + g.length)
      obtain ⟨t, ht, he⟩ := List.mem_map.mp hmem
      obtain ⟨o, hle, ho, hp⟩ := hts.places hend t (List.mem_filter.mp ht).1
      -- the later token starts behind the last character of this one
      have hlt := hi hk
      obtain ⟨j, rfl⟩ := Nat.exists_eq_add_of_lt (show n + g.length + i < o by omega)
      exact inSource_ne (Nat.succ_pos j) ho (hp.symm.trans (he.trans hplace))

end Tokens

section Forms
variable {ts : List Token}

theorem Many.marks {α : Type} {form : List Token → α → Prop} {marks : α → List Position}
    {as : List α} (h : Many form ts as)
    (hform : ∀ {us a}, form us a → marks a <+ landmarks us) : as.flatMap marks <+ landmarks ts := by
  induction h with
  | nil => exact List.Sublist.refl _
  | cons ha _ ih =>
    rw [List.flatMap_cons, landmarks_append]
    exact (hform ha).append ih

theorem ArgumentForm.mark {r : Ref} (h : ArgumentForm ts r) : [r.place] <+ landmarks ts := by
  cases h with
  | mk _ hn _ =>
    refine List.Sublist.trans ?_ landmarks_tail
    rw [landmarks_cons (by simp [hn])]
    exact (List.nil_sublist _).cons_cons _

theorem TriggerForm.mark {t : Trigger} (h : TriggerForm ts t) :
    t.timer?.toList.map Ref.place <+ landmarks ts := by
  cases h with
  | when _ => exact List.nil_sublist _
  | timeout _ h => exact h.mark.trans landmarks_tail

theorem JumpForm.mark {j : Jump} (h : JumpForm ts j) : [j.ref.place] <+ landmarks ts := by
  cases h with
  | go _ hn | err _ hn =>
    refine List.Sublist.trans ?_ landmarks_tail
    rw [landmarks_cons (by simp [hn])]
    exact (List.nil_sublist _).cons_cons _

theorem ActionForm.mark {a : Action} (h : ActionForm ts a) :
    a.jump?.toList.map (·.ref.place) <+ landmarks ts := by
  cases h with
  | jump h => exact h.mark
  | retry _ => exact List.nil_sublist _

theorem starts_marks {starts : List Ref} (h : Many StartForm ts starts) :
    starts.map Ref.place <+ landmarks ts := by
  rw [List.map_eq_flatMap]
  refine h.marks fun h => ?_
  cases h with
  | mk _ h => exact h.mark.trans landmarks_tail

theorem TransitionForm.marks {t : Transition} (h : TransitionForm ts t) :
    t.marks <+ landmarks ts := by
  cases h with
  | mk hk ht _ ha hs _ =>
    rw [landmarks_cons (by simp [hk]), landmarks_append, landmarks_append, landmarks_append,
      landmarks_append]
    refine List.Sublist.cons_cons _ (ht.mark.append ?_)
    refine List.Sublist.trans (ha.mark.append ?_) (List.sublist_append_right _ _)
    exact (starts_marks hs).trans (List.sublist_append_left _ _)

theorem members_marks {members : List (Transition ⊕ List Assignment)}
    (h : Many MemberForm ts members) :
    (members.filterMap Sum.getLeft?).flatMap Transition.marks <+ landmarks ts := by
  induction h with
  | nil => exact List.Sublist.refl _
  | cons hm _ ih =>
    rw [landmarks_append]
    cases hm with
    | transition h => exact h.marks.append ih
    | outs _ => exact ih.trans (List.sublist_append_right _ _)

theorem StateForm.marks {s : State} (h : StateForm ts s) : s.marks <+ landmarks ts := by
  cases h with
  | mk _ _ hn _ _ hmembers _ =>
    refine List.Sublist.trans ?_ landmarks_tail
    rw [landmarks_append, landmarks_cons (by simp [hn])]
    refine List.Sublist.trans ?_ (List.sublist_append_right _ _)
    refine List.Sublist.cons_cons _ (List.Sublist.trans ?_ landmarks_tail)
    rw [landmarks_append, landmarks_append]
    refine List.Sublist.trans ?_ (List.sublist_append_right _ _)
    exact (members_marks hmembers).trans (List.sublist_append_left _ _)

theorem ItemForm.marks {i : Item} (h : ItemForm ts i) : i.marks <+ landmarks ts := by
  cases h with
  | state h => exact h.marks
  | block h =>
    cases h with
    | mk _ _ _ _ _ hstates _ hjump _ =>
      refine List.Sublist.trans ?_ (landmarks_tail.trans landmarks_tail)
      rw [landmarks_append]
      refine List.Sublist.trans ?_ (List.sublist_append_right _ _)
      refine List.Sublist.trans ?_ (landmarks_tail.trans landmarks_tail)
      rw [landmarks_append]
      refine (hstates.marks StateForm.marks).append (List.Sublist.trans ?_ landmarks_tail)
      rw [landmarks_append]
      exact hjump.mark.trans (List.sublist_append_left _ _)

/-- The place of a declaration. -/
def declaredPlace : Variable ⊕ Timer → Position
  | .inl v => v.place
  | .inr t => t.place

theorem DeclarationForm.mark {d : Variable ⊕ Timer} (h : DeclarationForm ts d) :
    [declaredPlace d] <+ landmarks ts := by
  cases h with
  | var h =>
    cases h with
    | mk _ _ _ hn _ _ =>
      refine List.Sublist.trans ?_ landmarks_tail
      rw [landmarks_append, landmarks_cons (by simp [hn])]
      exact ((List.nil_sublist _).cons_cons _).trans (List.sublist_append_right _ _)
  | timer h =>
    cases h with
    | mk _ hn _ _ _ _ =>
      refine List.Sublist.trans ?_ landmarks_tail
      rw [landmarks_cons (by simp [hn])]
      exact (List.nil_sublist _).cons_cons _

theorem declared_marks {declared : List (Variable ⊕ Timer)} (h : Many DeclarationForm ts declared) :
    declared.map declaredPlace <+ landmarks ts := by
  rw [List.map_eq_flatMap]
  exact h.marks DeclarationForm.mark

/-- Variables and timers are kept apart, each in source order. -/
theorem declared_perm (declared : List (Variable ⊕ Timer)) :
    ((declared.filterMap Sum.getLeft?).map Variable.place ++
      (declared.filterMap Sum.getRight?).map Timer.place).Perm (declared.map declaredPlace) := by
  induction declared with
  | nil => exact .refl _
  | cons d declared ih =>
    cases d with
    | inl v => exact ih.cons _
    | inr t => exact List.perm_middle.trans (ih.cons _)

end Forms

/-- In a tree read from a source no two places are the same. -/
theorem Derives.marks_nodup {file : Option Text} {source : Text} {p : Program}
    (h : Derives file source p) : p.machine.marks.Nodup := by
  obtain ⟨ts, hspelled, hform⟩ := h
  have hnodup := hspelled.landmarks_nodup (Nat.zero_le _)
  cases hform with
  | mk _ _ _ _ _ hdeclared hitems _ _ =>
    refine (((declared_perm _).append_right _).nodup_iff).mpr ?_
    refine List.Sublist.nodup ?_ hnodup
    rw [landmarks_append, landmarks_append]
    refine List.Sublist.trans ?_ ((List.sublist_append_right _ _).trans
      (List.sublist_append_right _ _))
    refine List.Sublist.trans ?_ (landmarks_tail.trans (landmarks_tail.trans landmarks_tail))
    rw [landmarks_append, landmarks_append]
    refine (declared_marks hdeclared).append ?_
    exact (hitems.marks ItemForm.marks).trans (List.sublist_append_left _ _)

end Language
end Statewright
