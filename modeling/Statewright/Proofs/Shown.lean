import Mathlib.Data.List.Induction
import Statewright.Proofs.Faults
import Statewright.Proofs.Findings

namespace Statewright

section Positions

/-- Going through a text character by character. -/
theorem seek_eq_foldl (p : Position) {t : Text} {n : Nat} (h : n ≤ t.length) :
    p.seek t n = (t.take n).foldl Position.after p := by
  induction t generalizing p n with
  | nil =>
    obtain rfl : n = 0 := by simpa using h
    simp [Position.seek]
  | cons c t ih =>
    cases n with
    | zero => simp [Position.seek]
    | succ n => simpa [Position.seek] using ih (p.after c) (by simpa using h)

theorem lastLine_concat (t : Text) (c : Char) :
    Text.lastLine (t ++ [c]) = if c = '\n' then [] else t.lastLine ++ [c] := by
  by_cases hc : c = '\n' <;> simp [Text.lastLine, hc]

/-- The lines count all line breaks, the column what follows the last one. -/
theorem foldl_after (p : Position) (t : Text) :
    t.foldl Position.after p =
      if t.count '\n' = 0 then ⟨p.line, p.column + t.length⟩
      else ⟨p.line + t.count '\n', t.lastLine.length + 1⟩ := by
  induction t using List.reverseRecOn with
  | nil => simp
  | append_singleton t c ih =>
    rw [List.foldl_append, ih, lastLine_concat]
    by_cases hc : c = '\n'
    · by_cases ht : t.count '\n' = 0 <;> simp [Position.after, hc, ht]
      omega
    · by_cases ht : t.count '\n' = 0 <;> simp [Position.after, hc, ht]
      omega

theorem inSource_add {source : Text} {o i : Nat} (h : o + i ≤ source.length) :
    Position.inSource source (o + i) =
      ((source.drop o).take i).foldl Position.after (.inSource source o) := by
  unfold Position.inSource
  rw [seek_eq_foldl _ h, seek_eq_foldl _ (by omega), List.take_add, List.foldl_append]

/-- One place stands before another: in an earlier line, or earlier in the same. -/
def Position.Before (p q : Position) : Prop :=
  p.line < q.line ∨ p.line = q.line ∧ p.column < q.column

/-- Later offsets of a source have later places. -/
theorem inSource_before {source : Text} {o i : Nat} (hi : 0 < i) (h : o + i ≤ source.length) :
    (Position.inSource source o).Before (.inSource source (o + i)) := by
  have hlen : ((source.drop o).take i).length = i := by
    rw [List.length_take, List.length_drop]
    omega
  rw [inSource_add h, foldl_after, hlen]
  split
  · right
    dsimp only
    omega
  · left
    dsimp only
    omega

/-- The place of an offset in a fragment is that of the source. -/
theorem placeAt_inSource {source rest : Text} {f : Fragment} {o i : Nat}
    (hp : f.place = .inSource source o) (hd : source.drop o = f.text ++ rest)
    (hi : i ≤ f.text.length) (ho : o ≤ source.length) :
    f.placeAt i = .inSource source (o + i) := by
  have hlen : o + i ≤ source.length := by
    have := congrArg List.length hd
    simp only [List.length_drop, List.length_append] at this
    omega
  have htake : (f.text.take i).length = i := by
    rw [List.length_take, Nat.min_eq_left hi]
  rw [inSource_add hlen, hd, List.take_append_of_le_length hi, ← hp, foldl_after, htake]
  simp only [Fragment.placeAt, Text.upTo]
  change (if (f.text.take i).count '\n' = 0 then _ else _) = _
  split
  · rfl
  · simp [htake]

end Positions

namespace Code

/-- What the first piece can be, if its first character starts no name. -/
theorem firstPiece_other {P : Piece → Prop} {c : Char} {t : Text} (hc : isNameStart c = false)
    (halone : P ⟨.mark, [c]⟩) (hlong : ∀ s u, s ≠ .word → s ≠ .mark → P ⟨s, c :: u⟩) :
    P (firstPiece c t) := by
  have hopt {α : Type} (o : Option α) (s : Shape) (f : α → Text) (hs : s ≠ .word)
      (hm : s ≠ .mark) : P ((o.map fun a => ⟨s, c :: f a⟩).getD ⟨.mark, [c]⟩) := by
    cases o with
    | none => exact halone
    | some a => exact hlong s (f a) hs hm
  unfold firstPiece
  split
  · exact hlong .blank [] nofun nofun
  split
  · simp_all
  split
  · exact hlong _ _ nofun nofun
  split
  · exact hopt _ _ _ nofun nofun
  split
  · exact hopt _ _ _ nofun nofun
  split
  · exact hlong _ _ nofun nofun
  · exact hopt _ _ _ nofun nofun
  · exact hlong _ _ nofun nofun
  · exact halone

theorem firstPiece_name {c : Char} {t : Text} (hc : isNameStart c) :
    firstPiece c t = ⟨.word, c :: t.takeWhile isNameChar⟩ := by
  have hb : Text.isBlank c = false := by
    have hn := Language.isNameStart_toNat hc
    simp only [Text.isBlank]
    simp
    omega
  unfold firstPiece
  rw [hb, if_neg Bool.false_ne_true, if_pos hc]

theorem firstPiece_length (c : Char) (t : Text) : 0 < (firstPiece c t).text.length := by
  by_cases hc : isNameStart c
  · simp [firstPiece_name hc]
  · exact firstPiece_other (P := fun p => 0 < p.text.length) (by simpa using hc) (by simp)
      fun _ _ _ _ => by simp

/-- A piece that is spelled like a name of the machine takes all the characters it can. -/
theorem firstPiece_word {c : Char} {t : Text}
    (hs : ∀ d ∈ (firstPiece c t).text.head?, isNameStart d) :
    (firstPiece c t).text = c :: t.takeWhile isNameChar := by
  by_cases hc : isNameStart c
  · rw [firstPiece_name hc]
  · have hhead : (firstPiece c t).text.head? = some c :=
      firstPiece_other (P := fun p => p.text.head? = some c) (by simpa using hc) rfl
        fun _ _ _ _ => rfl
    exact absurd (hs c hhead) hc

/-- Pieces stand where they are placed. -/
theorem mem_place {offset : Nat} {before : Option Text} {t : Text} {p : Placed}
    (h : p ∈ place offset before (pieces t)) :
    ∃ i c u, p.offset = offset + i ∧ t.drop i = c :: u ∧ p.piece = firstPiece c u := by
  fun_induction pieces t generalizing offset before with
  | case1 => cases h
  | case2 c t q =>
    rename_i ih
    rcases List.mem_cons.mp h with rfl | h
    · exact ⟨0, c, t, rfl, rfl, rfl⟩
    · obtain ⟨i, d, u, hi, hd, hp⟩ := ih h
      have hq : 0 < q.text.length := firstPiece_length c t
      refine ⟨q.text.length + i, d, u, by omega, ?_, hp⟩
      rw [← hd, ← List.drop_drop]
      obtain ⟨n, hn⟩ := Nat.exists_eq_add_of_lt hq
      rw [hn]
      simp

/-- A name of the machine that is read off a code stands there, all of it. -/
theorem mem_names {q : Placed → Bool} {t name : Text} {i : Nat}
    (h : (i, name) ∈ ((placed t).filter q).map fun p => (p.offset, p.piece.text))
    (hs : ∀ c ∈ name.head?, isNameStart c) :
    i ≤ t.length ∧ ∃ rest, t.drop i = name ++ rest ∧ Language.Ends isNameChar rest := by
  obtain ⟨p, hp, he⟩ := List.mem_map.mp h
  obtain ⟨j, c, u, hj, hd, hpiece⟩ := mem_place (List.mem_filter.mp hp).1
  cases he
  have htext : p.piece.text = c :: u.takeWhile isNameChar := by
    rw [hpiece] at hs ⊢
    exact firstPiece_word hs
  rw [Nat.zero_add] at hj
  rw [hj]
  refine ⟨?_, u.dropWhile isNameChar, ?_, Language.ends_dropWhile _ _⟩
  · by_contra hlt
    rw [List.drop_eq_nil_of_le (by omega)] at hd
    cases hd
  · rw [hd, htext, List.cons_append, List.takeWhile_append_dropWhile]

end Code

namespace Language

/-- The source shows the text at the place, and does not go on with a character of a name. -/
def Shows (source text : Text) (place : Position) : Prop :=
  ∃ o ≤ source.length, place = .inSource source o ∧
    ∃ rest, source.drop o = text ++ rest ∧ Ends isNameChar rest

/-- What a fragment shows the source shows. -/
theorem Shows.within {source name rest : Text} {f : Fragment} {i : Nat}
    (h : Shows source f.text f.place) (hi : i ≤ f.text.length) (hd : f.text.drop i = name ++ rest)
    (he : Ends isNameChar rest) : Shows source name (f.placeAt i) := by
  obtain ⟨o, ho, hp, after, hs, hafter⟩ := h
  have hlen := congrArg List.length hs
  simp only [List.length_drop, List.length_append] at hlen
  refine ⟨o + i, by omega, placeAt_inSource hp hs hi ho, rest ++ after, ?_, he.append hafter⟩
  rw [← List.drop_drop, hs, List.drop_append_of_le_length hi, hd, List.append_assoc]

/-- What the source shows of a token. -/
structure Legible (source : Text) (t : Token) : Prop where
  shown : t.kind.IsWord ∨ t.kind = .block ∨ t.kind = .expr → Shows source t.text t.place
  reserved : ∀ {w}, (w, t.kind) ∈ Kind.words → t.text = w
  name : t.kind = .name → ∀ c ∈ t.text.head?, isNameStart c

theorem words_injective : ∀ p ∈ Kind.words, ∀ q ∈ Kind.words, p.2 = q.2 → p = q := by
  decide

/-- A kind that is neither a word nor a fragment shows nothing. -/
theorem legible_of_other {source : Text} {t : Token}
    (h : t.kind ∉ Kind.words.map (·.2) ++ [.name, .block, .expr]) : Legible source t := by
  simp only [List.mem_append, List.mem_cons, List.not_mem_nil, or_false, not_or] at h
  refine ⟨?_, fun hw => ?_, fun hk => absurd hk h.2.1⟩
  · rintro ((hk | hk) | hk | hk)
    · exact absurd hk h.2.1
    · exact absurd hk h.1
    · exact absurd hk h.2.2.1
    · exact absurd hk h.2.2.2
  · exact absurd (List.mem_map_of_mem (f := (·.2)) hw) h.1

theorem Spelling.legible {source rest w v : Text} {k : Kind} {o : Nat} (h : Spelling rest k w v)
    (hd : source.drop o = w ++ rest) (ho : o ≤ source.length) :
    Legible source ⟨k, v, placeOf source k o, o⟩ := by
  cases h with
  | word hw he =>
    have hk : k.IsWord := .inr (List.mem_map_of_mem (f := (·.2)) hw)
    refine ⟨fun _ => ⟨o, ho, ?_, rest, hd, he⟩, fun hw' => ?_, ?_⟩
    · rw [placeOf, if_neg hk.not_fragment]
    · exact congrArg Prod.fst (words_injective _ hw _ hw' rfl)
    · rintro rfl
      simp [Kind.words] at hw
  | @name c w hc hw hn he =>
    refine ⟨fun _ => ⟨o, ho, rfl, rest, hd, he⟩, ?_, fun _ => by simpa using hc⟩
    intro u hu
    simp [Kind.words] at hu
  | int => exact legible_of_other (by simp [Kind.words])
  | mark hm =>
    refine legible_of_other ?_
    simp only [Kind.marks, List.mem_cons, Prod.mk.injEq, List.not_mem_nil, or_false] at hm
    rcases hm with ⟨_, rfl⟩ | ⟨_, rfl⟩ | ⟨_, rfl⟩ | ⟨_, rfl⟩ | ⟨_, rfl⟩ | ⟨_, rfl⟩ | ⟨_, rfl⟩ |
      ⟨_, rfl⟩ | ⟨_, rfl⟩ <;> simp [Kind.words]
  | @fragment _ a b _ hm hs =>
    have hlen := congrArg List.length hd
    simp only [List.length_drop, List.length_append, List.length_cons] at hlen
    have hdrop : source.drop (o + 1) = v ++ b :: rest := by
      rw [← List.drop_drop, hd]
      simp
    have hb : isNameChar b = false ∧ (k = .block ∨ k = .expr) := by
      simp only [Kind.fragments, List.mem_cons, Prod.mk.injEq, List.not_mem_nil, or_false] at hm
      rcases hm with ⟨rfl, _, rfl⟩ | ⟨rfl, _, rfl⟩ <;> decide
    refine ⟨fun _ => ⟨o + 1, by omega, ?_, b :: rest, hdrop, ?_⟩, ?_, ?_⟩
    · rw [placeOf, if_pos hb.2]
    · simpa [Ends] using hb.1
    · intro u hu
      rcases hb.2 with rfl | rfl <;> simp [Kind.words] at hu
    · rintro rfl
      rcases hb.2 with hk | hk <;> cases hk
  | eof => exact legible_of_other (by simp [Kind.words])

theorem Spelled.legible {source : Text} {n : Nat} {ts : List Token} (h : Spelled source n ts)
    (hn : n ≤ source.length) : ∀ t ∈ ts, Legible source t := by
  induction h with
  | nil => exact List.forall_mem_nil _
  | @cons n g w rest k v ts hd _ hs _ ih =>
    have hlen := congrArg List.length hd
    simp only [List.length_drop, List.length_append] at hlen
    have hdrop : source.drop (n + g.length) = w ++ rest := by
      rw [← List.drop_drop, hd, List.drop_left]
    exact List.forall_mem_cons.mpr ⟨hs.legible hdrop (by omega), ih (by omega)⟩

section Forms
variable {source : Text} {ts : List Token}

theorem Legible.name_shown {t : Token} (h : Legible source t) (hk : t.kind = .name) :
    Shows source t.text t.place :=
  h.shown (.inl (.inl hk))

theorem Legible.word_shown {t : Token} {w : Text} (h : Legible source t)
    (hw : (w, t.kind) ∈ Kind.words) : Shows source w t.place := by
  rw [← h.reserved hw]
  exact h.shown (.inl (.inr (List.mem_map_of_mem (f := (·.2)) hw)))

theorem RawForm.shown {k : Kind} {f : Fragment} (h : RawForm k ts f)
    (hk : k = .block ∨ k = .expr) (hl : ∀ t ∈ ts, Legible source t) :
    Shows source f.text f.place := by
  cases h with
  | mk ht => exact (hl _ List.mem_cons_self).shown (.inr (ht ▸ hk))

theorem Opt.shown {f : Fragment} (h : Opt (RawForm .block) ts (Option.some f))
    (hl : ∀ t ∈ ts, Legible source t) : Shows source f.text f.place := by
  cases h with
  | some h => exact h.shown (.inl rfl) hl

theorem ArgumentForm.shown {r : Ref} (h : ArgumentForm ts r) (hl : ∀ t ∈ ts, Legible source t) :
    Shows source r.name r.place := by
  cases h with
  | mk _ hn _ => exact (hl _ (by simp)).name_shown hn

theorem JumpForm.shown {j : Jump} (h : JumpForm ts j) (hl : ∀ t ∈ ts, Legible source t) :
    Shows source j.ref.name j.ref.place := by
  cases h with
  | go _ hn => exact (hl _ (by simp)).name_shown hn
  | err _ hn => exact (hl _ (by simp)).name_shown hn

/-- The source shows all that a transition can be blamed for. -/
structure TransitionShown (source : Text) (t : Transition) : Prop where
  word : Shows source "on" t.place
  jump : ∀ {j}, t.action.jump? = some j → Shows source j.ref.name j.ref.place
  timers : ∀ r ∈ t.trigger.timer?.toList ++ t.starts, Shows source r.name r.place
  condition : ∀ {f}, t.trigger.condition? = some f → Shows source f.text f.place
  code : ∀ {f}, t.code = some f → Shows source f.text f.place

theorem ActionForm.shown {a : Action} {j : Jump} (h : ActionForm ts a) (hj : a.jump? = some j)
    (hl : ∀ t ∈ ts, Legible source t) : Shows source j.ref.name j.ref.place := by
  cases h with
  | jump h =>
    cases hj
    exact h.shown hl
  | retry _ => cases hj

theorem TriggerForm.shown {t : Trigger} (h : TriggerForm ts t) (hl : ∀ t ∈ ts, Legible source t) :
    (∀ r ∈ t.timer?, Shows source r.name r.place) ∧
      ∀ {f}, t.condition? = some f → Shows source f.text f.place := by
  cases h with
  | when h =>
    refine ⟨by simp [Trigger.timer?], ?_⟩
    intro f hf
    cases hf
    exact h.shown (.inr rfl) hl
  | timeout _ h =>
    refine ⟨?_, fun hf => by cases hf⟩
    intro r hr
    cases hr
    exact h.shown fun t ht => hl t (List.mem_cons_of_mem _ ht)

theorem TransitionForm.shown {t : Transition} (h : TransitionForm ts t)
    (hl : ∀ t ∈ ts, Legible source t) : TransitionShown source t := by
  cases h with
  | mk hk ht hc ha hs _ =>
    simp only [List.forall_mem_cons, List.forall_mem_append] at hl
    obtain ⟨hkl, htl, hcl, hal, hsl, _⟩ := hl
    have htrigger := ht.shown htl
    refine ⟨hkl.word_shown (by simp [hk, Kind.words]), (ha.shown · hal), ?_, htrigger.2, ?_⟩
    · intro r hr
      rcases List.mem_append.mp hr with hr | hr
      · exact htrigger.1 r (by simpa using hr)
      · obtain ⟨us, hu, hsub⟩ := hs.mem hr
        cases hu with
        | mk _ h => exact h.shown fun t ht => hsl t (hsub (List.mem_cons_of_mem _ ht))
    · rintro f rfl
      exact hc.shown hcl

theorem AssignmentForm.shown {a : Assignment} (h : AssignmentForm ts a)
    (hl : ∀ t ∈ ts, Legible source t) :
    Shows source a.name a.place ∧ Shows source a.value.text a.value.place := by
  cases h with
  | mk hn h =>
    rw [List.forall_mem_cons] at hl
    exact ⟨hl.1.name_shown hn, h.shown (.inr rfl) hl.2⟩

theorem OutsForm.shown {as : List Assignment} (h : OutsForm ts as)
    (hl : ∀ t ∈ ts, Legible source t) :
    ∀ a ∈ as, Shows source a.name a.place ∧ Shows source a.value.text a.value.place := by
  cases h with
  | mk _ hfirst hrest _ =>
    simp only [List.forall_mem_cons, List.forall_mem_append] at hl
    obtain ⟨_, hfl, hrl, _⟩ := hl
    intro a ha
    rcases List.mem_cons.mp ha with rfl | ha
    · exact hfirst.shown hfl
    · obtain ⟨us, hu, hsub⟩ := hrest.mem ha
      cases hu with
      | mk _ h => exact h.shown fun t ht => hrl t (hsub (List.mem_cons_of_mem _ ht))

/-- The source shows all that a state can be blamed for. -/
structure StateShown (source : Text) (s : State) : Prop where
  name : Shows source s.name s.place
  transitions : ∀ t ∈ s.transitions, TransitionShown source t
  outs : ∀ a ∈ s.outs, Shows source a.name a.place
  code : ∀ f ∈ Machine.codeOf s, Shows source f.text f.place

theorem members_shown {members : List (Transition ⊕ List Assignment)}
    (h : Many MemberForm ts members) (hl : ∀ t ∈ ts, Legible source t) :
    (∀ t ∈ members.filterMap Sum.getLeft?, TransitionShown source t) ∧
      ∀ a ∈ (members.filterMap Sum.getRight?).flatten,
        Shows source a.name a.place ∧ Shows source a.value.text a.value.place := by
  refine ⟨?_, ?_⟩
  · intro t ht
    obtain ⟨m, hm, he⟩ := List.mem_filterMap.mp ht
    obtain ⟨us, hu, hsub⟩ := h.mem hm
    cases hu with
    | transition hu =>
      cases he
      exact hu.shown fun t ht => hl t (hsub ht)
    | outs _ => cases he
  · intro a ha
    obtain ⟨as, has, ha⟩ := List.mem_flatten.mp ha
    obtain ⟨m, hm, he⟩ := List.mem_filterMap.mp has
    obtain ⟨us, hu, hsub⟩ := h.mem hm
    cases hu with
    | transition _ => cases he
    | outs hu =>
      cases he
      exact hu.shown (fun t ht => hl t (hsub ht)) a ha

theorem StateForm.shown {s : State} (h : StateForm ts s) (hl : ∀ t ∈ ts, Legible source t) :
    StateShown source s := by
  cases h with
  | mk _ _ hn _ hentry hmembers _ =>
    simp only [List.forall_mem_cons, List.forall_mem_append] at hl
    obtain ⟨_, _, hnl, _, hel, hml, _⟩ := hl
    obtain ⟨htransitions, houts⟩ := members_shown hmembers hml
    refine ⟨hnl.name_shown hn, htransitions, fun a ha => (houts a ha).1, ?_⟩
    intro f hf
    rcases List.mem_append.mp hf with hf | hf
    · rcases List.mem_append.mp hf with hf | hf
      · obtain rfl := Option.mem_toList.mp hf
        exact hentry.shown hel
      · obtain ⟨t, ht, hf⟩ := List.mem_filterMap.mp hf
        exact (htransitions t ht).code hf
    · obtain ⟨a, ha, rfl⟩ := List.mem_map.mp hf
      exact (houts a ha).2

theorem BlockForm.shown {u : Until} (h : BlockForm ts u) (hl : ∀ t ∈ ts, Legible source t) :
    Shows source "until" u.place ∧ Shows source u.overflow.ref.name u.overflow.ref.place ∧
      ∀ s ∈ u.states, StateShown source s := by
  cases h with
  | mk hk _ _ _ _ hstates _ hjump _ =>
    simp only [List.forall_mem_cons, List.forall_mem_append] at hl
    obtain ⟨hkl, _, _, _, _, hsl, _, hjl, _⟩ := hl
    refine ⟨hkl.word_shown (by simp [hk, Kind.words]), hjump.shown hjl, ?_⟩
    intro s hs
    obtain ⟨us, h, hsub⟩ := hstates.mem hs
    exact h.shown fun t ht => hsl t (hsub ht)

theorem items_shown {items : List Item} (h : Many ItemForm ts items)
    (hl : ∀ t ∈ ts, Legible source t) :
    (∀ s ∈ items.flatMap Item.states, StateShown source s) ∧
      ∀ u ∈ items.filterMap Item.until?,
        Shows source "until" u.place ∧ Shows source u.overflow.ref.name u.overflow.ref.place := by
  refine ⟨?_, ?_⟩
  · intro s hs
    obtain ⟨i, hi, hs⟩ := List.mem_flatMap.mp hs
    obtain ⟨us, hu, hsub⟩ := h.mem hi
    cases hu with
    | state hu =>
      cases List.mem_singleton.mp hs
      exact hu.shown fun t ht => hl t (hsub ht)
    | block hu => exact (hu.shown fun t ht => hl t (hsub ht)).2.2 s hs
  · intro u hu
    obtain ⟨i, hi, he⟩ := List.mem_filterMap.mp hu
    obtain ⟨us, hu, hsub⟩ := h.mem hi
    cases hu with
    | state _ => cases he
    | block hu =>
      cases he
      have hshown := hu.shown fun t ht => hl t (hsub ht)
      exact ⟨hshown.1, hshown.2.1⟩

/-- A variable's name is one that can be told from other pieces of code. -/
theorem VariableForm.shown {v : Variable} (h : VariableForm ts v)
    (hl : ∀ t ∈ ts, Legible source t) :
    Shows source v.name v.place ∧ ∀ c ∈ v.name.head?, isNameStart c := by
  cases h with
  | mk _ _ _ hn _ _ =>
    simp only [List.forall_mem_cons, List.forall_mem_append] at hl
    obtain ⟨_, _, hnl, _⟩ := hl
    exact ⟨hnl.name_shown hn, hnl.name hn⟩

theorem TimerForm.shown {t : Timer} (h : TimerForm ts t) (hl : ∀ t ∈ ts, Legible source t) :
    Shows source t.name t.place := by
  cases h with
  | mk _ hn _ _ _ _ =>
    simp only [List.forall_mem_cons] at hl
    exact hl.2.1.name_shown hn

theorem declarations_shown {declared : List (Variable ⊕ Timer)}
    (h : Many DeclarationForm ts declared) (hl : ∀ t ∈ ts, Legible source t) :
    (∀ v ∈ declared.filterMap Sum.getLeft?,
      Shows source v.name v.place ∧ ∀ c ∈ v.name.head?, isNameStart c) ∧
      ∀ t ∈ declared.filterMap Sum.getRight?, Shows source t.name t.place := by
  refine ⟨?_, ?_⟩
  · intro v hv
    obtain ⟨d, hd, he⟩ := List.mem_filterMap.mp hv
    obtain ⟨us, hu, hsub⟩ := h.mem hd
    cases hu with
    | timer _ => cases he
    | var hu =>
      cases he
      exact hu.shown fun t ht => hl t (hsub ht)
  · intro t ht
    obtain ⟨d, hd, he⟩ := List.mem_filterMap.mp ht
    obtain ⟨us, hu, hsub⟩ := h.mem hd
    cases hu with
    | var _ => cases he
    | timer hu =>
      cases he
      exact hu.shown fun t ht => hl t (hsub ht)

end Forms

/-- What a code says about a declared variable the source shows. -/
theorem Shows.reference {source : Text} {f : Fragment} {q : Code.Placed → Bool} {m : Machine}
    {i : Nat} {v : Variable} (hf : Shows source f.text f.place)
    (hv : ∀ v ∈ m.vars, ∀ c ∈ v.name.head?, isNameStart c)
    (h : (i, v) ∈ (((Code.placed f.text).filter q).map fun p => (p.offset, p.piece.text)).filterMap
      fun r => (m.declared? r.2).map (r.1, ·)) :
    Shows source v.name (f.placeAt i) := by
  obtain ⟨name, hname, hd⟩ := Machine.mem_declared.mp h
  obtain ⟨hmem, rfl⟩ := Machine.declared?_some hd
  obtain ⟨hi, rest, hrest, he⟩ := Code.mem_names hname (hv v hmem)
  exact hf.within hi hrest he

/-- The source shows all that a machine can be blamed for. -/
structure MachineShown (source : Text) (m : Machine) : Prop where
  name : Shows source m.name m.place
  vars : ∀ v ∈ m.vars, Shows source v.name v.place ∧ ∀ c ∈ v.name.head?, isNameStart c
  timers : ∀ t ∈ m.timers, Shows source t.name t.place
  states : ∀ s ∈ m.states, StateShown source s
  untils : ∀ u ∈ m.untils,
    Shows source "until" u.place ∧ Shows source u.overflow.ref.name u.overflow.ref.place

theorem Derives.machine_shown {file : Option Text} {source : Text} {p : Program}
    (h : Derives file source p) : MachineShown source p.machine := by
  obtain ⟨ts, hspelled, hform⟩ := h
  have hl := hspelled.legible (Nat.zero_le _)
  cases hform with
  | mk _ _ _ hn _ hdeclared hitems _ _ =>
    simp only [List.forall_mem_cons, List.forall_mem_append] at hl
    obtain ⟨_, _, _, hnl, _, hdl, hil, _⟩ := hl
    obtain ⟨hvars, htimers⟩ := declarations_shown hdeclared hdl
    obtain ⟨hstates, huntils⟩ := items_shown hitems hil
    exact ⟨hnl.name_shown hn, hvars, htimers, hstates, huntils⟩

theorem MachineShown.transition {source : Text} {m : Machine} (h : MachineShown source m)
    {t : Transition} (ht : t ∈ m.transitions) : TransitionShown source t := by
  obtain ⟨s, hs, ht⟩ := List.mem_flatMap.mp ht
  exact (h.states s hs).transitions t ht

theorem MachineShown.part {source : Text} {m : Machine} (h : MachineShown source m) {text : Text}
    {place : Position} (hpart : m.Part text place) : Shows source text place := by
  have hnames : ∀ v ∈ m.vars, ∀ c ∈ v.name.head?, isNameStart c := fun v hv => (h.vars v hv).2
  cases hpart with
  | machine => exact h.name
  | var hv => exact (h.vars _ hv).1
  | timer ht => exact h.timers _ ht
  | state hs => exact (h.states _ hs).name
  | block hu => exact (h.untils _ hu).1
  | jump hj =>
    rcases List.mem_append.mp hj with hj | hj
    · obtain ⟨t, ht, hj⟩ := List.mem_filterMap.mp hj
      exact (h.transition ht).jump hj
    · obtain ⟨u, hu, rfl⟩ := List.mem_map.mp hj
      exact (h.untils u hu).2
  | timerRef hr =>
    obtain ⟨t, ht, hr⟩ := List.mem_flatMap.mp hr
    exact (h.transition ht).timers _ hr
  | transition ht => exact (h.transition ht).word
  | out ha =>
    obtain ⟨s, hs, ha⟩ := List.mem_flatMap.mp ha
    exact (h.states s hs).outs _ ha
  | reference hf hu =>
    obtain ⟨t, ht, hf⟩ := List.mem_filterMap.mp hf
    exact ((h.transition ht).condition hf).reference hnames hu
  | declaration hf hu =>
    obtain ⟨s, hs, hf⟩ := List.mem_flatMap.mp hf
    exact ((h.states s hs).code _ hf).reference hnames hu

end Language
end Statewright
