import Statewright.Proofs.Lines
import Statewright.Proofs.Outputs
import Statewright.Proofs.Targets
import Statewright.Proofs.Words

namespace Statewright

/-- Texts that stand on one line each. -/
def Unbroken (ts : List Text) : Prop :=
  ∀ t ∈ ts, '\n' ∉ t

section Unbroken
variable {ts us : List Text} {t : Text}

@[simp] theorem unbroken_nil : Unbroken [] := by
  simp [Unbroken]

@[simp] theorem unbroken_cons : Unbroken (t :: ts) ↔ '\n' ∉ t ∧ Unbroken ts :=
  List.forall_mem_cons

@[simp] theorem unbroken_append : Unbroken (ts ++ us) ↔ Unbroken ts ∧ Unbroken us :=
  List.forall_mem_append

theorem unbroken_flatMap {α : Type} {names : α → List Text} {xs : List α} :
    Unbroken (xs.flatMap names) ↔ ∀ x ∈ xs, Unbroken (names x) := by
  simp only [Unbroken, List.mem_flatMap]
  exact ⟨fun h x hx n hn => h n ⟨x, hx, hn⟩, fun h n ⟨x, hx, hn⟩ => h x hx n hn⟩

theorem Worded.unbroken (h : Worded ts) : Unbroken ts := by
  intro t ht hc
  have hname := h t ht '\n' hc
  revert hname
  decide

end Unbroken

namespace Text

theorem unbroken_words (t : Text) : Unbroken (words t) := by
  intro w hl hc
  have h := mem_split (List.mem_filter.mp hl).1 hc
  revert h
  decide

theorem unbroken_join {separator : Text} {ts : List Text} (hs : '\n' ∉ separator)
    (hts : Unbroken ts) : '\n' ∉ join separator ts := by
  unfold join
  induction ts with
  | nil => simp
  | cons t ts ih =>
    obtain ⟨ht, hts⟩ := unbroken_cons.mp hts
    cases ts with
    | nil => simpa using ht
    | cons u us =>
      rw [List.intercalate_cons_cons, List.mem_append, List.mem_append]
      simp [ht, hs, ih hts]

theorem unbroken_ofNat (n : Nat) : '\n' ∉ ofNat n := by
  intro h
  cases isUnbroken_ofNat n '\n' h

end Text

namespace Diagram
variable {m : Machine}

section Lines

theorem edge_unbroken {source target label : Text} (hs : '\n' ∉ source) (ht : '\n' ∉ target)
    (hl : '\n' ∉ label) : '\n' ∉ edge source target label := by
  unfold edge
  dsimp only
  split <;> simp [hs, ht, hl]

theorem jumpLabel_unbroken {j : Jump} (h : '\n' ∉ j.ref.name) : Unbroken (jumpLabel j) := by
  cases j with
  | go r => exact unbroken_nil
  | err r =>
    have hname : '\n' ∉ r.name := h
    simp [jumpLabel, hname]

/-- However a condition is laid out, only its words are drawn. -/
theorem triggerLabel_unbroken {t : Trigger} (h : Unbroken (t.timer?.toList.map Ref.name)) :
    '\n' ∉ triggerLabel t := by
  unfold triggerLabel
  cases t with
  | when condition =>
    have hwords : '\n' ∉ Text.join " " condition.text.words :=
      Text.unbroken_join (by decide) (Text.unbroken_words _)
    dsimp only
    generalize Text.join _ _ = drawn at hwords ⊢
    simp [hwords]
  | timeout r =>
    have hname : '\n' ∉ r.name := (unbroken_cons.mp h).1
    simp [hname]

theorem label_unbroken {t : Transition} (h : Unbroken t.words) : '\n' ∉ label t := by
  obtain ⟨h, hstarts⟩ := unbroken_append.mp h
  obtain ⟨htrigger, haction⟩ := unbroken_append.mp h
  refine Text.unbroken_join (by decide) ?_
  refine unbroken_append.mpr ⟨unbroken_append.mpr ⟨?_, ?_⟩, ?_⟩
  · exact unbroken_cons.mpr ⟨triggerLabel_unbroken htrigger, unbroken_nil⟩
  · cases ha : t.action with
    | jump j =>
      rw [ha] at haction
      exact jumpLabel_unbroken (unbroken_cons.mp haction).1
    | retry => simp [actionLabel]
  · intro l hl
    obtain ⟨r, hr, rfl⟩ := List.mem_map.mp hl
    have hname : '\n' ∉ r.name := hstarts r.name (List.mem_map_of_mem hr)
    unfold startLabel
    simp [hname]

theorem stateLines_unbroken {indent : Text} {s : State} (hi : '\n' ∉ indent)
    (hs : '\n' ∉ s.name) : Unbroken (stateLines indent s) := by
  have hflags (flags : List Flag) : '\n' ∉ Text.join ", " (flags.map Flag.word) := by
    refine Text.unbroken_join (by decide) ?_
    intro l hl
    obtain ⟨f, _, rfl⟩ := List.mem_map.mp hl
    cases f <;> decide
  unfold stateLines
  dsimp only
  refine unbroken_append.mpr ⟨unbroken_append.mpr ⟨?_, ?_⟩, ?_⟩
  · split <;> simp [hi, hs]
  · split
    · simp [hi, hs]
    · have hnote := hflags (s.flags.filter (· ≠ .start))
      generalize Text.join ", " _ = note at hnote ⊢
      simp [hi, hs, hnote]
  · split <;> simp [hi, hs]

theorem blockName_unbroken (k : Nat) : '\n' ∉ blockName k := by
  unfold blockName
  simp [Text.unbroken_ofNat]

theorem itemLines_unbroken (k : Nat) {items : List Item}
    (h : Unbroken (items.flatMap Item.words)) : Unbroken (itemLines k items) := by
  fun_induction itemLines k items with
  | case1 k => exact unbroken_nil
  | case2 k s items ih =>
    rw [List.flatMap_cons, unbroken_append, Item.words, Item.states, List.flatMap_singleton,
      unbroken_append] at h
    obtain ⟨⟨hs, _⟩, hitems⟩ := h
    exact unbroken_append.mpr
      ⟨stateLines_unbroken (by simp) (unbroken_cons.mp hs).1, ih hitems⟩
  | case3 k u items ih =>
    rw [List.flatMap_cons, unbroken_append, Item.words, unbroken_append] at h
    obtain ⟨⟨hstates, hu⟩, hitems⟩ := h
    have hbound : '\n' ∉ u.bound.text := (unbroken_cons.mp hu).1
    have hlines {indent : Text} (hi : '\n' ∉ indent) :
        Unbroken (u.states.flatMap (stateLines indent)) :=
      unbroken_flatMap.mpr fun s hs =>
        stateLines_unbroken hi (unbroken_cons.mp (unbroken_flatMap.mp hstates s hs)).1
    simp [hbound, blockName_unbroken, hlines, ih hitems]

end Lines

section Items

/-- The lines of a state: one that leads to it if it is the start, its own, and one that leads from
it if it is an end. -/
inductive StateDrawn (margin : Text) (s : State) : List Text → Prop
  | mk {before after : List Text} {note : Text} :
      before = (if s.has .start then [margin ++ "[*] --> " ++ s.name] else []) →
      after = (if s.has .final then [margin ++ s.name ++ " --> [*]"] else []) →
      note = [] ∨ (∃ words, note = " : ".toList ++ words) →
      StateDrawn margin s (before ++ (margin ++ "state " ++ s.name ++ note) :: after)

/-- The lines of some items in order, the next until block having the number `k`. The states of a
block stand between its lines. -/
inductive ItemsDrawn : Nat → List Item → List Text → Prop
  | nil {k : Nat} : ItemsDrawn k [] []
  | state {k : Nat} {s : State} {items : List Item} {ls ks : List Text} :
      StateDrawn [] s ls → ItemsDrawn k items ks → ItemsDrawn k (.state s :: items) (ls ++ ks)
  | block {k : Nat} {u : Until} {items : List Item} {lss : List (List Text)} {ks : List Text} :
      List.Forall₂ (StateDrawn "    ") u.states lss → ItemsDrawn (k + 1) items ks →
      ItemsDrawn k (.block u :: items)
        (("state \"until(" ++ u.bound.text ++ ")\" as until_" ++ Text.ofNat k ++ " \x7b") ::
          (lss.flatten ++ "\x7d".toList :: ks))

theorem stateLines_drawn (margin : Text) (s : State) :
    StateDrawn margin s (stateLines margin s) := by
  unfold stateLines
  dsimp only
  rw [List.append_assoc, List.singleton_append]
  refine .mk rfl rfl ?_
  split
  · exact .inl rfl
  · exact .inr ⟨_, rfl⟩

theorem itemLines_drawn (k : Nat) (items : List Item) : ItemsDrawn k items (itemLines k items) := by
  fun_induction itemLines k items with
  | case1 k => exact .nil
  | case2 k s items ih => exact .state (stateLines_drawn [] s) ih
  | case3 k u items ih =>
    have hstates : List.Forall₂ (StateDrawn "    ") u.states (u.states.map (stateLines "    ")) :=
      List.forall₂_map_right_iff.mpr (List.forall₂_same.mpr fun s _ => stateLines_drawn _ s)
    have hlines := ItemsDrawn.block hstates ih
    rw [← List.flatMap_def] at hlines
    unfold blockName
    simpa using hlines

end Items
end Diagram

namespace Machine
variable {m : Machine}

/-- A transition with the state that it leaves, for all transitions in source order. -/
def departures (m : Machine) : List (Site × Transition) :=
  m.sites.flatMap fun s => s.state.transitions.map (s, ·)

theorem mem_departures {s : Site} {t : Transition} :
    (s, t) ∈ m.departures ↔ s ∈ m.sites ∧ t ∈ s.state.transitions := by
  simp only [departures, List.mem_flatMap, List.mem_map, Prod.mk.injEq]
  constructor
  · rintro ⟨_, hs, _, ht, rfl, rfl⟩
    exact ⟨hs, ht⟩
  · rintro ⟨hs, ht⟩
    exact ⟨s, hs, t, ht, rfl, rfl⟩

/-- A link that goes to the state of a name. -/
def LeadsTo (m : Machine) (link : Link) (aim : Text) : Prop :=
  ∃ n, m.stateAt link.target = .ok (n, aim)

theorem LeadsTo.unique {link : Link} {a b : Text} (ha : m.LeadsTo link a) (hb : m.LeadsTo link b) :
    a = b := by
  obtain ⟨_, ha⟩ := ha
  obtain ⟨_, hb⟩ := hb
  rw [ha] at hb
  cases hb
  rfl

theorem LeadsTo.state {link : Link} {aim : Text} (h : m.LeadsTo link aim) :
    ∃ s ∈ m.states, s.name = aim := by
  obtain ⟨n, h⟩ := h
  obtain ⟨_, s, hs, hname⟩ := stateAt_ok h
  exact ⟨s, List.mem_of_getElem? hs, hname⟩

/-- The overflow of every block leads to a state. -/
theorem overflow_leads (hw : ¬ m.IllFormed) (hf : m.Fresh) {u : Until}
    (hu : u ∈ m.number.resolve.untils) : ∃ aim, m.number.resolve.LeadsTo u.link aim := by
  obtain ⟨v, hv, htarget⟩ := analyzed_overflows hf u hu
  obtain ⟨n, hn⟩ := jump_found hw (List.mem_append_right _ (List.mem_map_of_mem hv))
  have hlt : n < m.number.resolve.states.length := by
    rw [analyzed_states_length]
    exact jumpTarget?_lt hn
  have hstate := stateAt_eq (List.getElem?_eq_getElem hlt)
  exact ⟨_, n, by rwa [htarget, hn]⟩

end Machine

namespace Diagram
variable {m : Machine}

section Edges

theorem linkLines_eq {link : Link} {aim : Text} (h : m.LeadsTo link aim) (source label : Text) :
    linkLines m source label link = .ok [edge source aim label] := by
  obtain ⟨n, h⟩ := h
  obtain ⟨ht, s, hs, rfl⟩ := Machine.stateAt_ok h
  have hlt := (List.getElem?_eq_some_iff.mp hs).1
  have hindex : wrappedIndex? m.states.length n = some n := by
    simp [wrappedIndex?, hlt]
  simp only [linkLines, ht, hindex, Option.bind_some, hs]

theorem label_ne_nil (t : Transition) : label t ≠ [] := by
  obtain ⟨c, trigger, htrigger⟩ : ∃ c trigger, triggerLabel t.trigger = c :: trigger := by
    cases t.trigger with
    | when condition => exact ⟨_, _, rfl⟩
    | timeout r => exact ⟨_, _, rfl⟩
  unfold label Text.join
  rw [htrigger, List.append_assoc, List.singleton_append]
  cases actionLabel t.action ++ t.starts.map startLabel with
  | nil => simp
  | cons part parts => simp [List.intercalate_cons_cons]

/-- An edge of a transition always has a label. -/
theorem edge_transition (source target : Text) (t : Transition) :
    edge source target (label t) = source ++ " --> " ++ target ++ " : " ++ label t := by
  have hlabel : (label t).isEmpty = false := by simpa using label_ne_nil t
  simp only [edge, hlabel, List.append_assoc]
  rfl

/-- What the edge of an overflow says about it. -/
def overflowNote : Jump → Text
  | .go _ => []
  | .err r => " : / err " ++ r.name

theorem edge_overflow (k : Nat) (target : Text) (j : Jump) :
    edge (blockName k) target (overflowLabel j) =
      "until_" ++ Text.ofNat k ++ " --> " ++ target ++ overflowNote j := by
  cases j with
  | go r => rfl
  | err r =>
    have hlabel : overflowLabel (.err r) = "/ err " ++ r.name := by
      rw [overflowLabel, jumpLabel, Text.join, List.intercalate_singleton]
    unfold edge blockName overflowNote
    simp [hlabel]

/-- The line of a transition, which leads from its state to the one that its link goes to. -/
def EdgeLine (m : Machine) (x : Site × Transition) (line : Text) : Prop :=
  ∃ aim, m.LeadsTo x.2.link aim ∧ line = edge x.1.state.name aim (label x.2)

/-- The line of an overflow, which leads from its block. -/
def OverflowLine (m : Machine) (x : Until × Nat) (line : Text) : Prop :=
  ∃ aim, m.LeadsTo x.1.link aim ∧ line = edge (blockName x.2) aim (overflowLabel x.1.overflow)

/-- Where each of some results is related to what it is made from, so are all. -/
theorem mapM_related {ε α β γ : Type} {f : α → Except ε (List γ)} {parts : α → List β}
    {R : β → γ → Prop} {xs : List α}
    (h : ∀ x ∈ xs, ∃ ys, f x = .ok ys ∧ List.Forall₂ R (parts x) ys) :
    ∃ yss, xs.mapM f = .ok yss ∧ List.Forall₂ R (xs.flatMap parts) yss.flatten := by
  induction xs with
  | nil => exact ⟨[], rfl, .nil⟩
  | cons x xs ih =>
    obtain ⟨hx, hxs⟩ := List.forall_mem_cons.mp h
    obtain ⟨ys, hys, hrel⟩ := hx
    obtain ⟨yss, hyss, hrels⟩ := ih hxs
    refine ⟨ys :: yss, ?_, ?_⟩
    · rw [List.mapM_cons, hys, hyss]
      rfl
    · rw [List.flatMap_cons, List.flatten_cons]
      exact List.rel_append hrel hrels

theorem stateEdges_related {s : Site}
    (h : ∀ t ∈ s.state.transitions, ∃ aim, m.LeadsTo t.link aim) :
    ∃ ls, stateEdges m s.state = .ok ls ∧
      List.Forall₂ (EdgeLine m) (s.state.transitions.map (s, ·)) ls := by
  have hedge : ∀ t ∈ s.state.transitions, ∃ ls,
      linkLines m s.state.name (label t) t.link = .ok ls ∧
        List.Forall₂ (EdgeLine m) [(s, t)] ls := by
    intro t ht
    obtain ⟨aim, haim⟩ := h t ht
    exact ⟨_, linkLines_eq haim _ _, .cons ⟨aim, haim, rfl⟩ .nil⟩
  obtain ⟨lss, hlss, hrel⟩ := mapM_related hedge
  refine ⟨lss.flatten, ?_, ?_⟩
  · rw [stateEdges, hlss]
    rfl
  · rwa [List.map_eq_flatMap]

/-- The lines of a machine whose links all go to states. -/
theorem lines_related (hn : m.numbered)
    (hs : ∀ s ∈ m.sites, ∀ t ∈ s.state.transitions, ∃ aim, m.LeadsTo t.link aim)
    (hu : ∀ u ∈ m.untils, ∃ aim, m.LeadsTo u.link aim) :
    ∃ edges overflows, List.Forall₂ (EdgeLine m) m.departures edges ∧
      List.Forall₂ (OverflowLine m) m.untils.zipIdx overflows ∧
      lines m = .ok (List.flatten
        [["@startuml", "title " ++ m.name], itemLines 0 m.items, edges, overflows,
         ["@enduml"]]) := by
  obtain ⟨edges, hedges, hrel⟩ := mapM_related fun s hmem => stateEdges_related (hs s hmem)
  have hoverflow : ∀ x ∈ m.untils.zipIdx, ∃ ls, overflowEdges m x = .ok ls ∧
      List.Forall₂ (OverflowLine m) [x] ls := by
    intro x hx
    obtain ⟨aim, haim⟩ := hu x.1 (List.fst_mem_of_mem_zipIdx hx)
    exact ⟨_, linkLines_eq haim _ _, .cons ⟨aim, haim, rfl⟩ .nil⟩
  obtain ⟨overflows, hoverflows, hrel'⟩ := mapM_related hoverflow
  rw [List.flatMap_singleton'] at hrel'
  refine ⟨edges.flatten, overflows.flatten, hrel, hrel', ?_⟩
  have hstates : m.states.mapM (stateEdges m) = .ok edges := by
    rw [← Machine.sites_states, List.mapM_map]
    exact hedges
  simp only [lines, edgeLines, hn, if_true, hstates, hoverflows, List.flatten_cons,
    List.flatten_nil]
  simp [bind, Except.bind, pure, Except.pure]

theorem related_imp {α β : Type} {R S : α → β → Prop} {xs : List α} {ys : List β}
    (h : List.Forall₂ R xs ys) (hS : ∀ x ∈ xs, ∀ y, R x y → S x y) : List.Forall₂ S xs ys :=
  ((List.forall₂_and_left xs ys).mpr ⟨hS, h⟩).imp fun _ y hx => hx.1 y hx.2

/-- Lines that are each related to something drawn on one line. -/
theorem unbroken_of_related {α : Type} {R : α → Text → Prop} {xs : List α} {ls : List Text}
    (h : List.Forall₂ R xs ls) (hR : ∀ x ∈ xs, ∀ l, R x l → '\n' ∉ l) : Unbroken ls := by
  induction h with
  | nil => exact unbroken_nil
  | cons hx _ ih =>
    obtain ⟨hhead, htail⟩ := List.forall_mem_cons.mp hR
    exact unbroken_cons.mpr ⟨hhead _ hx, ih htail⟩

end Edges

section Names
variable (h : Worded m.words)
include h

theorem aim_unbroken {link : Link} {aim : Text} (hl : m.LeadsTo link aim) : '\n' ∉ aim := by
  obtain ⟨s, hs, rfl⟩ := hl.state
  exact (unbroken_cons.mp (Machine.state_worded h hs).unbroken).1

theorem edges_unbroken {edges : List Text} (he : List.Forall₂ (EdgeLine m) m.departures edges) :
    Unbroken edges := by
  refine unbroken_of_related he ?_
  rintro ⟨s, t⟩ hx l ⟨aim, haim, rfl⟩
  obtain ⟨hs, ht⟩ := Machine.mem_departures.mp hx
  have hwords := Machine.state_worded h (Machine.state_of_site hs)
  obtain ⟨hname, htransitions⟩ := unbroken_cons.mp hwords.unbroken
  exact edge_unbroken hname (aim_unbroken h haim)
    (label_unbroken (unbroken_flatMap.mp htransitions t ht))

theorem overflows_unbroken {overflows : List Text}
    (ho : List.Forall₂ (OverflowLine m) m.untils.zipIdx overflows) : Unbroken overflows := by
  refine unbroken_of_related ho ?_
  rintro ⟨u, k⟩ hx l ⟨aim, haim, rfl⟩
  have hnames := (Machine.until_worded h (List.fst_mem_of_mem_zipIdx hx)).unbroken
  have hoverflow : '\n' ∉ u.overflow.ref.name := (unbroken_cons.mp (unbroken_cons.mp hnames).2).1
  exact edge_unbroken (blockName_unbroken k) (aim_unbroken h haim)
    (Text.unbroken_join (by decide) (jumpLabel_unbroken hoverflow))

/-- The text of a machine whose links all go to states. -/
theorem text_related (hn : m.numbered)
    (hs : ∀ s ∈ m.sites, ∀ t ∈ s.state.transitions, ∃ aim, m.LeadsTo t.link aim)
    (hu : ∀ u ∈ m.untils, ∃ aim, m.LeadsTo u.link aim) :
    ∃ drawn edges overflows, text m = .ok drawn ∧
      drawn.lines = (List.flatten
        [["@startuml", "title " ++ m.name], itemLines 0 m.items, edges, overflows,
         ["@enduml", []]] : List Text) ∧
      List.Forall₂ (EdgeLine m) m.departures edges ∧
      List.Forall₂ (OverflowLine m) m.untils.zipIdx overflows := by
  obtain ⟨edges, overflows, hedges, hoverflows, hlines⟩ := lines_related hn hs hu
  refine ⟨_, edges, overflows, by rw [text, hlines]; rfl, ?_, hedges, hoverflows⟩
  have hname := (unbroken_cons.mp h.unbroken).1
  have hitems := (Machine.items_worded h).unbroken
  rw [Text.lines_of_file (by simp)]
  · simp
  · change Unbroken _
    simp [hname, itemLines_unbroken 0 hitems, edges_unbroken h hedges,
      overflows_unbroken h hoverflows]

end Names

section Assigns
open CUnit (Settles setsState assignment setState_eq move_settles)
variable {stem : Text}

/-- The lines of what a transition does, and the state that they assign. A retry assigns it if the
bound is not reached; if it is, the overflow of the block assigns another one. -/
inductive Assigns (stem : Text) : Action → Text → Option (Nat × Text) → List Text → Prop
  | jump {j : Jump} {aim : Text} {ls : List Text} :
      Settles stem aim ls → Assigns stem (.jump j) aim none ls
  | retry {k : Nat} {bound aim out : Text} {starts ls : List Text} :
      (∀ l ∈ starts, setsState l = false) → Settles stem out ls →
      Assigns stem .retry aim (some (k, out)) (starts ++ List.flatten
        [["if (++fsm->retries[" ++ Text.ofNat k ++ "] >= (" ++ bound ++ ")) \x7b"],
         Code.indent 4 ls, ["\x7d else \x7b", "    " ++ assignment stem aim, "\x7d"]])

theorem startLines_keep (timers : List Timer) :
    ∀ l ∈ timers.flatMap (startLines stem), setsState l = false := by
  intro l hl
  obtain ⟨t, _, hl⟩ := List.mem_flatMap.mp hl
  simp only [startLines, List.mem_cons, List.not_mem_nil, or_false] at hl
  rcases hl with rfl | rfl <;> simp [setsState, List.isPrefixOf]

theorem settles_behind {aim : Text} {ks ls : List Text} (hks : ∀ l ∈ ks, setsState l = false)
    (h : Settles stem aim ls) : Settles stem aim (ks ++ ls) := by
  cases h with
  | mk hls =>
    rw [← List.append_assoc]
    exact .mk (List.forall_mem_append.mpr ⟨hks, hls⟩)

/-- What a transition does assigns the state that its link goes to, and if it is a retry, at the
bound the one that the link of its block goes to. -/
theorem actuation_assigns {block : Option (Nat × Until)} {t : Transition} {a : Actuation}
    (h : Actuation.ofTransition m block t = .ok a) (stem : Text) :
    ∃ aim out, m.LeadsTo t.link aim ∧ Assigns stem t.action aim out (a.lines stem) ∧
      ∀ k u, block = some (k, u) → t.action = .retry →
        ∃ other, m.LeadsTo u.link other ∧ out = some (k, other) := by
  have hfound := Machine.change_found (Machine.changeOf_of_ok h)
  unfold Actuation.lines
  generalize a.change = change at hfound ⊢
  cases hfound with
  | @jump j move hj htarget =>
    rw [hj]
    refine ⟨move.state, none, ⟨_, htarget⟩, .jump ?_, fun _ _ _ hr => by cases hr⟩
    exact settles_behind (startLines_keep a.starts) (move_settles move)
  | @retry k target u overflow state hr hb hover htarget =>
    rw [hr, Change.lines, setState_eq]
    refine ⟨state, some (k, overflow.state), ⟨target, htarget⟩,
      .retry (startLines_keep a.starts) (move_settles overflow), ?_⟩
    intro k' u' hb' _
    cases hb.symm.trans hb'
    exact ⟨overflow.state, ⟨_, hover⟩, rfl⟩

end Assigns

/-- The line of a transition leads to the state that the unit assigns for it. -/
def TransitionShown (m : Machine) (stem : Text) (unit : List Text) (x : Site × Transition)
    (line : Text) : Prop :=
  ∃ aim out e a, line = x.1.state.name ++ " --> " ++ aim ++ " : " ++ label x.2 ∧
    CUnit.Performs m stem unit x.1 x.2 e a ∧ Assigns stem x.2.action aim out (a.lines stem)

/-- The line of a block's overflow leads to the state that the unit assigns at the bound, in each
retry of the block. -/
def OverflowShown (m : Machine) (stem : Text) (unit : List Text) (x : Until × Nat)
    (line : Text) : Prop :=
  ∃ aim, line = "until_" ++ Text.ofNat x.2 ++ " --> " ++ aim ++ overflowNote x.1.overflow ∧
    ∀ y ∈ m.departures, y.1.block.map Prod.fst = some x.2 → y.2.action = .retry →
      ∃ first e a, CUnit.Performs m stem unit y.1 y.2 e a ∧
        Assigns stem .retry first (some (x.2, aim)) (a.lines stem)

section Shown
variable {stem : Text} {unit : List Text}
  (hunit : ∀ x ∈ m.departures, ∃ e a, CUnit.Performs m stem unit x.1 x.2 e a)
include hunit

theorem transition_shown {x : Site × Transition} (hx : x ∈ m.departures) {line : Text}
    (h : EdgeLine m x line) : TransitionShown m stem unit x line := by
  obtain ⟨aim, haim, rfl⟩ := h
  obtain ⟨e, a, hperforms⟩ := hunit x hx
  obtain ⟨aim', out, haim', hassigns, _⟩ := actuation_assigns hperforms.actuation stem
  obtain rfl := haim.unique haim'
  exact ⟨aim, out, e, a, edge_transition _ _ _, hperforms, hassigns⟩

theorem overflow_shown {x : Until × Nat} (hx : x ∈ m.untils.zipIdx) {line : Text}
    (h : OverflowLine m x line) : OverflowShown m stem unit x line := by
  obtain ⟨aim, haim, rfl⟩ := h
  refine ⟨aim, edge_overflow _ _ _, ?_⟩
  rintro ⟨s, t⟩ hy hblock hretry
  obtain ⟨e, a, hperforms⟩ := hunit _ hy
  obtain ⟨first, out, _, hassigns, hover⟩ := actuation_assigns hperforms.actuation stem
  obtain ⟨⟨k, u⟩, hb, hk⟩ := Option.map_eq_some_iff.mp hblock
  obtain rfl : k = x.2 := hk
  -- the block of the site is the one that the line was drawn for
  have hu : u = x.1 := by
    have hsite := Machine.site_untils (Machine.mem_departures.mp hy).1 hb
    rw [List.mem_zipIdx_iff_getElem?.mp hx] at hsite
    exact (Option.some.inj hsite).symm
  obtain ⟨other, hleads, rfl⟩ := hover _ _ hb hretry
  rw [hu] at hleads
  obtain rfl := haim.unique hleads
  exact ⟨first, e, a, hperforms, hretry ▸ hassigns⟩

end Shown
end Diagram

namespace Compilation
open Statewright.Diagram

/-- The diagram of an accepted program has, behind its heading, the lines of the states and blocks,
a line for each transition and one for each block's overflow, and no other lines, whatever the
conditions are. Each of the edges leads to the state that the unit assigns. -/
theorem diagram_shows_unit {file : Option Text} {source : Text} {c c' : Compilation}
    {p q : Program} (hp : parse { file } source = (c, .ok q))
    (ha : c.analyze q = (c', p, .ok ())) :
    ∃ text items edges overflows, Diagram.text p.machine = .ok text ∧
      Text.lines text = (List.flatten
        [["@startuml", "title " ++ p.machine.name], items, edges, overflows,
         ["@enduml", []]] : List Text) ∧
      ItemsDrawn 0 p.machine.items items ∧
      ∀ stem, ∃ unit, CUnit.text p stem = .ok (Text.join "\n" unit ++ "\n") ∧
        List.Forall₂ (TransitionShown p.machine stem unit) p.machine.departures edges ∧
        List.Forall₂ (OverflowShown p.machine stem unit) p.machine.untils.zipIdx overflows := by
  obtain ⟨hd, hm, hw⟩ := analyze_accepted hp ha
  have hfits := (unit_accepted hp ha []).1
  have hover : ∀ u ∈ p.machine.untils, ∃ aim, p.machine.LeadsTo u.link aim := by
    rw [hm]
    exact fun u hu => Machine.overflow_leads hw hd.fresh hu
  have hnames : Worded p.machine.words := by
    rw [hm, Machine.words_analyzed]
    exact hd.worded
  have hnumbered : p.machine.numbered := by
    rw [hm]
    rfl
  have hlinks : ∀ s ∈ p.machine.sites, ∀ t ∈ s.state.transitions,
      ∃ aim, p.machine.LeadsTo t.link aim := by
    intro s hs t ht
    obtain ⟨a, ha, _⟩ := hfits.actuations s hs t ht
    obtain ⟨aim, _, haim, _⟩ := actuation_assigns ha []
    exact ⟨aim, haim⟩
  obtain ⟨text, edges, overflows, htext, hlines, hedges, hoverflows⟩ :=
    text_related hnames hnumbered hlinks hover
  refine ⟨text, _, edges, overflows, htext, hlines, itemLines_drawn 0 p.machine.items, ?_⟩
  intro stem
  obtain ⟨_, _, ls, _, hls, hcode⟩ := unit_accepted hp ha stem
  have hunit : ∀ x ∈ p.machine.departures,
      ∃ e a, CUnit.Performs p.machine stem ls x.1 x.2 e a := by
    intro x hx
    obtain ⟨hs, ht⟩ := Machine.mem_departures.mp hx
    exact CUnit.unit_performs hfits hls hs ht
  exact ⟨ls, hcode, related_imp hedges fun x hx _ => transition_shown hunit hx,
    related_imp hoverflows fun x hx _ => overflow_shown hunit hx⟩

/-- A machine with a condition over two lines, and a block that is left with an error. -/
def drawnSource : Text :=
  "fsm m\x7btimer t(5);input int x(0);state[start]a\x7bon(x >\n 1)go b start(t);\x7d" ++
    "until(2)\x7bstate b\x7bon timeout(t)go c;on(!x)retry;\x7d\x7derr stuck;" ++
    "state[end]c\x7b\x7dstate[err]d\x7b\x7d\x7d"

theorem diagram_shows_broken_condition : ∃ c q c' p, parse {} drawnSource = (c, .ok q) ∧
    c.analyze q = (c', p, .ok ()) ∧ (∃ f ∈ q.machine.conditions, '\n' ∈ f.text) ∧
    ∃ text items edges overflows, Diagram.text p.machine = .ok text ∧
      Text.lines text = (List.flatten
        [["@startuml", "title " ++ p.machine.name], items, edges, overflows,
         ["@enduml", []]] : List Text) ∧ ItemsDrawn 0 p.machine.items items ∧
      edges.length = 3 ∧ overflows.length = 1 := by
  have h : accepts none drawnSource (fun m => m.conditions.any (·.text.contains '\n') &&
      (m.number.resolve.departures.length == 3 && m.number.resolve.untils.length == 1)) = true := by
    decide +kernel
  obtain ⟨c, q, c', p, hp, ha, hm, htest⟩ := accepted h
  simp only [Bool.and_eq_true, List.any_eq_true, List.contains_iff_mem, beq_iff_eq, ← hm] at htest
  obtain ⟨hcondition, hdepartures, huntils⟩ := htest
  obtain ⟨text, items, edges, overflows, htext, hlines, hitems, hshown⟩ :=
    diagram_shows_unit hp ha
  obtain ⟨_, _, hedges, hoverflows⟩ := hshown "m"
  refine ⟨c, q, c', p, hp, ha, hcondition, text, items, edges, overflows, htext, hlines, hitems,
    ?_, ?_⟩
  · rw [← hedges.length_eq, hdepartures]
  · rw [← hoverflows.length_eq, List.length_zipIdx, huntils]

end Compilation
end Statewright
