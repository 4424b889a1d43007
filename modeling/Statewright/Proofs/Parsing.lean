import Statewright.Compilation
import Statewright.Proofs.GrammarComplete

namespace Statewright
namespace Grammar
open Statewright.Language Reader

theorem gap_append {rest g g' : Text} (h : Gap (g' ++ rest) g) (h' : Gap rest g') :
    Gap rest (g ++ g') := by
  induction h with
  | nil => exact h'
  | blank hc _ ih => exact .blank hc ih
  | @comment body g hb he _ ih =>
    simp only [List.cons_append, List.append_assoc]
    exact .comment hb (by rwa [List.append_assoc]) ih

/-- Skipping a gap leaves the tokens after it as they were. -/
theorem passes_skipGap {r : Reader} (h : r.ahead = none) : Passes r [] r.skipGap := by
  refine ⟨?_, ?_, rfl, [], List.append_nil _, path_skipGap r⟩
  · intro us hu
    rw [List.nil_append, stands_cut h]
    have hsp := (stands_cut (r := r.skipGap) h).mp hu
    generalize hn : r.skipGap.offset = n at hsp
    cases hsp with
    | nil => exact .nil
    | @cons _ g w rest k v ts hd hg hs hts =>
      subst hn
      have hrest : r.rest = r.rest.take (gapLength r.rest) ++ (g ++ (w ++ rest)) := by
        have hd' : r.skipGap.rest = g ++ (w ++ rest) := hd
        rw [← hd', rest_skipGap, List.take_append_drop]
      have hgap := gapLength_sound r.rest
      rw [← rest_skipGap, show r.skipGap.rest = g ++ (w ++ rest) from hd] at hgap
      have hlen : (r.rest.take (gapLength r.rest) ++ g).length = gapLength r.rest + g.length := by
        rw [List.length_append, List.length_take, Nat.min_eq_left (gapLength_le _)]
      have hc := @Spelled.cons r.source r.offset _ w rest k v ts
        (by rw [List.append_assoc]; exact hrest) (gap_append hgap hg) hs
      rw [hlen, ← Nat.add_assoc] at hc
      exact hc hts
  · have hle : r.skipGap.rest.length ≤ r.rest.length := by
      rw [rest_skipGap, List.length_drop]
      exact Nat.sub_le _ _
    have ha : r.skipGap.ahead = none := h
    simpa [Reader.remaining, h, ha] using hle

theorem stands_skipGap {r : Reader} {us : List Token} (h : r.ahead = none) (hs : Stands r us) :
    Stands r.skipGap us := by
  have ha : r.skipGap.ahead = none := h
  have hsp := (stands_cut h).mp hs
  refine (stands_cut ha).mpr ?_
  generalize hn : r.offset = n at hsp
  cases hsp with
  | nil => exact .nil
  | @cons _ g w rest k v ts hd hg hsp hts =>
    subst hn
    have hrest : r.rest = g ++ (w ++ rest) := hd
    have hgap : gapLength r.rest = g.length := by
      rw [hrest]
      exact gapLength_complete hg hsp.gapLength_zero
    have hoff : r.skipGap.offset = r.offset + g.length := by
      simp only [skipGap, hgap]
    have hdrop : r.source.drop (r.offset + g.length) = [] ++ (w ++ rest) := by
      rw [← List.drop_drop, hd, List.drop_left, List.nil_append]
    rw [hoff]
    exact .cons hdrop .nil hsp hts

theorem passes_mark (r : Reader) : Passes r [] r.mark.2 := by
  unfold mark
  cases h : r.ahead with
  | some t => exact .refl r
  | none => exact passes_skipGap h

theorem stands_mark {r : Reader} {us : List Token} (hs : Stands r us) : Stands r.mark.2 us := by
  unfold mark
  cases h : r.ahead with
  | some t => exact hs
  | none => exact stands_skipGap h hs

/-- An item leaves less to scan than there was before its mark. -/
theorem item_eager {r r' : Reader} {i : Item} (h : item r.mark.2 = .ok (some i) r') :
    r'.remaining < r.remaining := by
  have hlt := item_yields.eager itemForm_begins (by decide) h
  have hle := (passes_mark r).remaining
  exact Nat.lt_of_lt_of_le hlt (by simpa using hle)

/-- Items that were all read without a fault are those that stood there. -/
theorem items_sound {file : Option Text} {r : Reader} (hc : (items file r).closed = true)
    (hf : (items file r).faults = []) :
    ∃ ts, Many ItemForm ts (items file r).items ∧ Passes r ts (items file r).reader := by
  fun_induction items file r with
  | case1 r start marked hm r' hi =>
    obtain ⟨ts, h, p⟩ := item_yields hi
    cases h
    have hp := passes_mark r
    rw [hm] at hp
    exact ⟨[], .nil, hp.trans p⟩
  | case2 r start marked hm i r' hi hlt ih =>
    obtain ⟨ts, h, p⟩ := item_yields hi
    cases h with
    | some h =>
      obtain ⟨us, hs, q⟩ := ih hc hf
      have hp := passes_mark r
      rw [hm] at hp
      exact ⟨ts ++ us, .cons h hs, hp.trans (p.trans q)⟩
  | case3 r start marked hm i r' hi hlt => cases hc
  | case4 => cases hc
  | case5 => cases hf
  | case6 => cases hc

/-- Reading that did not get to the closing brace has met a fault. -/
theorem items_faulty {file : Option Text} {r : Reader} (hc : (items file r).closed = false) :
    (items file r).faults ≠ [] := by
  fun_induction items file r with
  | case1 => cases hc
  | case2 r start marked hm i r' hi hlt ih => exact ih hc
  | case3 r start marked hm i r' hi hlt =>
    refine absurd (item_eager (r := r) (i := i) ?_) hlt
    rw [hm]
    exact hi
  | case4 => exact List.cons_ne_nil _ _
  | case5 => exact List.cons_ne_nil _ _
  | case6 => exact List.cons_ne_nil _ _

/-- Items that stand before a closing brace are all read. -/
theorem items_complete (file : Option Text) {r : Reader} {c : Token} {ts us : List Token}
    {is : List Item} (h : Many ItemForm ts is) (hc : c.kind = .closeBrace)
    (hs : Stands r (ts ++ c :: us)) :
    ∃ r', items file r = { items := is, closed := true, reader := r' } ∧
      Stands r' (c :: us) := by
  induction h generalizing r with
  | nil =>
    obtain ⟨r', hi, s₁⟩ := item_closes hc (stands_mark hs)
    refine ⟨r', ?_, s₁⟩
    rw [items]
    simp only [hi]
  | cons hi _ ih =>
    rw [List.append_assoc] at hs
    obtain ⟨r₁, h₁, s₁⟩ := item_accepts (.mk hi) (stands_mark hs)
    obtain ⟨r', h₂, s₂⟩ := ih s₁
    refine ⟨r', ?_, s₂⟩
    rw [items]
    simp only [h₁, item_eager h₁, ↓reduceIte, h₂]
    rfl

/-- A program up to its first item: `[decl] [clock] "fsm" NAME "{" {declaration}`. -/
inductive OpeningForm : List Token → Option Fragment × Option Clock × Machine → Prop
  | mk : Opt DeclForm ts decl → Opt ClockForm us time → k.kind = .fsm → n.kind = .name →
      o.kind = .openBrace → Many DeclarationForm vs declared →
      OpeningForm (ts ++ (us ++ k :: n :: o :: vs)) (decl, time, {
        name := n.text, place := n.place, vars := declared.filterMap Sum.getLeft?,
        timers := declared.filterMap Sum.getRight?, items := [] })

theorem opening_yields : Yields opening OpeningForm := by
  intro r a r' h
  simp only [opening, header, bind_ok, pure_ok] at h
  obtain ⟨⟨decl, time⟩, _, h₁, _, _, ⟨k, _, h₂, n, _, h₃, o, _, h₄, ds, _, h₅, rfl, rfl⟩, rfl,
    rfl⟩ := h
  obtain ⟨ts, us, hd, hc, p₁⟩ := prologue_yields h₁
  obtain ⟨hk, p₂⟩ := scan_sound h₂
  obtain ⟨hn, p₃⟩ := scan_sound h₃
  obtain ⟨ho, p₄⟩ := scan_sound h₄
  obtain ⟨vs, hds, p₅⟩ := collect_yields declaration_yields h₅
  refine ⟨_, .mk hd hc hk hn ho hds, ?_⟩
  rw [← List.append_assoc]
  exact p₁.trans (p₂.cons (p₃.cons (p₄.cons p₅)))

theorem opening_complete {r : Reader} {t : Token} {ts us : List Token}
    {a : Option Fragment × Option Clock × Machine}
    (ht : t.kind ∈ [Kind.closeBrace, .state, .untilWord]) (h : OpeningForm ts a)
    (hs : Stands r (ts ++ t :: us)) : ∃ r', opening r = .ok a r' ∧ Stands r' (t :: us) := by
  cases h with
  | mk hd hc hk hn ho hds =>
    simp only [List.cons_append, List.append_assoc] at hs
    obtain ⟨_, h₁, s₁⟩ := prologue_complete hk hd hc hs
    obtain ⟨_, h₂, s₂⟩ := scan_complete s₁ hk
    obtain ⟨_, h₃, s₃⟩ := scan_complete s₂ hn
    obtain ⟨_, h₄, s₄⟩ := scan_complete s₃ ho
    obtain ⟨r', h₅, s₅⟩ := declarations_complete ht hds s₄
    refine ⟨r', ?_, s₅⟩
    rw [opening, bind_of_ok h₁, header]
    simp only [bind_of_ok h₂, bind_of_ok h₃, bind_of_ok h₄, bind_of_ok h₅, bind_ok, pure_ok]
    exact ⟨_, _, ⟨rfl, rfl⟩, rfl, rfl⟩

theorem ending_sound {r r' : Reader} (h : ending r = .ok () r') :
    ∃ c e, c.kind = .closeBrace ∧ e.kind = .eof ∧ Passes r [c, e] r' := by
  simp only [ending, bind_ok, pure_ok] at h
  obtain ⟨c, _, h₁, e, _, h₂, _, rfl⟩ := h
  obtain ⟨hc, p₁⟩ := scan_sound h₁
  obtain ⟨he, p₂⟩ := scan_sound h₂
  exact ⟨c, e, hc, he, p₁.cons p₂⟩

theorem ending_complete {r : Reader} {c e : Token} (hc : c.kind = .closeBrace)
    (he : e.kind = .eof) (hs : Stands r [c, e]) : ∃ r', ending r = .ok () r' := by
  obtain ⟨_, h₁, s₁⟩ := scan_complete hs hc
  obtain ⟨r', h₂, _⟩ := scan_complete s₁ he
  exact ⟨r', by rw [ending, bind_of_ok h₁, bind_of_ok h₂]; rfl⟩

/-- A program that was read is derived by its source. -/
theorem read_sound {file : Option Text} {source : Text} {p : Program}
    (h : (read file source).program = some p) : Derives file source p := by
  unfold read at h
  split at h
  · cases h
  · rename_i decl time m r ho
    obtain ⟨ts, hform, p₁⟩ := opening_yields ho
    dsimp only at h
    split at h
    · cases h
    · rename_i hc
      split at h
      · cases h
      · rename_i r' he
        obtain ⟨c, e, hck, hek, p₃⟩ := ending_sound he
        simp only [Option.ite_none_right_eq_some, List.isEmpty_iff, Option.some.injEq] at h
        obtain ⟨hf, rfl⟩ := h
        obtain ⟨us, hi, p₂⟩ := items_sound (by simpa using hc) hf
        have hpass := p₁.trans (p₂.trans p₃)
        have hsp := (stands_cut rfl).mp (hpass.stands [] trivial)
        cases hform with
        | mk hd ht hk hn hob hds =>
          refine ⟨_, hsp, ?_⟩
          simp only [List.append_assoc, List.cons_append, List.append_nil]
          exact .mk hd ht hk hn hob hds hi hck hek

/-- A program that a source derives is read from it, without a fault. -/
theorem read_complete {file : Option Text} {source : Text} {p : Program}
    (h : Derives file source p) :
    (read file source).program = some p ∧ (read file source).faults = [] := by
  obtain ⟨ts, hsp, hform⟩ := h
  cases hform with
  | @mk ts decl us time vs declared ws is k n o c e hd ht hk hn ho hds hi hc he =>
    have hs : Stands { source } (ts ++ (us ++ k :: n :: o :: (vs ++ (ws ++ [c, e])))) :=
      (stands_cut rfl).mpr hsp
    obtain ⟨t, ts', hts, htk⟩ := many_begins hi itemForm_begins hc [e]
    rw [hts] at hs
    have hopen : Stands { source } ((ts ++ (us ++ k :: n :: o :: vs)) ++ t :: ts') := by
      simpa using hs
    obtain ⟨_, h₁, s₁⟩ := opening_complete htk (.mk hd ht hk hn ho hds) hopen
    rw [← hts] at s₁
    obtain ⟨_, h₂, s₂⟩ := items_complete file hi hc s₁
    obtain ⟨_, h₃⟩ := ending_complete hc he s₂
    unfold read
    simp [h₁, h₂, h₃]

/-- Without a program there is a fault. -/
theorem read_faulty {file : Option Text} {source : Text}
    (h : (read file source).program = none) : (read file source).faults ≠ [] := by
  unfold read at h ⊢
  split
  · simp [stop]
  · rename_i ho
    rw [ho] at h
    dsimp only at h ⊢
    split
    · rename_i hc
      exact items_faulty (by simpa using hc)
    · rename_i hc
      rw [if_neg hc] at h
      split
      · simp [stop]
      · rename_i he
        rw [he] at h
        simpa using h

end Grammar

namespace Compilation
open Statewright.Language

theorem fault_isError (file : Option Text) (f : Fault) : (f.diagnostic file).isError = true := rfl

theorem fault_kind (file : Option Text) (f : Fault) :
    (f.diagnostic file).kind = .lexical ∨ (f.diagnostic file).kind = .grammatical := by
  change f.kind = _ ∨ f.kind = _
  unfold Fault.kind
  split <;> simp

theorem parse_of_program {file : Option Text} {source : Text} {p : Program}
    (h : (Grammar.read file source).program = some p)
    (hf : (Grammar.read file source).faults = []) :
    (parse { file } source).2 = .ok p ∧ (parse { file } source).1.diagnostics = [] := by
  simp [parse, h, hf, hasErrors]

theorem parse_of_faults {file : Option Text} {source : Text}
    (h : (Grammar.read file source).faults ≠ []) :
    (parse { file } source).2 =
      .error (.rejected ((Grammar.read file source).faults.map (Fault.diagnostic · file))) := by
  obtain ⟨f, fs, hf⟩ := List.exists_cons_of_ne_nil h
  simp [parse, hf, hasErrors, fault_isError]

theorem parse_ok_iff {file : Option Text} {source : Text} {p : Program} :
    (parse { file } source).2 = .ok p ↔ Derives file source p := by
  constructor
  · intro h
    by_cases hf : (Grammar.read file source).faults = []
    · cases hr : (Grammar.read file source).program with
      | none => exact absurd hf (Grammar.read_faulty hr)
      | some q =>
        rw [(parse_of_program hr hf).1] at h
        cases h
        exact Grammar.read_sound hr
    · rw [parse_of_faults hf] at h
      cases h
  · intro h
    obtain ⟨hp, hf⟩ := Grammar.read_complete h
    exact (parse_of_program hp hf).1

/-- Nothing is reported about a source that is a derivation. -/
theorem parse_clean {file : Option Text} {source : Text} {p : Program}
    (h : Derives file source p) : (parse { file } source).1.diagnostics = [] := by
  obtain ⟨hp, hf⟩ := Grammar.read_complete h
  exact (parse_of_program hp hf).2

theorem derives_of_parse {file : Option Text} {source : Text} {c : Compilation} {p : Program}
    (h : parse { file } source = (c, .ok p)) : Derives file source p ∧ c.diagnostics = [] := by
  have hd : Derives file source p := parse_ok_iff.mp (by rw [h])
  have hc := parse_clean hd
  rw [h] at hc
  exact ⟨hd, hc⟩

/-- A source that derives nothing is rejected with the faults that were found. -/
theorem parse_rejected {file : Option Text} {source : Text} (h : ∀ p, ¬ Derives file source p) :
    ∃ ds, (parse { file } source).2 = .error (.rejected ds) ∧ ds ≠ [] ∧
      ∀ d ∈ ds, d.isError ∧ (d.kind = .lexical ∨ d.kind = .grammatical) := by
  have hp : (Grammar.read file source).program = none := by
    cases hr : (Grammar.read file source).program with
    | none => rfl
    | some p => exact (h p (Grammar.read_sound hr)).elim
  have hf := Grammar.read_faulty hp
  refine ⟨_, parse_of_faults hf, by simpa using hf, ?_⟩
  intro d hd
  obtain ⟨f, _, rfl⟩ := List.mem_map.mp hd
  exact ⟨fault_isError file f, fault_kind file f⟩

/-- Reading is exact: it gives the program that the source derives, with nothing to report, and
rejects every source that derives none, whatever it recovered from. -/
theorem parse_exact (file : Option Text) (source : Text) :
    (∀ p, (parse { file } source).2 = .ok p ↔ Derives file source p) ∧
    (∀ p, Derives file source p → (parse { file } source).1.diagnostics = []) ∧
    ((∀ p, ¬ Derives file source p) →
      ∃ ds, (parse { file } source).2 = .error (.rejected ds) ∧ ds ≠ [] ∧
        ∀ d ∈ ds, d.isError ∧ (d.kind = .lexical ∨ d.kind = .grammatical)) :=
  ⟨fun _ => parse_ok_iff, fun _ => parse_clean, parse_rejected⟩

end Compilation
end Statewright
