import Statewright.Grammar
import Statewright.Proofs.Reading

namespace Statewright
namespace Grammar
open Statewright.Language Reader

theorem scanFragment_yields (kind : Kind) : Yields (scanFragment kind) (RawForm kind) := by
  intro r f r' h
  obtain ⟨t, h₁, rfl⟩ := map_ok.mp h
  obtain ⟨ht, p⟩ := scan_sound h₁
  exact ⟨[t], .mk ht, p⟩

theorem optionalBlock_yields {expected : List Kind} (hne : expected ≠ []) :
    Yields (optionalBlock expected) (Opt (RawForm .block)) :=
  guarded_yields hne (scanFragment_yields .block).just

theorem argument_yields : Yields argument ArgumentForm := by
  intro r a r' h
  simp only [argument, bind_ok, pure_ok] at h
  obtain ⟨o, _, h₁, n, _, h₂, c, _, h₃, rfl, rfl⟩ := h
  obtain ⟨ho, p₁⟩ := scan_sound h₁
  obtain ⟨hn, p₂⟩ := scan_sound h₂
  obtain ⟨hc, p₃⟩ := scan_sound h₃
  exact ⟨[o, n, c], .mk ho hn hc, p₁.cons (p₂.cons p₃)⟩

theorem clock_yields : Yields clock (Opt ClockForm) := by
  intro r a r' h
  obtain ⟨k, s, hp, h⟩ := bind_ok.mp h
  obtain ⟨_, _, p⟩ := peek_sound hp (by simp)
  split at h
  · simp only [bind_ok, pure_ok] at h
    obtain ⟨w, _, h₁, f, _, h₂, rfl, rfl⟩ := h
    obtain ⟨hw, p₁⟩ := scan_sound h₁
    obtain ⟨ts, hf, p₂⟩ := scanFragment_yields .block h₂
    exact ⟨w :: ts, .some (.time hw hf), p.trans (p₁.cons p₂)⟩
  · simp only [bind_ok, pure_ok] at h
    obtain ⟨w, _, h₁, f, _, h₂, rfl, rfl⟩ := h
    obtain ⟨hw, p₁⟩ := scan_sound h₁
    obtain ⟨ts, hf, p₂⟩ := scanFragment_yields .block h₂
    exact ⟨w :: ts, .some (.period hw hf), p.trans (p₁.cons p₂)⟩
  · obtain ⟨rfl, rfl⟩ := pure_ok.mp h
    exact ⟨[], .none, p⟩

theorem prologue_yields {r r' : Reader} {decl : Option Fragment} {time : Option Clock}
    (h : prologue r = .ok (decl, time) r') :
    ∃ ts us, Opt DeclForm ts decl ∧ Opt ClockForm us time ∧ Passes r (ts ++ us) r' := by
  obtain ⟨k, s, hp, h⟩ := bind_ok.mp h
  obtain ⟨_, _, p⟩ := peek_sound hp (by simp)
  split at h
  · simp only [bind_ok, pure_ok] at h
    obtain ⟨w, _, h₁, f, _, h₂, c, _, h₃, he, rfl⟩ := h
    cases he
    obtain ⟨hw, p₁⟩ := scan_sound h₁
    obtain ⟨ts, hf, p₂⟩ := scanFragment_yields .block h₂
    obtain ⟨us, hc, p₃⟩ := clock_yields h₃
    exact ⟨w :: ts, us, .some (.mk hw hf), hc, p.trans (p₁.cons (p₂.trans p₃))⟩
  · simp only [bind_ok, pure_ok] at h
    obtain ⟨c, _, h₁, he, rfl⟩ := h
    cases he
    obtain ⟨us, hc, p₁⟩ := clock_yields h₁
    exact ⟨[], us, .none, hc, p.trans p₁⟩

theorem constant_yields : Yields constant ConstantForm := by
  intro r t r' h
  obtain ⟨k, s, hp, h⟩ := bind_ok.mp h
  obtain ⟨hk, _, p⟩ := peek_sound hp (by simp)
  obtain ⟨ht, p₁⟩ := scan_sound h
  refine ⟨[t], ?_, p.trans p₁⟩
  simp only [List.mem_cons, List.not_mem_nil, or_false] at hk
  rcases hk with rfl | rfl
  · exact .int ht
  · exact .name ht

theorem timer_yields : Yields timer TimerForm := by
  intro r t r' h
  simp only [timer, bind_ok, pure_ok, note_ok] at h
  obtain ⟨k, _, h₁, n, _, h₂, o, _, h₃, d, _, h₄, c, _, h₅, s, _, h₆, _, _, rfl, rfl, rfl⟩ := h
  obtain ⟨hk, p₁⟩ := scan_sound h₁
  obtain ⟨hn, p₂⟩ := scan_sound h₂
  obtain ⟨ho, p₃⟩ := scan_sound h₃
  obtain ⟨ts, hd, p₄⟩ := constant_yields h₄
  obtain ⟨hc, p₅⟩ := scan_sound h₅
  obtain ⟨hs, p₆⟩ := scan_sound h₆
  refine ⟨_, .mk hk hn ho hd hc hs, ?_⟩
  exact p₁.cons (p₂.cons (p₃.cons (p₄.trans (p₅.cons (p₆.trans (.push _ _))))))

/-- A single token of a kind, taken as it is. -/
def TokenForm (kind : Kind) (ts : List Token) (t : Token) : Prop :=
  ts = [t] ∧ t.kind = kind

theorem scan_yields (kind : Kind) : Yields (scan kind) (TokenForm kind) := by
  intro r t r' h
  obtain ⟨ht, p⟩ := scan_sound h
  exact ⟨[t], ⟨rfl, ht⟩, p⟩

theorem many_tokens {kind : Kind} {ts us : List Token} (h : Many (TokenForm kind) ts us) :
    ts = us ∧ ∀ t ∈ us, t.kind = kind := by
  induction h with
  | nil => simp
  | cons hf _ ih =>
    obtain ⟨rfl, ht⟩ := hf
    obtain ⟨rfl, hu⟩ := ih
    exact ⟨rfl, by simpa [ht] using hu⟩

theorem words_yields {r r' : Reader} {ws : List Token}
    (h : collect (do
      if (← peek [.expr, .name]) = .name then some <$> scan .name else return none) r =
        .ok ws r') : (∀ w ∈ ws, w.kind = .name) ∧ Passes r ws r' := by
  have hy : Yields (collect (do
      if (← peek [.expr, .name]) = .name then some <$> scan .name else return none))
      (Many (TokenForm .name)) :=
    collect_yields (guarded_yields (by simp) (scan_yields .name).just)
  obtain ⟨ts, hm, p⟩ := hy h
  obtain ⟨rfl, hw⟩ := many_tokens hm
  exact ⟨hw, p⟩

theorem variableDecl_yields (family : Family) :
    Yields (variableDecl family (familyKind family)) VariableForm := by
  intro r v r' h
  simp only [variableDecl, bind_ok] at h
  obtain ⟨k, _, h₁, first, _, h₂, others, _, h₃, init, _, h₄, s, _, h₅, h⟩ := h
  obtain ⟨hk, p₁⟩ := scan_sound h₁
  obtain ⟨hf, p₂⟩ := scan_sound h₂
  obtain ⟨hw, p₃⟩ := words_yields h₃
  obtain ⟨ts, hi, p₄⟩ := scanFragment_yields .expr h₄
  obtain ⟨hs, p₅⟩ := scan_sound h₅
  have p := p₁.cons (p₂.cons (p₃.trans (p₄.trans p₅)))
  rcases List.eq_nil_or_concat others with rfl | ⟨ws, n, rfl⟩
  · rw [List.isEmpty_nil, if_pos rfl] at h
    obtain ⟨_, _, ht, _⟩ := bind_ok.mp h
    exact (throw_ok.mp ht).elim
  · simp only [List.concat_eq_append] at h hw p
    have hlast : (first :: (ws ++ [n])).dropLast = first :: ws := by
      rw [← List.cons_append, List.dropLast_concat]
    have hne : (ws ++ [n]).isEmpty = false := by simp
    simp only [hne, Bool.false_eq_true, ↓reduceIte, List.getLast?_concat, Option.getD_some, hlast,
      bind_ok, note_ok, pure_ok] at h
    obtain ⟨_, _, rfl, rfl, rfl⟩ := h
    refine ⟨k :: (first :: ws ++ n :: (ts ++ [s])), .mk hk (by simp) ?_ (hw n (by simp)) hi hs, ?_⟩
    · intro w hm
      rcases List.mem_cons.mp hm with rfl | hm
      · exact hf
      · exact hw w (by simp [hm])
    · have he : k :: (first :: ws ++ n :: (ts ++ [s])) =
          k :: first :: (ws ++ [n] ++ (ts ++ [s])) ++ [] := by simp
      rw [he]
      exact p.trans (.push _ _)

theorem declaration_yields : Yields declaration (Opt DeclarationForm) := by
  intro r d r' h
  obtain ⟨k, s, hp, h⟩ := bind_ok.mp h
  obtain ⟨_, _, p⟩ := peek_sound hp (by simp)
  have hvar (family : Family) (hv : (do
      let v ← variableDecl family (familyKind family)
      return some (Sum.inl v)) s = .ok d r') : ∃ ts, Opt DeclarationForm ts d ∧ Passes r ts r' := by
    simp only [bind_ok, pure_ok] at hv
    obtain ⟨v, _, h₁, rfl, rfl⟩ := hv
    obtain ⟨ts, hv, p₁⟩ := variableDecl_yields family h₁
    exact ⟨ts, .some (.var hv), p.trans p₁⟩
  split at h
  · simp only [bind_ok, pure_ok] at h
    obtain ⟨t, _, h₁, rfl, rfl⟩ := h
    obtain ⟨ts, ht, p₁⟩ := timer_yields h₁
    exact ⟨ts, .some (.timer ht), p.trans p₁⟩
  · exact hvar .var h
  · exact hvar .input h
  · exact hvar .output h
  · obtain ⟨rfl, rfl⟩ := pure_ok.mp h
    exact ⟨[], .none, p⟩

theorem jump_yields : Yields jump JumpForm := by
  intro r j r' h
  obtain ⟨k, s, hp, h⟩ := bind_ok.mp h
  obtain ⟨_, _, p⟩ := peek_sound hp (by simp)
  split at h
  · simp only [bind_ok, pure_ok] at h
    obtain ⟨w, _, h₁, n, _, h₂, rfl, rfl⟩ := h
    obtain ⟨hw, p₁⟩ := scan_sound h₁
    obtain ⟨hn, p₂⟩ := scan_sound h₂
    exact ⟨[w, n], .go hw hn, p.trans (p₁.cons p₂)⟩
  · simp only [bind_ok, pure_ok] at h
    obtain ⟨w, _, h₁, n, _, h₂, rfl, rfl⟩ := h
    obtain ⟨hw, p₁⟩ := scan_sound h₁
    obtain ⟨hn, p₂⟩ := scan_sound h₂
    exact ⟨[w, n], .err hw hn, p.trans (p₁.cons p₂)⟩
  · obtain ⟨_, _, _, h⟩ := bind_ok.mp h
    exact (throw_ok.mp h).elim

theorem action_yields : Yields action ActionForm := by
  intro r a r' h
  obtain ⟨k, s, hp, h⟩ := bind_ok.mp h
  obtain ⟨_, _, p⟩ := peek_sound hp (by simp)
  split at h
  · simp only [bind_ok, pure_ok] at h
    obtain ⟨w, _, h₁, rfl, rfl⟩ := h
    obtain ⟨hw, p₁⟩ := scan_sound h₁
    exact ⟨[w], .retry hw, p.trans p₁⟩
  · simp only [bind_ok, pure_ok] at h
    obtain ⟨j, _, h₁, rfl, rfl⟩ := h
    obtain ⟨ts, hj, p₁⟩ := jump_yields h₁
    exact ⟨ts, .jump hj, p.trans p₁⟩

theorem trigger_yields : Yields trigger TriggerForm := by
  intro r t r' h
  obtain ⟨k, s, hp, h⟩ := bind_ok.mp h
  obtain ⟨_, _, p⟩ := peek_sound hp (by simp)
  split at h
  · simp only [bind_ok, pure_ok] at h
    obtain ⟨f, _, h₁, rfl, rfl⟩ := h
    obtain ⟨ts, hf, p₁⟩ := scanFragment_yields .expr h₁
    exact ⟨ts, .when hf, p.trans p₁⟩
  · simp only [bind_ok, pure_ok] at h
    obtain ⟨w, _, h₁, a, _, h₂, rfl, rfl⟩ := h
    obtain ⟨hw, p₁⟩ := scan_sound h₁
    obtain ⟨ts, ha, p₂⟩ := argument_yields h₂
    exact ⟨w :: ts, .timeout hw ha, p.trans (p₁.cons p₂)⟩

theorem start_yields : Yields (do
    let _ ← scan .start
    some <$> argument) (Just StartForm) := by
  intro r a r' h
  simp only [bind_ok, map_ok] at h
  obtain ⟨w, _, h₁, a, h₂, rfl⟩ := h
  obtain ⟨hw, p₁⟩ := scan_sound h₁
  obtain ⟨ts, ha, p₂⟩ := argument_yields h₂
  exact ⟨w :: ts, .mk (.mk hw ha), p₁.cons p₂⟩

theorem transition_yields : Yields transition TransitionForm := by
  intro r t r' h
  simp only [transition, bind_ok, pure_ok] at h
  obtain ⟨k, _, h₁, trig, _, h₂, code, _, h₃, act, _, h₄, starts, _, h₅, s, _, h₆, rfl, rfl⟩ := h
  obtain ⟨hk, p₁⟩ := scan_sound h₁
  obtain ⟨ts, ht, p₂⟩ := trigger_yields h₂
  obtain ⟨us, hc, p₃⟩ := optionalBlock_yields (by simp) h₃
  obtain ⟨vs, ha, p₄⟩ := action_yields h₄
  obtain ⟨ws, hst, p₅⟩ := collect_yields (guarded_yields (by simp) start_yields) h₅
  obtain ⟨hs, p₆⟩ := scan_sound h₆
  refine ⟨_, .mk hk ht hc ha hst hs, ?_⟩
  exact p₁.cons (p₂.trans (p₃.trans (p₄.trans (p₅.trans p₆))))

theorem assignment_yields : Yields assignment AssignmentForm := by
  intro r a r' h
  simp only [assignment, bind_ok, pure_ok] at h
  obtain ⟨n, _, h₁, f, _, h₂, rfl, rfl⟩ := h
  obtain ⟨hn, p₁⟩ := scan_sound h₁
  obtain ⟨ts, hf, p₂⟩ := scanFragment_yields .expr h₂
  exact ⟨n :: ts, .mk hn hf, p₁.cons p₂⟩

/-- A comma and a form after it. -/
theorem comma_yields {α : Type} {form : List Token → α → Prop} {f : Read α} (hf : Yields f form) :
    Yields (do
      let _ ← scan .comma
      some <$> f) (Just (CommaForm form)) := by
  intro r a r' h
  simp only [bind_ok, map_ok] at h
  obtain ⟨c, _, h₁, a, h₂, rfl⟩ := h
  obtain ⟨hc, p₁⟩ := scan_sound h₁
  obtain ⟨ts, ha, p₂⟩ := hf h₂
  exact ⟨c :: ts, .mk (.mk hc ha), p₁.cons p₂⟩

theorem outs_yields : Yields outs OutsForm := by
  intro r as r' h
  simp only [outs, bind_ok, pure_ok] at h
  obtain ⟨k, _, h₁, a, _, h₂, as, _, h₃, s, _, h₄, rfl, rfl⟩ := h
  obtain ⟨hk, p₁⟩ := scan_sound h₁
  obtain ⟨ts, ha, p₂⟩ := assignment_yields h₂
  obtain ⟨us, has, p₃⟩ :=
    collect_yields (guarded_yields (by simp) (comma_yields assignment_yields)) h₃
  obtain ⟨hs, p₄⟩ := scan_sound h₄
  exact ⟨_, .mk hk ha has hs, p₁.cons (p₂.trans (p₃.trans p₄))⟩

/-- A word that can stand where a flag is expected, whether it is one or not. -/
def FlagWord (ts : List Token) (t : Token) : Prop :=
  ts = [t] ∧ (t.kind = .start ∨ t.kind = .err ∨ t.kind = .name)

/-- The words before a state's name, not looked at yet. -/
inductive FlagWords : List Token → List Token → Prop
  | none : FlagWords [] []
  | some : o.kind = .openBracket → FlagWord ts w → Many (CommaForm FlagWord) us ws →
      c.kind = .closeBracket → FlagWords (o :: (ts ++ (us ++ [c]))) (w :: ws)

theorem flag_yields : Yields flag FlagWord := by
  intro r t r' h
  obtain ⟨k, s, hp, h⟩ := bind_ok.mp h
  obtain ⟨hk, _, p⟩ := peek_sound hp (by simp)
  obtain ⟨rfl, p₁⟩ := scan_sound h
  simp only [List.mem_cons, List.not_mem_nil, or_false] at hk
  exact ⟨[t], ⟨rfl, hk⟩, p.trans p₁⟩

theorem flagWords_yields : Yields flagWords FlagWords := by
  intro r ws r' h
  obtain ⟨k, s, hp, h⟩ := bind_ok.mp h
  obtain ⟨_, _, p⟩ := peek_sound hp (by simp)
  split at h
  · simp only [bind_ok, pure_ok] at h
    obtain ⟨o, _, h₁, w, _, h₂, ws, _, h₃, c, _, h₄, rfl, rfl⟩ := h
    obtain ⟨ho, p₁⟩ := scan_sound h₁
    obtain ⟨ts, hw, p₂⟩ := flag_yields h₂
    obtain ⟨us, hws, p₃⟩ := collect_yields (guarded_yields (by simp) (comma_yields flag_yields)) h₃
    obtain ⟨hc, p₄⟩ := scan_sound h₄
    exact ⟨_, .some ho hw hws hc, p.trans (p₁.cons (p₂.trans (p₃.trans p₄)))⟩
  · obtain ⟨rfl, rfl⟩ := pure_ok.mp h
    exact ⟨[], .none, p⟩

theorem ofWord?_eq_some {w : Text} {f : Flag} : Flag.ofWord? w = some f ↔ w = f.word := by
  constructor
  · intro h
    have hw := List.find?_some h
    exact (of_decide_eq_true hw).symm
  · rintro rfl
    cases f <;> decide

theorem checkFlag_ok {t : Token} {f : Flag} {r r' : Reader} :
    checkFlag t r = .ok f r' ↔ t.text = f.word ∧ r = r' := by
  unfold checkFlag
  cases hf : Flag.ofWord? t.text with
  | none =>
    simp only [throw_ok, false_iff, not_and]
    intro ht
    rw [ofWord?_eq_some.mpr ht] at hf
    cases hf
  | some g =>
    rw [ofWord?_eq_some] at hf
    simp only [pure_ok]
    constructor
    · rintro ⟨rfl, rfl⟩
      exact ⟨hf, rfl⟩
    · rintro ⟨ht, rfl⟩
      have hg := ofWord?_eq_some.mpr (hf.symm.trans ht)
      rw [ofWord?_eq_some.mpr rfl] at hg
      exact ⟨Option.some.inj hg, rfl⟩

theorem checkFlags_ok {ws : List Token} {fs : List Flag} {r r' : Reader} :
    ws.mapM checkFlag r = .ok fs r' ↔ ws.map Token.text = fs.map Flag.word ∧ r = r' := by
  induction ws generalizing fs r r' with
  | nil =>
    rw [List.mapM_nil, pure_ok]
    cases fs <;> simp
  | cons w ws ih =>
    simp only [List.mapM_cons, bind_ok, pure_ok, checkFlag_ok, ih]
    constructor
    · rintro ⟨f, _, ⟨hw, rfl⟩, gs, _, ⟨hws, rfl⟩, rfl, rfl⟩
      exact ⟨by simp [hw, hws], rfl⟩
    · rintro ⟨he, rfl⟩
      cases fs with
      | nil => simp at he
      | cons f gs =>
        simp only [List.map_cons, List.cons.injEq] at he
        exact ⟨f, r, ⟨he.1, rfl⟩, gs, r, ⟨he.2, rfl⟩, rfl, rfl⟩

theorem many_flags {us ws : List Token} {fs : List Flag} (h : Many (CommaForm FlagWord) us ws)
    (hf : ws.map Token.text = fs.map Flag.word) : Many (CommaForm FlagForm) us fs := by
  induction h generalizing fs with
  | nil =>
    cases fs with
    | nil => exact .nil
    | cons f fs => simp at hf
  | cons hw _ ih =>
    cases fs with
    | nil => simp at hf
    | cons f fs =>
      simp only [List.map_cons, List.cons.injEq] at hf
      obtain ⟨hc, rfl, hk⟩ := hw
      exact .cons (.mk hc (.mk hk hf.1)) (ih hf.2)

/-- The words are flags once each of them has been looked up. -/
theorem flags_of_words {ts ws : List Token} {fs : List Flag} (h : FlagWords ts ws)
    (hf : ws.map Token.text = fs.map Flag.word) : FlagsForm ts fs := by
  cases h with
  | none =>
    cases fs with
    | nil => exact .none
    | cons f fs => simp at hf
  | some ho hw hws hc =>
    cases fs with
    | nil => simp at hf
    | cons f fs =>
      simp only [List.map_cons, List.cons.injEq] at hf
      obtain ⟨rfl, hk⟩ := hw
      exact .some ho (.mk hk hf.1) (many_flags hws hf.2) hc

theorem member_yields : Yields member (Opt MemberForm) := by
  intro r m r' h
  obtain ⟨k, s, hp, h⟩ := bind_ok.mp h
  obtain ⟨_, _, p⟩ := peek_sound hp (by simp)
  split at h
  · simp only [bind_ok, pure_ok] at h
    obtain ⟨t, _, h₁, rfl, rfl⟩ := h
    obtain ⟨ts, ht, p₁⟩ := transition_yields h₁
    exact ⟨ts, .some (.transition ht), p.trans p₁⟩
  · simp only [bind_ok, pure_ok] at h
    obtain ⟨as, _, h₁, rfl, rfl⟩ := h
    obtain ⟨ts, ha, p₁⟩ := outs_yields h₁
    exact ⟨ts, .some (.outs ha), p.trans p₁⟩
  · obtain ⟨rfl, rfl⟩ := pure_ok.mp h
    exact ⟨[], .none, p⟩

theorem state_yields (nested : Bool) : Yields (state nested) StateForm := by
  intro r s r' h
  simp only [state, bind_ok, pure_ok, note_ok, checkFlags_ok] at h
  obtain ⟨k, _, h₁, ws, _, h₂, n, _, h₃, o, _, h₄, fs, _, ⟨hfs, rfl⟩, _, _, rfl, entry, _, h₅,
    ms, _, h₆, c, _, h₇, rfl, rfl⟩ := h
  obtain ⟨hk, p₁⟩ := scan_sound h₁
  obtain ⟨ts, hw, p₂⟩ := flagWords_yields h₂
  obtain ⟨hn, p₃⟩ := scan_sound h₃
  obtain ⟨ho, p₄⟩ := scan_sound h₄
  obtain ⟨us, he, p₅⟩ := optionalBlock_yields (by simp) h₅
  obtain ⟨vs, hm, p₆⟩ := collect_yields member_yields h₆
  obtain ⟨hc, p₇⟩ := scan_sound h₇
  refine ⟨_, .mk hk (flags_of_words hw hfs) hn ho he hm hc, ?_⟩
  have p := (Passes.push _ _).trans (p₅.trans (p₆.trans p₇))
  exact p₁.cons (p₂.trans (p₃.cons (p₄.cons p)))

theorem block_yields : Yields block BlockForm := by
  intro r u r' h
  simp only [block, bind_ok, pure_ok, note_ok] at h
  obtain ⟨k, _, h₁, o, _, h₂, d, _, h₃, c, _, h₄, e, _, h₅, _, _, rfl, states, _, h₆, t, _, h₇,
    j, _, h₈, s, _, h₉, rfl, rfl⟩ := h
  obtain ⟨hk, p₁⟩ := scan_sound h₁
  obtain ⟨ho, p₂⟩ := scan_sound h₂
  obtain ⟨ts, hd, p₃⟩ := constant_yields h₃
  obtain ⟨hc, p₄⟩ := scan_sound h₄
  obtain ⟨he, p₅⟩ := scan_sound h₅
  obtain ⟨us, hu, p₆⟩ :=
    collect_yields (guarded_yields (by simp) (state_yields true).just) h₆
  obtain ⟨ht, p₇⟩ := scan_sound h₇
  obtain ⟨vs, hj, p₈⟩ := jump_yields h₈
  obtain ⟨hs, p₉⟩ := scan_sound h₉
  refine ⟨_, .mk hk ho hd hc he hu ht hj hs, ?_⟩
  have p := (Passes.push _ _).trans (p₆.trans (p₇.cons (p₈.trans p₉)))
  exact p₁.cons (p₂.cons (p₃.trans (p₄.cons (p₅.cons p))))

theorem item_yields : Yields item (Opt ItemForm) := by
  intro r i r' h
  obtain ⟨k, s, hp, h⟩ := bind_ok.mp h
  obtain ⟨_, _, p⟩ := peek_sound hp (by simp)
  split at h
  · simp only [bind_ok, pure_ok] at h
    obtain ⟨s, _, h₁, rfl, rfl⟩ := h
    obtain ⟨ts, hs, p₁⟩ := state_yields false h₁
    exact ⟨ts, .some (.state hs), p.trans p₁⟩
  · simp only [bind_ok, pure_ok] at h
    obtain ⟨u, _, h₁, rfl, rfl⟩ := h
    obtain ⟨ts, hu, p₁⟩ := block_yields h₁
    exact ⟨ts, .some (.block hu), p.trans p₁⟩
  · obtain ⟨rfl, rfl⟩ := pure_ok.mp h
    exact ⟨[], .none, p⟩

end Grammar
end Statewright
