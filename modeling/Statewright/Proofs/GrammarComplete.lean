import Statewright.Proofs.GrammarSound

namespace Statewright
namespace Grammar
open Statewright.Language Reader

theorem scanFragment_accepts (kind : Kind) : Accepts (scanFragment kind) (RawForm kind) := by
  intro r ts f us h hs
  cases h with
  | mk ht =>
    obtain ⟨r', h₁, s₁⟩ := scan_complete hs ht
    exact ⟨r', map_of_ok h₁, s₁⟩

theorem rawForm_begins (kind : Kind) : Begins (RawForm kind) [kind] := by
  intro ts f h
  cases h with
  | mk ht => exact ⟨_, [], rfl, by simp [ht]⟩

/-- A block is read where there is one, and nothing where another of the expected tokens is. -/
theorem optionalBlock_complete (expected : List Kind) {r : Reader} {t : Token}
    {ts us : List Token} {code : Option Fragment} (ha : ∀ x ∈ expected, Admits expected x)
    (hm : .block ∈ expected) (ht : t.kind ∈ expected) (htk : t.kind ≠ .block)
    (h : Opt (RawForm .block) ts code) (hs : Stands r (ts ++ t :: us)) :
    ∃ r', optionalBlock expected r = .ok code r' ∧ Stands r' (t :: us) := by
  cases h with
  | none => exact guarded_none ht (ha _ ht) htk hs
  | some hf =>
    exact guarded_some hm (ha _ hm) (rawForm_begins .block) (scanFragment_accepts .block).just
      hf hs

theorem argument_accepts : Accepts argument ArgumentForm := by
  intro r ts a us h hs
  cases h with
  | mk ho hn hc =>
    obtain ⟨_, h₁, s₁⟩ := scan_complete hs ho
    obtain ⟨_, h₂, s₂⟩ := scan_complete s₁ hn
    obtain ⟨r', h₃, s₃⟩ := scan_complete s₂ hc
    refine ⟨r', ?_, s₃⟩
    rw [argument, bind_of_ok h₁, bind_of_ok h₂, bind_of_ok h₃]
    rfl

theorem clock_complete {r : Reader} {t : Token} {ts us : List Token} {time : Option Clock}
    (ht : t.kind = .fsm) (h : Opt ClockForm ts time) (hs : Stands r (ts ++ t :: us)) :
    ∃ r', clock r = .ok time r' ∧ Stands r' (t :: us) := by
  cases h with
  | none =>
    obtain ⟨r', hp, s₁⟩ := peek_kind [.time, .period, .fsm] hs ht (by decide)
    refine ⟨r', ?_, s₁⟩
    rw [clock, bind_of_ok hp]
    rfl
  | some hc =>
    cases hc with
    | time hk hf =>
      obtain ⟨_, hp, s₁⟩ := peek_kind [.time, .period, .fsm] hs hk (by decide)
      obtain ⟨_, h₁, s₂⟩ := scan_complete s₁ hk
      obtain ⟨r', h₂, s₃⟩ := scanFragment_accepts .block hf s₂
      refine ⟨r', ?_, s₃⟩
      simp only [clock, bind_of_ok hp, bind_of_ok h₁, bind_of_ok h₂]
      rfl
    | period hk hf =>
      obtain ⟨_, hp, s₁⟩ := peek_kind [.time, .period, .fsm] hs hk (by decide)
      obtain ⟨_, h₁, s₂⟩ := scan_complete s₁ hk
      obtain ⟨r', h₂, s₃⟩ := scanFragment_accepts .block hf s₂
      refine ⟨r', ?_, s₃⟩
      simp only [clock, bind_of_ok hp, bind_of_ok h₁, bind_of_ok h₂]
      rfl

theorem prologue_complete {r : Reader} {t : Token} {ts us vs : List Token}
    {decl : Option Fragment} {time : Option Clock} (ht : t.kind = .fsm) (hd : Opt DeclForm ts decl)
    (hc : Opt ClockForm us time) (hs : Stands r (ts ++ (us ++ t :: vs))) :
    ∃ r', prologue r = .ok (decl, time) r' ∧ Stands r' (t :: vs) := by
  cases hd with
  | none =>
    -- the first token is that of the clock, if there is one, and `t` if not
    have hp : ∃ k s, peek [.decl, .time, .period, .fsm] r = .ok k s ∧ k ≠ .decl ∧
        Stands s (us ++ t :: vs) := by
      cases hc with
      | none =>
        obtain ⟨s, hp, hs⟩ := peek_kind [.decl, .time, .period, .fsm] hs ht (by decide)
        exact ⟨_, s, hp, by decide, hs⟩
      | some hf =>
        cases hf with
        | time hk hf | period hk hf =>
          obtain ⟨s, hp, hs⟩ := peek_kind [.decl, .time, .period, .fsm] hs hk (by decide)
          exact ⟨_, s, hp, by decide, hs⟩
    obtain ⟨k, _, hp, hk, s₁⟩ := hp
    obtain ⟨r', h₁, s₂⟩ := clock_complete ht hc s₁
    refine ⟨r', ?_, s₂⟩
    rw [prologue, bind_of_ok hp, if_neg hk, bind_of_ok h₁]
    rfl
  | some hd =>
    cases hd with
    | mk hk hf =>
      obtain ⟨_, hp, s₁⟩ := peek_kind [.decl, .time, .period, .fsm] hs hk (by decide)
      obtain ⟨_, h₁, s₂⟩ := scan_complete s₁ hk
      obtain ⟨_, h₂, s₃⟩ := scanFragment_accepts .block hf s₂
      obtain ⟨r', h₃, s₄⟩ := clock_complete ht hc s₃
      refine ⟨r', ?_, s₄⟩
      rw [prologue, bind_of_ok hp, if_pos rfl, bind_of_ok h₁, bind_of_ok h₂, bind_of_ok h₃]
      rfl

theorem constant_accepts : Accepts constant ConstantForm := by
  intro r ts t us h hs
  cases h with
  | int ht | name ht =>
    obtain ⟨_, hp, s₁⟩ := peek_kind [.int, .name] hs ht (by decide)
    obtain ⟨r', h₁, s₂⟩ := scan_complete s₁ ht
    exact ⟨r', by rw [constant, bind_of_ok hp, h₁], s₂⟩

theorem timer_accepts : Accepts timer TimerForm := by
  intro r ts t us h hs
  cases h with
  | @mk ts d k n o c s hk hn ho hd hc hsemi =>
    simp only [List.cons_append, List.append_assoc, List.nil_append] at hs
    obtain ⟨_, h₁, s₁⟩ := scan_complete hs hk
    obtain ⟨_, h₂, s₂⟩ := scan_complete s₁ hn
    obtain ⟨_, h₃, s₃⟩ := scan_complete s₂ ho
    obtain ⟨_, h₄, s₄⟩ := constant_accepts hd s₃
    obtain ⟨_, h₅, s₅⟩ := scan_complete s₄ hc
    obtain ⟨_, h₆, s₆⟩ := scan_complete s₅ hsemi
    obtain ⟨r', h₇, s₇⟩ := note_complete (.timer n.text d.text) s₆
    refine ⟨r', ?_, s₇⟩
    rw [timer, bind_of_ok h₁, bind_of_ok h₂, bind_of_ok h₃, bind_of_ok h₄, bind_of_ok h₅,
      bind_of_ok h₆, bind_of_ok h₇]
    rfl

theorem scan_accepts (kind : Kind) : Accepts (scan kind) (TokenForm kind) := by
  rintro r ts t us ⟨rfl, ht⟩ hs
  exact scan_complete hs ht

theorem tokenForm_begins (kind : Kind) : Begins (TokenForm kind) [kind] := by
  rintro ts t ⟨rfl, ht⟩
  exact ⟨t, [], rfl, by simp [ht]⟩

theorem many_of_tokens {kind : Kind} {ts : List Token} (h : ∀ t ∈ ts, t.kind = kind) :
    Many (TokenForm kind) ts ts := by
  induction ts with
  | nil => exact .nil
  | cons t ts ih =>
    have hm := ih fun u hu => h u (by simp [hu])
    exact .cons ⟨rfl, h t (by simp)⟩ hm

/-- The words of a variable are read up to the expression after them. -/
theorem words_complete {r : Reader} {t : Token} {ws us : List Token}
    (hw : ∀ w ∈ ws, w.kind = .name) (ht : t.kind = .expr) (hs : Stands r (ws ++ t :: us)) :
    ∃ r', collect (do
      if (← peek [.expr, .name]) = .name then some <$> scan .name else return none) r =
        .ok ws r' ∧ Stands r' (t :: us) :=
  guarded_loop [.expr, .name] (scan_yields .name).just (scan_accepts .name).just
    (tokenForm_begins .name) (by decide) (by decide) (by decide) (by simp [ht]) (by simp [ht])
    (many_of_tokens hw) hs

theorem variableDecl_accepts (family : Family) {r : Reader} {ts us : List Token} {v : Variable}
    (h : VariableForm ts v) (hfam : v.family = family) (hs : Stands r (ts ++ us)) :
    ∃ r', variableDecl family (familyKind family) r = .ok v r' ∧ Stands r' us := by
  cases h with
  | @mk fam ws ts init k n s hk hne hw hn hi hsemi =>
    obtain ⟨first, ws, rfl⟩ := List.exists_cons_of_ne_nil hne
    cases hi with
    | @mk e he =>
      simp only at hfam
      subst hfam
      simp only [List.cons_append, List.append_assoc, List.nil_append] at hs
      obtain ⟨_, h₁, s₁⟩ := scan_complete hs hk
      obtain ⟨_, h₂, s₂⟩ := scan_complete s₁ (hw first (by simp))
      have hall : ∀ w ∈ ws ++ [n], w.kind = .name := by
        intro w hm
        rcases List.mem_append.mp hm with hm | hm
        · exact hw w (by simp [hm])
        · rw [List.mem_singleton.mp hm, hn]
      rw [List.append_cons] at s₂
      obtain ⟨_, h₃, s₃⟩ := words_complete hall he s₂
      obtain ⟨_, h₄, s₄⟩ := scanFragment_accepts .expr (.mk he) s₃
      obtain ⟨_, h₅, s₅⟩ := scan_complete s₄ hsemi
      obtain ⟨r', h₆, s₆⟩ := note_complete
        (.declared fam (Text.join " " ((first :: ws).map Token.text)) n.text) s₅
      have hlast : (first :: (ws ++ [n])).dropLast = first :: ws := by
        rw [← List.cons_append, List.dropLast_concat]
      have hempty : (ws ++ [n]).isEmpty = false := by simp
      refine ⟨r', ?_, s₆⟩
      rw [variableDecl, bind_of_ok h₁, bind_of_ok h₂, bind_of_ok h₃, bind_of_ok h₄, bind_of_ok h₅]
      simp only [hempty, Bool.false_eq_true, ↓reduceIte, List.getLast?_concat, Option.getD_some,
        hlast, bind_of_ok h₆]
      rfl

theorem variableForm_begins {ts : List Token} {v : Variable} (h : VariableForm ts v) :
    ∃ t us, ts = t :: us ∧ t.kind = familyKind v.family := by
  cases h with
  | mk hk _ _ _ _ _ => exact ⟨_, _, rfl, hk⟩

theorem timerForm_begins : Begins TimerForm [.timer] := by
  intro ts t h
  cases h with
  | mk hk _ _ _ _ _ => exact ⟨_, _, rfl, by simp [hk]⟩

theorem declarationForm_begins :
    Begins DeclarationForm [.timer, .var, .input, .output] := by
  intro ts d h
  cases h with
  | var hv =>
    obtain ⟨t, us, rfl, ht⟩ := variableForm_begins hv
    refine ⟨t, us, rfl, ?_⟩
    rw [ht]
    generalize Variable.family _ = family
    cases family <;> decide
  | timer ht =>
    obtain ⟨t, us, rfl, hk⟩ := timerForm_begins ht
    exact ⟨t, us, rfl, by simp_all⟩

/-- The kinds that a declaration or what follows the last of them can begin with. -/
abbrev declarationKinds : List Kind :=
  [.timer, .var, .input, .output, .closeBrace, .state, .untilWord]

theorem declaration_accepts : Accepts declaration (Just DeclarationForm) := by
  intro r ts d us h hs
  cases h with
  | mk h =>
    cases h with
    | var hv =>
      obtain ⟨t, vs, rfl, ht⟩ := variableForm_begins hv
      generalize hfam : Variable.family _ = family at ht
      cases family with
      | var | input | output =>
        obtain ⟨_, hp, s₁⟩ := peek_kind declarationKinds hs ht (by decide)
        obtain ⟨r', h₁, s₂⟩ := variableDecl_accepts _ hv hfam s₁
        refine ⟨r', ?_, s₂⟩
        rw [declaration, bind_of_ok hp]
        exact bind_of_ok h₁
    | timer ht =>
      obtain ⟨t, vs, rfl, hk⟩ := timerForm_begins ht
      obtain ⟨_, hp, s₁⟩ := peek_kind declarationKinds hs (List.mem_singleton.mp hk) (by decide)
      obtain ⟨r', h₁, s₂⟩ := timer_accepts ht s₁
      refine ⟨r', ?_, s₂⟩
      rw [declaration, bind_of_ok hp]
      exact bind_of_ok h₁

/-- The declarations are read up to the first item or the closing brace. -/
theorem declarations_complete {r : Reader} {t : Token} {ts us : List Token}
    {declared : List (Variable ⊕ Timer)} (ht : t.kind ∈ [Kind.closeBrace, .state, .untilWord])
    (h : Many DeclarationForm ts declared) (hs : Stands r (ts ++ t :: us)) :
    ∃ r', collect declaration r = .ok declared r' ∧ Stands r' (t :: us) := by
  refine collect_complete declaration_yields declarationForm_begins (by decide)
    (fun h hs => declaration_accepts (.mk h) hs) ?_ h hs
  intro r hs
  simp only [List.mem_cons, List.not_mem_nil, or_false] at ht
  rcases ht with ht | ht | ht
  all_goals
    obtain ⟨r', hp, s₁⟩ := peek_kind declarationKinds hs ht (by decide)
    refine ⟨r', ?_, s₁⟩
    rw [declaration, bind_of_ok hp]
    rfl

theorem jump_accepts : Accepts jump JumpForm := by
  intro r ts j us h hs
  cases h with
  | go hk hn | err hk hn =>
    obtain ⟨_, hp, s₁⟩ := peek_kind [.go, .err, .retry] hs hk (by decide)
    obtain ⟨_, h₁, s₂⟩ := scan_complete s₁ hk
    obtain ⟨r', h₂, s₃⟩ := scan_complete s₂ hn
    refine ⟨r', ?_, s₃⟩
    simp only [jump, bind_of_ok hp, bind_of_ok h₁, bind_of_ok h₂]
    rfl

theorem jumpForm_begins : Begins JumpForm [.go, .err] := by
  intro ts j h
  cases h with
  | go hk _ | err hk _ => exact ⟨_, _, rfl, by simp [hk]⟩

theorem actionForm_begins : Begins ActionForm [.go, .err, .retry] := by
  intro ts a h
  cases h with
  | jump hj =>
    obtain ⟨t, us, rfl, ht⟩ := jumpForm_begins hj
    exact ⟨t, us, rfl, List.mem_append_left [Kind.retry] ht⟩
  | retry hk => exact ⟨_, _, rfl, by simp [hk]⟩

theorem action_accepts : Accepts action ActionForm := by
  intro r ts a us h hs
  cases h with
  | jump hj =>
    obtain ⟨t, vs, rfl, ht⟩ := jumpForm_begins hj
    have hne : t.kind ≠ .retry := by
      rintro he
      rw [he] at ht
      exact absurd ht (by decide)
    have hm : t.kind ∈ [Kind.go, .err, .retry] := List.mem_append_left [Kind.retry] ht
    have ha : ∀ k ∈ [Kind.go, .err, .retry], Admits [.go, .err, .retry] k := by decide
    obtain ⟨_, hp, _, s₁⟩ := peek_complete hs hm (ha _ hm)
    obtain ⟨r', h₁, s₂⟩ := jump_accepts hj s₁
    refine ⟨r', ?_, s₂⟩
    rw [action, bind_of_ok hp, if_neg hne, bind_of_ok h₁]
    rfl
  | retry hk =>
    obtain ⟨_, hp, s₁⟩ := peek_kind [.go, .err, .retry] hs hk (by decide)
    obtain ⟨r', h₁, s₂⟩ := scan_complete s₁ hk
    refine ⟨r', ?_, s₂⟩
    rw [action, bind_of_ok hp, if_pos rfl, bind_of_ok h₁]
    rfl

theorem trigger_accepts : Accepts trigger TriggerForm := by
  intro r ts a us h hs
  cases h with
  | when hf =>
    cases hf with
    | mk he =>
      obtain ⟨_, hp, s₁⟩ := peek_kind [.expr, .timeout] hs he (by decide)
      obtain ⟨r', h₁, s₂⟩ := scanFragment_accepts .expr (.mk he) s₁
      refine ⟨r', ?_, s₂⟩
      rw [trigger, bind_of_ok hp, if_pos rfl, bind_of_ok h₁]
      rfl
  | timeout hk ha =>
    obtain ⟨_, hp, s₁⟩ := peek_kind [.expr, .timeout] hs hk (by decide)
    obtain ⟨_, h₁, s₂⟩ := scan_complete s₁ hk
    obtain ⟨r', h₂, s₃⟩ := argument_accepts ha s₂
    refine ⟨r', ?_, s₃⟩
    rw [trigger, bind_of_ok hp, if_neg (by decide), bind_of_ok h₁, bind_of_ok h₂]
    rfl

theorem start_accepts : Accepts (do
    let _ ← scan .start
    some <$> argument) (Just StartForm) := by
  intro r ts a us h hs
  cases h with
  | mk h =>
    cases h with
    | mk hk ha =>
      obtain ⟨_, h₁, s₁⟩ := scan_complete hs hk
      obtain ⟨r', h₂, s₂⟩ := argument_accepts ha s₁
      refine ⟨r', ?_, s₂⟩
      rw [bind_of_ok h₁, map_of_ok h₂]

theorem startForm_begins : Begins StartForm [.start] := by
  intro ts a h
  cases h with
  | mk hk _ => exact ⟨_, _, rfl, by simp [hk]⟩

theorem transition_accepts : Accepts transition TransitionForm := by
  intro r ts t us h hs
  cases h with
  | mk hk ht hc ha hst hsemi =>
    simp only [List.cons_append, List.append_assoc, List.nil_append] at hs
    obtain ⟨_, h₁, s₁⟩ := scan_complete hs hk
    obtain ⟨_, h₂, s₂⟩ := trigger_accepts ht s₁
    -- the action's first token is what tells that there is no code
    obtain ⟨w, ws, rfl, hw⟩ := actionForm_begins ha
    have hmem : w.kind ∈ [Kind.block, .go, .err, .retry] := List.mem_cons_of_mem _ hw
    have hne : w.kind ≠ .block := by
      rintro he
      rw [he] at hw
      exact absurd hw (by decide)
    obtain ⟨_, h₃, s₃⟩ := optionalBlock_complete [.block, .go, .err, .retry] (by decide) (by decide)
      hmem hne hc s₂
    obtain ⟨_, h₄, s₄⟩ := action_accepts ha s₃
    obtain ⟨_, h₅, s₅⟩ := guarded_loop [.semicolon, .start] start_yields start_accepts
      startForm_begins (by decide) (by decide) (by decide) (by simp [hsemi]) (by simp [hsemi])
      hst s₄
    obtain ⟨r', h₆, s₆⟩ := scan_complete s₅ hsemi
    refine ⟨r', ?_, s₆⟩
    rw [transition, bind_of_ok h₁, bind_of_ok h₂, bind_of_ok h₃, bind_of_ok h₄, bind_of_ok h₅,
      bind_of_ok h₆]
    rfl

theorem transitionForm_begins : Begins TransitionForm [.on] := by
  intro ts t h
  cases h with
  | mk hk _ _ _ _ _ => exact ⟨_, _, rfl, by simp [hk]⟩

theorem assignment_accepts : Accepts assignment AssignmentForm := by
  intro r ts a us h hs
  cases h with
  | mk hn hf =>
    obtain ⟨_, h₁, s₁⟩ := scan_complete hs hn
    obtain ⟨r', h₂, s₂⟩ := scanFragment_accepts .expr hf s₁
    refine ⟨r', ?_, s₂⟩
    rw [assignment, bind_of_ok h₁, bind_of_ok h₂]
    rfl

section Comma
variable {α : Type} {form : List Token → α → Prop} {f : Read α}

theorem comma_accepts (hf : Accepts f form) : Accepts (do
    let _ ← scan .comma
    some <$> f) (Just (CommaForm form)) := by
  intro r ts a us h hs
  cases h with
  | mk h =>
    cases h with
    | mk hc ha =>
      obtain ⟨_, h₁, s₁⟩ := scan_complete hs hc
      obtain ⟨r', h₂, s₂⟩ := hf ha s₁
      refine ⟨r', ?_, s₂⟩
      rw [bind_of_ok h₁, map_of_ok h₂]

theorem commaForm_begins (form : List Token → α → Prop) : Begins (CommaForm form) [.comma] := by
  intro ts a h
  cases h with
  | mk hc _ => exact ⟨_, _, rfl, by simp [hc]⟩

end Comma

theorem outs_accepts : Accepts outs OutsForm := by
  intro r ts as us h hs
  cases h with
  | mk hk ha has hsemi =>
    simp only [List.cons_append, List.append_assoc, List.nil_append] at hs
    obtain ⟨_, h₁, s₁⟩ := scan_complete hs hk
    obtain ⟨_, h₂, s₂⟩ := assignment_accepts ha s₁
    obtain ⟨_, h₃, s₃⟩ := guarded_loop [.semicolon, .comma] (comma_yields assignment_yields)
      (comma_accepts assignment_accepts) (commaForm_begins _) (by decide) (by decide) (by decide)
      (by simp [hsemi]) (by simp [hsemi]) has s₂
    obtain ⟨r', h₄, s₄⟩ := scan_complete s₃ hsemi
    refine ⟨r', ?_, s₄⟩
    rw [outs, bind_of_ok h₁, bind_of_ok h₂, bind_of_ok h₃, bind_of_ok h₄]
    rfl

theorem outsForm_begins : Begins OutsForm [.out] := by
  intro ts as h
  cases h with
  | mk hk _ _ _ => exact ⟨_, _, rfl, by simp [hk]⟩

theorem flag_accepts : Accepts flag FlagWord := by
  rintro r ts t us ⟨rfl, hk⟩ hs
  rcases hk with hk | hk | hk
  all_goals
    obtain ⟨_, hp, s₁⟩ := peek_kind [.start, .err, .name] hs hk (by decide)
    obtain ⟨r', h₁, s₂⟩ := scan_complete s₁ hk
    exact ⟨r', by rw [flag, bind_of_ok hp, h₁], s₂⟩

/-- The words before a state's name are read up to that name. -/
theorem flagWords_complete {r : Reader} {t : Token} {ts us ws : List Token} (ht : t.kind = .name)
    (h : FlagWords ts ws) (hs : Stands r (ts ++ t :: us)) :
    ∃ r', flagWords r = .ok ws r' ∧ Stands r' (t :: us) := by
  cases h with
  | none =>
    obtain ⟨r', hp, s₁⟩ := peek_kind [.openBracket, .name] hs ht (by decide)
    refine ⟨r', ?_, s₁⟩
    rw [flagWords, bind_of_ok hp]
    rfl
  | some ho hw hws hc =>
    simp only [List.cons_append, List.append_assoc, List.nil_append] at hs
    obtain ⟨_, hp, s₁⟩ := peek_kind [.openBracket, .name] hs ho (by decide)
    obtain ⟨_, h₁, s₂⟩ := scan_complete s₁ ho
    obtain ⟨_, h₂, s₃⟩ := flag_accepts hw s₂
    obtain ⟨_, h₃, s₄⟩ := guarded_loop [.closeBracket, .comma] (comma_yields flag_yields)
      (comma_accepts flag_accepts) (commaForm_begins _) (by decide) (by decide) (by decide)
      (by simp [hc]) (by simp [hc]) hws s₃
    obtain ⟨r', h₄, s₅⟩ := scan_complete s₄ hc
    refine ⟨r', ?_, s₅⟩
    rw [flagWords, bind_of_ok hp, if_pos rfl, bind_of_ok h₁, bind_of_ok h₂, bind_of_ok h₃,
      bind_of_ok h₄]
    rfl

theorem many_words {us : List Token} {fs : List Flag} (h : Many (CommaForm FlagForm) us fs) :
    ∃ ws, Many (CommaForm FlagWord) us ws ∧ ws.map Token.text = fs.map Flag.word := by
  induction h with
  | nil => exact ⟨[], .nil, rfl⟩
  | cons hf _ ih =>
    obtain ⟨hc, ⟨hk, hw⟩⟩ := hf
    obtain ⟨ws, hm, he⟩ := ih
    exact ⟨_ :: ws, .cons (.mk hc ⟨rfl, hk⟩) hm, by simp [hw, he]⟩

/-- Flags are words, to be looked up. -/
theorem words_of_flags {ts : List Token} {fs : List Flag} (h : FlagsForm ts fs) :
    ∃ ws, FlagWords ts ws ∧ ws.map Token.text = fs.map Flag.word := by
  cases h with
  | none => exact ⟨[], .none, rfl⟩
  | some ho hf hfs hc =>
    obtain ⟨hk, hw⟩ := hf
    obtain ⟨ws, hm, he⟩ := many_words hfs
    exact ⟨_ :: ws, .some ho ⟨rfl, hk⟩ hm hc, by simp [hw, he]⟩

theorem memberForm_begins : Begins MemberForm [.on, .out] := by
  intro ts m h
  cases h with
  | transition ht =>
    obtain ⟨t, us, rfl, hk⟩ := transitionForm_begins ht
    exact ⟨t, us, rfl, List.mem_append_left [Kind.out] hk⟩
  | outs ho =>
    obtain ⟨t, us, rfl, hk⟩ := outsForm_begins ho
    exact ⟨t, us, rfl, List.mem_append_right [Kind.on] hk⟩

theorem member_accepts : Accepts member (Just MemberForm) := by
  intro r ts m us h hs
  cases h with
  | mk h =>
    cases h with
    | transition ht =>
      obtain ⟨t, vs, rfl, hk⟩ := transitionForm_begins ht
      obtain ⟨_, hp, s₁⟩ :=
        peek_kind [.closeBrace, .on, .out] hs (List.mem_singleton.mp hk) (by decide)
      obtain ⟨r', h₁, s₂⟩ := transition_accepts ht s₁
      refine ⟨r', ?_, s₂⟩
      rw [member, bind_of_ok hp]
      exact bind_of_ok h₁
    | outs ho =>
      obtain ⟨t, vs, rfl, hk⟩ := outsForm_begins ho
      obtain ⟨_, hp, s₁⟩ :=
        peek_kind [.closeBrace, .on, .out] hs (List.mem_singleton.mp hk) (by decide)
      obtain ⟨r', h₁, s₂⟩ := outs_accepts ho s₁
      refine ⟨r', ?_, s₂⟩
      rw [member, bind_of_ok hp]
      exact bind_of_ok h₁

theorem members_complete {r : Reader} {t : Token} {ts us : List Token}
    {members : List (Transition ⊕ List Assignment)} (ht : t.kind = .closeBrace)
    (h : Many MemberForm ts members) (hs : Stands r (ts ++ t :: us)) :
    ∃ r', collect member r = .ok members r' ∧ Stands r' (t :: us) := by
  refine collect_complete member_yields memberForm_begins (by decide)
    (fun h hs => member_accepts (.mk h) hs) ?_ h hs
  intro r hs
  obtain ⟨r', hp, s₁⟩ := peek_kind [.closeBrace, .on, .out] hs ht (by decide)
  refine ⟨r', ?_, s₁⟩
  rw [member, bind_of_ok hp]
  rfl

theorem state_accepts (nested : Bool) : Accepts (state nested) StateForm := by
  intro r ts s us h hs
  cases h with
  | @mk ts fs us' entry vs members k n o c hk hf hn ho he hm hc =>
    simp only [List.cons_append, List.append_assoc, List.nil_append] at hs
    obtain ⟨ws, hw, hws⟩ := words_of_flags hf
    obtain ⟨_, h₁, s₁⟩ := scan_complete hs hk
    obtain ⟨_, h₂, s₂⟩ := flagWords_complete hn hw s₁
    obtain ⟨_, h₃, s₃⟩ := scan_complete s₂ hn
    obtain ⟨_, h₄, s₄⟩ := scan_complete s₃ ho
    obtain ⟨_, h₅, s₅⟩ := note_complete (.state nested n.text fs) s₄
    -- what follows the brace tells whether the state has code of its own
    obtain ⟨t, vs', hv, ht⟩ := many_begins hm memberForm_begins hc us
    have hne : t.kind ≠ .block := by
      rintro hb
      rw [hb] at ht
      exact absurd ht (by decide)
    rw [hv] at s₅
    obtain ⟨_, h₆, s₆⟩ := optionalBlock_complete [.block, .closeBrace, .on, .out]
      (by decide) (by decide) (List.mem_cons_of_mem _ ht) hne he s₅
    rw [← hv] at s₆
    obtain ⟨_, h₇, s₇⟩ := members_complete hc hm s₆
    obtain ⟨r', h₈, s₈⟩ := scan_complete s₇ hc
    refine ⟨r', ?_, s₈⟩
    rw [state, bind_of_ok h₁, bind_of_ok h₂, bind_of_ok h₃, bind_of_ok h₄,
      bind_of_ok (checkFlags_ok.mpr ⟨hws, rfl⟩), bind_of_ok h₅, bind_of_ok h₆, bind_of_ok h₇,
      bind_of_ok h₈]
    rfl

theorem stateForm_begins : Begins StateForm [.state] := by
  intro ts s h
  cases h with
  | mk hk _ _ _ _ _ _ => exact ⟨_, _, rfl, by simp [hk]⟩

theorem block_accepts : Accepts block BlockForm := by
  intro r ts u us h hs
  cases h with
  | @mk ts d us' states vs overflow k o c e t s hk ho hd hc he hst ht hj hsemi =>
    simp only [List.cons_append, List.append_assoc, List.nil_append] at hs
    obtain ⟨_, h₁, s₁⟩ := scan_complete hs hk
    obtain ⟨_, h₂, s₂⟩ := scan_complete s₁ ho
    obtain ⟨_, h₃, s₃⟩ := constant_accepts hd s₂
    obtain ⟨_, h₄, s₄⟩ := scan_complete s₃ hc
    obtain ⟨_, h₅, s₅⟩ := scan_complete s₄ he
    obtain ⟨_, h₆, s₆⟩ := note_complete (.block (boundOf d)) s₅
    obtain ⟨_, h₇, s₇⟩ := guarded_loop [.closeBrace, .state, .untilWord]
      (state_yields true).just (state_accepts true).just stateForm_begins (by decide) (by decide)
      (by decide) (by simp [ht]) (by simp [ht]) hst s₆
    obtain ⟨_, h₈, s₈⟩ := scan_complete s₇ ht
    obtain ⟨_, h₉, s₉⟩ := jump_accepts hj s₈
    obtain ⟨r', h₁₀, s₁₀⟩ := scan_complete s₉ hsemi
    refine ⟨r', ?_, s₁₀⟩
    rw [block, bind_of_ok h₁, bind_of_ok h₂, bind_of_ok h₃, bind_of_ok h₄, bind_of_ok h₅]
    rw [boundOf] at h₆
    rw [bind_of_ok h₆, bind_of_ok h₇, bind_of_ok h₈, bind_of_ok h₉, bind_of_ok h₁₀]
    rfl

theorem blockForm_begins : Begins BlockForm [.untilWord] := by
  intro ts u h
  cases h with
  | mk hk _ _ _ _ _ _ _ _ => exact ⟨_, _, rfl, by simp [hk]⟩

theorem itemForm_begins : Begins ItemForm [.state, .untilWord] := by
  intro ts i h
  cases h with
  | state hs =>
    obtain ⟨t, us, rfl, hk⟩ := stateForm_begins hs
    exact ⟨t, us, rfl, List.mem_append_left [Kind.untilWord] hk⟩
  | block hu =>
    obtain ⟨t, us, rfl, hk⟩ := blockForm_begins hu
    exact ⟨t, us, rfl, List.mem_append_right [Kind.state] hk⟩

theorem item_accepts : Accepts item (Just ItemForm) := by
  intro r ts i us h hs
  cases h with
  | mk h =>
    cases h with
    | state hst =>
      obtain ⟨t, vs, rfl, hk⟩ := stateForm_begins hst
      obtain ⟨_, hp, s₁⟩ :=
        peek_kind [.state, .untilWord, .closeBrace] hs (List.mem_singleton.mp hk) (by decide)
      obtain ⟨r', h₁, s₂⟩ := state_accepts false hst s₁
      refine ⟨r', ?_, s₂⟩
      rw [item, bind_of_ok hp]
      exact bind_of_ok h₁
    | block hu =>
      obtain ⟨t, vs, rfl, hk⟩ := blockForm_begins hu
      obtain ⟨_, hp, s₁⟩ :=
        peek_kind [.state, .untilWord, .closeBrace] hs (List.mem_singleton.mp hk) (by decide)
      obtain ⟨r', h₁, s₂⟩ := block_accepts hu s₁
      refine ⟨r', ?_, s₂⟩
      rw [item, bind_of_ok hp]
      exact bind_of_ok h₁

/-- The closing brace ends the items. -/
theorem item_closes {r : Reader} {t : Token} {us : List Token} (ht : t.kind = .closeBrace)
    (hs : Stands r (t :: us)) : ∃ r', item r = .ok none r' ∧ Stands r' (t :: us) := by
  obtain ⟨r', hp, s₁⟩ := peek_kind [.state, .untilWord, .closeBrace] hs ht (by decide)
  refine ⟨r', ?_, s₁⟩
  rw [item, bind_of_ok hp]
  rfl

end Grammar
end Statewright
