import Statewright.Proofs.Parsing

namespace Statewright
namespace Language

/-- Tokens are changed in their places only. -/
structure Alike (g : Token → Token) : Prop where
  kind : ∀ t, (g t).kind = t.kind
  text : ∀ t, (g t).text = t.text

/-- The tokens are a form wherever they stand, and the end of a source is none of them. -/
def Moves {α : Type} (form : List Token → α → Prop) (ts : List Token) : Prop :=
  (∀ t ∈ ts, t.kind ≠ .eof) ∧ ∀ g, Alike g → ∃ a, form (ts.map g) a

def Movable {α : Type} (form : List Token → α → Prop) : Prop :=
  ∀ ⦃ts a⦄, form ts a → Moves form ts

section Forms
variable {α : Type} {form : List Token → α → Prop}

/-- A form that counts as another. -/
theorem movable_as {β : Type} {form' : List Token → β → Prop} (h : Movable form) {make : α → β}
    (hmake : ∀ {ts a}, form ts a → form' ts (make a)) {ts : List Token} {a : α}
    (hform : form ts a) : Moves form' ts := by
  obtain ⟨hk, hg⟩ := h hform
  refine ⟨hk, fun g halike => ?_⟩
  obtain ⟨b, hb⟩ := hg g halike
  exact ⟨make b, hmake hb⟩

theorem movable_opt (h : Movable form) : Movable (Opt form) := by
  intro ts o hform
  cases hform with
  | none => exact ⟨by simp, fun g _ => ⟨none, .none⟩⟩
  | some hform => exact movable_as h .some hform

theorem movable_many (h : Movable form) : Movable (Many form) := by
  intro ts as hform
  induction hform with
  | nil => exact ⟨by simp, fun g _ => ⟨[], .nil⟩⟩
  | cons hform _ ih =>
    obtain ⟨hk, hg⟩ := h hform
    refine ⟨List.forall_mem_append.mpr ⟨hk, ih.1⟩, fun g halike => ?_⟩
    obtain ⟨b, hb⟩ := hg g halike
    obtain ⟨bs, hbs⟩ := ih.2 g halike
    rw [List.map_append]
    exact ⟨b :: bs, .cons hb hbs⟩

theorem movable_raw {k : Kind} (hne : k ≠ .eof) : Movable (RawForm k) := by
  intro ts f hform
  cases hform with
  | mk hk => exact ⟨by simp [hk, hne], fun g h => ⟨_, .mk ((h.kind _).trans hk)⟩⟩

theorem movable_code : Movable (RawForm .block) :=
  movable_raw nofun

theorem movable_expr : Movable (RawForm .expr) :=
  movable_raw nofun

theorem movable_argument : Movable ArgumentForm := by
  intro ts r hform
  cases hform with
  | mk ho hn hc =>
    refine ⟨by simp [ho, hn, hc], fun g h => ⟨_, .mk ?_ ?_ ?_⟩⟩
    · exact (h.kind _).trans ho
    · exact (h.kind _).trans hn
    · exact (h.kind _).trans hc

theorem movable_constant : Movable ConstantForm := by
  intro ts t hform
  cases hform with
  | int hk => exact ⟨by simp [hk], fun g h => ⟨_, .int ((h.kind _).trans hk)⟩⟩
  | name hk => exact ⟨by simp [hk], fun g h => ⟨_, .name ((h.kind _).trans hk)⟩⟩

/-- A form after one more token. -/
theorem movable_cons {β : Type} {form' : List Token → β → Prop} {k : Kind} (h : Movable form)
    {make : α → β} (hmake : ∀ {t ts a}, t.kind = k → form ts a → form' (t :: ts) (make a))
    {t : Token} {ts : List Token} {a : α} (ht : t.kind = k) (hne : k ≠ .eof) (hform : form ts a) :
    Moves form' (t :: ts) := by
  obtain ⟨hk, hg⟩ := h hform
  refine ⟨List.forall_mem_cons.mpr ⟨by rw [ht]; exact hne, hk⟩, fun g halike => ?_⟩
  obtain ⟨b, hb⟩ := hg g halike
  exact ⟨make b, hmake ((halike.kind t).trans ht) hb⟩

theorem movable_decl : Movable DeclForm := by
  intro ts f hform
  cases hform with
  | mk hk hraw => exact movable_cons movable_code .mk hk nofun hraw

theorem movable_clock : Movable ClockForm := by
  intro ts c hform
  cases hform with
  | time hk hraw => exact movable_cons movable_code .time hk nofun hraw
  | period hk hraw => exact movable_cons movable_code .period hk nofun hraw

theorem movable_start : Movable StartForm := by
  intro ts r hform
  cases hform with
  | mk hk h => exact movable_cons movable_argument .mk hk nofun h

theorem movable_comma (h : Movable form) : Movable (CommaForm form) := by
  intro ts a hform
  cases hform with
  | mk hk hform => exact movable_cons h .mk hk nofun hform

theorem movable_trigger : Movable TriggerForm := by
  intro ts t hform
  cases hform with
  | when hraw => exact movable_as movable_expr .when hraw
  | timeout hk h => exact movable_cons movable_argument .timeout hk nofun h

theorem movable_jump : Movable JumpForm := by
  intro ts j hform
  cases hform with
  | go hk hn =>
    refine ⟨by simp [hk, hn], fun g h => ⟨_, .go ((h.kind _).trans hk) ((h.kind _).trans hn)⟩⟩
  | err hk hn =>
    refine ⟨by simp [hk, hn], fun g h => ⟨_, .err ((h.kind _).trans hk) ((h.kind _).trans hn)⟩⟩

theorem movable_action : Movable ActionForm := by
  intro ts a hform
  cases hform with
  | jump hj => exact movable_as movable_jump .jump hj
  | retry hk => exact ⟨by simp [hk], fun g h => ⟨_, .retry ((h.kind _).trans hk)⟩⟩

theorem movable_transition : Movable TransitionForm := by
  intro ts t hform
  cases hform with
  | mk hk ht hc ha hs he =>
    obtain ⟨k₁, g₁⟩ := movable_trigger ht
    obtain ⟨k₂, g₂⟩ := movable_opt movable_code hc
    obtain ⟨k₃, g₃⟩ := movable_action ha
    obtain ⟨k₄, g₄⟩ := movable_many movable_start hs
    refine ⟨?_, fun g h => ?_⟩
    · simp only [List.forall_mem_cons, List.forall_mem_append]
      exact ⟨by simp [hk], k₁, k₂, k₃, k₄, by simp [he], by simp⟩
    · obtain ⟨_, h₁⟩ := g₁ g h
      obtain ⟨_, h₂⟩ := g₂ g h
      obtain ⟨_, h₃⟩ := g₃ g h
      obtain ⟨_, h₄⟩ := g₄ g h
      simp only [List.map_cons, List.map_append, List.map_nil]
      exact ⟨_, .mk ((h.kind _).trans hk) h₁ h₂ h₃ h₄ ((h.kind _).trans he)⟩

theorem movable_assignment : Movable AssignmentForm := by
  intro ts a hform
  cases hform with
  | mk hn hraw =>
    obtain ⟨hk, hg⟩ := movable_expr hraw
    refine ⟨List.forall_mem_cons.mpr ⟨by simp [hn], hk⟩, fun g h => ?_⟩
    obtain ⟨f, hf⟩ := hg g h
    exact ⟨_, .mk ((h.kind _).trans hn) hf⟩

theorem movable_outs : Movable OutsForm := by
  intro ts as hform
  cases hform with
  | mk hk hfirst hrest he =>
    obtain ⟨k₁, g₁⟩ := movable_assignment hfirst
    obtain ⟨k₂, g₂⟩ := movable_many (movable_comma movable_assignment) hrest
    refine ⟨?_, fun g h => ?_⟩
    · simp only [List.forall_mem_cons, List.forall_mem_append]
      exact ⟨by simp [hk], k₁, k₂, by simp [he], by simp⟩
    · obtain ⟨_, h₁⟩ := g₁ g h
      obtain ⟨_, h₂⟩ := g₂ g h
      simp only [List.map_cons, List.map_append, List.map_nil]
      exact ⟨_, .mk ((h.kind _).trans hk) h₁ h₂ ((h.kind _).trans he)⟩

theorem movable_flag : Movable FlagForm := by
  intro ts f hform
  cases hform with
  | mk hk ht =>
    refine ⟨?_, fun g h => ⟨f, .mk ?_ ((h.text _).trans ht)⟩⟩
    · rcases hk with hk | hk | hk <;> simp [hk]
    · rw [h.kind]
      exact hk

theorem movable_flags : Movable FlagsForm := by
  intro ts fs hform
  cases hform with
  | none => exact ⟨by simp, fun g _ => ⟨[], .none⟩⟩
  | some ho hfirst hrest hc =>
    obtain ⟨k₁, g₁⟩ := movable_flag hfirst
    obtain ⟨k₂, g₂⟩ := movable_many (movable_comma movable_flag) hrest
    refine ⟨?_, fun g h => ?_⟩
    · simp only [List.forall_mem_cons, List.forall_mem_append]
      exact ⟨by simp [ho], k₁, k₂, by simp [hc], by simp⟩
    · obtain ⟨_, h₁⟩ := g₁ g h
      obtain ⟨_, h₂⟩ := g₂ g h
      simp only [List.map_cons, List.map_append, List.map_nil]
      exact ⟨_, .some ((h.kind _).trans ho) h₁ h₂ ((h.kind _).trans hc)⟩

theorem movable_member : Movable MemberForm := by
  intro ts m hform
  cases hform with
  | transition ht => exact movable_as movable_transition .transition ht
  | outs ho => exact movable_as movable_outs .outs ho

theorem movable_state : Movable StateForm := by
  intro ts s hform
  cases hform with
  | mk hk hflags hn ho hentry hmembers hc =>
    obtain ⟨k₁, g₁⟩ := movable_flags hflags
    obtain ⟨k₂, g₂⟩ := movable_opt movable_code hentry
    obtain ⟨k₃, g₃⟩ := movable_many movable_member hmembers
    refine ⟨?_, fun g h => ?_⟩
    · simp only [List.forall_mem_cons, List.forall_mem_append]
      exact ⟨by simp [hk], k₁, by simp [hn], by simp [ho], k₂, k₃, by simp [hc], by simp⟩
    · obtain ⟨_, h₁⟩ := g₁ g h
      obtain ⟨_, h₂⟩ := g₂ g h
      obtain ⟨_, h₃⟩ := g₃ g h
      simp only [List.map_cons, List.map_append, List.map_nil]
      exact ⟨_, .mk ((h.kind _).trans hk) h₁ ((h.kind _).trans hn) ((h.kind _).trans ho) h₂ h₃
        ((h.kind _).trans hc)⟩

theorem movable_block : Movable BlockForm := by
  intro ts u hform
  cases hform with
  | mk hk ho hbound hc he hstates ht hjump hs =>
    obtain ⟨k₁, g₁⟩ := movable_constant hbound
    obtain ⟨k₂, g₂⟩ := movable_many movable_state hstates
    obtain ⟨k₃, g₃⟩ := movable_jump hjump
    refine ⟨?_, fun g h => ?_⟩
    · simp only [List.forall_mem_cons, List.forall_mem_append]
      exact ⟨by simp [hk], by simp [ho], k₁, by simp [hc], by simp [he], k₂, by simp [ht], k₃,
        by simp [hs], by simp⟩
    · obtain ⟨_, h₁⟩ := g₁ g h
      obtain ⟨_, h₂⟩ := g₂ g h
      obtain ⟨_, h₃⟩ := g₃ g h
      simp only [List.map_cons, List.map_append, List.map_nil]
      exact ⟨_, .mk ((h.kind _).trans hk) ((h.kind _).trans ho) h₁ ((h.kind _).trans hc)
        ((h.kind _).trans he) h₂ ((h.kind _).trans ht) h₃ ((h.kind _).trans hs)⟩

theorem movable_item : Movable ItemForm := by
  intro ts i hform
  cases hform with
  | state hs => exact movable_as movable_state .state hs
  | block hu => exact movable_as movable_block .block hu

theorem movable_variable : Movable VariableForm := by
  intro ts v hform
  cases hform with
  | mk hk hne hw hn hraw hs =>
    obtain ⟨k₁, g₁⟩ := movable_expr hraw
    have hfamily (f : Family) : familyKind f ≠ .eof := by cases f <;> nofun
    refine ⟨?_, fun g h => ?_⟩
    · simp only [List.forall_mem_cons, List.forall_mem_append]
      exact ⟨by simp [hk, hfamily], fun w hmem => by simp [hw w hmem], by simp [hn], k₁,
        by simp [hs], by simp⟩
    · obtain ⟨_, h₁⟩ := g₁ g h
      simp only [List.map_cons, List.map_append, List.map_nil]
      refine ⟨_, .mk ((h.kind _).trans hk) (by simpa using hne) ?_ ((h.kind _).trans hn) h₁
        ((h.kind _).trans hs)⟩
      intro w hmem
      obtain ⟨u, hu, rfl⟩ := List.mem_map.mp hmem
      exact (h.kind u).trans (hw u hu)

theorem movable_timer : Movable TimerForm := by
  intro ts t hform
  cases hform with
  | mk hk hn ho hd hc hs =>
    obtain ⟨k₁, g₁⟩ := movable_constant hd
    refine ⟨?_, fun g h => ?_⟩
    · simp only [List.forall_mem_cons, List.forall_mem_append]
      exact ⟨by simp [hk], by simp [hn], by simp [ho], k₁, by simp [hc], by simp [hs], by simp⟩
    · obtain ⟨_, h₁⟩ := g₁ g h
      simp only [List.map_cons, List.map_append, List.map_nil]
      exact ⟨_, .mk ((h.kind _).trans hk) ((h.kind _).trans hn) ((h.kind _).trans ho) h₁
        ((h.kind _).trans hc) ((h.kind _).trans hs)⟩

theorem movable_declaration : Movable DeclarationForm := by
  intro ts d hform
  cases hform with
  | var hv => exact movable_as movable_variable .var hv
  | timer ht => exact movable_as movable_timer .timer ht

theorem movable_opening : Movable Grammar.OpeningForm := by
  intro ts a hform
  cases hform with
  | mk hd hc hk hn ho hds =>
    obtain ⟨k₁, g₁⟩ := movable_opt movable_decl hd
    obtain ⟨k₂, g₂⟩ := movable_opt movable_clock hc
    obtain ⟨k₃, g₃⟩ := movable_many movable_declaration hds
    refine ⟨?_, fun g h => ?_⟩
    · simp only [List.forall_mem_cons, List.forall_mem_append]
      exact ⟨k₁, k₂, by simp [hk], by simp [hn], by simp [ho], k₃⟩
    · obtain ⟨_, h₁⟩ := g₁ g h
      obtain ⟨_, h₂⟩ := g₂ g h
      obtain ⟨_, h₃⟩ := g₃ g h
      simp only [List.map_cons, List.map_append]
      exact ⟨_, .mk h₁ h₂ ((h.kind _).trans hk) ((h.kind _).trans hn) ((h.kind _).trans ho) h₃⟩

end Forms
/-- The token with its offset changed, where it then stands in a source. -/
def relocate (source : Text) (f : Nat → Nat) (t : Token) : Token :=
  { t with place := placeOf source t.kind (f t.offset), offset := f t.offset }

theorem alike_relocate (source : Text) (f : Nat → Nat) : Alike (relocate source f) :=
  ⟨fun _ => rfl, fun _ => rfl⟩

section Lines
variable {rest w v after : Text} {k : Kind}

/-- A gap is one whatever comes in the next line. -/
theorem Gap.line {g : Text} (h : Gap rest g) (after : Text) : Gap (rest ++ '\n' :: after) g := by
  induction h with
  | nil => exact .nil
  | blank hc _ ih => exact .blank hc ih
  | comment hb he _ ih =>
    refine .comment hb ?_ ih
    rw [← List.append_assoc]
    exact ends_line he rfl after

theorem Spelling.line (h : Spelling rest k w v) (hk : k ≠ .eof) (after : Text) :
    Spelling (rest ++ '\n' :: after) k w v := by
  cases h with
  | word hw he => exact .word hw (ends_line he rfl after)
  | name hc hw hn he => exact .name hc hw hn (ends_line he rfl after)
  | int hne hw he => exact .int hne hw (ends_line he rfl after)
  | mark hm => exact .mark hm
  | fragment hm hs => exact .fragment hm hs
  | eof => contradiction

theorem Ends.left {p : Char → Bool} {t u : Text} (h : Ends p (t ++ u)) : Ends p t := by
  cases t with
  | nil => exact fun c hc => by cases hc
  | cons c t => exact h

theorem Spelling.left {u : Text} (h : Spelling (rest ++ u) k w v) (hk : k ≠ .eof) :
    Spelling rest k w v := by
  cases h with
  | word hw he => exact .word hw he.left
  | name hc hw hn he => exact .name hc hw hn he.left
  | int hne hw he => exact .int hne hw he.left
  | mark hm => exact .mark hm
  | fragment hm hs => exact .fragment hm hs
  | eof => contradiction

theorem Gap.left {g u : Text} (h : Gap (rest ++ u) g) : Gap rest g := by
  induction h with
  | nil => exact .nil
  | blank hc _ ih => exact .blank hc ih
  | comment hb he _ ih =>
    refine .comment hb ?_ ih
    rw [← List.append_assoc] at he
    exact he.left

/-- The gap up to a line break, on its own. -/
theorem Gap.upTo_line {g u : Text} (h : Gap rest g) (he : g = u ++ ['\n']) : Gap [] u := by
  induction h generalizing u with
  | nil => simp at he
  | @blank c g hc _ ih =>
    cases u with
    | nil => exact .nil
    | cons d u =>
      simp only [List.cons_append, List.cons.injEq] at he
      obtain ⟨rfl, he⟩ := he
      exact .blank hc (ih he)
  | @comment body g hb hends _ ih =>
    -- the line break is not in the comment, so it is the last character of the gap behind it
    rcases List.eq_nil_or_concat g with rfl | ⟨g', c, rfl⟩
    · have hmem : '\n' ∈ '/' :: '/' :: (body ++ []) := by
        rw [he]
        simp
      simp [hb] at hmem
    · rw [List.concat_eq_append] at he hends ih
      have hsplit : '/' :: '/' :: (body ++ g') ++ [c] = u ++ ['\n'] := by simpa using he
      obtain ⟨rfl, hc⟩ := List.append_inj' hsplit rfl
      obtain rfl : c = '\n' := by simpa using hc
      rw [List.append_assoc] at hends
      exact .comment hb (by simpa using hends.left) (ih rfl)

/-- No token ends with a line break. -/
theorem Spelling.not_line (h : Spelling rest k w v) (y : Text) : w ≠ y ++ ['\n'] := by
  have hname {w : Text} (hw : ∀ d ∈ w, isNameChar d) : w ≠ y ++ ['\n'] := by
    rintro rfl
    exact absurd (hw '\n' (by simp)) (by decide)
  have hlast {x : Text} {c : Char} (hc : c ≠ '\n') : x ++ [c] ≠ y ++ ['\n'] := by
    intro he
    obtain ⟨_, he⟩ := List.append_inj' he rfl
    exact hc (by simpa using he)
  cases h with
  | word hm _ =>
    obtain ⟨c, u, rfl, hc, hu⟩ := words_spelled hm
    exact hname (nameChars_cons hc hu)
  | name hc hu _ _ => exact hname (nameChars_cons hc hu)
  | int _ hd _ => exact hname fun d hd' => by simp [isNameChar, hd d hd']
  | mark hm =>
    have hall : ∀ q ∈ Kind.marks, q.1 ≠ '\n' := by decide
    exact hlast (x := []) (hall _ hm)
  | @fragment _ o c _ hm _ =>
    have hall : ∀ q ∈ Kind.fragments, q.2.2 ≠ '\n' := by decide
    exact hlast (x := o :: v) (hall _ hm)
  | eof => simp

end Lines

section Transport
variable {source w after : Text} {n m : Nat}

theorem drop_line (hsource : source.drop n = w ++ '\n' :: after) (hm : m ≤ w.length) :
    source.drop (n + m) = w.drop m ++ '\n' :: after := by
  rw [← List.drop_drop, hsource, List.drop_append_of_le_length hm]

/-- The tokens of a text stand in the source that has the text in lines of its own, up to the first
token behind it. -/
theorem Spelled.outward (hsource : source.drop n = w ++ '\n' :: after) {x tail v : Text} {k : Kind}
    (hafter : after = x ++ tail) (hx : Spelling tail k x v) {ts : List Token} {e : Token}
    (h : Spelled w m (ts ++ [e])) (he : e.kind = .eof) (hts : ∀ t ∈ ts, t.kind ≠ .eof)
    (hm : m ≤ w.length) :
    Spelled source (n + m) (ts.map (relocate source (n + ·)) ++
      [⟨k, v, placeOf source k (n + w.length + 1), n + w.length + 1⟩]) := by
  induction ts generalizing m with
  | nil =>
    cases h with
    | @cons _ g y rest j u _ hd hg hs _ =>
      obtain rfl : j = .eof := he
      obtain ⟨rfl, _, rfl⟩ := hs.of_eof
      rw [List.append_nil, List.append_nil] at hd
      have hgap : Gap (x ++ tail) (g ++ ['\n']) := by
        refine Grammar.gap_append ?_ (.blank (by decide) .nil)
        rw [← hafter]
        exact hg.line after
      have hdrop : source.drop (n + m) = (g ++ ['\n']) ++ (x ++ tail) := by
        rw [drop_line hsource hm, hd, hafter, List.append_assoc]
        rfl
      have hlen : n + m + (g ++ ['\n']).length = n + w.length + 1 := by
        have := congrArg List.length hd
        simp only [List.length_drop, List.length_append, List.length_singleton] at this ⊢
        omega
      have hspelled := Spelled.cons hdrop hgap hx .nil
      rw [hlen] at hspelled
      exact hspelled
  | cons t ts ih =>
    rw [List.forall_mem_cons] at hts
    cases h with
    | @cons _ g y rest j u _ hd hg hs hrest =>
      have hlen := congrArg List.length hd
      simp only [List.length_drop, List.length_append] at hlen
      have hdrop : source.drop (n + m) = g ++ (y ++ (rest ++ '\n' :: after)) := by
        rw [drop_line hsource hm, hd, List.append_assoc, List.append_assoc]
      have hgap := hg.line after
      rw [List.append_assoc] at hgap
      have htail := ih hrest hts.2 (by omega)
      rw [← Nat.add_assoc, ← Nat.add_assoc] at htail
      have hspelled := Spelled.cons hdrop hgap (hs.line hts.1 after) htail
      rw [Nat.add_assoc n m] at hspelled
      exact hspelled

theorem Spelled.offset_le {ts : List Token} {t : Token} (h : Spelled source n (ts ++ [t])) :
    n ≤ t.offset := by
  induction ts generalizing n with
  | nil =>
    cases h
    exact Nat.le_add_right _ _
  | cons u ts ih =>
    cases h with
    | cons _ _ _ hrest =>
      have := ih hrest
      omega

/-- A gap and a token that reach the line break at most end before it. -/
theorem token_within {u g y rest : Text} (hd : u ++ '\n' :: after = (g ++ y) ++ rest)
    (hy : ∀ x, y ≠ x ++ ['\n']) (hpos : 0 < y.length)
    (hle : g.length + y.length ≤ u.length + 1) :
    ∃ rest', u = (g ++ y) ++ rest' ∧ rest = rest' ++ '\n' :: after := by
  rcases List.append_eq_append_iff.mp hd with ⟨a, ha, hrest⟩ | ⟨c, hc, hrest⟩
  · cases a with
    | nil => exact ⟨[], by simpa using ha.symm, by simpa using hrest.symm⟩
    | cons x a =>
      obtain ⟨rfl, _⟩ := List.cons.inj hrest
      have hlen := congrArg List.length ha
      simp only [List.length_append, List.length_cons] at hlen
      obtain rfl : a = [] := List.length_eq_zero_iff.mp (by omega)
      rcases List.eq_nil_or_concat y with rfl | ⟨y', z, rfl⟩
      · cases hpos
      · rw [List.concat_eq_append] at ha hy
        rw [← List.append_assoc] at ha
        obtain ⟨_, hz⟩ := List.append_inj' ha rfl
        obtain rfl : z = '\n' := by simpa using hz
        exact absurd rfl (hy y')
  · exact ⟨c, hc, hrest⟩

/-- Tokens that stand in a source up to what is behind a text are those of the text. -/
theorem Spelled.inward (hsource : source.drop n = w ++ '\n' :: after) {ts : List Token} {t : Token}
    (h : Spelled source (n + m) (ts ++ [t])) (ht : t.offset = n + w.length + 1)
    (hts : ∀ u ∈ ts, u.kind ≠ .eof) (hm : m ≤ w.length) :
    Spelled w m (ts.map (relocate w (· - n)) ++
      [⟨.eof, [], placeOf w .eof w.length, w.length⟩]) := by
  induction ts generalizing m with
  | nil =>
    cases h with
    | @cons _ g y rest j u _ hd hg hs _ =>
      rw [drop_line hsource hm] at hd
      have hlen : g.length = (w.drop m ++ ['\n']).length := by
        simp only [List.length_append, List.length_drop, List.length_singleton]
        change n + m + g.length = _ at ht
        omega
      have hsplit : g ++ (y ++ rest) = (w.drop m ++ ['\n']) ++ after := by
        rw [← hd, List.append_assoc]
        rfl
      have hg' : g = w.drop m ++ ['\n'] := (List.append_inj hsplit hlen).1
      have hspelled := @Spelled.cons w m (w.drop m) [] [] .eof [] [] (by simp)
        (hg.upTo_line hg') (.eof rfl) .nil
      rw [List.length_drop, Nat.add_sub_cancel' hm] at hspelled
      exact hspelled
  | cons t' ts ih =>
    rw [List.forall_mem_cons] at hts
    cases h with
    | @cons _ g y rest j u _ hd hg hs hrest =>
      have hle := hrest.offset_le
      rw [drop_line hsource hm, ← List.append_assoc] at hd
      obtain ⟨rest', hw, rfl⟩ := token_within hd (hs.not_line ·) (hs.length_pos hts.1) (by
        rw [List.length_drop]
        omega)
      have hlen := congrArg List.length hw
      simp only [List.length_drop, List.length_append] at hlen
      rw [← List.append_assoc] at hg
      have htail := ih (m := m + g.length + y.length)
        (by rw [← Nat.add_assoc, ← Nat.add_assoc]; exact hrest) hts.2 (by omega)
      have hspelled := Spelled.cons (hw.trans (List.append_assoc _ _ _)) hg.left (hs.left hts.1)
        htail
      have hoff : n + m + g.length - n = m + g.length := by omega
      simp only [List.map_cons, relocate, hoff]
      exact hspelled

/-- The text is a form on its own, from its start to its end. -/
def Alone {α : Type} (form : List Token → α → Prop) (w : Text) : Prop :=
  ∃ ts e a, Spelled w 0 (ts ++ [e]) ∧ form ts a ∧ e.kind = .eof

/-- A text in lines of its own is a form exactly if its tokens, up to the first one behind it, are
one in the source. -/
theorem alone_iff {α : Type} {form : List Token → α → Prop} (hform : Movable form)
    (hsource : source.drop n = w ++ '\n' :: after) {x tail v : Text} {k : Kind}
    (hafter : after = x ++ tail) (hx : Spelling tail k x v) :
    Alone form w ↔ ∃ ts a, form ts a ∧ Spelled source n
      (ts ++ [⟨k, v, placeOf source k (n + w.length + 1), n + w.length + 1⟩]) := by
  constructor
  · intro h
    obtain ⟨ts, e, a, hs, ha, he⟩ := h
    obtain ⟨hk, hg⟩ := hform ha
    obtain ⟨b, hb⟩ := hg _ (alike_relocate source (n + ·))
    exact ⟨_, b, hb, hs.outward hsource hafter hx he hk (Nat.zero_le _)⟩
  · intro h
    obtain ⟨ts, a, ha, hs⟩ := h
    obtain ⟨hk, hg⟩ := hform ha
    obtain ⟨b, hb⟩ := hg _ (alike_relocate w (· - n))
    have hinward := Spelled.inward (m := 0) hsource hs rfl hk (Nat.zero_le _)
    exact ⟨_, _, b, hinward, hb, rfl⟩

end Transport
end Language
end Statewright
