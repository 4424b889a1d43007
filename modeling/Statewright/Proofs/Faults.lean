import Statewright.Proofs.Parsing

namespace Statewright

/-- Names and reserved words, the tokens that consist of name characters. -/
def Kind.IsWord (k : Kind) : Prop :=
  k = .name ∨ k ∈ Kind.words.map (·.2)

theorem Kind.IsWord.not_fragment {k : Kind} (h : k.IsWord) : ¬ (k = .block ∨ k = .expr) := by
  intro hk
  rcases hk with rfl | rfl <;> simp [IsWord, words] at h

/-- The kinds that may stand anywhere. Braces change the depth, and the words that start an item
stand for one only inside braces. -/
def Kind.isFlat : Kind → Bool
  | .openBrace | .closeBrace | .state | .untilWord => false
  | _ => true

namespace Reader
open Statewright.Language

section Logic
variable {α β : Type} {P : Reader → Prop} {E : Fault → Reader → Prop}

/-- From a reader with `P`, reading gives a value and a reader with `Q`, or a fault and a reader
with `E`. -/
def Meets (P : Reader → Prop) (x : Read α) (Q : α → Reader → Prop) (E : Fault → Reader → Prop) :
    Prop :=
  ∀ r, P r →
    match x r with
    | .ok a r' => Q a r'
    | .error e r' => E e r'

theorem Meets.ok {x : Read α} {Q : α → Reader → Prop} {r r' : Reader} {a : α}
    (h : Meets P x Q E) (hr : P r) (hx : x r = .ok a r') : Q a r' := by
  have hm := h r hr
  rw [hx] at hm
  exact hm

theorem Meets.error {x : Read α} {Q : α → Reader → Prop} {r r' : Reader} {e : Fault}
    (h : Meets P x Q E) (hr : P r) (hx : x r = .error e r') : E e r' := by
  have hm := h r hr
  rw [hx] at hm
  exact hm

theorem meets_mono {x : Read α} {Q S : α → Reader → Prop} (h : Meets P x Q E)
    (hq : ∀ a r, Q a r → S a r) : Meets P x S E := by
  intro r hr
  cases hx : x r with
  | ok a s => exact hq a s (h.ok hr hx)
  | error e s => exact h.error hr hx

theorem meets_bind {x : Read α} {f : α → Read β} {Q : α → Reader → Prop} {S : β → Reader → Prop}
    (hx : Meets P x Q E) (hf : ∀ a, Meets (Q a) (f a) S E) : Meets P (x >>= f) S E := by
  intro r hr
  change match EStateM.bind x f r with | .ok a r' => S a r' | .error e r' => E e r'
  unfold EStateM.bind
  cases hxr : x r with
  | ok a s => exact hf a s (hx.ok hr hxr)
  | error e s => exact hx.error hr hxr

/-- A fact about the value alone goes along with it. -/
theorem meets_bind_fact {x : Read α} {f : α → Read β} {R : Reader → Prop} {K : α → Prop}
    {S : β → Reader → Prop} (hx : Meets P x (fun a r => R r ∧ K a) E)
    (hf : ∀ a, K a → Meets R (f a) S E) : Meets P (x >>= f) S E :=
  meets_bind hx fun a r hr => hf a hr.2 r hr.1

theorem meets_map {x : Read α} {f : α → β} {Q : β → Reader → Prop}
    (hx : Meets P x (fun a => Q (f a)) E) : Meets P (f <$> x) Q E := by
  intro r hr
  change match EStateM.map f x r with | .ok a r' => Q a r' | .error e r' => E e r'
  unfold EStateM.map
  cases hxr : x r with
  | ok a s => exact hx.ok hr hxr
  | error e s => exact hx.error hr hxr

theorem meets_pure {a : α} {Q : α → Reader → Prop} (h : ∀ r, P r → Q a r) :
    Meets P (pure a : Read α) Q E :=
  h

theorem meets_throw {e : Fault} {Q : α → Reader → Prop} (h : ∀ r, P r → E e r) :
    Meets P (throw e : Read α) Q E :=
  h

/-- A loop keeps what each of its rounds keeps, and gives what they give. -/
theorem meets_collect {round : Read (Option α)} {K : α → Prop}
    (h : Meets P round (fun o r => P r ∧ ∀ a ∈ o, K a) E) :
    Meets P (collect round) (fun as r => P r ∧ ∀ a ∈ as, K a) E := by
  intro r
  fun_induction collect round r with
  | case1 r e s hs => exact fun hr => h.error hr hs
  | case2 r s hs => exact fun hr => ⟨(h.ok hr hs).1, by simp⟩
  | case3 r a s hs hlt as s' hrec ih =>
    intro hr
    have hround := h.ok hr hs
    have hrest := ih hround.1
    rw [hrec] at hrest
    refine ⟨hrest.1, fun b hb => ?_⟩
    rcases List.mem_cons.mp hb with rfl | hb
    · exact hround.2 b rfl
    · exact hrest.2 b hb
  | case4 r a s hs hlt e s' hrec ih =>
    intro hr
    have hrest := ih (h.ok hr hs).1
    rw [hrec] at hrest
    exact hrest
  | case5 r a s hs hlt =>
    intro hr
    have hround := h.ok hr hs
    exact ⟨hround.1, by simpa using hround.2 a rfl⟩

theorem meets_mapM {f : α → Read β} {as : List α}
    (h : ∀ a ∈ as, Meets P (f a) (fun _ => P) E) : Meets P (as.mapM f) (fun _ => P) E := by
  induction as with
  | nil => exact meets_pure fun _ hr => hr
  | cons a as ih =>
    rw [List.mapM_cons]
    refine meets_bind (h a List.mem_cons_self) fun b => ?_
    refine meets_bind (ih fun c hc => h c (List.mem_cons_of_mem a hc)) fun bs => ?_
    exact meets_pure fun _ hr => hr

end Logic

/-- The token is written in the source from its offset up to `stop`. -/
structure Written (source : Text) (t : Token) (stop : Nat) : Prop where
  spelled : ∃ w, source.drop t.offset = w ++ source.drop stop ∧
    Spelling (source.drop stop) t.kind w t.text ∧ stop = t.offset + w.length
  place : t.place = placeOf source t.kind t.offset

/-- The fault is about what stands at an offset of the source. -/
inductive Points (source : Text) : Nat → Fault → Prop
  | unrecognized {rest : Text} : source.drop o = c :: rest → gapLength (source.drop o) = 0 →
      Points source o (.unrecognized c (.inSource source o))
  | unterminated {rest : Text} : source.drop o = c :: rest → gapLength (source.drop o) = 0 →
      Points source o (.unterminated k c closer (.inSource source o))
  | unexpected : Written source t stop → Points source t.offset (.unexpected expected t)
  | unknownFlag : Written source t stop → t.kind.IsWord →
      Points source t.offset (.unknownFlag t.text t.place)
  | untyped : Written source t stop → t.kind.IsWord →
      Points source t.offset (.untyped family t.text t.place)
  | retryOverflow : Written source t stop → t.kind = .retry →
      Points source t.offset (.retryOverflow t.place)

/-- Offsets that reading can get to, by the number of braces that are open there. -/
structure Zone (source : Text) where
  has : (depth offset : Nat) → Prop
  gap : ∀ {d o g rest}, has d o → source.drop o = g ++ rest → Gap rest g → has d (o + g.length)
  flat : ∀ {d o w rest k v}, has d o → source.drop o = w ++ rest → Spelling rest k w v →
    k.isFlat → has d (o + w.length)
  opens : ∀ {d o w rest v}, has d o → source.drop o = w ++ rest →
    Spelling rest .openBrace w v → has (d + 1) (o + w.length)
  closes : ∀ {d o w rest v}, has (d + 1) o → source.drop o = w ++ rest →
    Spelling rest .closeBrace w v → has d (o + w.length)
  starts : ∀ {d o w rest k v}, has (d + 1) o → source.drop o = w ++ rest →
    Spelling rest k w v → k = .state ∨ k = .untilWord → has (d + 1) (o + w.length)

namespace Zone
variable {source : Text} (z : Zone source) {d : Nat} {α β : Type}

/-- The token stands in the zone. -/
def Known (t : Token) : Prop :=
  ∃ d stop, z.has d t.offset ∧ Written source t stop

/-- The reader is in the zone; a token that was looked at is the last one cut. -/
def Holds (d : Nat) (r : Reader) : Prop :=
  r.source = source ∧
    match r.ahead with
    | none => z.has d r.offset
    | some t => z.has d t.offset ∧ Written source t r.offset

/-- The fault is about what stands in the zone. -/
def Blames (e : Fault) : Prop :=
  ∃ d o, z.has d o ∧ Points source o e

def Faulty (e : Fault) (r : Reader) : Prop :=
  r.source = source ∧ z.Blames e

/-- Reading goes from one depth of the zone to another. -/
def Moves (d : Nat) (x : Read α) (d' : Nat) : Prop :=
  Meets (z.Holds d) x (fun _ => z.Holds d') z.Faulty

variable {z}

theorem holds_push {r : Reader} {event : Event} (h : z.Holds d r) : z.Holds d (r.push event) :=
  h

theorem holds_none {r : Reader} (h : r.ahead = none) :
    z.Holds d r ↔ r.source = source ∧ z.has d r.offset := by
  simp only [Holds, h]

theorem holds_some {r : Reader} {t : Token} (h : r.ahead = some t) :
    z.Holds d r ↔ r.source = source ∧ z.has d t.offset ∧ Written source t r.offset := by
  simp only [Holds, h]

theorem holds_skipGap {r : Reader} (hr : r.ahead = none) (h : z.Holds d r) :
    z.Holds d r.skipGap := by
  obtain ⟨hsource, hhas⟩ := (holds_none hr).mp h
  subst hsource
  refine (holds_none (r := r.skipGap) hr).mpr ⟨rfl, ?_⟩
  have hlen : (r.rest.take (gapLength r.rest)).length = gapLength r.rest := by
    rw [List.length_take, Nat.min_eq_left (gapLength_le _)]
  have hgap := z.gap hhas (List.take_append_drop (gapLength r.rest) r.rest).symm
    (gapLength_sound r.rest)
  rw [hlen] at hgap
  exact hgap

theorem holds_mark {r : Reader} (h : z.Holds d r) : z.Holds d r.mark.2 := by
  unfold Reader.mark
  split
  · exact h
  · rename_i hr
    exact holds_skipGap hr h

theorem holds_atEnd {r : Reader} (h : z.Holds d r) : z.Holds d r.atEnd.2 := by
  unfold Reader.atEnd
  split
  · exact h
  · rename_i hr
    exact holds_skipGap hr h

theorem moves_note {event : Event} : z.Moves d (note event) d :=
  fun _ hr => holds_push hr

/-- A text that is no token starts with the character at fault. -/
theorem read_error {expected : List Kind} {t : Text} {flaw : Lexeme.Flaw}
    (h : Lexeme.read expected t = .error flaw) :
    ∃ c rest, t = c :: rest ∧
      (flaw = .unrecognized c ∨ ∃ k closer, flaw = .unterminated k c closer) := by
  cases t with
  | nil => cases h
  | cons c t =>
    refine ⟨c, t, rfl, ?_⟩
    simp only [Lexeme.read] at h
    split at h
    · rename_i k o closer hf
      have ho := List.find?_some hf
      simp only [Bool.and_eq_true, decide_eq_true_eq] at ho
      obtain ⟨rfl, _⟩ := ho
      split at h
      · cases h
      · cases h
        exact .inr ⟨k, closer, rfl⟩
    · split at h
      · cases h
      · split at h
        · cases h
        · split at h
          · cases h
          · cases h
            exact .inl rfl

theorem meets_cut (expected : List Kind) :
    Meets (fun r => z.Holds d r ∧ r.ahead = none) (cut expected)
      (fun t r => r.source = source ∧ z.has d t.offset ∧ Written source t r.offset)
      z.Faulty := by
  intro r hr
  obtain ⟨hsource, hhas⟩ := (holds_none (r := r.skipGap) hr.2).mp (holds_skipGap hr.2 hr.1)
  have hrest : r.skipGap.rest = source.drop r.skipGap.offset := by
    rw [← hsource]
    rfl
  cases hread : Lexeme.read expected r.skipGap.rest with
  | error flaw =>
    obtain ⟨c, rest, hc, hflaw⟩ := read_error hread
    rw [hrest] at hc
    simp only [cut, hread, hsource]
    refine ⟨hsource, d, r.skipGap.offset, hhas, ?_⟩
    have hgap : gapLength (source.drop r.skipGap.offset) = 0 := by
      rw [← hrest, rest_skipGap]
      exact gapLength_drop _
    rcases hflaw with rfl | ⟨k, closer, rfl⟩
    · exact .unrecognized hc hgap
    · exact .unterminated hc hgap
  | ok l =>
    obtain ⟨w, rest, he, hs, hw⟩ := read_sound hread
    have hstop : source.drop (r.skipGap.offset + w.length) = rest := by
      rw [← List.drop_drop, ← hrest, he, List.drop_left]
    simp only [cut, hread, hsource]
    refine ⟨trivial, hhas, ⟨w, ?_, ?_, by rw [hw]⟩, placeOf_eq source l _⟩
    · rw [← hw, hstop, ← he, hrest]
    · rw [← hw, hstop]
      exact hs

theorem meets_look (expected : List Kind) :
    Meets (z.Holds d) (look expected) (fun t r => z.Holds d r ∧ r.ahead = some t) z.Faulty := by
  intro r hr
  cases ha : r.ahead with
  | some t =>
    have hl : look expected r = .ok t r := by simp only [look, ha]
    rw [hl]
    exact ⟨hr, ha⟩
  | none =>
    cases hc : cut expected r with
    | error e s =>
      simp only [look, ha, hc]
      exact (meets_cut expected).error ⟨hr, ha⟩ hc
    | ok t s =>
      simp only [look, ha, hc]
      have hcut := (meets_cut expected).ok (r := r) ⟨hr, ha⟩ hc
      exact ⟨hcut, rfl⟩

theorem meets_peek (expected : List Kind) :
    Meets (z.Holds d) (peek expected)
      (fun k r => z.Holds d r ∧ (∃ t, r.ahead = some t ∧ t.kind = k) ∧
        (expected.isEmpty || expected.contains k)) z.Faulty := by
  refine meets_bind (meets_look expected) fun t => ?_
  by_cases hk : (expected.isEmpty || expected.contains t.kind) = true
  · rw [if_pos hk]
    exact meets_pure fun r hr => ⟨hr.1, ⟨t, hr.2, rfl⟩, hk⟩
  · rw [if_neg hk]
    refine meets_throw fun r hr => ⟨hr.1.1, d, t.offset, ?_⟩
    obtain ⟨_, hhas, hw⟩ := (holds_some hr.2).mp hr.1
    exact ⟨hhas, .unexpected hw⟩

/-- Scanning takes the token that is ahead. -/
theorem meets_scan {d' : Nat} {k : Kind}
    (hstep : ∀ {o w rest v}, z.has d o → source.drop o = w ++ rest → Spelling rest k w v →
      z.has d' (o + w.length)) :
    Meets (z.Holds d) (scan k) (fun t r => z.Holds d' r ∧ t.kind = k ∧ z.Known t) z.Faulty := by
  refine meets_bind (meets_peek [k]) fun j => ?_
  intro r hr
  obtain ⟨hholds, ⟨t, ha, hj⟩, hk⟩ := hr
  have hkind : t.kind = k := by simpa [hj] using hk
  obtain ⟨hsource, hhas, hw⟩ := (holds_some ha).mp hholds
  obtain ⟨w, hd, hs, hstop⟩ := hw.spelled
  rw [hkind] at hs
  have hlook : look [k] r = .ok t r := by simp only [look, ha]
  rw [bind_of_ok hlook]
  refine ⟨⟨hsource, ?_⟩, hkind, d, r.offset, hhas, hw⟩
  change z.has d' r.offset
  rw [hstop]
  exact hstep hhas hd hs

section Steps
variable {Q : β → Reader → Prop}

theorem peek_then {expected : List Kind} {f : Kind → Read β} (hne : expected ≠ [])
    (hf : ∀ k ∈ expected, Meets (z.Holds d) (f k) Q z.Faulty) :
    Meets (z.Holds d) (peek expected >>= f) Q z.Faulty := by
  refine meets_bind (meets_peek expected) fun k => ?_
  intro r hr
  have hk : k ∈ expected := by simpa [hne] using hr.2.2
  exact hf k hk r hr.1

theorem scan_then {k : Kind} {f : Token → Read β} (hk : k.isFlat)
    (hf : ∀ t, t.kind = k → z.Known t → Meets (z.Holds d) (f t) Q z.Faulty) :
    Meets (z.Holds d) (scan k >>= f) Q z.Faulty := by
  refine meets_bind_fact (meets_scan fun hhas hd hs => z.flat hhas hd hs hk) fun t ht => ?_
  exact hf t ht.1 ht.2

theorem open_then {f : Token → Read β}
    (hf : ∀ t, Meets (z.Holds (d + 1)) (f t) Q z.Faulty) :
    Meets (z.Holds d) (scan .openBrace >>= f) Q z.Faulty :=
  meets_bind_fact (meets_scan z.opens) fun t _ => hf t

theorem close_then {f : Token → Read β} (hf : ∀ t, Meets (z.Holds d) (f t) Q z.Faulty) :
    Meets (z.Holds (d + 1)) (scan .closeBrace >>= f) Q z.Faulty :=
  meets_bind_fact (meets_scan z.closes) fun t _ => hf t

theorem moves_then {d' : Nat} {x : Read α} {f : α → Read β} (hx : z.Moves d x d')
    (hf : ∀ a, Meets (z.Holds d') (f a) Q z.Faulty) : Meets (z.Holds d) (x >>= f) Q z.Faulty :=
  meets_bind hx hf

end Steps

theorem moves_pure {a : α} : z.Moves d (pure a : Read α) d :=
  meets_pure fun _ hr => hr

theorem moves_map {d' : Nat} {x : Read α} {f : α → β} (h : z.Moves d x d') :
    z.Moves d (f <$> x) d' :=
  meets_map h

/-- What a rule says of its value may be left out. -/
theorem moves_of_meets {d' : Nat} {x : Read α} {K : α → Prop}
    (h : Meets (z.Holds d) x (fun a r => z.Holds d' r ∧ K a) z.Faulty) : z.Moves d x d' :=
  meets_mono h fun _ _ hr => hr.1

theorem moves_scan {k : Kind} (hk : k.isFlat) : z.Moves d (scan k) d :=
  moves_of_meets (meets_scan fun hhas hd hs => z.flat hhas hd hs hk)

theorem moves_collect {round : Read (Option α)} (h : z.Moves d round d) :
    z.Moves d (collect round) d := by
  have hround : Meets (z.Holds d) round (fun o r => z.Holds d r ∧ ∀ a ∈ o, True) z.Faulty :=
    meets_mono h fun _ _ hr => ⟨hr, fun _ _ => trivial⟩
  exact moves_of_meets (meets_collect hround)

end Zone
end Reader

namespace Grammar
open Statewright.Language Reader

variable {source : Text} {z : Zone source} {d : Nat}

theorem moves_scanFragment {k : Kind} (hk : k.isFlat) : z.Moves d (scanFragment k) d :=
  Zone.moves_map (Zone.moves_scan hk)

theorem moves_optionalBlock {expected : List Kind} (hne : expected ≠ []) :
    z.Moves d (optionalBlock expected) d := by
  refine Zone.peek_then hne fun k _ => ?_
  split
  · exact Zone.moves_map (moves_scanFragment rfl)
  · exact Zone.moves_pure

theorem moves_argument : z.Moves d argument d :=
  Zone.scan_then rfl fun _ _ _ => Zone.scan_then rfl fun _ _ _ => Zone.scan_then rfl fun _ _ _ =>
    Zone.moves_pure

theorem moves_clock : z.Moves d clock d := by
  refine Zone.peek_then (by simp) fun k _ => ?_
  split
  · exact Zone.scan_then rfl fun _ _ _ =>
      Zone.moves_then (moves_scanFragment rfl) fun _ => Zone.moves_pure
  · exact Zone.scan_then rfl fun _ _ _ =>
      Zone.moves_then (moves_scanFragment rfl) fun _ => Zone.moves_pure
  · exact Zone.moves_pure

theorem moves_prologue : z.Moves d prologue d := by
  refine Zone.peek_then (by simp) fun k _ => ?_
  split
  · refine Zone.scan_then rfl fun _ _ _ => ?_
    refine Zone.moves_then (moves_scanFragment rfl) fun _ => ?_
    exact Zone.moves_then moves_clock fun _ => Zone.moves_pure
  · exact Zone.moves_then moves_clock fun _ => Zone.moves_pure

/-- A token of one of the kinds that are looked for. -/
theorem meets_choice {expected : List Kind} (hne : expected ≠ [])
    (hflat : ∀ k ∈ expected, k.isFlat) :
    Meets (z.Holds d) (peek expected >>= scan)
      (fun t r => z.Holds d r ∧ t.kind ∈ expected ∧ z.Known t) z.Faulty := by
  refine Zone.peek_then hne fun k hk => ?_
  refine meets_mono (Zone.meets_scan fun hhas hd hs => z.flat hhas hd hs (hflat k hk)) ?_
  intro t r hr
  exact ⟨hr.1, hr.2.1 ▸ hk, hr.2.2⟩

theorem moves_constant : z.Moves d constant d :=
  Zone.moves_of_meets (meets_choice (by simp) (by simp [Kind.isFlat]))

theorem moves_timer : z.Moves d timer d := by
  refine Zone.scan_then rfl fun _ _ _ => Zone.scan_then rfl fun _ _ _ =>
    Zone.scan_then rfl fun _ _ _ => ?_
  refine Zone.moves_then moves_constant fun _ => ?_
  refine Zone.scan_then rfl fun _ _ _ => Zone.scan_then rfl fun _ _ _ => ?_
  exact Zone.moves_then Zone.moves_note fun _ => Zone.moves_pure

/-- A variable without a type is blamed on its only word. -/
theorem moves_variableDecl {family : Family} {kind : Kind} (hk : kind.isFlat) :
    z.Moves d (variableDecl family kind) d := by
  refine Zone.scan_then hk fun _ _ _ => Zone.scan_then rfl fun first hfirst hknown => ?_
  refine Zone.moves_then (Zone.moves_collect ?_) fun others => ?_
  · refine Zone.peek_then (by simp) fun k _ => ?_
    split
    · exact Zone.moves_map (Zone.moves_scan rfl)
    · exact Zone.moves_pure
  · refine Zone.moves_then (moves_scanFragment rfl) fun _ => Zone.scan_then rfl fun _ _ _ => ?_
    cases others with
    | nil =>
      refine meets_bind (Q := fun _ _ => False) (meets_throw fun r hr => ⟨hr.1, ?_⟩) ?_
      · obtain ⟨d', stop, hhas, hw⟩ := hknown
        exact ⟨d', first.offset, hhas, .untyped hw (.inl hfirst)⟩
      · exact fun _ _ hr => hr.elim
    | cons other others => exact Zone.moves_then Zone.moves_note fun _ => Zone.moves_pure

theorem moves_declaration : z.Moves d declaration d := by
  refine Zone.peek_then (by simp) fun k _ => ?_
  split
  · exact Zone.moves_then moves_timer fun _ => Zone.moves_pure
  · exact Zone.moves_then (moves_variableDecl rfl) fun _ => Zone.moves_pure
  · exact Zone.moves_then (moves_variableDecl rfl) fun _ => Zone.moves_pure
  · exact Zone.moves_then (moves_variableDecl rfl) fun _ => Zone.moves_pure
  · exact Zone.moves_pure

theorem moves_opening : z.Moves d opening (d + 1) := by
  refine Zone.moves_then moves_prologue fun _ => Zone.moves_then ?_ fun _ => Zone.moves_pure
  refine Zone.scan_then rfl fun _ _ _ => Zone.scan_then rfl fun _ _ _ => Zone.open_then fun _ => ?_
  exact Zone.moves_then (Zone.moves_collect moves_declaration) fun _ => Zone.moves_pure

theorem moves_ending : z.Moves (d + 1) ending d :=
  Zone.close_then fun _ => Zone.scan_then rfl fun _ _ _ => Zone.moves_pure

theorem moves_jump : z.Moves d jump d := by
  refine Zone.peek_then (by simp) fun k _ => ?_
  split
  · exact Zone.scan_then rfl fun _ _ _ => Zone.scan_then rfl fun _ _ _ => Zone.moves_pure
  · exact Zone.scan_then rfl fun _ _ _ => Zone.scan_then rfl fun _ _ _ => Zone.moves_pure
  · refine Zone.scan_then rfl fun t ht hknown => meets_throw fun r hr => ⟨hr.1, ?_⟩
    obtain ⟨d', stop, hhas, hw⟩ := hknown
    exact ⟨d', t.offset, hhas, .retryOverflow hw ht⟩

theorem moves_action : z.Moves d action d := by
  refine Zone.peek_then (by simp) fun k _ => ?_
  split
  · exact Zone.scan_then rfl fun _ _ _ => Zone.moves_pure
  · exact Zone.moves_then moves_jump fun _ => Zone.moves_pure

theorem moves_trigger : z.Moves d trigger d := by
  refine Zone.peek_then (by simp) fun k _ => ?_
  split
  · exact Zone.moves_then (moves_scanFragment rfl) fun _ => Zone.moves_pure
  · exact Zone.scan_then rfl fun _ _ _ => Zone.moves_then moves_argument fun _ => Zone.moves_pure

theorem moves_transition : z.Moves d transition d := by
  refine Zone.scan_then rfl fun _ _ _ => Zone.moves_then moves_trigger fun _ => ?_
  refine Zone.moves_then (moves_optionalBlock (by simp)) fun _ => ?_
  refine Zone.moves_then moves_action fun _ => Zone.moves_then (Zone.moves_collect ?_) fun _ => ?_
  · refine Zone.peek_then (by simp) fun k _ => ?_
    split
    · exact Zone.scan_then rfl fun _ _ _ => Zone.moves_map moves_argument
    · exact Zone.moves_pure
  · exact Zone.scan_then rfl fun _ _ _ => Zone.moves_pure

theorem moves_assignment : z.Moves d assignment d :=
  Zone.scan_then rfl fun _ _ _ => Zone.moves_then (moves_scanFragment rfl) fun _ => Zone.moves_pure

theorem moves_outs : z.Moves d outs d := by
  refine Zone.scan_then rfl fun _ _ _ => Zone.moves_then moves_assignment fun _ => ?_
  refine Zone.moves_then (Zone.moves_collect ?_) fun _ => ?_
  · refine Zone.peek_then (by simp) fun k _ => ?_
    split
    · exact Zone.scan_then rfl fun _ _ _ => Zone.moves_map moves_assignment
    · exact Zone.moves_pure
  · exact Zone.scan_then rfl fun _ _ _ => Zone.moves_pure

/-- A flag is a word that stands in the zone, whether or not it is one of the known ones. -/
theorem meets_flag :
    Meets (z.Holds d) flag (fun t r => z.Holds d r ∧ t.kind.IsWord ∧ z.Known t) z.Faulty := by
  refine meets_mono (meets_choice (by simp) (by simp [Kind.isFlat])) ?_
  intro t r hr
  refine ⟨hr.1, ?_, hr.2.2⟩
  have hk := hr.2.1
  simp only [List.mem_cons, List.not_mem_nil, or_false] at hk
  rcases hk with hk | hk | hk <;> simp [Kind.IsWord, Kind.words, hk]

theorem meets_flagWords :
    Meets (z.Holds d) flagWords
      (fun ts r => z.Holds d r ∧ ∀ t ∈ ts, t.kind.IsWord ∧ z.Known t) z.Faulty := by
  refine Zone.peek_then (by simp) fun k _ => ?_
  split
  · refine Zone.scan_then rfl fun _ _ _ => meets_bind_fact meets_flag fun first hfirst => ?_
    refine meets_bind_fact (K := fun ts => ∀ t ∈ ts, t.kind.IsWord ∧ z.Known t)
      (meets_collect ?_) fun others hothers => ?_
    · refine Zone.peek_then (by simp) fun k _ => ?_
      split
      · refine Zone.scan_then rfl fun _ _ _ => meets_map (meets_mono meets_flag ?_)
        intro t r hr
        simpa using hr
      · exact meets_pure fun r hr => ⟨hr, by simp⟩
    · refine Zone.scan_then rfl fun _ _ _ => meets_pure fun r hr => ⟨hr, ?_⟩
      intro t ht
      rcases List.mem_cons.mp ht with rfl | ht
      · exact hfirst
      · exact hothers t ht
  · exact meets_pure fun r hr => ⟨hr, by simp⟩

theorem moves_checkFlag {t : Token} (hk : t.kind.IsWord) (ht : z.Known t) :
    z.Moves d (checkFlag t) d := by
  unfold checkFlag
  split
  · exact Zone.moves_pure
  · refine meets_throw fun r hr => ⟨hr.1, ?_⟩
    obtain ⟨d', stop, hhas, hw⟩ := ht
    exact ⟨d', t.offset, hhas, .unknownFlag hw hk⟩

theorem moves_member : z.Moves d member d := by
  refine Zone.peek_then (by simp) fun k _ => ?_
  split
  · exact Zone.moves_then moves_transition fun _ => Zone.moves_pure
  · exact Zone.moves_then moves_outs fun _ => Zone.moves_pure
  · exact Zone.moves_pure

/-- A state, once its first word was scanned. -/
theorem moves_state {P : Reader → Prop} {nested : Bool}
    (hfirst : Meets P (scan .state) (fun _ => z.Holds d) z.Faulty) :
    Meets P (state nested) (fun _ => z.Holds d) z.Faulty := by
  refine meets_bind hfirst fun _ => meets_bind_fact meets_flagWords fun words hwords => ?_
  refine Zone.scan_then rfl fun _ _ _ => Zone.open_then fun _ => ?_
  refine meets_bind (meets_mapM fun t ht => moves_checkFlag (hwords t ht).1 (hwords t ht).2) ?_
  refine fun _ => Zone.moves_then Zone.moves_note fun _ => ?_
  refine Zone.moves_then (moves_optionalBlock (by simp)) fun _ => ?_
  refine Zone.moves_then (Zone.moves_collect moves_member) fun _ => ?_
  exact Zone.close_then fun _ => Zone.moves_pure

/-- Inside braces a state's first word is nothing special. -/
theorem moves_first {k : Kind} (hk : k = .state ∨ k = .untilWord) :
    z.Moves (d + 1) (scan k) (d + 1) :=
  Zone.moves_of_meets (Zone.meets_scan fun hhas hd hs => z.starts hhas hd hs hk)

/-- A block, once its first word was scanned. -/
theorem moves_block {P : Reader → Prop}
    (hfirst : Meets P (scan .untilWord) (fun _ => z.Holds d) z.Faulty) :
    Meets P block (fun _ => z.Holds d) z.Faulty := by
  refine meets_bind hfirst fun _ => Zone.scan_then rfl fun _ _ _ => ?_
  refine Zone.moves_then moves_constant fun _ => Zone.scan_then rfl fun _ _ _ => ?_
  refine Zone.open_then fun _ => Zone.moves_then Zone.moves_note fun _ => ?_
  refine Zone.moves_then (Zone.moves_collect ?_) fun _ => ?_
  · refine Zone.peek_then (by simp) fun k _ => ?_
    split
    · exact Zone.moves_map (moves_state (moves_first (.inl rfl)))
    · exact Zone.moves_pure
  · refine Zone.close_then fun _ => Zone.moves_then moves_jump fun _ => ?_
    exact Zone.scan_then rfl fun _ _ _ => Zone.moves_pure

end Grammar
end Statewright
