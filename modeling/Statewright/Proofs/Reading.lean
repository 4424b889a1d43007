import Statewright.Reader
import Statewright.Proofs.Spelling

namespace Statewright
namespace Reader
open Statewright.Language

section Monad
variable {α β : Type} {r r' : Reader} {a : α} {b : β}

theorem bind_ok {x : Read α} {f : α → Read β} :
    (x >>= f) r = .ok b r' ↔ ∃ a s, x r = .ok a s ∧ f a s = .ok b r' := by
  change EStateM.bind x f r = _ ↔ _
  unfold EStateM.bind
  cases hx : x r with
  | ok a s => simp [and_assoc]
  | error e s => simp

theorem bind_of_ok {x : Read α} {f : α → Read β} (h : x r = .ok a r') :
    (x >>= f) r = f a r' := by
  change EStateM.bind x f r = _
  unfold EStateM.bind
  rw [h]

theorem bind_of_error {x : Read α} {f : α → Read β} {e : Fault} (h : x r = .error e r') :
    (x >>= f) r = .error e r' := by
  change EStateM.bind x f r = _
  unfold EStateM.bind
  rw [h]

theorem map_ok {x : Read α} {f : α → β} :
    (f <$> x) r = .ok b r' ↔ ∃ a, x r = .ok a r' ∧ f a = b := by
  change EStateM.map f x r = _ ↔ _
  unfold EStateM.map
  cases hx : x r with
  | ok a s =>
    constructor
    · intro h
      cases h
      exact ⟨a, rfl, rfl⟩
    · rintro ⟨_, h, rfl⟩
      cases h
      rfl
  | error e s => simp

theorem map_of_ok {x : Read α} {f : α → β} (h : x r = .ok a r') :
    (f <$> x) r = .ok (f a) r' :=
  map_ok.mpr ⟨a, h, rfl⟩

theorem pure_ok {a b : α} : (pure a : Read α) r = .ok b r' ↔ a = b ∧ r = r' := by
  change EStateM.Result.ok a r = _ ↔ _
  simp

theorem throw_ok {f : Fault} : (throw f : Read α) r = .ok a r' ↔ False := by
  change EStateM.Result.error f r = _ ↔ _
  simp

theorem note_ok {event : Event} {u : Unit} : note event r = .ok u r' ↔ r.push event = r' := by
  change EStateM.Result.ok () (r.push event) = _ ↔ _
  simp

end Monad

/-- The tokens are the next ones of the source; a token that was looked at is the first. -/
def Stands (r : Reader) : List Token → Prop
  | [] => True
  | t :: ts =>
    match r.ahead with
    | none => Spelled r.source r.offset (t :: ts)
    | some a => a = t ∧ Spelled r.source r.offset ts

theorem stands_cut {r : Reader} {ts : List Token} (h : r.ahead = none) :
    Stands r ts ↔ Spelled r.source r.offset ts := by
  cases ts with
  | nil => exact ⟨fun _ => .nil, fun _ => trivial⟩
  | cons t ts => simp only [Stands, h]

theorem stands_ahead {r : Reader} {a t : Token} {ts : List Token} (h : r.ahead = some a) :
    Stands r (t :: ts) ↔ a = t ∧ Spelled r.source r.offset ts := by
  simp only [Stands, h]

theorem stands_push {r : Reader} {event : Event} {ts : List Token} :
    Stands (r.push event) ts ↔ Stands r ts := by
  cases ts <;> exact Iff.rfl

theorem note_complete {r : Reader} {ts : List Token} (event : Event) (h : Stands r ts) :
    ∃ r', note event r = .ok () r' ∧ Stands r' ts :=
  ⟨r.push event, rfl, stands_push.mpr h⟩

/-- The tokens stand in the source from one offset up to another, with gaps in between. -/
inductive Path (source : Text) : Nat → List Token → Nat → Prop
  | refl : Path source n [] n
  | gap : source.drop n = g ++ after → Gap after g → Path source (n + g.length) ts m →
      Path source n ts m
  | token : source.drop n = w ++ after → Spelling after k w v →
      Path source (n + w.length) ts m → Path source n (⟨k, v, placeOf source k n, n⟩ :: ts) m

theorem Path.trans {source : Text} {n m k : Nat} {ts us : List Token} (h : Path source n ts m)
    (h' : Path source m us k) : Path source n (ts ++ us) k := by
  induction h with
  | refl => exact h'
  | gap hd hg _ ih => exact .gap hd hg (ih h')
  | token hd hs _ ih => exact .token hd hs (ih h')

/-- Reading from `r` to `r'` goes over the tokens. Each but the end of the source leaves less to
scan. A token that was looked at was cut before. -/
structure Passes (r : Reader) (ts : List Token) (r' : Reader) : Prop where
  stands : ∀ us, Stands r' us → Stands r (ts ++ us)
  remaining : r'.remaining + ts.countP (·.kind ≠ .eof) ≤ r.remaining
  path : r'.source = r.source ∧ ∃ us, r.ahead.toList ++ us = ts ++ r'.ahead.toList ∧
    Path r.source r.offset us r'.offset

namespace Passes

theorem refl (r : Reader) : Passes r [] r :=
  ⟨fun _ h => h, by simp, rfl, [], List.append_nil _, .refl⟩

theorem trans {r s u : Reader} {ts us : List Token} (h : Passes r ts s) (h' : Passes s us u) :
    Passes r (ts ++ us) u := by
  refine ⟨?_, ?_, ?_⟩
  · intro vs hv
    rw [List.append_assoc]
    exact h.stands _ (h'.stands vs hv)
  · have h1 := h.remaining
    have h2 := h'.remaining
    rw [List.countP_append]
    omega
  · obtain ⟨hsource, vs, hv, hpath⟩ := h.path
    obtain ⟨hsource', vs', hv', hpath'⟩ := h'.path
    rw [hsource] at hpath'
    refine ⟨hsource'.trans hsource, vs ++ vs', ?_, hpath.trans hpath'⟩
    rw [← List.append_assoc, hv, List.append_assoc, hv', List.append_assoc]

theorem cons {r s u : Reader} {t : Token} {us : List Token} (h : Passes r [t] s)
    (h' : Passes s us u) : Passes r (t :: us) u :=
  h.trans h'

/-- Notes do not matter to what is read. -/
theorem push (r : Reader) (event : Event) : Passes r [] (r.push event) :=
  ⟨fun _ h => stands_push.mp h, by simp [Reader.remaining, Reader.rest, Reader.push], rfl, [],
    List.append_nil _, .refl⟩

theorem eager {r r' : Reader} {t : Token} {ts : List Token} (h : Passes r (t :: ts) r')
    (hk : t.kind ≠ .eof) : r'.remaining < r.remaining := by
  have hr := h.remaining
  simp only [List.countP_cons, ne_eq, decide_not, hk, decide_false, Bool.not_false, ↓reduceIte]
    at hr
  omega

end Passes

theorem delimiters?_isSome (k : Kind) : k.delimiters?.isSome ↔ k = .block ∨ k = .expr := by
  rw [Kind.delimiters?, List.lookup_isSome_iff]
  simp [Kind.fragments]

theorem placeOf_eq (source : Text) (l : Lexeme) (n : Nat) :
    Position.inSource source (n + l.placeOffset) = placeOf source l.kind n := by
  unfold placeOf Lexeme.placeOffset
  simp only [delimiters?_isSome]
  split <;> rfl

theorem rest_skipGap (r : Reader) : r.skipGap.rest = r.rest.drop (gapLength r.rest) := by
  simp only [skipGap, Reader.rest, List.drop_drop]

/-- Cutting takes one token that stands in the source, and nothing else. -/
theorem cut_sound {expected : List Kind} {r r' : Reader} {t : Token}
    (h : cut expected r = .ok t r') :
    r'.ahead = r.ahead ∧
      (∀ ts, Spelled r'.source r'.offset ts → Spelled r.source r.offset (t :: ts)) ∧
      r'.rest.length + (if t.kind = .eof then 0 else 1) ≤ r.rest.length := by
  simp only [cut] at h
  split at h
  · cases h
  · rename_i l hl
    cases h
    obtain ⟨w, rest, he, hs, hw⟩ := read_sound hl
    rw [rest_skipGap] at he
    have hg := gapLength_sound r.rest
    have hlen : (r.rest.take (gapLength r.rest)).length = gapLength r.rest := by
      rw [List.length_take, Nat.min_eq_left (gapLength_le _)]
    refine ⟨rfl, ?_, ?_⟩
    · intro ts hts
      have hsrc : r.source.drop r.offset = r.rest.take (gapLength r.rest) ++ (w ++ rest) := by
        rw [← he, List.take_append_drop]
        rfl
      rw [he] at hg
      have hc (us : List Token) := @Spelled.cons _ _ _ _ _ _ _ us hsrc hg hs
      simp only [hlen, hw, ← placeOf_eq] at hc
      exact hc ts hts
    · have hr : ({ r.skipGap with offset := r.skipGap.offset + l.length } : Reader).rest =
          rest := by
        have hdrop := congrArg (List.drop l.length) he
        rw [← hw, List.drop_left, hw, ← rest_skipGap] at hdrop
        rw [← hdrop]
        simp only [Reader.rest, List.drop_drop, skipGap]
      have htot := congrArg List.length he
      rw [List.length_drop, List.length_append] at htot
      have hle := gapLength_le r.rest
      rw [hr]
      split
      · omega
      · rename_i hk
        have := hs.length_pos hk
        omega

/-- The offset of a reader that has skipped a gap. -/
theorem path_skipGap (r : Reader) : Path r.source r.offset [] r.skipGap.offset := by
  have hlen : (r.rest.take (gapLength r.rest)).length = gapLength r.rest := by
    rw [List.length_take, Nat.min_eq_left (gapLength_le _)]
  have hpath : Path r.source (r.offset + (r.rest.take (gapLength r.rest)).length) []
      r.skipGap.offset := by
    rw [hlen]
    exact .refl
  exact .gap (List.take_append_drop (gapLength r.rest) r.rest).symm (gapLength_sound r.rest) hpath

theorem cut_path {expected : List Kind} {r r' : Reader} {t : Token}
    (h : cut expected r = .ok t r') :
    r'.source = r.source ∧ Path r.source r.offset [t] r'.offset := by
  simp only [cut] at h
  split at h
  · cases h
  · rename_i l hl
    cases h
    obtain ⟨w, rest, he, hs, hw⟩ := read_sound hl
    have htoken := Path.token he hs (.refl (n := r.skipGap.offset + w.length))
    rw [hw, ← placeOf_eq] at htoken
    exact ⟨rfl, (path_skipGap r).trans htoken⟩

/-- A token that stands next is cut if it may stand there. -/
theorem cut_complete {expected : List Kind} {r : Reader} {t : Token} {ts : List Token}
    (h : Spelled r.source r.offset (t :: ts)) (ha : Admits expected t.kind) :
    ∃ r', cut expected r = .ok t r' ∧ Spelled r'.source r'.offset ts := by
  generalize hs : r.source = source at h
  generalize hn : r.offset = n at h
  cases h with
  | @cons _ g w rest k v _ hd hg hsp hts =>
    subst hs hn
    have hrest : r.rest = g ++ (w ++ rest) := hd
    have hgap : gapLength r.rest = g.length := by
      rw [hrest]
      exact gapLength_complete hg hsp.gapLength_zero
    have hskip : r.skipGap.rest = w ++ rest := by
      rw [rest_skipGap, hgap, hrest, List.drop_left]
    have hoff : r.skipGap.offset = r.offset + g.length := by
      simp only [skipGap, hgap]
    refine ⟨{ r.skipGap with offset := r.offset + g.length + w.length }, ?_, hts⟩
    simp only [cut, hskip, read_complete hsp ha, hoff, placeOf_eq]
    rfl

theorem look_sound {expected : List Kind} {r r' : Reader} {t : Token}
    (h : look expected r = .ok t r') : r'.ahead = some t ∧ Passes r [] r' := by
  simp only [look] at h
  cases ha : r.ahead with
  | some a =>
    rw [ha] at h
    cases h
    exact ⟨ha, .refl r⟩
  | none =>
    rw [ha] at h
    cases hc : cut expected r with
    | error f s => simp [hc] at h
    | ok u s =>
      simp only [hc] at h
      cases h
      obtain ⟨_, hs, hl⟩ := cut_sound hc
      obtain ⟨hsource, hpath⟩ := cut_path hc
      refine ⟨rfl, ?_, ?_, hsource, [t], by rw [ha]; rfl, hpath⟩
      · intro us hu
        cases us with
        | nil => trivial
        | cons v us =>
          obtain ⟨rfl, hsp⟩ := (stands_ahead rfl).mp hu
          exact (stands_cut ha).mpr (hs us hsp)
      · simp only [Reader.remaining, ha, push, Option.toList_some, Option.toList_none,
          List.filter_nil, List.length_nil, List.countP_nil]
        change s.rest.length + _ + 0 ≤ _
        by_cases hk : t.kind = .eof <;> simp_all

theorem peek_sound {expected : List Kind} {r r' : Reader} {k : Kind}
    (h : peek expected r = .ok k r') (hne : expected ≠ []) :
    k ∈ expected ∧ (∃ t, r'.ahead = some t ∧ t.kind = k) ∧ Passes r [] r' := by
  obtain ⟨t, s, hl, h⟩ := bind_ok.mp h
  obtain ⟨ha, hp⟩ := look_sound hl
  split at h
  · rename_i hk
    obtain ⟨rfl, rfl⟩ := pure_ok.mp h
    simp only [List.isEmpty_eq_false_iff.mpr hne, Bool.false_or, List.contains_iff_mem] at hk
    exact ⟨hk, ⟨t, ha, rfl⟩, hp⟩
  · exact (throw_ok.mp h).elim

theorem look_ahead {expected : List Kind} {r : Reader} {t : Token} (h : r.ahead = some t) :
    look expected r = .ok t r := by
  simp only [look, h]

theorem scan_ahead {r : Reader} {t : Token} (h : r.ahead = some t) :
    scan t.kind r = .ok t { r with ahead := none } := by
  have hpeek : peek [t.kind] r = .ok t.kind r := by
    rw [peek, bind_of_ok (look_ahead h)]
    simp only [List.isEmpty_cons, List.contains_cons, List.contains_nil, BEq.rfl, Bool.or_false,
      Bool.or_true, ↓reduceIte]
    rfl
  rw [scan, bind_of_ok hpeek, bind_of_ok (look_ahead h)]
  rfl

/-- A token that was looked at is passed by dropping it. -/
theorem passes_ahead {r : Reader} {t : Token} (h : r.ahead = some t) :
    Passes r [t] { r with ahead := none } := by
  refine ⟨?_, ?_, rfl, [], by rw [h]; rfl, .refl⟩
  · intro us hu
    have hsp := (stands_cut (r := { r with ahead := none }) rfl).mp hu
    exact (stands_ahead h).mpr ⟨rfl, hsp⟩
  · simp only [Reader.remaining, h, Option.toList_some, Option.toList_none, List.filter_nil,
      List.length_nil, List.countP_eq_length_filter]
    exact Nat.le_refl _

theorem scan_sound {k : Kind} {r r' : Reader} {t : Token} (h : scan k r = .ok t r') :
    t.kind = k ∧ Passes r [t] r' := by
  obtain ⟨k', s, hp, h⟩ := bind_ok.mp h
  obtain ⟨hk, ⟨u, ha, hu⟩, hpass⟩ := peek_sound hp (by simp)
  obtain ⟨_, _, hl, h⟩ := bind_ok.mp h
  rw [look_ahead ha] at hl
  cases hl
  obtain ⟨_, _, hm, h⟩ := bind_ok.mp h
  cases hm
  obtain ⟨rfl, rfl⟩ := pure_ok.mp h
  exact ⟨hu.trans (List.mem_singleton.mp hk), hpass.trans (passes_ahead ha)⟩

theorem look_complete {expected : List Kind} {r : Reader} {t : Token} {ts : List Token}
    (h : Stands r (t :: ts)) (ha : Admits expected t.kind) :
    ∃ r', look expected r = .ok t r' ∧ r'.ahead = some t ∧ Stands r' (t :: ts) := by
  cases hr : r.ahead with
  | some a =>
    obtain ⟨rfl, hs⟩ := (stands_ahead hr).mp h
    exact ⟨r, look_ahead hr, hr, h⟩
  | none =>
    obtain ⟨s, hc, hs⟩ := cut_complete ((stands_cut hr).mp h) ha
    refine ⟨{ s with ahead := some t }.push (.looked expected t), ?_, rfl, ?_⟩
    · simp only [look, hr, hc]
    · exact (stands_ahead rfl).mpr ⟨rfl, hs⟩

theorem peek_complete {expected : List Kind} {r : Reader} {t : Token} {ts : List Token}
    (h : Stands r (t :: ts)) (hm : t.kind ∈ expected) (ha : Admits expected t.kind) :
    ∃ r', peek expected r = .ok t.kind r' ∧ r'.ahead = some t ∧ Stands r' (t :: ts) := by
  obtain ⟨r', hl, hr, hs⟩ := look_complete h ha
  refine ⟨r', ?_, hr, hs⟩
  have hc : expected.contains t.kind = true := List.contains_iff_mem.mpr hm
  rw [peek, bind_of_ok hl, hc, Bool.or_true, if_pos rfl]
  rfl

/-- The next token is found if it is known to be one of the expected. -/
theorem peek_kind (expected : List Kind) {k : Kind} {r : Reader} {t : Token} {ts : List Token}
    (h : Stands r (t :: ts)) (hk : t.kind = k) (ha : k ∈ expected ∧ Admits expected k) :
    ∃ r', peek expected r = .ok k r' ∧ Stands r' (t :: ts) := by
  subst hk
  obtain ⟨r', hp, _, hs⟩ := peek_complete h ha.1 ha.2
  exact ⟨r', hp, hs⟩

theorem scan_complete {k : Kind} {r : Reader} {t : Token} {ts : List Token}
    (h : Stands r (t :: ts)) (hk : t.kind = k) :
    ∃ r', scan k r = .ok t r' ∧ Stands r' ts := by
  subst hk
  have ha : Admits [t.kind] t.kind := by
    refine ⟨fun _ => by simp, ?_, ?_⟩ <;> intro he <;> simp [he]
  obtain ⟨s, hp, hs, hst⟩ := peek_complete h (by simp) ha
  refine ⟨{ s with ahead := none }, ?_, ?_⟩
  · rw [scan, bind_of_ok hp, bind_of_ok (look_ahead hs)]
    rfl
  · exact (stands_cut rfl).mpr ((stands_ahead hs).mp hst).2

/-- Whatever `f` reads are the tokens of a form, and its result is the tree of that form. -/
def Yields {α : Type} (f : Read α) (form : List Token → α → Prop) : Prop :=
  ∀ ⦃r a r'⦄, f r = .ok a r' → ∃ ts, form ts a ∧ Passes r ts r'

/-- Every form that stands next is read by `f`, up to its last token. -/
def Accepts {α : Type} (f : Read α) (form : List Token → α → Prop) : Prop :=
  ∀ ⦃r ts a us⦄, form ts a → Stands r (ts ++ us) → ∃ r', f r = .ok a r' ∧ Stands r' us

/-- Every form begins with a token of one of the kinds. -/
def Begins {α : Type} (form : List Token → α → Prop) (ks : List Kind) : Prop :=
  ∀ ⦃ts a⦄, form ts a → ∃ t us, ts = t :: us ∧ t.kind ∈ ks

/-- A form that is there, where it could be missing. -/
inductive Just {α : Type} (form : List Token → α → Prop) : List Token → Option α → Prop
  | mk : form ts a → Just form ts (some a)

theorem Yields.just {α : Type} {f : Read α} {form : List Token → α → Prop} (h : Yields f form) :
    Yields (some <$> f) (Just form) := by
  intro r o r' hr
  obtain ⟨a, ha, rfl⟩ := map_ok.mp hr
  obtain ⟨ts, hf, p⟩ := h ha
  exact ⟨ts, .mk hf, p⟩

theorem Accepts.just {α : Type} {f : Read α} {form : List Token → α → Prop} (h : Accepts f form) :
    Accepts (some <$> f) (Just form) := by
  intro r ts o us hj hs
  cases hj with
  | mk hf =>
    obtain ⟨r', hr, hs'⟩ := h hf hs
    exact ⟨r', map_of_ok hr, hs'⟩

section Loops
variable {α : Type} {form : List Token → α → Prop} {round : Read (Option α)}
  {expected : List Kind} {k : Kind}

/-- A loop goes over a number of forms if each of its rounds goes over one, or over nothing. -/
theorem collect_yields (hround : Yields round (Opt form)) :
    Yields (collect round) (Many form) := by
  intro r as r' h
  fun_induction collect round r generalizing as r' with
  | case1 r f s hr => cases h
  | case2 r s hr =>
    cases h
    obtain ⟨ts, hf, hp⟩ := hround hr
    cases hf
    exact ⟨[], .nil, hp⟩
  | case3 r a s hr hlt bs u hc ih =>
    cases h
    obtain ⟨ts, hf, hp⟩ := hround hr
    cases hf with
    | some hf =>
      obtain ⟨us, hm, hq⟩ := ih hc
      exact ⟨ts ++ us, .cons hf hm, hp.trans hq⟩
  | case4 r a s hr hlt f u hc ih => cases h
  | case5 r a s hr hlt =>
    cases h
    obtain ⟨ts, hf, hp⟩ := hround hr
    cases hf with
    | some hf => exact ⟨ts ++ [], .cons hf .nil, by rw [List.append_nil]; exact hp⟩

/-- A round that gives something has scanned a token. -/
theorem Yields.eager (hround : Yields round (Opt form)) {ks : List Kind} (hb : Begins form ks)
    (hk : .eof ∉ ks) {r r' : Reader} {a : α} (h : round r = .ok (some a) r') :
    r'.remaining < r.remaining := by
  obtain ⟨ts, hf, hp⟩ := hround h
  cases hf with
  | some hf =>
    obtain ⟨t, us, rfl, ht⟩ := hb hf
    exact hp.eager (by rintro he; exact hk (he ▸ ht))

/-- A loop reads any number of forms if each round reads one and the rounds stop at what follows. -/
theorem collect_complete {ks : List Kind} {us : List Token}
    (hround : Yields round (Opt form)) (hb : Begins form ks) (hk : .eof ∉ ks)
    (hsome : ∀ {r ts a us}, form ts a → Stands r (ts ++ us) →
      ∃ r', round r = .ok (some a) r' ∧ Stands r' us)
    (hnone : ∀ {r}, Stands r us → ∃ r', round r = .ok none r' ∧ Stands r' us)
    {r : Reader} {ts : List Token} {as : List α} (hm : Many form ts as)
    (hs : Stands r (ts ++ us)) : ∃ r', collect round r = .ok as r' ∧ Stands r' us := by
  induction hm generalizing r with
  | nil =>
    obtain ⟨r', hr, hs'⟩ := hnone hs
    exact ⟨r', by rw [collect, hr], hs'⟩
  | cons hform _ ih =>
    rw [List.append_assoc] at hs
    obtain ⟨s, hr, hs'⟩ := hsome hform hs
    obtain ⟨r', hc, hs''⟩ := ih hs'
    refine ⟨r', ?_, hs''⟩
    rw [collect, hr]
    simp only [hround.eager hb hk hr, ↓reduceIte, hc]

/-- A number of forms and the token after them begin as one of the forms does or with that token. -/
theorem many_begins {ks : List Kind} {ts : List Token} {as : List α} {t : Token}
    (h : Many form ts as) (hb : Begins form ks) (ht : t.kind = k) (us : List Token) :
    ∃ u vs, ts ++ t :: us = u :: vs ∧ u.kind ∈ k :: ks := by
  cases h with
  | nil => exact ⟨t, us, rfl, by simp [ht]⟩
  | cons hf _ =>
    obtain ⟨u, vs, rfl, hu⟩ := hb hf
    exact ⟨u, _, rfl, List.mem_cons_of_mem _ hu⟩

/-- A choice by the next token between a form and nothing. -/
theorem guarded_yields {body : Read (Option α)} (hne : expected ≠ [])
    (hbody : Yields body (Just form)) :
    Yields (do if (← peek expected) = k then body else return none) (Opt form) := by
  intro r a r' h
  obtain ⟨k', s, hp, h⟩ := bind_ok.mp h
  obtain ⟨_, _, hpass⟩ := peek_sound hp hne
  split at h
  · obtain ⟨ts, hj, hq⟩ := hbody h
    cases hj with
    | mk hf => exact ⟨ts, .some hf, hpass.trans hq⟩
  · obtain ⟨rfl, rfl⟩ := pure_ok.mp h
    exact ⟨[], .none, hpass⟩

theorem guarded_some {body : Read (Option α)} (hm : k ∈ expected) (ha : Admits expected k)
    (hb : Begins form [k]) (hbody : Accepts body (Just form)) {r : Reader} {ts us : List Token}
    {a : α} (hf : form ts a) (hs : Stands r (ts ++ us)) :
    ∃ r', (do if (← peek expected) = k then body else return none : Read (Option α)) r =
      .ok (some a) r' ∧ Stands r' us := by
  obtain ⟨t, vs, rfl, ht⟩ := hb hf
  obtain rfl := List.mem_singleton.mp ht
  obtain ⟨s, hp, _, hs'⟩ := peek_complete hs hm ha
  obtain ⟨r', hr, hs''⟩ := hbody (.mk hf) hs'
  exact ⟨r', by rw [bind_of_ok hp, if_pos rfl, hr], hs''⟩

theorem guarded_none {body : Read (Option α)} {t : Token} {us : List Token} {r : Reader}
    (hm : t.kind ∈ expected) (ha : Admits expected t.kind) (hk : t.kind ≠ k)
    (hs : Stands r (t :: us)) :
    ∃ r', (do if (← peek expected) = k then body else return none : Read (Option α)) r =
      .ok none r' ∧ Stands r' (t :: us) := by
  obtain ⟨s, hp, _, hs'⟩ := peek_complete hs hm ha
  exact ⟨s, by rw [bind_of_ok hp, if_neg hk]; rfl, hs'⟩

/-- A loop of such choices, which ends at the token `t`. -/
theorem guarded_loop (expected : List Kind) {body : Read (Option α)} {r : Reader} {t : Token}
    {ts us : List Token} {as : List α} (hy : Yields body (Just form))
    (hbody : Accepts body (Just form)) (hb : Begins form [k]) (hk : k ≠ .eof)
    (ha : ∀ x ∈ expected, Admits expected x)
    (hm : k ∈ expected) (ht : t.kind ∈ expected) (htk : t.kind ≠ k) (h : Many form ts as)
    (hs : Stands r (ts ++ t :: us)) :
    ∃ r', collect (do if (← peek expected) = k then body else return none) r = .ok as r' ∧
      Stands r' (t :: us) := by
  refine collect_complete (guarded_yields (List.ne_nil_of_mem hm) hy) hb ?_ ?_ ?_ h hs
  · simpa using Ne.symm hk
  · exact guarded_some hm (ha k hm) hb hbody
  · exact guarded_none ht (ha t.kind ht) htk

end Loops

end Reader
end Statewright
