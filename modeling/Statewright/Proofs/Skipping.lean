import Statewright.Proofs.Segments
import Statewright.Proofs.WellFormed

namespace Statewright

/-- All the foreign code of a state. -/
def State.fragments (s : State) : List Fragment :=
  Machine.codeOf s ++ s.transitions.filterMap (·.trigger.condition?)

def Item.fragments (i : Item) : List Fragment :=
  i.states.flatMap State.fragments

namespace Language

/-- Braces are nested, so many of them being open before, with those in comments left out; the text
does not end in a comment. -/
def skips : (inComment : Bool) → (depth : Nat) → Text → Bool
  | inComment, depth, [] => !inComment && depth == 0
  | true, depth, c :: t => skips (c != '\n') depth t
  | false, depth, '/' :: '/' :: t => skips true depth t
  | false, depth, c :: t =>
    if c = '{' then skips false (depth + 1) t
    else if c = '}' then 0 < depth && skips false (depth - 1) t
    else skips false depth t

/-- A text before `rest` that recovery goes over, with the braces that are open before and behind
it. Outside braces it has no word that starts an item, and closes no brace. -/
inductive Walk (rest : Text) : (depth : Nat) → Text → (depth' : Nat) → Prop
  | nil : Walk rest d [] d
  | gap : Gap (t ++ rest) g → Walk rest d t d' → Walk rest d (g ++ t) d'
  | word : isNameStart c → (∀ x ∈ w, isNameChar x) → Ends isNameChar (t ++ rest) →
      (d = 0 → c :: w ∉ itemWords) → Walk rest d t d' → Walk rest d (c :: (w ++ t)) d'
  | openBrace : Walk rest (d + 1) t d' → Walk rest d ('{' :: t) d'
  | closeBrace : Walk rest d t d' → Walk rest (d + 1) ('}' :: t) d'
  | other : gapLength (c :: (t ++ rest)) = 0 → isNameStart c = false → c ∉ ['{', '}'] →
      Walk rest d t d' → Walk rest d (c :: t) d'

/-- Where recovery stops: at the end, or before the next item or the brace that closes them all. -/
def Stops (depth : Nat) (rest : Text) : Prop :=
  rest = [] ∨ depth = 0 ∧ Landing rest

section Walking
variable {rest t u : Text} {d d' d'' : Nat}

theorem Walk.append (h : Walk (u ++ rest) d t d') (h' : Walk rest d' u d'') :
    Walk rest d (t ++ u) d'' := by
  induction h with
  | nil => exact h'
  | @gap t d d' g hg _ ih =>
    rw [List.append_assoc]
    exact .gap (by rwa [List.append_assoc]) (ih h')
  | word hc hw he hd _ ih =>
    rw [List.cons_append, List.append_assoc]
    exact .word hc hw (by rwa [List.append_assoc]) hd (ih h')
  | openBrace _ ih => exact .openBrace (ih h')
  | closeBrace _ ih => exact .closeBrace (ih h')
  | @other c t d d' hg hs hb _ ih =>
    rw [List.cons_append]
    exact .other (by rwa [List.append_assoc]) hs hb (ih h')

theorem gapLength_gap {g : Text} (h : Gap t g) : gapLength (g ++ t) = g.length + gapLength t := by
  have hsplit : g ++ t = (g ++ t.take (gapLength t)) ++ t.drop (gapLength t) := by
    rw [List.append_assoc, List.take_append_drop]
  have hgap : Gap (t.take (gapLength t) ++ t.drop (gapLength t)) g := by
    rwa [List.take_append_drop]
  have hwhole := gapLength_complete (Grammar.gap_append hgap (gapLength_sound t)) (gapLength_drop t)
  rw [hsplit, hwhole, List.length_append, List.length_take, Nat.min_eq_left (gapLength_le t)]

theorem itemLength_gap {first : Bool} {g : Text} (h : Gap t g) :
    itemLength d first (g ++ t) = g.length + itemLength d first t := by
  have hlength := gapLength_gap h
  have hdrop : (g ++ t).drop (gapLength (g ++ t)) = t.drop (gapLength t) := by
    rw [hlength, ← List.drop_drop, List.drop_left]
  cases hd : t.drop (gapLength t) with
  | nil => rw [itemLength_end (hdrop.trans hd), itemLength_end hd, hlength]
  | cons c u => rw [itemLength_eq (hdrop.trans hd), itemLength_eq hd, hlength, Nat.add_assoc]

theorem Walk.itemLength_eq (h : Walk rest d t d') :
    itemLength d false (t ++ rest) = t.length + itemLength d' false rest := by
  induction h with
  | nil => simp
  | gap hg _ ih =>
    rw [List.append_assoc, itemLength_gap hg, ih, List.length_append, Nat.add_assoc]
  | @word c w t d d' hc hw he hd _ ih =>
    have hgo : (!false && d == 0 && isItemWord (c :: w)) = false := by
      by_cases hzero : d = 0
      · have hword : isItemWord (c :: w) = false :=
          Bool.eq_false_iff.mpr fun h => hd hzero (isItemWord_iff.mp h)
        simp [hword]
      · simp [hzero]
    rw [List.cons_append, List.append_assoc, itemLength_word hc hw he, hgo,
      if_neg Bool.false_ne_true, ih, List.length_cons, List.length_append]
    omega
  | openBrace _ ih =>
    rw [List.cons_append, itemLength_open, ih, List.length_cons]
    omega
  | closeBrace _ ih =>
    rw [List.cons_append, itemLength_close, ih, List.length_cons]
    omega
  | other hg hs hb _ ih =>
    simp only [List.mem_cons, List.not_mem_nil, or_false, not_or] at hb
    rw [List.cons_append, itemLength_plain hg hs hb.1 hb.2, ih, List.length_cons]
    omega

theorem Stops.itemLength_zero (h : Stops d rest) : itemLength d false rest = 0 := by
  rcases h with rfl | ⟨rfl, hland⟩
  · exact itemLength_end rfl
  · exact hland.itemLength_zero

theorem walk_word {c : Char} {w : Text} (hc : isNameStart c) (hw : ∀ x ∈ w, isNameChar x)
    (he : Ends isNameChar rest) (hd : d = 0 → c :: w ∉ itemWords) : Walk rest d (c :: w) d := by
  have h : Walk rest d (c :: (w ++ [])) d := .word hc hw he hd .nil
  rwa [List.append_nil] at h

/-- Where there is no gap, recovery stops or goes on. -/
theorem walk_step {c : Char} (d : Nat) (hg : gapLength (c :: t) = 0) :
    Stops d (c :: t) ∨ ∃ u rest d', c :: t = u ++ rest ∧ u ≠ [] ∧ Walk rest d u d' := by
  by_cases hc : isNameStart c = true
  · have hsplit : c :: t = (c :: t.takeWhile isNameChar) ++ t.dropWhile isNameChar := by simp
    have hends := ends_dropWhile isNameChar t
    by_cases hword : d = 0 ∧ c :: t.takeWhile isNameChar ∈ itemWords
    · rw [hsplit]
      exact .inl (.inr ⟨hword.1, .word hword.2 hends⟩)
    · refine .inr ⟨_, _, d, hsplit, List.cons_ne_nil _ _, walk_word hc ?_ hends ?_⟩
      · exact fun x hx => List.all_eq_true.mp List.all_takeWhile x hx
      · exact fun hzero hmem => hword ⟨hzero, hmem⟩
  by_cases hopen : c = '{'
  · subst hopen
    exact .inr ⟨['{'], t, d + 1, rfl, List.cons_ne_nil _ _, .openBrace .nil⟩
  by_cases hclose : c = '}'
  · subst hclose
    cases d with
    | zero => exact .inl (.inr ⟨rfl, .brace⟩)
    | succ d => exact .inr ⟨['}'], t, d, rfl, List.cons_ne_nil _ _, .closeBrace .nil⟩
  · refine .inr ⟨[c], t, d, rfl, List.cons_ne_nil _ _, .other hg (by simpa using hc) ?_ .nil⟩
    simp [hopen, hclose]

/-- From every place recovery goes on to one where it stops. -/
theorem exists_walk (d : Nat) (t : Text) :
    ∃ u rest d', t = u ++ rest ∧ Walk rest d u d' ∧ Stops d' rest := by
  induction hn : t.length using Nat.strong_induction_on generalizing d t with
  | _ n ih =>
    subst hn
    obtain ⟨g, v, rfl, hg, hv⟩ : ∃ g v, t = g ++ v ∧ Gap v g ∧ gapLength v = 0 :=
      ⟨_, _, (List.take_append_drop _ t).symm, gapLength_sound t, gapLength_drop t⟩
    -- it is enough to go on from behind the gap
    suffices h : ∃ u rest d', v = u ++ rest ∧ Walk rest d u d' ∧ Stops d' rest by
      obtain ⟨u, rest, d', rfl, hwalk, hstops⟩ := h
      exact ⟨g ++ u, rest, d', (List.append_assoc g u rest).symm, .gap hg hwalk, hstops⟩
    cases v with
    | nil => exact ⟨[], [], d, rfl, .nil, .inl rfl⟩
    | cons c v =>
      rcases walk_step d hv with hstops | ⟨u, v', d', hsplit, hne, hwalk⟩
      · exact ⟨[], c :: v, d, rfl, .nil, hstops⟩
      · have hshort : v'.length < (g ++ c :: v).length := by
          have hpos := List.length_pos_iff.mpr hne
          rw [hsplit, List.length_append, List.length_append]
          omega
        obtain ⟨u', rest, d'', rfl, hwalk', hstops⟩ := ih _ hshort d' v' rfl
        refine ⟨u ++ u', rest, d'', ?_, hwalk.append hwalk', hstops⟩
        rw [hsplit, List.append_assoc]

/-- Recovery goes from a place up to where it stops. -/
theorem itemLength_walk (t : Text) : ∃ u rest d, t = u ++ rest ∧ Walk rest 0 u d ∧ Stops d rest ∧
    itemLength 0 false t = u.length := by
  obtain ⟨u, rest, d, rfl, hwalk, hstops⟩ := exists_walk 0 t
  refine ⟨u, rest, d, rfl, hwalk, hstops, ?_⟩
  rw [hwalk.itemLength_eq, hstops.itemLength_zero, Nat.add_zero]

end Walking

section Fragments
variable {rest t w v : Text} {c x : Char} {d d' k : Nat}

theorem skips_cons (h : ∀ u, c = '/' → t ≠ '/' :: u) :
    skips false k (c :: t) =
      if c = '{' then skips false (k + 1) t
      else if c = '}' then 0 < k && skips false (k - 1) t
      else skips false k t := by
  rw [skips.eq_def]
  split
  · contradiction
  · contradiction
  · rename_i heq
    obtain ⟨rfl, rfl⟩ := List.cons.inj heq
    exact absurd rfl (h _ rfl)
  · rename_i heq
    obtain ⟨rfl, rfl⟩ := List.cons.inj heq
    rfl

theorem skips_word (hw : ∀ x ∈ w, isNameChar x) : skips false k (w ++ t) = skips false k t := by
  induction w with
  | nil => rfl
  | cons c w ih =>
    rw [List.forall_mem_cons] at hw
    have hc : c ≠ '{' ∧ c ≠ '}' ∧ c ≠ '/' := by
      refine ⟨?_, ?_, ?_⟩ <;> rintro rfl <;> exact absurd hw.1 (by decide)
    rw [List.cons_append, skips_cons (fun _ h => absurd h hc.2.2), if_neg hc.1, if_neg hc.2.1,
      ih hw.2]

/-- A comment in a text that is skipped ends before the text does. -/
theorem skips_comment (h : skips true k t) :
    ∃ body u, t = body ++ '\n' :: u ∧ '\n' ∉ body ∧ skips false k u := by
  induction t with
  | nil => cases h
  | cons c t ih =>
    by_cases hc : c = '\n'
    · subst hc
      exact ⟨[], t, rfl, List.not_mem_nil, h⟩
    · have hnext : skips true k t := by
        rwa [skips, show (c != '\n') = true by simpa using hc] at h
      obtain ⟨body, u, rfl, hb, hu⟩ := ih hnext
      refine ⟨c :: body, u, rfl, ?_, hu⟩
      rw [List.mem_cons, not_or]
      exact ⟨fun he => hc he.symm, hb⟩

theorem walk_blank (hc : Text.isBlank c) (h : Walk rest d t d') : Walk rest d (c :: t) d' :=
  .gap (.blank hc .nil) h

/-- Recovery goes over what a fragment inside braces holds, up to its closing delimiter. -/
theorem walk_of_skips (hx : x ∈ ['}', ')']) (hd : 0 < d) (h : skips false k t) :
    Walk (x :: rest) (d + k) t d := by
  have hclose : isNameChar x = false ∧ x ≠ '/' := by
    simp only [List.mem_cons, List.not_mem_nil, or_false] at hx
    rcases hx with rfl | rfl <;> decide
  induction hn : t.length using Nat.strong_induction_on generalizing k t with
  | _ n ih =>
    subst hn
    cases t with
    | nil =>
      obtain rfl : k = 0 := by simpa [skips] using h
      exact .nil
    | cons c t =>
      by_cases hslashes : ∃ u, c = '/' ∧ t = '/' :: u
      · obtain ⟨u, rfl, rfl⟩ := hslashes
        obtain ⟨body, u, rfl, hb, hu⟩ := skips_comment h
        have hshort : u.length < ('/' :: '/' :: (body ++ '\n' :: u)).length := by
          simp only [List.length_cons, List.length_append]
          omega
        have hrest : Walk (x :: rest) (d + k) u d := ih _ hshort hu rfl
        have hgap : Gap (u ++ x :: rest) ('/' :: '/' :: (body ++ ['\n'])) :=
          .comment hb (by simp [Ends]) (.blank rfl .nil)
        have hwalk := Walk.gap hgap hrest
        simpa using hwalk
      have hplain : ∀ u, c = '/' → t ≠ '/' :: u := fun u hc ht => hslashes ⟨u, hc, ht⟩
      by_cases hc : isNameStart c = true
      · obtain ⟨w, u, rfl, hw, he⟩ : ∃ w u, t = w ++ u ∧ (∀ y ∈ w, isNameChar y) ∧
            Ends isNameChar u :=
          ⟨_, _, List.takeWhile_append_dropWhile.symm,
            fun y hy => List.all_eq_true.mp List.all_takeWhile y hy, ends_dropWhile isNameChar t⟩
        have hu : skips false k u := by
          rw [← skips_word (nameChars_cons hc hw)]
          exact h
        refine .word hc hw (he.append (by simpa [Ends] using hclose.1)) (by omega) ?_
        refine ih _ ?_ hu rfl
        simp only [List.length_cons, List.length_append]
        omega
      rw [skips_cons hplain] at h
      by_cases hopen : c = '{'
      · subst hopen
        exact .openBrace (ih _ (by simp) h rfl)
      rw [if_neg hopen] at h
      by_cases hshut : c = '}'
      · subst hshut
        rw [if_pos rfl, Bool.and_eq_true, decide_eq_true_eq] at h
        obtain ⟨k, rfl⟩ := Nat.exists_eq_add_one.mpr h.1
        exact .closeBrace (ih _ (by simp) h.2 rfl)
      rw [if_neg hshut] at h
      have ht : Walk (x :: rest) (d + k) t d := ih _ (by simp) h rfl
      by_cases hblank : Text.isBlank c = true
      · exact walk_blank hblank ht
      · refine .other ?_ (by simpa using hc) (by simp [hopen, hshut]) ht
        rw [gapLength, gap_plain, if_neg hblank]
        intro u hslash hu
        cases t with
        | nil => exact hclose.2 (List.cons.inj hu).1
        | cons y t => exact hplain t hslash (by rw [(List.cons.inj hu).1])

end Fragments

/-- A fragment that recovery counts as reading does. -/
def Token.Skipped (d : Nat) (t : Token) : Prop :=
  t.kind = .block ∨ t.kind = .expr → 0 < d ∧ skips false 0 t.text

/-- Tokens that lead from one number of open braces to another. -/
inductive Strides : (depth : Nat) → List Token → (depth' : Nat) → Prop
  | nil : Strides d [] d
  | cons : Turn t.kind d d₁ → Token.Skipped d t → Strides d₁ ts d' → Strides d (t :: ts) d'

section Tokens
variable {source rest w v : Text} {k : Kind} {d d' d'' n m : Nat} {ts us : List Token}

theorem walk_digits (hw : ∀ x ∈ w, Text.isAsciiDigit x) : Walk rest d w d := by
  induction w with
  | nil => exact .nil
  | cons c w ih =>
    rw [List.forall_mem_cons] at hw
    have hc := isAsciiDigit_toNat hw.1
    have hblank : Text.isBlank c = false := by
      simp only [Text.isBlank]
      simp
      omega
    have hother : c ≠ '/' ∧ c ≠ '{' ∧ c ≠ '}' := by
      refine ⟨?_, ?_, ?_⟩ <;> rintro rfl <;> exact absurd hw.1 (by decide)
    refine .other (gapLength_zero _ hblank hother.1) ?_ (by simp [hother.2]) (ih hw.2)
    refine Bool.eq_false_iff.mpr fun hs => ?_
    have := isNameStart_toNat hs
    omega

/-- A mark of a fragment or between names. -/
theorem walk_mark {c : Char} (hc : c ∈ ['(', ')', '[', ']', ',', ';', '.']) :
    Walk rest d [c] d := by
  have hall : ['(', ')', '[', ']', ',', ';', '.'].all (fun x => Text.isBlank x == false &&
      (x != '/' && (isNameStart x == false && (x != '{' && x != '}')))) = true := by decide
  have hc := List.all_eq_true.mp hall c hc
  simp only [Bool.and_eq_true, beq_iff_eq, bne_iff_ne] at hc
  obtain ⟨hblank, hslash, hname, hbrace⟩ := hc
  exact .other (gapLength_zero _ hblank hslash) hname (by simpa using hbrace) .nil

/-- Recovery goes over a fragment that it counts as reading does. -/
theorem walk_fragment {o c : Char} (hm : (k, o, c) ∈ Kind.fragments) (hd : 0 < d)
    (hs : skips false 0 v) : Walk rest d (o :: (v ++ [c])) d := by
  simp only [Kind.fragments, List.mem_cons, Prod.mk.injEq, List.not_mem_nil, or_false] at hm
  rcases hm with ⟨_, rfl, rfl⟩ | ⟨_, rfl, rfl⟩
  · have hcontent : Walk ('}' :: rest) (d + 1) v (d + 1) :=
      walk_of_skips (by simp) (Nat.succ_pos d) hs
    exact .openBrace (hcontent.append (.closeBrace .nil))
  · have hcontent : Walk (')' :: rest) d v d := walk_of_skips (by simp) hd hs
    have hbehind : Walk rest d (v ++ [')']) d := hcontent.append (walk_mark (by simp))
    exact (walk_mark (c := '(') (by simp)).append hbehind

/-- Recovery goes over a token and counts its braces as reading does. -/
theorem Spelling.walk (h : Spelling rest k w v) (ht : Turn k d d')
    (hf : k = .block ∨ k = .expr → 0 < d ∧ skips false 0 v) : Walk rest d w d' := by
  cases h with
  | word hm he =>
    obtain ⟨c, u, rfl, hc, hu⟩ := words_spelled hm
    have hall : ∀ q ∈ Kind.words, q.2.isFlat ∧ q.1 ∉ itemWords ∨
        (q.2 = .state ∨ q.2 = .untilWord) := by decide
    rcases hall _ hm with ⟨hflat, hnot⟩ | hstart
    · obtain rfl := ht.flat hflat
      exact walk_word hc hu he fun _ => hnot
    · obtain ⟨hpos, rfl⟩ := ht.starts hstart
      exact walk_word hc hu he fun hzero => absurd hzero (Nat.ne_of_gt hpos)
  | name hc hw hn he =>
    obtain rfl := ht.flat rfl
    refine walk_word hc hw he fun _ hmem => ?_
    obtain ⟨k, hk, _⟩ := itemWords_kind hmem
    exact hn k hk
  | int _ hw _ =>
    obtain rfl := ht.flat rfl
    exact walk_digits hw
  | @mark c _ hm =>
    have hall : ∀ q ∈ Kind.marks, q = ('{', .openBrace) ∨ q = ('}', .closeBrace) ∨
        q.2.isFlat ∧ q.1 ∈ ['(', ')', '[', ']', ',', ';', '.'] := by decide
    rcases hall _ hm with he | he | ⟨hflat, hc⟩
    · cases he
      obtain rfl := ht.opens rfl
      exact .openBrace .nil
    · cases he
      obtain rfl := ht.closes rfl
      exact .closeBrace .nil
    · obtain rfl := ht.flat hflat
      exact walk_mark hc
  | fragment hm _ =>
    have hall : ∀ q ∈ Kind.fragments, q.1.isFlat ∧ (q.1 = .block ∨ q.1 = .expr) := by decide
    obtain ⟨hflat, hkind⟩ := hall _ hm
    obtain rfl := ht.flat hflat
    obtain ⟨hpos, hs⟩ := hf hkind
    exact walk_fragment hm hpos hs
  | eof _ =>
    obtain rfl := ht.flat rfl
    exact .nil

theorem Strides.append (h : Strides d ts d') (h' : Strides d' us d'') :
    Strides d (ts ++ us) d'' := by
  induction h with
  | nil => exact h'
  | cons ht hs _ ih => exact .cons ht hs (ih h')

/-- Recovery goes over the tokens between two offsets. -/
theorem Strides.walk (h : Strides d ts d') (hp : Reader.Path source n ts m) :
    ∃ u, source.drop n = u ++ source.drop m ∧ m = n + u.length ∧ Walk (source.drop m) d u d' := by
  induction hp generalizing d with
  | refl =>
    cases h
    exact ⟨[], rfl, rfl, .nil⟩
  | @gap n g after ts m hd hg _ ih =>
    obtain ⟨u, hu, hm, hwalk⟩ := ih h
    rw [← List.drop_drop, hd, List.drop_left] at hu
    rw [hu] at hd hg
    refine ⟨g ++ u, by rw [hd, List.append_assoc], ?_, .gap hg hwalk⟩
    rw [hm, List.length_append, Nat.add_assoc]
  | @token n w after k v ts m hd hs _ ih =>
    cases h with
    | cons ht hskip h =>
      obtain ⟨u, hu, hm, hwalk⟩ := ih h
      rw [← List.drop_drop, hd, List.drop_left] at hu
      rw [hu] at hd hs
      refine ⟨w ++ u, by rw [hd, List.append_assoc], ?_, (hs.walk ht hskip).append hwalk⟩
      rw [hm, List.length_append, Nat.add_assoc]

/-- The word that starts an item is skipped where recovery starts. -/
theorem Spelling.itemLength_first (h : Spelling rest k w v) (hk : k = .state ∨ k = .untilWord) :
    w ≠ [] ∧ itemLength 0 true (w ++ rest) = w.length + itemLength 0 false rest := by
  have hmarks : ∀ q ∈ Kind.marks, q.2 ≠ .state ∧ q.2 ≠ .untilWord := by decide
  have hfragments : ∀ q ∈ Kind.fragments, q.1 ≠ .state ∧ q.1 ≠ .untilWord := by decide
  cases h with
  | word hm he =>
    obtain ⟨c, u, rfl, hc, hu⟩ := words_spelled hm
    refine ⟨List.cons_ne_nil _ _, ?_⟩
    rw [List.cons_append, itemLength_word hc hu he]
    simp
  | mark hm => exact absurd hk (not_or.mpr (hmarks _ hm))
  | fragment hm _ => exact absurd hk (not_or.mpr (hfragments _ hm))
  | name _ _ _ _ | int _ _ _ | eof _ => simp at hk

/-- Recovery from before an item goes over its first word and all that follows it. -/
theorem itemLength_path {t : Token} (hp : Reader.Path source n (t :: ts) m)
    (hk : t.kind = .state ∨ t.kind = .untilWord) (h : Strides 0 ts 0) :
    n < source.length ∧
      n + itemLength 0 true (source.drop n) = m + itemLength 0 false (source.drop m) := by
  generalize hts : t :: ts = us at hp
  induction hp with
  | refl => cases hts
  | gap hd hg _ ih =>
    obtain ⟨hlt, hlength⟩ := ih hts
    rw [← List.drop_drop, hd, List.drop_left] at hlength
    rw [hd, itemLength_gap hg]
    omega
  | @token n w after k v ts m hd hs hpath _ =>
    cases hts
    obtain ⟨hne, hfirst⟩ := hs.itemLength_first hk
    obtain ⟨u, hu, hm, hwalk⟩ := h.walk hpath
    rw [← List.drop_drop, hd, List.drop_left] at hu
    refine ⟨?_, ?_⟩
    · refine Nat.lt_of_not_le fun hle => hne ?_
      rw [List.drop_eq_nil_of_le hle] at hd
      exact (List.append_eq_nil_iff.mp hd.symm).1
    · rw [hd, hfirst, hu, hwalk.itemLength_eq]
      omega

end Tokens
/-- Tokens without braces and words of items, with fragments of which `P` holds. -/
def Plain (P : Text → Prop) (ts : List Token) : Prop :=
  ∀ t ∈ ts, t.kind.isFlat ∧ (t.kind = .block ∨ t.kind = .expr → P t.text)

section Plain
variable {P : Text → Prop} {ts us : List Token}

theorem Plain.strides {d : Nat} (h : Plain (fun v => 0 < d ∧ skips false 0 v) ts) :
    Strides d ts d := by
  induction ts with
  | nil => exact .nil
  | cons t ts ih =>
    obtain ⟨⟨hflat, hskip⟩, hts⟩ := List.forall_mem_cons.mp h
    exact .cons (turn_flat hflat d) hskip (ih hts)

@[simp] theorem plain_nil : Plain P [] :=
  List.forall_mem_nil _

@[simp] theorem plain_cons {t : Token} : Plain P (t :: ts) ↔
    (t.kind.isFlat ∧ (t.kind = .block ∨ t.kind = .expr → P t.text)) ∧ Plain P ts :=
  List.forall_mem_cons

@[simp] theorem plain_append : Plain P (ts ++ us) ↔ Plain P ts ∧ Plain P us :=
  List.forall_mem_append

theorem Many.plain {α : Type} {form : List Token → α → Prop} {as : List α} (h : Many form ts as)
    (hform : ∀ us, ∀ a ∈ as, form us a → Plain P us) : Plain P ts := by
  induction h with
  | nil => exact plain_nil
  | cons ha _ ih =>
    refine plain_append.mpr ⟨hform _ _ List.mem_cons_self ha, ih fun us a hm => ?_⟩
    exact hform us a (List.mem_cons_of_mem _ hm)

theorem RawForm.plain {k : Kind} {f : Fragment} (h : RawForm k ts f) (hk : k.isFlat)
    (hf : P f.text) : Plain P ts := by
  cases h with
  | mk ht => simp [ht, hk, hf]

theorem Opt.plain {f : Option Fragment} (h : Opt (RawForm .block) ts f)
    (hf : ∀ g ∈ f, P g.text) : Plain P ts := by
  cases h with
  | none => exact plain_nil
  | some h => exact h.plain rfl (hf _ rfl)

theorem ArgumentForm.plain {r : Ref} (h : ArgumentForm ts r) : Plain P ts := by
  cases h with
  | mk ho hn hc => simp [ho, hn, hc, Kind.isFlat]

theorem ConstantForm.plain {t : Token} (h : ConstantForm ts t) : Plain P ts := by
  cases h with
  | int ht | name ht => simp [ht, Kind.isFlat]

theorem JumpForm.plain {j : Jump} (h : JumpForm ts j) : Plain P ts := by
  cases h with
  | go hk hn | err hk hn => simp [hk, hn, Kind.isFlat]

theorem ActionForm.plain {a : Action} (h : ActionForm ts a) : Plain P ts := by
  cases h with
  | jump h => exact h.plain
  | retry hk => simp [hk, Kind.isFlat]

theorem StartForm.plain {r : Ref} (h : StartForm ts r) : Plain P ts := by
  cases h with
  | mk hk h => simp [hk, Kind.isFlat, h.plain]

theorem TriggerForm.plain {t : Trigger} (h : TriggerForm ts t)
    (hf : ∀ f ∈ t.condition?, P f.text) : Plain P ts := by
  cases h with
  | when h => exact h.plain rfl (hf _ rfl)
  | timeout hk h => simp [hk, Kind.isFlat, h.plain]

theorem TransitionForm.plain {t : Transition} (h : TransitionForm ts t)
    (hcode : ∀ f ∈ t.code, P f.text) (hf : ∀ f ∈ t.trigger.condition?, P f.text) :
    Plain P ts := by
  cases h with
  | mk hk ht hc ha hs hsemi =>
    have hstarts := hs.plain (P := P) fun us r _ h => h.plain
    simp [hk, hsemi, Kind.isFlat, ht.plain hf, hc.plain hcode, ha.plain, hstarts]

theorem AssignmentForm.plain {a : Assignment} (h : AssignmentForm ts a) (ha : P a.value.text) :
    Plain P ts := by
  cases h with
  | mk hn h => simp [hn, Kind.isFlat, h.plain rfl ha]

theorem OutsForm.plain {as : List Assignment} (h : OutsForm ts as)
    (has : ∀ a ∈ as, P a.value.text) : Plain P ts := by
  cases h with
  | mk hk hfirst hrest hs =>
    rw [List.forall_mem_cons] at has
    have hothers : Plain P _ := hrest.plain fun us a ha h => by
      cases h with
      | mk hc h => simp [hc, Kind.isFlat, h.plain (has.2 a ha)]
    simp [hk, hs, Kind.isFlat, hfirst.plain has.1, hothers]

theorem FlagsForm.plain {fs : List Flag} (h : FlagsForm ts fs) : Plain P ts := by
  have hflag {us : List Token} {f : Flag} (h : FlagForm us f) : Plain P us := by
    cases h with
    | mk hk _ => rcases hk with hk | hk | hk <;> simp [hk, Kind.isFlat]
  cases h with
  | none => exact plain_nil
  | some ho hfirst hrest hc =>
    have hothers : Plain P _ := hrest.plain fun us f _ h => by
      cases h with
      | mk hk h => simp [hk, Kind.isFlat, hflag h]
    simp [ho, hc, Kind.isFlat, hflag hfirst, hothers]

end Plain

section Items
variable {ts : List Token} {d : Nat}

theorem strides_open {t : Token} {us : List Token} {d' : Nat} (ht : t.kind = .openBrace)
    (h : Strides (d + 1) us d') : Strides d (t :: us) d' := by
  refine .cons (by rw [ht]; exact turn_open d) ?_ h
  rw [Token.Skipped, ht]
  simp

theorem strides_close {t : Token} {us : List Token} {d' : Nat} (ht : t.kind = .closeBrace)
    (h : Strides d us d') : Strides (d + 1) (t :: us) d' := by
  refine .cons (by rw [ht]; exact turn_close d) ?_ h
  rw [Token.Skipped, ht]
  simp

theorem members_plain {P : Text → Prop} {members : List (Transition ⊕ List Assignment)}
    (h : Many MemberForm ts members)
    (ht : ∀ t ∈ members.filterMap Sum.getLeft?,
      (∀ f ∈ t.code, P f.text) ∧ ∀ f ∈ t.trigger.condition?, P f.text)
    (ho : ∀ a ∈ (members.filterMap Sum.getRight?).flatten, P a.value.text) : Plain P ts := by
  refine h.plain fun us m hm h => ?_
  cases h with
  | transition h =>
    have hboth := ht _ (List.mem_filterMap.mpr ⟨_, hm, rfl⟩)
    exact h.plain hboth.1 hboth.2
  | outs h =>
    refine h.plain fun a ha => ho a ?_
    exact List.mem_flatten.mpr ⟨_, List.mem_filterMap.mpr ⟨_, hm, rfl⟩, ha⟩

/-- A state behind its first word leaves the braces as they were. -/
theorem StateForm.strides {s : State} (h : StateForm ts s)
    (hs : ∀ f ∈ s.fragments, skips false 0 f.text) (d : Nat) :
    ∃ t us, ts = t :: us ∧ t.kind = .state ∧ Strides d us d := by
  cases h with
  | @mk ts flags us entry vs members k n o c hk hflags hn ho hentry hmembers hc =>
    simp only [State.fragments, Machine.codeOf, List.forall_mem_append, List.forall_mem_map,
      Option.mem_toList] at hs
    obtain ⟨⟨⟨he, hcode⟩, hout⟩, hcondition⟩ := hs
    have hbefore : Strides d (ts ++ [n]) d :=
      Plain.strides (by simp [hflags.plain, hn, Kind.isFlat])
    have hinside : Strides (d + 1) (us ++ vs) (d + 1) := by
      refine Plain.strides (plain_append.mpr ⟨hentry.plain ?_, members_plain hmembers ?_ ?_⟩)
      · exact fun f hf => ⟨Nat.succ_pos d, he f hf⟩
      · intro t ht
        refine ⟨fun f hf => ⟨Nat.succ_pos d, hcode f ?_⟩,
          fun f hf => ⟨Nat.succ_pos d, hcondition f ?_⟩⟩
        · exact List.mem_filterMap.mpr ⟨t, ht, hf⟩
        · exact List.mem_filterMap.mpr ⟨t, ht, hf⟩
      · exact fun a ha => ⟨Nat.succ_pos d, hout a ha⟩
    refine ⟨k, _, rfl, hk, ?_⟩
    have hall := hbefore.append (strides_open ho (hinside.append (strides_close hc .nil)))
    simpa using hall

theorem states_strides {states : List State} (h : Many StateForm ts states)
    (hs : ∀ s ∈ states, ∀ f ∈ s.fragments, skips false 0 f.text) (hd : 0 < d) :
    Strides d ts d := by
  induction h with
  | nil => exact .nil
  | cons hstate _ ih =>
    rw [List.forall_mem_cons] at hs
    obtain ⟨t, us, rfl, hk, hus⟩ := hstate.strides hs.1 d
    refine Strides.append (.cons (turn_start (.inl hk) hd) ?_ hus) (ih hs.2)
    rw [Token.Skipped, hk]
    simp

/-- So does any item. -/
theorem ItemForm.strides {i : Item} (h : ItemForm ts i)
    (hs : ∀ f ∈ i.fragments, skips false 0 f.text) :
    ∃ t us, ts = t :: us ∧ (t.kind = .state ∨ t.kind = .untilWord) ∧ Strides 0 us 0 := by
  cases h with
  | state h =>
    obtain ⟨t, us, hts, hk, hus⟩ :=
      h.strides (fun f hf => hs f (by simpa [Item.fragments, Item.states] using hf)) 0
    exact ⟨t, us, hts, .inl hk, hus⟩
  | block h =>
    cases h with
    | @mk ts d us states vs overflow k o c e t s hk ho hd hc he hstates ht hj hsemi =>
      have hbefore : Strides 0 (o :: (ts ++ [c])) 0 :=
        Plain.strides (by simp [ho, hd.plain, hc, Kind.isFlat])
      have hinside : Strides 1 us 1 :=
        states_strides hstates (fun s hm f hf => hs f (List.mem_flatMap.mpr ⟨s, hm, hf⟩))
          Nat.one_pos
      have hbehind : Strides 0 (vs ++ [s]) 0 :=
        Plain.strides (by simp [hj.plain, hsemi, Kind.isFlat])
      refine ⟨k, _, rfl, .inr hk, ?_⟩
      have hall := hbefore.append (strides_open he (hinside.append (strides_close ht hbehind)))
      simpa using hall

end Items
end Language

namespace Grammar
open Statewright.Language Reader

/-- Reading that leaves no token looked at. -/
def Settles {α : Type} (x : Read α) : Prop :=
  ∀ ⦃r a r'⦄, x r = .ok a r' → r'.ahead = none

theorem Settles.bind {α β : Type} {x : Read α} {f : α → Read β} (h : ∀ a, Settles (f a)) :
    Settles (x >>= f) := by
  intro r b r' hb
  obtain ⟨a, s, _, hf⟩ := bind_ok.mp hb
  exact h a hf

/-- A rule that ends with a scan. -/
theorem settles_scan {α : Type} (k : Kind) (a : α) : Settles (do let _ ← scan k; return a) := by
  intro r b r' h
  simp only [scan, bind_ok, pure_ok] at h
  obtain ⟨_, _, ⟨_, _, _, _, _, _, _, _, hm, _, rfl⟩, _, rfl⟩ := h
  cases hm
  rfl

theorem state_settles (nested : Bool) : Settles (state nested) := by
  refine .bind fun _ => .bind fun words => .bind fun name => .bind fun _ => ?_
  refine .bind fun flags => .bind fun _ => .bind fun entry => .bind fun members => ?_
  exact settles_scan _ _

theorem block_settles : Settles block := by
  refine .bind fun word => .bind fun _ => .bind fun constant => .bind fun _ => .bind fun _ => ?_
  refine .bind fun _ => .bind fun states => .bind fun _ => .bind fun overflow => ?_
  exact settles_scan _ _

theorem item_settles {i : Item} {r r' : Reader} (h : item r = .ok (some i) r') :
    r'.ahead = none := by
  obtain ⟨k, s, _, h⟩ := bind_ok.mp h
  split at h
  · obtain ⟨_, _, hstate, h⟩ := bind_ok.mp h
    obtain ⟨_, rfl⟩ := pure_ok.mp h
    exact state_settles false hstate
  · obtain ⟨_, _, hblock, h⟩ := bind_ok.mp h
    obtain ⟨_, rfl⟩ := pure_ok.mp h
    exact block_settles hblock
  · obtain ⟨hnone, _⟩ := pure_ok.mp h
    cases hnone

/-- Recovery from where an item was read skips the item, if its fragments have nested braces and no
open comment, and stops at the next item, at the brace that closes them all, or at the end. -/
theorem recover_skips_item {i : Item} {r r' : Reader} (hr : r.ahead = none)
    (hi : item r = .ok (some i) r') (hs : ∀ f ∈ i.fragments, skips false 0 f.text) :
    r'.ahead = none ∧ ∃ t rest d, r.source.drop r'.offset = t ++ rest ∧ Walk rest 0 t d ∧
      Stops d rest ∧ ∀ s : Reader, s.source = r.source →
        (s.recover r.offset).offset = r'.offset + t.length := by
  have hsettled := item_settles hi
  obtain ⟨ts, hform, hpass⟩ := item_yields hi
  obtain ⟨_, us, hus, hpath⟩ := hpass.path
  cases hform with
  | some hform =>
    obtain ⟨t, ts, rfl, hk, hstrides⟩ := hform.strides hs
    rw [hr, hsettled, Option.toList_none, List.nil_append, List.append_nil] at hus
    subst hus
    obtain ⟨hlt, hlength⟩ := itemLength_path hpath hk hstrides
    obtain ⟨u, rest, d, hu, hwalk, hstops, hu'⟩ := itemLength_walk (r.source.drop r'.offset)
    refine ⟨hsettled, u, rest, d, hu, hwalk, hstops, fun s hsource => ?_⟩
    rw [← hu', ← hlength]
    simp only [recover, hsource, Nat.min_eq_left (Nat.le_of_lt hlt), push]

/-- Whether an item is read at the start of a source and passes a test with the reader behind it. -/
def readsItem (source : Text) (test : Item → Reader → Bool) : Bool :=
  match item { source } with
  | .ok (some i) r => test i r
  | _ => false

theorem item_of_readsItem {source : Text} {test : Item → Reader → Bool}
    (h : readsItem source test) : ∃ i r, item { source } = .ok (some i) r ∧ test i r := by
  unfold readsItem at h
  split at h
  · rename_i i r hi
    exact ⟨i, r, hi, h⟩
  · cases h

/-- An item with a brace in a comment of its condition and braces in its code, and one behind it. -/
def bracedSource : Text :=
  "state a\x7bon(x // \x7d\n)\x7by\x7b\x7d\x7dgo a;\x7d // \x7d\nstate b\x7b\x7d"

theorem recover_skips_item_braced : ∃ i r, item { source := bracedSource } = .ok (some i) r ∧
    (∀ f ∈ i.fragments, skips false 0 f.text) ∧ r.offset = 30 ∧
    (∃ t rest d, bracedSource.drop 30 = t ++ rest ∧ Walk rest 0 t d ∧ Stops d rest ∧
      (r.recover 0).offset = 30 + t.length) ∧ (r.recover 0).offset = 36 := by
  have h : readsItem bracedSource (fun i r => i.fragments.all (skips false 0 ·.text) &&
      (r.offset == 30 && (r.source == bracedSource && (r.recover 0).offset == 36))) = true := by
    decide +kernel
  obtain ⟨i, r, hi, htest⟩ := item_of_readsItem h
  simp only [Bool.and_eq_true, List.all_eq_true, beq_iff_eq] at htest
  obtain ⟨hskips, hoffset, hsource, hrecover⟩ := htest
  obtain ⟨_, t, rest, d, hrest, hwalk, hstops, hstop⟩ := recover_skips_item rfl hi hskips
  rw [hoffset] at hrest hstop
  exact ⟨i, r, hi, hskips, hoffset, ⟨t, rest, d, hrest, hwalk, hstops, hstop r hsource⟩, hrecover⟩

/-- A brace in a condition closes the state for recovery, which stops before the one that does. -/
theorem recover_stops_in_item :
    ∃ i r, item { source := "state a\x7bon(\x7d)go a;\x7d".toList } = .ok (some i) r ∧
      r.ahead = none ∧ (r.recover 0).offset < r.offset := by
  have h : readsItem "state a\x7bon(\x7d)go a;\x7d".toList (fun i r =>
      r.ahead.isNone && decide ((r.recover 0).offset < r.offset)) = true := by
    decide +kernel
  obtain ⟨i, r, hi, htest⟩ := item_of_readsItem h
  rw [Bool.and_eq_true, Option.isNone_iff_eq_none, decide_eq_true_eq] at htest
  exact ⟨i, r, hi, htest⟩

end Grammar
end Statewright
