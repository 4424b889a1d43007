import Statewright.Proofs.Placement

namespace Statewright
namespace Language

/-- The characters outside comments, with their offsets, the first offset being `n`. A comment
starts with two slashes and goes up to the end of its line. -/
def bare : (inComment : Bool) → (n : Nat) → Text → List (Nat × Char)
  | _, _, [] => []
  | true, n, c :: t => if c = '\n' then (n, c) :: bare false (n + 1) t else bare true (n + 1) t
  | false, n, '/' :: '/' :: t => bare true (n + 2) t
  | false, n, c :: t => (n, c) :: bare false (n + 1) t

/-- Blanks, ASCII letters and digits, the underscore and the marks. -/
def isOrdinary (c : Char) : Bool :=
  Text.isBlank c || isNameChar c || Kind.marks.any (·.1 == c)

section Bare
variable {c : Char} {t w rest v : Text} {k : Kind}

theorem bare_plain (n : Nat) (h : ∀ u, c = '/' → t ≠ '/' :: u) :
    bare false n (c :: t) = (n, c) :: bare false (n + 1) t := by
  rw [bare.eq_def]
  split
  · contradiction
  · contradiction
  · rename_i heq
    obtain ⟨rfl, rfl⟩ := List.cons.inj heq
    exact absurd rfl (h _ rfl)
  · rename_i heq
    obtain ⟨rfl, rfl⟩ := List.cons.inj heq
    rfl

/-- Outside comments a gap has blanks only. -/
theorem bare_gap (inComment : Bool) (n : Nat) (t : Text) :
    ∃ xs, (∀ x ∈ xs, Text.isBlank x.2) ∧ bare inComment n t =
      xs ++ bare false (n + gap inComment t) (t.drop (gap inComment t)) := by
  fun_induction gap inComment t generalizing n with
  | case1 inComment =>
    refine ⟨[], List.forall_mem_nil _, ?_⟩
    cases inComment <;> rfl
  | case2 c t ih =>
    obtain ⟨xs, hxs, he⟩ := ih (n + 1)
    rw [List.drop_succ_cons, Nat.add_comm (gap _ t), ← Nat.add_assoc]
    by_cases hc : c = '\n'
    · subst hc
      have hblank : Text.isBlank '\n' := by decide
      refine ⟨(n, '\n') :: xs, List.forall_mem_cons.mpr ⟨hblank, hxs⟩, ?_⟩
      rw [bare, if_pos rfl, List.cons_append]
      exact congrArg _ he
    · have hne : (c != '\n') = true := by simpa using hc
      rw [hne] at he ⊢
      exact ⟨xs, hxs, by rw [bare, if_neg hc, he]⟩
  | case3 t ih =>
    obtain ⟨xs, hxs, he⟩ := ih (n + 2)
    rw [List.drop_succ_cons, List.drop_succ_cons, Nat.add_comm (gap _ t), ← Nat.add_assoc]
    exact ⟨xs, hxs, he⟩
  | case4 c t hne hc ih =>
    obtain ⟨xs, hxs, he⟩ := ih (n + 1)
    rw [List.drop_succ_cons, Nat.add_comm (gap _ t), ← Nat.add_assoc]
    refine ⟨(n, c) :: xs, List.forall_mem_cons.mpr ⟨hc, hxs⟩, ?_⟩
    rw [bare_plain n (fun u hx hu => hne u hx hu), he, List.cons_append]
  | case5 c t hne hc => exact ⟨[], List.forall_mem_nil _, rfl⟩

theorem bare_word (n : Nat) (hw : ∀ c ∈ w, c ≠ '/') (t : Text) :
    ∃ xs, (∀ x ∈ xs, x.2 ∈ w) ∧ bare false n (w ++ t) = xs ++ bare false (n + w.length) t := by
  induction w generalizing n with
  | nil => exact ⟨[], List.forall_mem_nil _, rfl⟩
  | cons c w ih =>
    obtain ⟨hc, hw⟩ := List.forall_mem_cons.mp hw
    obtain ⟨xs, hxs, he⟩ := ih (n + 1) hw
    refine ⟨(n, c) :: xs, List.forall_mem_cons.mpr ⟨List.mem_cons_self, fun x hx =>
      List.mem_cons_of_mem c (hxs x hx)⟩, ?_⟩
    rw [List.cons_append, bare_plain n (fun _ h => absurd h hc), he, List.length_cons,
      Nat.add_assoc, Nat.add_comm 1]
    rfl

theorem ordinary_of_blank (h : Text.isBlank c) : isOrdinary c := by
  simp [isOrdinary, h]

theorem ordinary_of_name (h : isNameChar c) : isOrdinary c := by
  simp [isOrdinary, h]

theorem ordinary_of_mark (h : (c, k) ∈ Kind.marks) : isOrdinary c :=
  Bool.or_eq_true_iff.mpr (.inr (List.any_eq_true.mpr ⟨(c, k), h, beq_self_eq_true c⟩))

theorem ordinary_ne_slash (h : isOrdinary c) : c ≠ '/' := by
  rintro rfl
  exact absurd h (by decide)

/-- Tokens other than fragments are made of ordinary characters. -/
theorem Spelling.ordinary (h : Spelling rest k w v) (hk : ¬ (k = .block ∨ k = .expr)) :
    ∀ c ∈ w, isOrdinary c := by
  cases h with
  | word hm _ =>
    obtain ⟨c, u, rfl, hc, hu⟩ := words_spelled hm
    exact fun d hd => ordinary_of_name (nameChars_cons hc hu d hd)
  | name hc hu _ _ => exact fun d hd => ordinary_of_name (nameChars_cons hc hu d hd)
  | int _ hd _ => exact fun d hmem => ordinary_of_name (by simp [isNameChar, hd d hmem])
  | mark hm =>
    intro d hd
    obtain rfl := List.mem_singleton.mp hd
    exact ordinary_of_mark hm
  | fragment hm _ =>
    have hall : ∀ p ∈ Kind.fragments, p.1 = .block ∨ p.1 = .expr := by decide
    exact absurd (hall _ hm) hk
  | eof _ => exact List.forall_mem_nil _

/-- Where no fragment is expected none is cut. -/
theorem read_plain {l : Lexeme} (h : Lexeme.read [] t = .ok l) :
    ¬ (l.kind = .block ∨ l.kind = .expr) := by
  have hlen : l.length = l.text.length := by
    cases t with
    | nil =>
      cases h
      rfl
    | cons c t =>
      have hnone : Lexeme.fragment? [] c = none := by simp [Lexeme.fragment?]
      simp only [Lexeme.read, hnone] at h
      split at h
      · cases h
        rfl
      · split at h
        · cases h
          rfl
        · split at h
          · cases h
            rfl
          · cases h
  obtain ⟨w, rest, _, hs, hw⟩ := read_sound h
  obtain ⟨hk, _⟩ | ⟨_, a, b, he⟩ := hs.text
  · exact hk
  · have := congrArg List.length he
    simp only [List.length_cons, List.length_append, List.length_nil] at this
    omega

/-- Where no fragment is expected, only a character that is not ordinary cannot be cut. -/
theorem read_unrecognized {flaw : Lexeme.Flaw} (h : Lexeme.read [] t = .error flaw)
    (hg : gapLength t = 0) :
    ∃ c u, t = c :: u ∧ flaw = .unrecognized c ∧ isOrdinary c = false ∧
      ∀ u', c = '/' → u ≠ '/' :: u' := by
  cases t with
  | nil => cases h
  | cons c u =>
    have hslash : ∀ u', c = '/' → u ≠ '/' :: u' := by
      rintro u' rfl rfl
      rw [gapLength, gap_slashes] at hg
      omega
    have hblank : Text.isBlank c = false := by
      refine Bool.eq_false_iff.mpr fun hc => ?_
      rw [gapLength, gap_blank u hc] at hg
      omega
    have hnone : Lexeme.fragment? [] c = none := by simp [Lexeme.fragment?]
    simp only [Lexeme.read, hnone] at h
    split at h
    · cases h
    · rename_i hstart
      split at h
      · cases h
      · rename_i hdigit
        split at h
        · cases h
        · rename_i hmark
          cases h
          refine ⟨c, u, rfl, rfl, ?_, hslash⟩
          have hany : Kind.marks.any (·.1 == c) = false := by
            refine List.any_eq_false.mpr fun p hp he => ?_
            have hne := List.lookup_eq_none_iff.mp hmark p hp
            simp_all
          simp [isOrdinary, isNameChar, hblank, hstart, hdigit, hany]

end Bare
end Language

namespace Reader
open Statewright.Language

section Cutting
variable {r r' : Reader} {t : Token} {f : Fault}

theorem bare_skipGap (r : Reader) :
    ∃ xs, (∀ x ∈ xs, isOrdinary x.2) ∧
      bare false r.offset r.rest = xs ++ bare false r.skipGap.offset r.skipGap.rest := by
  obtain ⟨xs, hxs, he⟩ := bare_gap false r.offset r.rest
  refine ⟨xs, fun x hx => ordinary_of_blank (hxs x hx), ?_⟩
  rw [rest_skipGap]
  exact he

/-- What is cut where no fragment is expected. -/
theorem cut_plain (h : cut [] r = .ok t r') :
    ∃ w, r.skipGap.rest = w ++ r'.rest ∧ Spelling r'.rest t.kind w t.text ∧
      ¬ (t.kind = .block ∨ t.kind = .expr) ∧ r'.offset = r.skipGap.offset + w.length := by
  simp only [cut] at h
  split at h
  · cases h
  · rename_i l hl
    cases h
    obtain ⟨w, rest, he, hs, hw⟩ := read_sound hl
    have hrest : ({ r.skipGap with offset := r.skipGap.offset + l.length } : Reader).rest =
        rest := by
      change r.skipGap.source.drop (r.skipGap.offset + l.length) = rest
      rw [← List.drop_drop]
      change r.skipGap.rest.drop l.length = rest
      rw [he, ← hw, List.drop_left]
    rw [hrest]
    exact ⟨w, he, hs, read_plain hl, by rw [hw]⟩

theorem cut_bare (h : cut [] r = .ok t r') :
    ∃ xs, (∀ x ∈ xs, isOrdinary x.2) ∧
      bare false r.offset r.rest = xs ++ bare false r'.offset r'.rest := by
  obtain ⟨w, hrest, hs, hk, hoffset⟩ := cut_plain h
  have hw := hs.ordinary hk
  obtain ⟨xs, hxs, he⟩ := bare_skipGap r
  have hslash : ∀ c ∈ w, c ≠ '/' := fun c hc => ordinary_ne_slash (hw c hc)
  obtain ⟨ys, hys, he'⟩ := bare_word r.skipGap.offset hslash r'.rest
  refine ⟨xs ++ ys, ?_, ?_⟩
  · exact List.forall_mem_append.mpr ⟨hxs, fun x hx => hw _ (hys x hx)⟩
  · rw [he, hrest, he', ← hoffset, List.append_assoc]

/-- A fault is about the first character that is not ordinary. -/
theorem cut_unrecognized (h : cut [] r = .error f r') :
    ∃ xs x ys, (∀ x ∈ xs, isOrdinary x.2) ∧ isOrdinary x.2 = false ∧
      bare false r.offset r.rest = xs ++ x :: ys ∧
      f = .unrecognized x.2 (.inSource r.source x.1) := by
  simp only [cut] at h
  split at h
  · rename_i flaw hread
    cases h
    have hgap : gapLength r.skipGap.rest = 0 := by
      rw [rest_skipGap]
      exact gapLength_drop r.rest
    obtain ⟨c, u, hrest, rfl, hc, hslash⟩ := read_unrecognized hread hgap
    obtain ⟨xs, hxs, he⟩ := bare_skipGap r
    rw [hrest, bare_plain _ hslash] at he
    exact ⟨xs, (r.skipGap.offset, c), _, hxs, hc, he, rfl⟩
  · cases h

end Cutting

/-- One round of cutting a source: its next token, unless that is the end. -/
def nextToken : Read (Option Token) := do
  let kind ← peek []
  if kind = .eof then return none
  some <$> scan kind

/-- The tokens of a source from an offset up to its end, none of them a fragment. -/
structure Cuts (source : Text) (n : Nat) (ts : List Token) (e : Token) : Prop where
  spelled : Spelled source n (ts ++ [e])
  plain : ∀ t ∈ ts ++ [e], ¬ (t.kind = .block ∨ t.kind = .expr)
  inner : ∀ t ∈ ts, t.kind ≠ .eof
  last : e.kind = .eof

/-- What cutting a source from an offset on comes to: all its tokens, or a fault about the first
character that is not ordinary. -/
inductive Outcome (source : Text) (n : Nat) : EStateM.Result Fault Reader (List Token) → Prop
  | tokens {r : Reader} : Cuts source n ts e → r.ahead = some e →
      (∀ x ∈ bare false n (source.drop n), isOrdinary x.2) → Outcome source n (.ok ts r)
  | fault {r : Reader} : (∀ x ∈ xs, isOrdinary x.2) → isOrdinary x.2 = false →
      bare false n (source.drop n) = xs ++ x :: ys →
      Outcome source n (.error (.unrecognized x.2 (.inSource source x.1)) r)

section Rounds
variable {r s : Reader} {t : Token} {f : Fault}

/-- The reader after it looked at a token. -/
def seen (s : Reader) (t : Token) : Reader :=
  { s with ahead := some t }.push (.looked [] t)

theorem peek_cut (ha : r.ahead = none) (h : cut [] r = .ok t s) :
    peek [] r = .ok t.kind (seen s t) := by
  have hlook : look [] r = .ok t (seen s t) := by
    simp only [look, ha, h]
    rfl
  rw [peek, bind_of_ok hlook]
  rfl

theorem nextToken_error (ha : r.ahead = none) (h : cut [] r = .error f s) :
    nextToken r = .error f s := by
  have hlook : look [] r = .error f s := by simp only [look, ha, h]
  exact bind_of_error (bind_of_error hlook)

theorem nextToken_end (ha : r.ahead = none) (h : cut [] r = .ok t s) (hk : t.kind = .eof) :
    nextToken r = .ok none (seen s t) := by
  rw [nextToken, bind_of_ok (peek_cut ha h), if_pos hk]
  rfl

theorem nextToken_some (ha : r.ahead = none) (h : cut [] r = .ok t s) (hk : t.kind ≠ .eof) :
    nextToken r = .ok (some t) { seen s t with ahead := none } := by
  rw [nextToken, bind_of_ok (peek_cut ha h), if_neg hk]
  exact map_of_ok (scan_ahead rfl)

theorem Outcome.flawed (h : cut [] r = .error f s) : Outcome r.source r.offset (.error f s) := by
  obtain ⟨xs, x, ys, hxs, hx, he, rfl⟩ := cut_unrecognized h
  exact .fault hxs hx he

theorem Outcome.ended (h : cut [] r = .ok t s) (hk : t.kind = .eof) :
    Outcome r.source r.offset (.ok [] (seen s t)) := by
  obtain ⟨_, hspelled, _⟩ := cut_sound h
  obtain ⟨w, _, hs, hplain, _⟩ := cut_plain h
  rw [hk] at hs
  obtain ⟨_, _, hrest⟩ := hs.of_eof
  obtain ⟨xs, hxs, he⟩ := cut_bare h
  refine .tokens (e := t) ⟨hspelled [] .nil, ?_, List.forall_mem_nil _, hk⟩ rfl ?_
  · exact List.forall_mem_singleton.mpr hplain
  · rw [hrest, bare, List.append_nil] at he
    exact fun x hx => hxs x (he ▸ hx)

/-- A token before all that cutting comes to from there. -/
theorem Outcome.more {r' : Reader} {ts : List Token} (h : cut [] r = .ok t s) (hk : t.kind ≠ .eof)
    (ho : Outcome s.source s.offset (.ok ts r')) :
    Outcome r.source r.offset (.ok (t :: ts) r') := by
  obtain ⟨_, hspelled, _⟩ := cut_sound h
  obtain ⟨w, _, _, hplain, _⟩ := cut_plain h
  obtain ⟨xs, hxs, he⟩ := cut_bare h
  cases ho with
  | tokens hcuts ha hall =>
    refine .tokens ⟨hspelled _ hcuts.spelled, ?_, ?_, hcuts.last⟩ ha ?_
    · exact List.forall_mem_cons.mpr ⟨hplain, hcuts.plain⟩
    · exact List.forall_mem_cons.mpr ⟨hk, hcuts.inner⟩
    · change ∀ x ∈ bare false r.offset r.rest, _
      rw [he]
      exact List.forall_mem_append.mpr ⟨hxs, hall⟩

theorem Outcome.broken {r' : Reader} (h : cut [] r = .ok t s)
    (ho : Outcome s.source s.offset (.error f r')) :
    Outcome r.source r.offset (.error f r') := by
  obtain ⟨hsource, _⟩ := cut_path h
  obtain ⟨xs, hxs, he⟩ := cut_bare h
  cases ho with
  | @fault ys x zs _ hys hx hbare =>
    rw [hsource]
    have hall : bare false r.offset r.rest = (xs ++ ys) ++ x :: zs := by
      rw [he, List.append_assoc]
      exact congrArg _ hbare
    exact .fault (List.forall_mem_append.mpr ⟨hxs, hys⟩) hx hall

/-- Cutting goes over the whole source, or up to the first character that is not ordinary. -/
theorem collect_outcome (ha : r.ahead = none) :
    Outcome r.source r.offset (collect nextToken r) := by
  induction hn : r.remaining using Nat.strongRecOn generalizing r with
  | ind n ih =>
    cases hc : cut [] r with
    | error f s =>
      rw [collect, nextToken_error ha hc]
      exact .flawed hc
    | ok t s =>
      by_cases hk : t.kind = .eof
      · rw [collect, nextToken_end ha hc hk]
        exact .ended hc hk
      · have hlt : ({ seen s t with ahead := none } : Reader).remaining < r.remaining := by
          obtain ⟨_, _, hle⟩ := cut_sound hc
          rw [if_neg hk] at hle
          simp only [Reader.remaining, ha, Option.toList_none, List.filter_nil, List.length_nil]
          exact hle
        have ho := ih _ (hn ▸ hlt) (r := { seen s t with ahead := none }) rfl rfl
        rw [collect, nextToken_some ha hc hk]
        simp only [hlt, if_true]
        generalize collect nextToken { seen s t with ahead := none } = result at ho
        cases result with
        | ok ts r' => exact .more hc hk ho
        | error f r' => exact .broken hc ho

end Rounds
end Reader

/-- The offset behind a token that is no fragment. -/
def Token.stop (t : Token) : Nat :=
  t.offset + t.text.length

namespace Language

/-- The offset behind the last of some tokens, which begin at `n`. -/
def endOf (n : Nat) (ts : List Token) : Nat :=
  (ts.getLast?.map Token.stop).getD n

theorem endOf_cons (n : Nat) (t : Token) (ts : List Token) :
    endOf n (t :: ts) = endOf t.stop ts := by
  unfold endOf
  rw [List.getLast?_cons]
  cases ts.getLast? <;> rfl

section Spelled
variable {source : Text} {n : Nat} {ts : List Token} {t e : Token}

/-- What stands behind a gap and a token. -/
theorem drop_behind {g w rest : Text} (h : source.drop n = g ++ (w ++ rest)) :
    source.drop (n + g.length) = w ++ rest ∧ source.drop (n + g.length + w.length) = rest := by
  have hgap : source.drop (n + g.length) = w ++ rest := by
    rw [← List.drop_drop, h, List.drop_left]
  refine ⟨hgap, ?_⟩
  rw [← List.drop_drop, hgap, List.drop_left]

theorem Spelled.offset_ge (h : Spelled source n ts) : ∀ t ∈ ts, n ≤ t.offset := by
  induction h with
  | nil => exact List.forall_mem_nil _
  | cons _ _ _ _ ih =>
    refine List.forall_mem_cons.mpr ⟨Nat.le_add_right _ _, fun t ht => ?_⟩
    have := ih t ht
    omega

/-- A token that takes up room stands before all that follow it. -/
theorem Spelled.ordered (h : Spelled source n ts) :
    ts.Pairwise fun t u => t.kind ≠ .eof → t.offset < u.offset := by
  induction h with
  | nil => exact .nil
  | cons _ _ hs hts ih =>
    refine .cons (fun u hu hk => ?_) ih
    have hle := hts.offset_ge u hu
    have hpos := hs.length_pos hk
    dsimp only
    omega

/-- A token that is no fragment stands in the source as it is. -/
theorem Spelled.copied (h : Spelled source n ts) (ht : t ∈ ts)
    (hk : ¬ (t.kind = .block ∨ t.kind = .expr)) :
    source.drop t.offset = t.text ++ source.drop t.stop ∧
      Spelling (source.drop t.stop) t.kind t.text t.text := by
  induction h with
  | nil => cases ht
  | cons hd _ hs _ ih =>
    rcases List.mem_cons.mp ht with rfl | ht
    · obtain ⟨_, rfl⟩ | ⟨hfragment, _⟩ := hs.text
      · obtain ⟨hgap, hrest⟩ := drop_behind hd
        simp only [Token.stop, hgap, hrest]
        exact ⟨trivial, hs⟩
      · exact absurd hfragment hk
    · exact ih ht

theorem Spelled.gap {before after : List Token} (h : Spelled source n (before ++ t :: after))
    (hk : ∀ u ∈ before, ¬ (u.kind = .block ∨ u.kind = .expr)) :
    Gap (source.drop t.offset)
      ((source.drop (endOf n before)).take (t.offset - endOf n before)) := by
  induction before generalizing n with
  | nil =>
    cases h with
    | @cons _ g w rest _ _ _ hd hg _ _ =>
      have hlen : n + g.length - endOf n [] = g.length := Nat.add_sub_cancel_left n g.length
      have hfrom : source.drop (endOf n []) = g ++ (w ++ rest) := hd
      rw [hlen, hfrom, List.take_left, (drop_behind hd).1]
      exact hg
  | cons u before ih =>
    obtain ⟨hu, hbefore⟩ := List.forall_mem_cons.mp hk
    cases h with
    | cons _ _ hs hts =>
      obtain ⟨_, rfl⟩ | ⟨hfragment, _⟩ := hs.text
      · rw [endOf_cons]
        exact ih hts hbefore
      · exact absurd hfragment hu

/-- The end is behind the last character. -/
theorem Spelled.end_offset (h : Spelled source n (ts ++ [e])) (he : e.kind = .eof)
    (hn : n ≤ source.length) : e.offset = source.length := by
  induction ts generalizing n with
  | nil =>
    cases h with
    | cons hd _ hs _ =>
      dsimp only at he
      subst he
      obtain ⟨rfl, _, rfl⟩ := hs.of_eof
      have hlen := congrArg List.length hd
      simp only [List.length_drop, List.append_nil] at hlen
      dsimp only
      omega
  | cons u ts ih =>
    cases h with
    | cons hd _ _ hts =>
      have hlen := congrArg List.length hd
      simp only [List.length_drop, List.length_append] at hlen
      exact ih hts (by omega)

end Spelled
end Language

namespace Reader
open Statewright.Language

/-- The tokens of a source lose nothing of it but blanks and comments. -/
structure Lossless (source : Text) (ts : List Token) : Prop where
  increasing : (ts.map Token.offset).Pairwise (· < ·)
  copied : ∀ t ∈ ts, (source.drop t.offset).take t.text.length = t.text
  gaps : ∀ before t after, ts = before ++ t :: after → Gap (source.drop t.offset)
    ((source.drop (endOf 0 before)).take (t.offset - endOf 0 before))
  words : ∀ t ∈ ts, t.kind.IsWord → Ends isNameChar (source.drop t.stop)
  ints : ∀ t ∈ ts, t.kind = .int → Ends Text.isAsciiDigit (source.drop t.stop)
  ended : ∃ us e, ts = us ++ [e] ∧ e.kind = .eof ∧ e.offset = source.length ∧
    ∀ u ∈ us, u.kind ≠ .eof
  spelled : Spelled source 0 ts

section Whole
variable {source : Text} {ts : List Token} {e : Token}

theorem ends_of_word {rest w v : Text} {k : Kind} (h : Spelling rest k w v) (hk : k.IsWord) :
    Ends isNameChar rest := by
  have hmarks : ∀ p ∈ Kind.marks, p.2 ≠ .name ∧ p.2 ∉ Kind.words.map (·.2) := by decide
  have hfragments : ∀ p ∈ Kind.fragments, p.1 ≠ .name ∧ p.1 ∉ Kind.words.map (·.2) := by decide
  cases h with
  | word _ hr | name _ _ _ hr => exact hr
  | int _ _ _ => exact absurd hk (by simp [Kind.IsWord, Kind.words])
  | eof _ => exact absurd hk (by simp [Kind.IsWord, Kind.words])
  | mark hm => exact absurd hk (not_or.mpr (hmarks _ hm))
  | fragment hm _ => exact absurd hk (not_or.mpr (hfragments _ hm))

theorem ends_of_int {rest w v : Text} (h : Spelling rest .int w v) :
    Ends Text.isAsciiDigit rest := by
  cases h with
  | word hm _ => simp [Kind.words] at hm
  | int _ _ hr => exact hr
  | mark hm => simp [Kind.marks] at hm
  | fragment hm _ => simp [Kind.fragments] at hm

theorem Cuts.lossless (h : Cuts source 0 ts e) : Lossless source (ts ++ [e]) := by
  have hcopied (t : Token) (ht : t ∈ ts ++ [e]) := h.spelled.copied ht (h.plain t ht)
  refine ⟨?_, ?_, ?_, ?_, ?_, ?_, h.spelled⟩
  · rw [List.pairwise_map]
    have hordered := h.spelled.ordered
    rw [List.pairwise_append] at hordered ⊢
    obtain ⟨hinner, _, hlast⟩ := hordered
    refine ⟨?_, List.pairwise_singleton _ _, fun t ht u hu => hlast t ht u hu (h.inner t ht)⟩
    exact hinner.imp_of_mem fun ht _ hlt => hlt (h.inner _ ht)
  · intro t ht
    rw [(hcopied t ht).1, List.take_left]
  · intro before t after he
    exact Spelled.gap (he ▸ h.spelled) fun u hu => h.plain u (he ▸ List.mem_append_left _ hu)
  · exact fun t ht hk => ends_of_word (hcopied t ht).2 hk
  · intro t ht hk
    have hs := (hcopied t ht).2
    rw [hk] at hs
    exact ends_of_int hs
  · exact ⟨ts, e, rfl, h.last, h.spelled.end_offset h.last (Nat.zero_le _), h.inner⟩

theorem tokenize_of_ok {r : Reader} (h : collect nextToken { source } = .ok ts r)
    (ha : r.ahead = some e) (he : e.kind = .eof) : tokenize source = .ok (ts ++ [e]) := by
  have hscan := scan_ahead ha
  rw [he] at hscan
  have hall : (do let ts ← collect nextToken; return ts ++ [← scan .eof] : Read (List Token))
      { source } = .ok (ts ++ [e]) { r with ahead := none } := by
    rw [bind_of_ok h, bind_of_ok hscan]
    rfl
  unfold nextToken at hall
  simp only [tokenize, hall]

theorem tokenize_of_error {r : Reader} {f : Fault}
    (h : collect nextToken { source } = .error f r) : tokenize source = .error f := by
  have hall : (do let ts ← collect nextToken; return ts ++ [← scan .eof] : Read (List Token))
      { source } = .error f r := bind_of_error h
  unfold nextToken at hall
  simp only [tokenize, hall]

/-- Either all characters outside comments are ordinary and no token is lost, or the first other
one is reported. -/
theorem tokenize_cases (source : Text) :
    (∃ ts, tokenize source = .ok ts ∧ Lossless source ts ∧
      ∀ x ∈ bare false 0 source, isOrdinary x.2) ∨
    ∃ x, (bare false 0 source).find? (!isOrdinary ·.2) = some x ∧
      tokenize source = .error (.unrecognized x.2 (.inSource source x.1)) := by
  have ho := collect_outcome (r := { source }) rfl
  generalize hresult : collect nextToken { source } = result at ho
  cases ho with
  | tokens hcuts ha hall =>
    exact .inl ⟨_, tokenize_of_ok hresult ha hcuts.last, hcuts.lossless, hall⟩
  | @fault xs x ys _ hxs hx hbare =>
    refine .inr ⟨x, ?_, tokenize_of_error hresult⟩
    refine List.find?_eq_some_iff_append.mpr ⟨by simp [hx], xs, ys, hbare, fun y hy => ?_⟩
    simp [hxs y hy]

/-- A source can be cut exactly if its characters outside comments are all ordinary. Its tokens then
lose nothing; and otherwise the fault is about the first other character, at its place. -/
theorem tokenize_lossless (source : Text) :
    ((∃ ts, tokenize source = .ok ts) ↔ ∀ x ∈ bare false 0 source, isOrdinary x.2) ∧
    (∀ ts, tokenize source = .ok ts → Lossless source ts) ∧
    ∀ x, (bare false 0 source).find? (!isOrdinary ·.2) = some x →
      tokenize source = .error (.unrecognized x.2 (.inSource source x.1)) := by
  obtain ⟨ts, hts, hlossless, hall⟩ | ⟨x, hx, herror⟩ := tokenize_cases source
  · refine ⟨⟨fun _ => hall, fun _ => ⟨ts, hts⟩⟩, fun ts' hts' => ?_, fun x hx => ?_⟩
    · cases hts.symm.trans hts'
      exact hlossless
    · have hbad := List.find?_some hx
      rw [hall x (List.mem_of_find?_eq_some hx)] at hbad
      cases hbad
  · refine ⟨⟨fun ⟨ts, hts⟩ => ?_, fun hall => ?_⟩, fun ts hts => ?_, fun x' hx' => ?_⟩
    · cases hts.symm.trans herror
    · have hbad := List.find?_some hx
      rw [hall x (List.mem_of_find?_eq_some hx)] at hbad
      cases hbad
    · cases hts.symm.trans herror
    · cases hx.symm.trans hx'
      exact herror

end Whole

/-- A digit behind a word, a word behind digits, and a comment up to the end. -/
def tightSource : Text :=
  "on1 23on.\n//\x7b"

/-- A comment, and a slash that starts none. -/
def slashSource : Text :=
  "a// $\n / b"

theorem tokenize_lossless_tight :
    (∃ ts, tokenize tightSource = .ok ts ∧ Lossless tightSource ts) ∧
    tokenize slashSource = .error (.unrecognized '/' ⟨2, 2⟩) := by
  constructor
  · have hall : (bare false 0 tightSource).all (isOrdinary ·.2) = true := by decide +kernel
    obtain ⟨hiff, hlossless, _⟩ := tokenize_lossless tightSource
    obtain ⟨ts, hts⟩ := hiff.mpr (List.all_eq_true.mp hall)
    exact ⟨ts, hts, hlossless ts hts⟩
  · have hfind : (bare false 0 slashSource).find? (!isOrdinary ·.2) = some (7, '/') := by
      decide +kernel
    exact (tokenize_lossless slashSource).2.2 _ hfind

end Reader
end Statewright
