import Mathlib.Data.List.DropRight
import Statewright.Proofs.Lines
import Statewright.Proofs.Shown
import Statewright.Section

namespace Statewright
namespace Text

section Places
variable {ks ls : List Text} {l : Text} {c : Char} {i j : Nat}

theorem after_clean (p : Position) (hl : '\n' ∉ l) :
    l.foldl Position.after p = ⟨p.line, p.column + l.length⟩ := by
  rw [foldl_after, if_pos (List.count_eq_zero.mpr hl)]

theorem after_lines (n : Int) (hk : ∀ k ∈ ks, '\n' ∉ k) :
    (ks.flatMap (· ++ ['\n'])).foldl Position.after ⟨n, 1⟩ = ⟨n + ks.length, 1⟩ := by
  induction ks generalizing n with
  | nil => simp
  | cons k ks ih =>
    obtain ⟨hclean, hk⟩ := List.forall_mem_cons.mp hk
    have hnext : Position.after ⟨n, 1 + k.length⟩ '\n' = ⟨n + 1, 1⟩ := rfl
    rw [List.flatMap_cons, List.foldl_append, List.foldl_append, after_clean _ hclean,
      List.foldl_cons, List.foldl_nil, hnext, ih (n + 1) hk, List.length_cons]
    simp only [Position.mk.injEq, and_true]
    omega

/-- The place of a character in a line: the number of the line, and the column in it. -/
theorem inSource_line (ls : List Text) (hk : ∀ k ∈ ks, '\n' ∉ k) (hl : '\n' ∉ l)
    (hj : j ≤ l.length) :
    Position.inSource (join "\n" (ks ++ l :: ls)) ((ks.flatMap (· ++ ['\n'])).length + j) =
      ⟨ks.length + 1, j + 1⟩ := by
  have hclean : '\n' ∉ l.take j := fun h => hl (List.mem_of_mem_take h)
  rw [join_append, Position.inSource, seek_eq_foldl, List.take_length_add_append,
    List.take_append_of_le_length hj, List.foldl_append, Position.first, after_lines 1 hk,
    after_clean _ hclean, List.length_take, Nat.min_eq_left hj]
  · simp only [Position.mk.injEq]
    omega
  · simp only [List.length_append]
    omega

/-- A character of a text that is no newline stands in one of its lines. -/
theorem char_line {k : Nat} (hk : (join "\n" ls)[k]? = some c) (hc : c ≠ '\n') :
    ∃ ks l ms j, ls = ks ++ l :: ms ∧ k = (ks.flatMap (· ++ ['\n'])).length + j ∧
      l[j]? = some c := by
  induction ls generalizing k with
  | nil => cases hk
  | cons l ls ih =>
    by_cases hlt : k < l.length
    · refine ⟨[], l, ls, k, rfl, by simp, ?_⟩
      rwa [join_cons, List.getElem?_append_left hlt] at hk
    · cases ls with
      | nil =>
        rw [join_cons, List.getElem?_append_right (Nat.le_of_not_lt hlt)] at hk
        cases hk
      | cons l' ls =>
        rw [join_cons_of_ne l (List.cons_ne_nil l' ls),
          List.getElem?_append_right (Nat.le_of_not_lt hlt)] at hk
        cases hn : k - l.length with
        | zero =>
          rw [hn] at hk
          exact absurd (Option.some.inj hk).symm hc
        | succ n =>
          rw [hn] at hk
          obtain ⟨ks, m, ms, j, he, hj, hm⟩ := ih hk
          refine ⟨l :: ks, m, ms, j, by rw [he]; rfl, ?_, hm⟩
          rw [List.flatMap_cons, List.length_append, List.length_append, List.length_singleton]
          omega

/-- The characters of a text by line and column, newlines apart. -/
theorem char_place {k : Nat} (hls : ∀ l ∈ ls, '\n' ∉ l) (hk : (join "\n" ls)[k]? = some c)
    (hc : c ≠ '\n') : ∃ (i j : Nat) (l : Text), ls[i]? = some l ∧ l[j]? = some c ∧
      Position.inSource (join "\n" ls) k = ⟨i + 1, j + 1⟩ := by
  obtain ⟨ks, l, ms, j, rfl, rfl, hj⟩ := char_line hk hc
  obtain ⟨hlt, _⟩ := List.getElem?_eq_some_iff.mp hj
  refine ⟨ks.length, j, l, by simp, hj, ?_⟩
  exact inSource_line ms (fun k hk => hls k (by simp [hk])) (hls l (by simp)) hlt.le

theorem place_char (hls : ∀ l ∈ ls, '\n' ∉ l) (hi : ls[i]? = some l) (hj : l[j]? = some c) :
    ∃ k, (join "\n" ls)[k]? = some c ∧ Position.inSource (join "\n" ls) k = ⟨i + 1, j + 1⟩ := by
  obtain ⟨hlt, rfl⟩ := List.getElem?_eq_some_iff.mp hi
  obtain ⟨hj', _⟩ := List.getElem?_eq_some_iff.mp hj
  have hsplit : ls = ls.take i ++ ls[i] :: ls.drop (i + 1) := by simp
  have hlen : (ls.take i).length = i := by
    rw [List.length_take, Nat.min_eq_left hlt.le]
  refine ⟨((ls.take i).flatMap (· ++ ['\n'])).length + j, ?_, ?_⟩
  · rw [hsplit, join_append, ← hsplit, List.getElem?_append_right (Nat.le_add_right _ _),
      Nat.add_sub_cancel_left, List.getElem?_append_left hj', hj]
  · have hbefore : ∀ k ∈ ls.take i, '\n' ∉ k := fun k hk => hls k (List.mem_of_mem_take hk)
    have hplace := inSource_line (ls.drop (i + 1)) hbefore (hls _ (List.getElem_mem hlt)) hj'.le
    rwa [← hsplit, hlen] at hplace

end Places

section Blanks
variable {t : Text} {ls : List Text}

theorem getElem?_of_prefix {α : Type} {xs ys : List α} (h : xs <+: ys) {i : Nat} {x : α}
    (hx : xs[i]? = some x) : ys[i]? = some x := by
  obtain ⟨zs, rfl⟩ := h
  obtain ⟨hlt, _⟩ := List.getElem?_eq_some_iff.mp hx
  rw [List.getElem?_append_left hlt, hx]

theorem readLines_begins (t : Text) : t.readLines <+: t.lines := by
  unfold readLines
  dsimp only
  split
  · exact List.dropLast_prefix _
  · exact List.prefix_rfl

/-- The lines of a text, each up to its newline. What is left behind the last newline, if anything
is, is a line as well. -/
inductive Lined : Text → List Text → Prop
  | ended {ls : List Text} : (∀ l ∈ ls, '\n' ∉ l) → Lined (ls.flatMap (· ++ ['\n'])) ls
  | left {ls : List Text} {l : Text} : (∀ k ∈ ls, '\n' ∉ k) → '\n' ∉ l → l ≠ [] →
      Lined (ls.flatMap (· ++ ['\n']) ++ l) (ls ++ [l])

theorem lined_readLines (t : Text) : Lined t t.readLines := by
  obtain ⟨ls, l, hsplit⟩ : ∃ ls l, t.lines = ls ++ [l] :=
    ⟨_, _, (List.dropLast_append_getLast (lines_ne_nil t)).symm⟩
  have hunbroken : ∀ k ∈ ls ++ [l], '\n' ∉ k := fun k hk => (mem_lines (hsplit ▸ hk)).1
  obtain ⟨hls, hl⟩ := List.forall_mem_append.mp hunbroken
  have htext : t = ls.flatMap (· ++ ['\n']) ++ l := by
    rw [← lines_join t, hsplit, join_append, below, List.flatMap_nil, List.append_nil]
  unfold readLines
  rw [hsplit]
  dsimp only
  rw [List.getLast?_concat, List.dropLast_concat, htext]
  split
  · rename_i hlast
    obtain rfl : l = [] := Option.some.inj hlast
    rw [List.append_nil]
    exact .ended hls
  · rename_i hlast
    exact .left hls (hl l (List.mem_singleton_self l)) fun hnil => hlast (hnil ▸ rfl)

/-- Only the empty text has no lines to be read. -/
theorem readLines_ne_nil (ht : t ≠ []) : t.readLines ≠ [] := by
  unfold readLines
  dsimp only
  split
  · rename_i hlast
    intro hnil
    obtain ⟨l, hl⟩ : ∃ l, t.lines = [l] := by
      have hlen := congrArg List.length hnil
      rw [List.length_dropLast, List.length_nil] at hlen
      have hpos := List.length_pos_iff.mpr (lines_ne_nil t)
      exact List.length_eq_one_iff.mp (by omega)
    rw [hl] at hlast
    cases hlast
    exact ht (by rw [← lines_join t, hl]; rfl)
  · exact lines_ne_nil t

theorem mem_readLines {l : Text} (hl : l ∈ t.readLines) : '\n' ∉ l ∧ ∀ c ∈ l, c ∈ t :=
  mem_lines ((readLines_begins t).subset hl)

theorem trimEnd_begins (t : Text) : t.trimEnd <+: t :=
  List.rdropWhile_prefix isBlank t

theorem allBlank_trimEnd : t.trimEnd.allBlank ↔ t.allBlank := by
  constructor
  · intro h
    -- the last character of what is left would not be blank
    have hnil : t.trimEnd = [] := by
      by_contra hne
      exact List.rdropWhile_last_not isBlank t hne (List.all_eq_true.mp h _ (List.getLast_mem hne))
    exact List.all_eq_true.mpr (List.rdropWhile_eq_nil_iff.mp hnil)
  · intro h
    exact List.all_eq_true.mpr fun c hc =>
      List.all_eq_true.mp h c ((trimEnd_begins t).subset hc)

theorem allBlank_join : (join "\n" ls).allBlank ↔ ∀ l ∈ ls, l.allBlank := by
  induction ls with
  | nil => simp [join, allBlank]
  | cons l ls ih =>
    cases ls with
    | nil => simp [join]
    | cons k ks =>
      rw [join_cons_of_ne l (List.cons_ne_nil k ks), List.forall_mem_cons, ← ih]
      have hbreak : isBlank '\n' = true := by decide
      simp [allBlank, hbreak]

end Blanks
end Text

namespace Section

/-- Which lines stand inside a section. A section begins behind a line that opens it, and goes up to
the next line that closes it, behind which there may be others; the last may be left open. -/
inductive Marked (d : Delimiters) : List Text → List Bool → Prop
  | outside : (∀ l ∈ ls, l.trimEnd ≠ d.opening) → Marked d ls (ls.map fun _ => false)
  | unclosed : (∀ l ∈ ls, l.trimEnd ≠ d.opening) → o.trimEnd = d.opening →
      (∀ k ∈ ks, k.trimEnd ≠ d.closing) →
      Marked d (ls ++ o :: ks) (ls.map (fun _ => false) ++ false :: ks.map fun _ => true)
  | closed : (∀ l ∈ ls, l.trimEnd ≠ d.opening) → o.trimEnd = d.opening →
      (∀ k ∈ ks, k.trimEnd ≠ d.closing) → e.trimEnd = d.closing → Marked d ms bs →
      Marked d (ls ++ o :: (ks ++ e :: ms))
        (ls.map (fun _ => false) ++ false :: (ks.map (fun _ => true) ++ false :: bs))

/-- What is kept of a line. -/
def kept (l : Text) (inside : Bool) : Text :=
  if inside then l.trimEnd else []

/-- The marks of lines, read one by one. -/
def marks (d : Delimiters) : (inside : Bool) → List Text → List Bool
  | _, [] => []
  | false, l :: ls => false :: marks d (l.trimEnd = d.opening) ls
  | true, l :: ls => (l.trimEnd ≠ d.closing) :: marks d (l.trimEnd ≠ d.closing) ls

section Marks
variable {d : Delimiters} {ls ms : List Text} {bs : List Bool}

theorem marks_outside (h : ∀ l ∈ ls, l.trimEnd ≠ d.opening) (ms : List Text) :
    marks d false (ls ++ ms) = ls.map (fun _ => false) ++ marks d false ms := by
  induction ls with
  | nil => rfl
  | cons l ls ih =>
    obtain ⟨hl, hls⟩ := List.forall_mem_cons.mp h
    simp only [List.cons_append, marks, hl, decide_false, ih hls, List.map_cons]

theorem marks_inside (h : ∀ l ∈ ls, l.trimEnd ≠ d.closing) (ms : List Text) :
    marks d true (ls ++ ms) = ls.map (fun _ => true) ++ marks d true ms := by
  induction ls with
  | nil => rfl
  | cons l ls ih =>
    obtain ⟨hl, hls⟩ := List.forall_mem_cons.mp h
    simp only [List.cons_append, marks, ne_eq, hl, not_false_eq_true, decide_true, ih hls,
      List.map_cons]

/-- Lines can be marked in one way only. -/
theorem Marked.eq_marks (h : Marked d ls bs) : bs = marks d false ls := by
  induction h with
  | outside hls => simpa [marks] using (marks_outside hls []).symm
  | unclosed hls ho hks =>
    have hinside := marks_inside hks []
    rw [List.append_nil] at hinside
    rw [marks_outside hls, marks, ho, decide_eq_true rfl, hinside]
    simp [marks]
  | closed hls ho hks he _ ih =>
    rw [marks_outside hls, marks, ho, decide_eq_true rfl, marks_inside hks, marks]
    simp [he, ih]

/-- Lines can be marked. -/
theorem exists_marked (d : Delimiters) (ls : List Text) : ∃ bs, Marked d ls bs := by
  -- by the length of what follows the first section
  induction hn : ls.length using Nat.strong_induction_on generalizing ls with
  | _ n ih =>
    cases ho : ls.find? (·.trimEnd = d.opening) with
    | none =>
      rw [List.find?_eq_none] at ho
      exact ⟨_, .outside fun l hl => by simpa using ho l hl⟩
    | some o =>
      obtain ⟨hopen, before, after, rfl, hbefore⟩ := List.find?_eq_some_iff_append.mp ho
      have hbefore : ∀ l ∈ before, l.trimEnd ≠ d.opening := by simpa using hbefore
      have hopen : o.trimEnd = d.opening := by simpa using hopen
      cases he : after.find? (·.trimEnd = d.closing) with
      | none =>
        rw [List.find?_eq_none] at he
        exact ⟨_, .unclosed hbefore hopen fun k hk => by simpa using he k hk⟩
      | some e =>
        obtain ⟨hclose, ks, ms, rfl, hks⟩ := List.find?_eq_some_iff_append.mp he
        have hks : ∀ k ∈ ks, k.trimEnd ≠ d.closing := by simpa using hks
        have hlt : ms.length < n := by
          rw [← hn]
          simp only [List.length_append, List.length_cons]
          omega
        obtain ⟨bs, hbs⟩ := ih ms.length hlt ms rfl
        exact ⟨_, .closed hbefore hopen hks (by simpa using hclose) hbs⟩

theorem marked_marks (d : Delimiters) (ls : List Text) : Marked d ls (marks d false ls) := by
  obtain ⟨bs, hbs⟩ := exists_marked d ls
  exact hbs.eq_marks ▸ hbs

theorem length_marks (d : Delimiters) (inside : Bool) (ls : List Text) :
    (marks d inside ls).length = ls.length := by
  fun_induction marks d inside ls <;> simp_all

/-- Lines are kept by their marks. -/
theorem keep_eq (ho : d.opening ≠ []) (hc : d.closing ≠ []) (inside : Bool) (ls : List Text) :
    keep d inside ls = List.zipWith kept ls (marks d inside ls) := by
  have hopening : d.opening.isEmpty = false := List.isEmpty_eq_false_iff.mpr ho
  have hclosing : d.closing.isEmpty = false := List.isEmpty_eq_false_iff.mpr hc
  induction ls generalizing inside with
  | nil => cases inside <;> rfl
  | cons l ls ih =>
    cases inside with
    | false => by_cases hl : l.trimEnd = d.opening <;> simp [keep, marks, kept, hl, hopening, ih]
    | true => by_cases hl : l.trimEnd = d.closing <;> simp [keep, marks, kept, hl, hclosing, ih]

end Marks

section Extract
variable {d : Delimiters} (host : Text)

theorem kept_clean {l : Text} (hl : '\n' ∉ l) (inside : Bool) : '\n' ∉ kept l inside := by
  cases inside with
  | false => exact List.not_mem_nil
  | true => exact fun h => hl ((Text.trimEnd_begins l).subset h)

/-- The kept lines hold no newlines. -/
theorem kept_lines_clean (bs : List Bool) :
    ∀ l ∈ List.zipWith kept host.readLines bs, '\n' ∉ l := by
  intro l hl
  rw [← List.map_uncurry_zip_eq_zipWith] at hl
  obtain ⟨⟨line, inside⟩, hmem, rfl⟩ := List.mem_map.mp hl
  exact kept_clean (Text.mem_readLines (List.of_mem_zip hmem).1).1 inside

theorem extract_eq (ho : d.opening ≠ []) (hc : d.closing ≠ []) :
    extract d host = Text.join "\n" (List.zipWith kept host.readLines
      (marks d false host.readLines)) := by
  rw [extract, keep_eq ho hc]

theorem lines_extract (ho : d.opening ≠ []) (hc : d.closing ≠ []) (hne : host ≠ []) :
    (extract d host).lines = List.zipWith kept host.readLines (marks d false host.readLines) := by
  rw [extract_eq host ho hc]
  refine Text.lines_of_join (fun hnil => ?_) (kept_lines_clean host _)
  have hlen := congrArg List.length hnil
  rw [List.length_zipWith, length_marks, Nat.min_self] at hlen
  exact Text.readLines_ne_nil hne (List.length_eq_zero_iff.mp hlen)

/-- A character that is kept has its place in the host. -/
theorem extract_place (ho : d.opening ≠ []) (hc : d.closing ≠ []) {k : Nat} {c : Char}
    (hk : (extract d host)[k]? = some c) (hne : c ≠ '\n') :
    ∃ j : Nat, host[j]? = some c ∧
      Position.inSource host j = Position.inSource (extract d host) k := by
  rw [extract_eq host ho hc] at hk ⊢
  obtain ⟨i, j, l, hi, hj, hplace⟩ := Text.char_place (kept_lines_clean host _) hk hne
  obtain ⟨whole, inside, hwhole, _, rfl⟩ := List.getElem?_zipWith_eq_some.mp hi
  -- a line of which something is kept is kept up to its last blanks
  have hchar : whole[j]? = some c := by
    cases inside with
    | false => cases hj
    | true => exact Text.getElem?_of_prefix (Text.trimEnd_begins whole) hj
  have hlines : host.lines[i]? = some whole :=
    Text.getElem?_of_prefix (Text.readLines_begins host) hwhole
  obtain ⟨n, hn, hat⟩ := Text.place_char (fun l hl => (Text.mem_lines hl).1) hlines hchar
  rw [Text.lines_join] at hn hat
  exact ⟨n, hn, hat.trans hplace.symm⟩

/-- The lines of a host keep their numbers. Its lines are marked in one way as being inside a
section or not; the extract has as many lines, those inside without the blanks at their ends and all
others empty, and each character in a line of it stands at the same place in the host. -/
theorem lines_keep_numbers (ho : d.opening ≠ []) (hc : d.closing ≠ []) :
    ∃ bs, Text.Lined host host.readLines ∧ Marked d host.readLines bs ∧
      (∀ bs', Marked d host.readLines bs' → bs' = bs) ∧ bs.length = host.readLines.length ∧
      extract d host = Text.join "\n" (List.zipWith kept host.readLines bs) ∧
      (host ≠ [] → (extract d host).lines = List.zipWith kept host.readLines bs) ∧
      ∀ (k : Nat) (c : Char), (extract d host)[k]? = some c → c ≠ '\n' → ∃ j : Nat,
        host[j]? = some c ∧ Position.inSource host j = Position.inSource (extract d host) k :=
  ⟨marks d false host.readLines, Text.lined_readLines host, marked_marks d _,
    fun _ h => h.eq_marks, length_marks d false _, extract_eq host ho hc, lines_extract host ho hc,
    fun _ _ => extract_place host ho hc⟩

end Extract

/-- A host with two sections, the last one left open. -/
def openHost : Text :=
  "int x;\n%% \n  b \n\n%%\n%\n%%\nend"

theorem lines_keep_numbers_unclosed : ∃ bs, Marked {} openHost.readLines bs ∧
    bs = [false, false, true, true, false, false, false, true] ∧
    (extract {} openHost).lines = ["", "", "  b", "", "", "", "", "end"].map String.toList ∧
    ∃ j : Nat, openHost[j]? = some 'n' ∧ Position.inSource openHost j = ⟨8, 2⟩ := by
  obtain ⟨bs, _, hmarked, _, _, _, hlines, hplace⟩ :=
    lines_keep_numbers (d := {}) openHost (by decide) (by decide)
  have hbs : bs = [false, false, true, true, false, false, false, true] := by
    rw [hmarked.eq_marks]
    decide
  refine ⟨bs, hmarked, hbs, ?_, ?_⟩
  · rw [hlines (by decide), hbs]
    decide
  · obtain ⟨j, hj, hat⟩ := hplace 11 'n' (by decide) (by decide)
    exact ⟨j, hj, hat.trans (by decide)⟩

/-- Some line inside a section has more than blanks. -/
def Filled (ls : List Text) (bs : List Bool) : Prop :=
  ∃ x ∈ ls.zip bs, x.2 = true ∧ ¬ x.1.allBlank

section Load
variable {host : Text}

theorem extract_blank_iff :
    (extract {} host).allBlank ↔ ¬ Filled host.readLines (marks {} false host.readLines) := by
  rw [extract_eq host (by decide) (by decide), Text.allBlank_join,
    ← List.map_uncurry_zip_eq_zipWith, List.forall_mem_map, Filled]
  constructor
  · rintro h ⟨x, hx, hinside, hfull⟩
    have hblank : (kept x.1 x.2).allBlank := h x hx
    rw [kept, if_pos hinside, Text.allBlank_trimEnd] at hblank
    exact hfull hblank
  · intro h x hx
    change (kept x.1 x.2).allBlank
    rw [kept]
    split
    · rename_i hinside
      rw [Text.allBlank_trimEnd]
      by_contra hfull
      exact h ⟨x, hx, hinside, hfull⟩
    · rfl

theorem load_filled (h : Filled host.readLines (marks {} false host.readLines)) :
    load host = extract {} host :=
  if_neg fun hblank => extract_blank_iff.mp hblank h

theorem load_unfilled (h : ¬ Filled host.readLines (marks {} false host.readLines)) :
    load host = host :=
  if_pos (extract_blank_iff.mpr h)

/-- No section holds anything where no line opens one. -/
theorem unfilled_of_undelimited (h : ∀ l ∈ host.readLines, l.trimEnd ≠ "%%".toList) :
    ¬ Filled host.readLines (marks {} false host.readLines) := by
  rintro ⟨x, hx, hinside, _⟩
  rw [← (Marked.outside (d := {}) h).eq_marks] at hx
  obtain ⟨_, _, hfalse⟩ := List.mem_map.mp (List.of_mem_zip hx).2
  rw [← hfalse] at hinside
  cases hinside

/-- A host with a delimiter line has more than blanks. -/
theorem host_not_blank (h : ∃ l ∈ host.readLines, l.trimEnd = "%%".toList) : ¬ host.allBlank := by
  obtain ⟨l, hl, hdelimiter⟩ := h
  intro hblank
  have hmem : '%' ∈ l.trimEnd := by
    rw [hdelimiter]
    decide
  have hhost := (Text.mem_readLines hl).2 '%' ((Text.trimEnd_begins l).subset hmem)
  exact absurd (List.all_eq_true.mp hblank '%' hhost) (by decide)

/-- A file without delimiter lines is loaded as it is. One that has some is loaded by its sections
exactly if these hold more than blanks, and otherwise as it is. -/
theorem load_sections_filled (host : Text) :
    ((∀ l ∈ host.readLines, l.trimEnd ≠ "%%".toList) → load host = host) ∧
    ((∃ l ∈ host.readLines, l.trimEnd = "%%".toList) → ∃ bs, Marked {} host.readLines bs ∧
      (load host = extract {} host ↔ Filled host.readLines bs) ∧
      (¬ Filled host.readLines bs → load host = host)) := by
  refine ⟨fun h => load_unfilled (unfilled_of_undelimited h), fun h => ?_⟩
  refine ⟨marks {} false host.readLines, marked_marks {} _, ⟨?_, load_filled⟩, load_unfilled⟩
  intro hload
  by_contra hun
  rw [load_unfilled hun] at hload
  exact host_not_blank h (hload ▸ extract_blank_iff.mpr hun)

/-- A host whose only section is blank. -/
def blankHost : Text :=
  "a\n%%\n\n%%\n"

theorem load_sections_filled_open : load openHost = extract {} openHost ∧
    load "a\n% %\n".toList = "a\n% %\n".toList := by
  refine ⟨?_, (load_sections_filled "a\n% %\n".toList).1 (by decide)⟩
  obtain ⟨bs, hmarked, hiff, _⟩ := (load_sections_filled openHost).2 (by decide)
  refine hiff.mpr ⟨("end".toList, true), ?_, rfl, by decide⟩
  rw [hmarked.eq_marks]
  decide

/-- This host has delimiter lines, but it is loaded as a whole. -/
theorem blank_section_passed_over : (∃ l ∈ blankHost.readLines, l.trimEnd = "%%".toList) ∧
    load blankHost = blankHost ∧ extract {} blankHost = "\n\n\n".toList ∧
    load blankHost ≠ extract {} blankHost := by
  decide

end Load
end Section
end Statewright
