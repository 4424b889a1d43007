import Statewright.Command
import Statewright.Proofs.References

namespace Statewright

namespace Store
variable {s : Store} {path : Text} {e : OpenError}

/-- Whatever keeps a file from being written keeps it from being found, a lock excepted. -/
theorem last_reading {here : Place} {name : Text} {slash : Bool}
    (h : s.last here name slash true = .error e) (he : e ≠ .denied) :
    ∃ e', s.last here name slash false = .error e' := by
  unfold last at *
  rw [Bool.and_false, if_neg Bool.false_ne_true]
  split
  · exact ⟨_, rfl⟩
  split
  · exact ⟨_, rfl⟩
  split
  · exact ⟨_, rfl⟩
  split
  · rename_i hdots hlong hdirectory hfile
    cases slash with
    | true => exact ⟨_, rfl⟩
    | false =>
      -- The file is there, so that only its lock can keep it from being written.
      simp only [if_neg hdots, if_neg hlong, if_neg hdirectory, if_pos hfile, Bool.false_and,
        Bool.true_and, if_neg Bool.false_ne_true] at h
      split at h
      · cases h
        exact absurd rfl he
      · cases h
  · exact ⟨_, rfl⟩

theorem locate_reading (h : s.locate path true = .error e) (he : e ≠ .denied) :
    ∃ e', s.locate path false = .error e' := by
  unfold locate at *
  split
  · exact ⟨_, rfl⟩
  split
  · exact ⟨_, rfl⟩
  split
  · exact ⟨_, rfl⟩
  rename_i hnull hempty hlong
  rw [if_neg hnull, if_neg hempty, if_neg hlong] at h
  dsimp only at h ⊢
  split
  · exact ⟨_, rfl⟩
  · rename_i name hname
    rw [hname] at h
    dsimp only at h
    generalize ((Text.split (· == '/') path).filter (!·.isEmpty)).dropLast.foldlM s.enter _ = here
      at h ⊢
    cases here with
    | error e' => exact ⟨e', rfl⟩
    | ok here => exact last_reading h he

/-- Writing a file fails exactly if its path cannot be opened. -/
theorem write_error {text : Text} :
    s.write path text = .error e ↔ s.locate path true = .error e := by
  unfold write
  cases s.locate path true with
  | error e' =>
    constructor <;> intro h <;> cases h <;> rfl
  | ok place => constructor <;> intro h <;> cases h

/-- Removing what could not be written changes nothing, unless it was locked. -/
theorem discard_of_error (h : s.locate path true = .error e) (he : e ≠ .denied) :
    s.discard path = s := by
  obtain ⟨e', he'⟩ := locate_reading h he
  rw [discard, he']

/-- Writes texts to paths, one after the other. -/
def writeEach (s : Store) (files : List (Text × Text)) : Except OpenError Store :=
  files.foldlM (fun s f => s.write f.1 f.2) s

end Store

namespace Machine
variable {m : Machine}

/-- A link that ends at a state, if it goes anywhere. -/
def Aimed (m : Machine) (link : Link) : Prop :=
  ∀ i, link.target = some i → ∃ n : Nat, n < m.states.length ∧ i = n

theorem linkLines_succeeds {link : Link} (h : m.Aimed link) (source label : Text) :
    ∃ ls, Diagram.linkLines m source label link = .ok ls := by
  unfold Diagram.linkLines
  cases ht : link.target with
  | none => exact ⟨_, rfl⟩
  | some i =>
    obtain ⟨n, hn, rfl⟩ := h i ht
    have hindex : wrappedIndex? m.states.length n = some n := by
      simp [wrappedIndex?, hn]
    simp only [hindex, Option.bind_some, List.getElem?_eq_getElem hn]
    exact ⟨_, rfl⟩

/-- A numbered machine whose links all end at states can be drawn. -/
theorem diagram_succeeds (hn : m.numbered)
    (hs : ∀ s ∈ m.states, ∀ t ∈ s.transitions, m.Aimed t.link)
    (hu : ∀ u ∈ m.untils, m.Aimed u.link) : ∃ text, Diagram.text m = .ok text := by
  have hedges : ∀ s ∈ m.states, ∃ ls, Diagram.stateEdges m s = .ok ls := by
    intro s hmem
    obtain ⟨ls, hls⟩ := CUnit.mapM_succeeds fun t ht =>
      linkLines_succeeds (hs s hmem t ht) s.name (Diagram.label t)
    exact ⟨ls.flatten, by rw [Diagram.stateEdges, hls]; rfl⟩
  have hoverflows : ∀ u ∈ m.untils.zipIdx, ∃ ls, Diagram.overflowEdges m u = .ok ls := by
    intro u hmem
    exact linkLines_succeeds (hu u.1 (List.fst_mem_of_mem_zipIdx hmem)) _ _
  obtain ⟨edges, hedges⟩ := CUnit.mapM_succeeds hedges
  obtain ⟨overflows, hoverflows⟩ := CUnit.mapM_succeeds hoverflows
  rw [Diagram.text, Diagram.lines, Diagram.edgeLines, if_pos hn, hedges, hoverflows]
  exact ⟨_, rfl⟩

theorem analyzed_overflows (hf : m.Fresh) : ∀ u ∈ m.number.resolve.untils,
    ∃ v ∈ m.untils, u.link.target = (m.jumpTarget? v.overflow).map Int.ofNat := by
  have h (n k : Nat) (items : List Item) (hlinks : ∀ u ∈ items.filterMap Item.until?, u.link = {}) :
      ∀ u ∈ (m.number.resolveItems m.number.allLabels n k (Item.numberFrom n items)).filterMap
        Item.until?, ∃ v ∈ items.filterMap Item.until?,
          u.link.target = (m.jumpTarget? v.overflow).map Int.ofNat := by
    fun_induction spotsFrom n k items with
    | case1 n k => exact fun u hu => by cases hu
    | case2 n k s items ih => exact ih hlinks
    | case3 n k v items ih =>
      change ∀ u ∈ _ :: List.filterMap Item.until? (m.number.resolveItems _ _ _ _),
        ∃ w ∈ v :: items.filterMap Item.until?, _
      change ∀ u ∈ v :: items.filterMap Item.until?, _ at hlinks
      obtain ⟨hempty, hlinks⟩ := List.forall_mem_cons.mp hlinks
      rw [List.length_mapIdx]
      refine List.forall_mem_cons.mpr ⟨⟨v, List.mem_cons_self, ?_⟩, ?_⟩
      · simp only [hempty, (linkJump_empty _ _ _ _ _).1, number_jumpTarget?]
      · intro u hu
        obtain ⟨w, hw, hlink⟩ := ih hlinks u hu
        exact ⟨w, List.mem_cons_of_mem v hw, hlink⟩
  exact h 0 0 m.items hf.overflows

/-- An analyzed machine can be drawn. -/
theorem analyzed_diagram (hf : m.Fresh) : ∃ text, Diagram.text m.number.resolve = .ok text := by
  refine diagram_succeeds rfl ?_ ?_
  · intro s hs t' ht' i hi
    rw [analyzed_states] at hs
    obtain ⟨p, hp, rfl⟩ := List.mem_map.mp hs
    obtain ⟨t, ht, rfl⟩ := List.mem_map.mp ht'
    rw [resolved_target _ _ _ _ (hf.link hp ht), Option.map_eq_some_iff] at hi
    obtain ⟨n, hn, rfl⟩ := hi
    rw [analyzed_states_length]
    exact ⟨n, targetOf_lt hp hn, rfl⟩
  · intro u hu i hi
    obtain ⟨v, _, hv⟩ := analyzed_overflows hf u hu
    rw [hv, Option.map_eq_some_iff] at hi
    obtain ⟨n, hn, rfl⟩ := hi
    rw [analyzed_states_length]
    exact ⟨n, jumpTarget?_lt hn, rfl⟩

end Machine

theorem Compilation.compile_ok {c c' : Compilation} {source : Text} {stem : Option Text}
    {p : Program} {unit : Text} (h : c.compile source stem = (c', .ok (p, unit))) :
    ∃ c₁ q c₂, c.parse source = (c₁, .ok q) ∧ c₁.analyze q = (c₂, p, .ok ()) := by
  unfold compile at h
  split at h
  · cases h
  · rename_i c₁ q hparse
    split at h
    · cases h
    · rename_i c₂ p' hanalyze
      split at h
      · cases h
      · cases h
        exact ⟨c₁, q, c₂, hparse, hanalyze⟩

/-- What is compiled of a source that analysis accepts. -/
theorem Compilation.compile_accepts {file : Option Text} {source : Text} {test : Machine → Bool}
    (h : accepts file source test) (stem : Option Text) :
    ∃ c p unit, compile { file } source stem = (c, .ok (p, unit)) := by
  obtain ⟨c, q, c', p, hp, ha, _, _⟩ := accepted h
  obtain ⟨_, _, _, _, hcompile, _⟩ := compile_accepted hp ha stem
  exact ⟨_, p, _, Prod.ext rfl hcompile⟩

namespace Command
variable {o : Options} {store : Store}

/-- The files that are asked for, in the order in which they are written. -/
def Options.files (o : Options) : List Text :=
  let wanted (path : Option Text) := path.toList.filter (!·.isEmpty)
  (o.output.toList ++ (wanted o.yaml ++ wanted o.plantuml)).filter (· ≠ ['-'])

/-- A text for a path, as an output. -/
def outputOf (f : Text × Text) : Output :=
  ⟨some f.1, .ok f.2⟩

/-- The outputs of an accepted program all have their texts. -/
theorem outputs_eq {c c' : Compilation} {file : Option Text} {source : Text} {p q : Program}
    (hp : Compilation.parse { file } source = (c, .ok q)) (ha : c.analyze q = (c', p, .ok ()))
    {path : Text} (hpath : o.output = some path) (ds : List Diagnostic) (unit : Text) :
    ∃ fs : List (Text × Text), outputs o p ds unit = fs.map outputOf ∧
      (fs.map Prod.fst).filter (· ≠ ['-']) = o.files := by
  obtain ⟨hd, hm, _⟩ := Compilation.analyze_accepted hp ha
  obtain ⟨diagram, hdiagram⟩ := Machine.analyzed_diagram hd.fresh
  rw [← hm] at hdiagram
  refine ⟨(path, unit) :: ((o.yaml.toList.filter (!·.isEmpty)).map (·, Document.ofProgram p ds) ++
    (o.plantuml.toList.filter (!·.isEmpty)).map (·, diagram)), ?_, ?_⟩
  · simp only [outputs, hpath, hdiagram, List.map_cons, List.map_append, List.map_map]
    rfl
  · simp only [Options.files, hpath, List.map_cons, List.map_append, List.map_map,
      Option.toList_some, List.singleton_append, Function.comp_def, List.map_id']

/-- Writing outputs ends at the first that cannot be opened. -/
theorem writeAll_failed (stdout stderr : Text) (fs : List (Text × Text))
    (h : (writeAll stdout stderr store (fs.map outputOf)).ending ≠ .status 0) :
    ∃ done path store' e, done.map Prod.fst ++ [path] <+: (fs.map Prod.fst).filter (· ≠ ['-']) ∧
      store.writeEach done = .ok store' ∧ store'.locate path true = .error e ∧
      (writeAll stdout stderr store (fs.map outputOf)).ending = .crash (.file e path) ∧
      (writeAll stdout stderr store (fs.map outputOf)).store = store'.discard path := by
  induction fs generalizing stdout store with
  | nil => exact absurd rfl h
  | cons f fs ih =>
    obtain ⟨path, text⟩ := f
    simp only [List.map_cons, outputOf, writeAll] at h ⊢
    by_cases hdash : path = ['-']
    · simp only [if_pos hdash] at h ⊢
      obtain ⟨done, path', store', e, hprefix, hrest⟩ := ih _ h
      refine ⟨done, path', store', e, ?_, hrest⟩
      rw [List.filter_cons, if_neg (by simp [hdash])]
      exact hprefix
    · simp only [if_neg hdash] at h ⊢
      rw [List.filter_cons, if_pos (by simpa using hdash)]
      cases hw : store.write path text with
      | error e =>
        refine ⟨[], path, store, e, ?_, rfl, Store.write_error.mp hw, rfl, rfl⟩
        exact List.cons_prefix_cons.mpr ⟨rfl, List.nil_prefix⟩
      | ok store₁ =>
        rw [hw] at h
        obtain ⟨done, path', store', e, hprefix, hwrite, hrest⟩ := ih _ h
        refine ⟨(path, text) :: done, path', store', e, ?_, ?_, hrest⟩
        · exact List.cons_prefix_cons.mpr ⟨rfl, hprefix⟩
        · rw [Store.writeEach, List.foldlM_cons, hw]
          exact hwrite

theorem compile_outputs {file source : Text} {before : List Event} {os : List Output}
    (h : (compile o file source before).outputs = .ok os) :
    ∃ c p unit, Compilation.compile { file := some file } source o.stem = (c, .ok (p, unit)) ∧
      os = outputs o p c.diagnostics unit := by
  unfold compile at h
  generalize Compilation.compile _ source o.stem = result at h ⊢
  obtain ⟨c, result⟩ := result
  cases result with
  | ok r =>
    cases h
    exact ⟨c, r.1, r.2, rfl, rfl⟩
  | error failure =>
    cases failure with
    | rejected ds => cases h
    | aborted abort => cases abort <;> cases h
    | misfit misfit => cases misfit <;> cases h

/-- A compilation that fails has left the store alone, or has come to a file that it cannot open. -/
theorem finish_failed {file source : Text} {before : List Event}
    (h : (finish (compile o file source before) store).ending ≠ .status 0) :
    (finish (compile o file source before) store).store = store ∨
    ∃ done path store' e, done.map Prod.fst ++ [path] <+: o.files ∧
      store.writeEach done = .ok store' ∧ store'.locate path true = .error e ∧
      (finish (compile o file source before) store).ending = .crash (.file e path) ∧
      (finish (compile o file source before) store).store = store'.discard path := by
  unfold finish at h ⊢
  cases hos : (compile o file source before).outputs with
  | error ending => exact .inl rfl
  | ok os =>
    rw [hos] at h
    dsimp only at h ⊢
    obtain ⟨c, p, unit, hcompile, rfl⟩ := compile_outputs hos
    cases hpath : o.output with
    | none =>
      simp only [outputs, hpath]
      exact .inl rfl
    | some path =>
      obtain ⟨c₁, q, c₂, hparse, hanalyze⟩ := Compilation.compile_ok hcompile
      obtain ⟨fs, hfs, hfiles⟩ := outputs_eq hparse hanalyze hpath c.diagnostics unit
      rw [hfs] at h ⊢
      rw [← hfiles]
      exact .inr (writeAll_failed _ _ fs h)

/-- A command that comes to a source compiles it; otherwise it leaves the store alone. -/
theorem run_cases (words : List Text) (stdin : ByteArray) (store : Store) :
    (run words stdin store).store = store ∨
    ∃ o input file source before, parse words = .ok (o, input) ∧
      run words stdin store = finish (compile o file source before) store := by
  unfold run
  cases parse words with
  | error refusal => exact .inl rfl
  | ok parsed =>
    obtain ⟨o, input⟩ := parsed
    dsimp only
    split
    · split
      · exact .inl rfl
      · exact .inr ⟨o, input, _, _, _, rfl, rfl⟩
    · split
      · exact .inl rfl
      · exact .inl rfl
      · split
        · exact .inl rfl
        · exact .inr ⟨o, input, _, _, _, rfl, rfl⟩

/-- A command that fails leaves the store as it was, unless it could not open one of the files it
was asked for. Then those before it are written, and it is itself removed if it is locked. So
nothing changes if no more than one file is asked for, and that one is not locked. The words of the
command are text, and a file that was opened can always be written. -/
theorem failed_run {words : List Text} {stdin : ByteArray} {store : Store}
    (h : (run words stdin store).ending ≠ .status 0) :
    ((run words stdin store).store = store ∨
      ∃ o input done path store' e, parse words = .ok (o, input) ∧
        done.map Prod.fst ++ [path] <+: o.files ∧ store.writeEach done = .ok store' ∧
        store'.locate path true = .error e ∧
        (run words stdin store).ending = .crash (.file e path) ∧
        (run words stdin store).store = if e = .denied then store'.discard path else store') ∧
    ((∀ o input, parse words = .ok (o, input) → o.files.length ≤ 1 ∧
        ∀ path ∈ o.files, store.locate path true ≠ .error .denied) →
      (run words stdin store).store = store) := by
  rcases run_cases words stdin store with hsame | ⟨o, input, file, source, before, hparse, hrun⟩
  · exact ⟨.inl hsame, fun _ => hsame⟩
  rw [hrun] at h ⊢
  rcases finish_failed h with
    hsame | ⟨done, path, store', e, hfiles, hwrite, hopen, hending, hstore⟩
  · exact ⟨.inl hsame, fun _ => hsame⟩
  have hleft : store'.discard path = if e = .denied then store'.discard path else store' := by
    split
    · rfl
    · rename_i he
      exact Store.discard_of_error hopen he
  refine ⟨.inr ⟨o, input, done, path, store', e, hparse, hfiles, hwrite, hopen, hending,
    hstore.trans hleft⟩, ?_⟩
  intro hone
  obtain ⟨hlength, hlocks⟩ := hone o input hparse
  have hdone : done = [] := by
    have := hfiles.length_le
    rw [List.length_append, List.length_map, List.length_singleton] at this
    exact List.length_eq_zero_iff.mp (by omega)
  subst hdone
  cases hwrite
  have hpath : path ∈ o.files := hfiles.subset (by simp)
  rw [hstore, Store.discard_of_error hopen]
  rintro rfl
  exact hlocks path hpath hopen

/-- A source that nothing is wrong with. -/
def plainSource : Text := "fsm m\x7bstate[start,end]a\x7b\x7d\x7d"

theorem run_plain {words : List Text} (h : (parse words).toOption = some (o, ['-']))
    (store : Store) : parse words = .ok (o, ['-']) ∧
    ∃ stderr p ds unit, run words (Store.utf8 plainSource) store =
      writeAll [] stderr store (outputs o p ds unit) := by
  have hparse : parse words = .ok (o, ['-']) := by
    cases hwords : parse words with
    | error refusal => simp [hwords, Except.toOption] at h
    | ok r => simpa [hwords, Except.toOption] using h
  have hsource : Text.ofBytes? (Store.utf8 plainSource) = some plainSource := by decide +kernel
  have haccepts : Compilation.accepts (some standardInput) plainSource (fun _ => true) = true := by
    decide +kernel
  obtain ⟨c, p, unit, hcompile⟩ := Compilation.compile_accepts haccepts o.stem
  refine ⟨hparse, (compile o standardInput plainSource []).stderr, p, c.diagnostics, unit, ?_⟩
  simp only [run, hparse, if_pos, hsource, finish, compile, hcompile]

theorem failed_run_no_directory :
    let trail := run ["-", "-o", "nodir/x.c"] (Store.utf8 plainSource) {}
    trail.ending ≠ .status 0 ∧ trail.store = {} := by
  have h : (parse ["-", "-o", "nodir/x.c"]).toOption =
      some ({ output := some "nodir/x.c", input := some "-" }, ['-']) := by
    decide +kernel
  obtain ⟨hparse, stderr, p, ds, unit, hrun⟩ := run_plain h {}
  have hending : (run ["-", "-o", "nodir/x.c"] (Store.utf8 plainSource) {}).ending ≠ .status 0 := by
    rw [hrun]
    exact fun h => by cases h
  refine ⟨hending, (failed_run hending).2 fun o input h => ?_⟩
  rw [hparse] at h
  cases h
  exact ⟨by decide, by decide +kernel⟩

/-- This command fails over its second file, and leaves the first behind. -/
theorem unit_left_behind :
    let trail := run ["-", "-o", "x.c", "--yaml", "nodir/y"] (Store.utf8 plainSource) {}
    trail.ending = .crash (.file .missing "nodir/y") ∧
      ({} : Store).read "x.c" = .error .missing ∧ ∃ unit, trail.store.read "x.c" = .ok unit := by
  have h : (parse ["-", "-o", "x.c", "--yaml", "nodir/y"]).toOption =
      some ({ output := some "x.c", yaml := some "nodir/y", input := some "-" }, ['-']) := by
    decide +kernel
  obtain ⟨_, stderr, p, ds, unit, hrun⟩ := run_plain h {}
  dsimp only
  rw [hrun]
  exact ⟨rfl, rfl, Store.utf8 unit, rfl⟩

end Command
end Statewright
