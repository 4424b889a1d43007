import Statewright.Proofs.Declarations
import Statewright.Proofs.Printing

namespace Statewright

/-- The number of the current state, and the counter of each until block. -/
structure Config where
  state : Nat
  retries : List Nat

/-- Sets a counter to zero; there is none beyond the last. -/
def Config.clear? (c : Config) (k : Nat) : Option Config :=
  if k < c.retries.length then some { c with retries := c.retries.set k 0 } else none

/-- The value of a bound as it is written: that of a numeral, or that given to a name. -/
def boundValue (value : Text → Nat) (bound : Text) : Nat :=
  if bound.all Text.isAsciiDigit then Nat.ofDigitChars 10 bound 0 else value bound

/-- The number of tries that a bound stands for. -/
def Bound.value (value : Text → Nat) : Bound → Nat
  | literal digits => Nat.ofDigitChars 10 digits 0
  | named name => value name

theorem boundValue_text (value : Text → Nat) {b : Bound} (h : b.Readable) :
    boundValue value b.text = b.value value := by
  unfold boundValue
  cases b with
  | literal digits =>
    have hall : digits.all Text.isAsciiDigit = true := by simpa [Bound.Readable] using h
    exact if_pos hall
  | named name =>
    have hall : name.all Text.isAsciiDigit = false := by simpa [Bound.Readable] using h
    exact if_neg (by simp [Bound.text, hall])

/-- Sets the counters to zero. -/
def clear (cleared : List Nat) (retries : List Nat) : List Nat :=
  cleared.foldl (fun rs k => rs.set k 0) retries

def Move.apply (m : Move) (c : Config) : Config :=
  ⟨m.target, clear m.cleared c.retries⟩

namespace Change

/-- Whether a change counts a try that its block does not allow any more. -/
def overflows (value : Text → Nat) (c : Config) : Change → Bool
  | move _ => false
  | retry k bound .. => boundValue value bound ≤ c.retries.getD k 0 + 1

def retried : Change → Option Nat
  | move _ => none
  | retry k .. => some k

/-- What a change does to a configuration. -/
def apply (value : Text → Nat) (c : Config) : Change → Config
  | move m => m.apply c
  | retry k bound overflow target state =>
    let counted := { c with retries := c.retries.modify k (· + 1) }
    if (retry k bound overflow target state).overflows value c then overflow.apply counted
    else { counted with state := target }

end Change

theorem clear_getElem? (cleared retries : List Nat) (j : Nat) :
    (clear cleared retries)[j]? =
      if j ∈ cleared then retries[j]?.map fun _ => 0 else retries[j]? := by
  unfold clear
  induction cleared generalizing retries with
  | nil => rfl
  | cons k ks ih =>
    rw [List.foldl_cons, ih, List.getElem?_set]
    by_cases hk : k = j
    · subst hk
      by_cases hlt : k < retries.length <;> simp [hlt]
    · simp [hk, Ne.symm hk]

theorem clear_length (cleared retries : List Nat) :
    (clear cleared retries).length = retries.length := by
  unfold clear
  induction cleared generalizing retries with
  | nil => rfl
  | cons k ks ih => rw [List.foldl_cons, ih, List.length_set]

theorem Change.apply_length (value : Text → Nat) (c : Config) (change : Change) :
    (change.apply value c).retries.length = c.retries.length := by
  cases change with
  | move m => exact clear_length m.cleared c.retries
  | retry k bound overflow target state =>
    simp only [apply]
    split
    · simp [Move.apply, clear_length]
    · simp

namespace CUnit

/-- What stands between the beginning and the end of a text. -/
def between? (first last t : Text) : Option Text :=
  (Code.after? first t).bind fun u => (Code.after? last.reverse u.reverse).map List.reverse

def numeral? (t : Text) : Option Nat :=
  if !t.isEmpty && t.all Text.isAsciiDigit then some (Nat.ofDigitChars 10 t 0) else none

/-- The counter that a statement is about: that of a fixed block, or of the one that a loop is at. -/
inductive Index
  | fixed (k : Nat)
  | looped

def Index.read? (t : Text) : Option Index :=
  if t = "i" then some .looped else (numeral? t).map .fixed

/-- What a statement does to the current state and to the counters. -/
inductive Statement
  | assign (enumerator : Text)
  | clear (index : Index)
  /-- It works on other data. -/
  | other

/-- The fields for the state and the counters. -/
def ownFields : List Text :=
  ["state", "retries"]

/-- Whether a statement assigns to a field that is neither the state nor the counters. What its
expression does is not looked at. -/
def isOther (t : Text) : Bool :=
  (Code.after? "fsm->" t).any fun u =>
    !ownFields.contains (u.takeWhile isNameChar) && u.getLast? == some ';'

def Statement.read? (t : Text) : Option Statement :=
  if t = "int i;" || isOther t then some .other
  else
    (between? "fsm->state = " ";" t).map .assign <|>
      ((between? "fsm->retries[" "] = 0;" t).bind Index.read?).map .clear

/-- A line of a function. Two kinds of block are opened: one that counts a try and is done only at
the bound, and a loop over as many counters. -/
inductive Line
  | statement (s : Statement)
  | count (k : Nat) (bound : Text)
  | otherwise
  | loop (size : Nat)
  | close

/-- What is counted and compared, in the line that does it. -/
def Line.count? (t : Text) : Option Line :=
  (numeral? (t.takeWhile Text.isAsciiDigit)).bind fun k =>
    (Code.after? "] >= (" (t.dropWhile Text.isAsciiDigit)).map (.count k)

def Line.parse? (t : Text) : Option Line :=
  if t = "\x7d" then some .close
  else if t = "\x7d else \x7b" then some .otherwise
  else
    (between? "if (++fsm->retries[" ")) \x7b" t).bind Line.count? <|>
      ((between? "for (i = 0; i < " "; i++) \x7b" t).bind numeral?).map .loop <|>
      (Statement.read? t).map .statement

/-- Reads a line, whatever its margin is. -/
def Line.read? (l : Text) : Option Line :=
  Line.parse? l.trimStart

/-- Where a line stands: outside of blocks, in a branch that is taken or not, or in a loop, behind
some of its statements. -/
inductive Place
  | outside
  | branch (taken : Bool)
  | loop (size : Nat) (body : List Statement)

section Run
variable (enumerators : List Text) (value : Text → Nat)

/-- A statement of a loop is carried out for each index. An enumerator stands for its position. -/
def Statement.run (index : Option Nat) (c : Config) : Statement → Option Config
  | assign e => (enumerators.idxOf? e).map fun n => { c with state := n }
  | clear (.fixed k) => c.clear? k
  | clear .looped => index.bind c.clear?
  | other => some c

/-- Statements one after the other, at one index of a loop. -/
def runBody (index : Nat) (body : List Statement) (c : Config) : Option Config :=
  body.foldlM (fun c s => s.run enumerators (some index) c) c

def Line.run (place : Place) (c : Config) : Line → Option (Place × Config)
  | statement s =>
    match place with
    | .outside | .branch true => (s.run enumerators none c).map (place, ·)
    | .branch false => some (place, c)
    | .loop size body => some (.loop size (body ++ [s]), c)
  | count k bound =>
    match place with
    | .outside => c.retries[k]?.map fun x =>
      (.branch (boundValue value bound ≤ x + 1), { c with retries := c.retries.set k (x + 1) })
    | _ => none
  | otherwise =>
    match place with
    | .branch taken => some (.branch !taken, c)
    | _ => none
  | loop size =>
    match place with
    | .outside => some (.loop size [], c)
    | _ => none
  | close =>
    match place with
    | .outside => none
    | .branch _ => some (.outside, c)
    | .loop size body =>
      ((List.range size).foldlM (fun c k => runBody enumerators k body c) c).map (.outside, ·)

/-- Lines one after the other; they cannot be carried out if one of them cannot be read. -/
def runLines (place : Place) (c : Config) : List Text → Option (Place × Config)
  | [] => some (place, c)
  | l :: ls => do
    let (place, c) ← (← Line.read? l).run enumerators value place c
    runLines place c ls

/-- Carries out the lines of a function or a part of one, all its blocks being closed. -/
def execute (ls : List Text) (c : Config) : Option Config :=
  match runLines enumerators value .outside c ls with
  | some (.outside, c) => some c
  | _ => none

end Run

section Reading

theorem between?_append (first last t : Text) :
    between? first last (first ++ (t ++ last)) = some t := by
  rw [between?, Code.after?_eq_some.mpr rfl, Option.bind_some, List.reverse_append,
    Code.after?_eq_some.mpr rfl, Option.map_some, List.reverse_reverse]

/-- The margin of a line does not matter. -/
theorem read?_margin (n : Nat) (l : Text) : Line.read? (Text.spaces n ++ l) = Line.read? l := by
  have htrim : (Text.spaces n ++ l).trimStart = l.trimStart := by
    induction n with
    | zero => rfl
    | succ n ih => exact ih
  rw [Line.read?, htrim, Line.read?]

theorem numeral?_ofNat (n : Nat) : numeral? (Text.ofNat n) = some n := by
  have hne : Text.ofNat n ≠ [] := Nat.toDigits_ne_nil
  unfold numeral?
  rw [if_pos]
  · exact congrArg some Nat.ofDigitChars_ten_toDigits
  · simpa [hne] using Text.ofNat_digits n

/-- A line that assigns to a field is read as a statement. -/
theorem read?_field (t : Text) :
    Line.read? ("fsm->" ++ t) = (Statement.read? ("fsm->" ++ t)).map .statement :=
  rfl

/-- A statement that assigns to the state or a counter. -/
theorem read?_own {field rest : Text} (hf : field ∈ ownFields)
    (hends : Language.Ends isNameChar rest) : Statement.read? ("fsm->" ++ (field ++ rest)) =
      ((between? "fsm->state = " ";" ("fsm->" ++ (field ++ rest))).map .assign <|>
        ((between? "fsm->retries[" "] = 0;" ("fsm->" ++ (field ++ rest))).bind
          Index.read?).map .clear) := by
  have hfield : ∀ c ∈ field, isNameChar c := by
    have hall : ownFields.all (·.all isNameChar) = true := by decide
    exact List.all_eq_true.mp (List.all_eq_true.mp hall field hf)
  have hother : isOther ("fsm->" ++ (field ++ rest)) = false := by
    unfold isOther
    rw [Code.after?_eq_some.mpr rfl, Option.any_some, Language.takeWhile_munch hfield hends,
      List.contains_iff_mem.mpr hf]
    rfl
  unfold Statement.read?
  rw [hother, Bool.or_false, if_neg]
  intro h
  cases of_decide_eq_true h

theorem read?_setState (stem name : Text) : Line.read? (setState stem name) =
    some (.statement (.assign (stateName stem name))) := by
  have hline : setState stem name =
      "fsm->" ++ ("state".toList ++ (" = " ++ (stateName stem name ++ ";"))) := by
    have hfield : ("fsm->state = " : Text) = "fsm->" ++ ("state".toList ++ " = ") := rfl
    unfold setState
    rw [hfield, List.append_assoc, List.append_assoc, List.append_assoc]
  have hends : Language.Ends isNameChar (" = " ++ (stateName stem name ++ ";")) :=
    Code.ends_cons rfl _
  have hbetween : between? "fsm->state = " ";"
      ("fsm->" ++ ("state".toList ++ (" = " ++ (stateName stem name ++ ";")))) =
        some (stateName stem name) :=
    between?_append "fsm->state = " ";" (stateName stem name)
  rw [hline, read?_field, read?_own (by decide) hends, hbetween]
  rfl

theorem index_read (k : Nat) : Index.read? (Text.ofNat k) = some (.fixed k) := by
  unfold Index.read?
  rw [if_neg, numeral?_ofNat, Option.map_some]
  intro h
  have hdigit := Text.ofNat_digits k 'i' (by rw [h]; exact List.mem_singleton_self 'i')
  cases hdigit

theorem read?_clear (k : Nat) : Line.read? ("fsm->retries[" ++ Text.ofNat k ++ "] = 0;") =
    some (.statement (.clear (.fixed k))) := by
  have hline : "fsm->retries[" ++ Text.ofNat k ++ "] = 0;" =
      "fsm->" ++ ("retries".toList ++ ("[" ++ (Text.ofNat k ++ "] = 0;"))) := by
    rw [List.append_assoc]
    rfl
  have hends : Language.Ends isNameChar ("[" ++ (Text.ofNat k ++ "] = 0;")) :=
    Code.ends_cons rfl _
  have hbetween : between? "fsm->retries[" "] = 0;"
      ("fsm->" ++ ("retries".toList ++ ("[" ++ (Text.ofNat k ++ "] = 0;")))) =
        some (Text.ofNat k) :=
    between?_append "fsm->retries[" "] = 0;" (Text.ofNat k)
  rw [hline, read?_field, read?_own (by decide) hends, hbetween, Option.bind_some, index_read]
  rfl

/-- An assignment to another field, up to the end of its line. -/
theorem read?_other {field rest : Text} {c : Char} (hfield : ∀ c ∈ field, isNameChar c)
    (hf : field ∉ ownFields) (hc : isNameChar c = false) :
    Line.read? ("fsm->" ++ (field ++ c :: (rest ++ ";"))) = some (.statement .other) := by
  have hcontains : ownFields.contains field = false :=
    Bool.eq_false_iff.mpr fun h => hf (List.contains_iff_mem.mp h)
  have hlast : (field ++ c :: (rest ++ ";")).getLast? = some ';' := by
    rw [← List.cons_append, ← List.append_assoc]
    exact List.getLast?_concat
  have hother : isOther ("fsm->" ++ (field ++ c :: (rest ++ ";"))) = true := by
    unfold isOther
    rw [Code.after?_eq_some.mpr rfl, Option.any_some,
      Language.takeWhile_munch hfield (Code.ends_cons hc _), hcontains, hlast]
    rfl
  rw [read?_field, Statement.read?, hother, Bool.or_true, if_pos rfl, Option.map_some]

/-- The fields for other data, those of the variables apart. -/
def otherFields : List Text :=
  ["err", "timers", "running", "last_time"]

theorem read?_otherField {field rest : Text} {c : Char} (hf : field ∈ otherFields)
    (hc : isNameChar c = false) :
    Line.read? ("fsm->" ++ (field ++ c :: (rest ++ ";"))) = some (.statement .other) := by
  have hfields : otherFields.all (fun f => f.all isNameChar && !ownFields.contains f) = true := by
    decide
  have hfield := List.all_eq_true.mp hfields field hf
  rw [Bool.and_eq_true, List.all_eq_true] at hfield
  exact read?_other hfield.1 (by simpa using hfield.2) hc

theorem read?_label (stem label : Text) :
    Line.read? ("fsm->err = " ++ labelName stem label ++ ";") = some (.statement .other) := by
  have hline : "fsm->err = " ++ labelName stem label ++ ";" =
      "fsm->" ++ ("err".toList ++ ' ' :: ("= " ++ labelName stem label ++ ";")) := rfl
  rw [hline]
  exact read?_otherField (by decide) rfl

theorem read?_start (stem : Text) (t : Timer) :
    ∀ l ∈ startLines stem t, Line.read? l = some (.statement .other) := by
  have htimers : "fsm->timers[" ++ timerName stem t.name ++ "] = " ++ t.duration ++ ";" =
      "fsm->" ++ ("timers".toList ++
        '[' :: (timerName stem t.name ++ "] = " ++ t.duration ++ ";")) := rfl
  have hrunning : "fsm->running[" ++ timerName stem t.name ++ "] = 1;" =
      "fsm->" ++ ("running".toList ++ '[' :: (timerName stem t.name ++ "] = 1" ++ ";")) := by
    simp
  unfold startLines
  rw [List.forall_mem_cons, List.forall_mem_singleton, htimers, hrunning]
  exact ⟨read?_otherField (by decide) rfl, read?_otherField (by decide) rfl⟩

theorem read?_assign (m : Machine) {name : Text} (hw : ∀ c ∈ name, isNameChar c)
    (hfree : name ∉ reservedNames) (e : Fragment) :
    Line.read? (assign m name e) = some (.statement .other) := by
  have hother : name ∉ ownFields := by
    have hreserved : ∀ f ∈ ownFields, f ∈ reservedNames := by decide
    exact fun h => hfree (hreserved name h)
  have hline : assign m name e =
      "fsm->" ++ (name ++ ' ' :: ("= (" ++ Code.expression (names m) e.text ++ ")" ++ ";")) := by
    unfold assign
    generalize Code.expression (names m) e.text = code
    simp
  rw [hline]
  exact read?_other hw hother rfl

theorem read?_lastTime (stem : Text) :
    Line.read? ("fsm->last_time = " ++ timeFunction stem ++ "();") =
      some (.statement .other) := by
  have hline : "fsm->last_time = " ++ timeFunction stem ++ "();" =
      "fsm->" ++ ("last_time".toList ++ ' ' :: ("= " ++ timeFunction stem ++ "()" ++ ";")) := by
    simp
  rw [hline]
  exact read?_otherField (by decide) rfl

theorem read?_count (k : Nat) (bound : Text) :
    Line.read? ("if (++fsm->retries[" ++ Text.ofNat k ++ "] >= (" ++ bound ++ ")) \x7b") =
      some (.count k bound) := by
  -- the bracket ends the digits, so the number is read whole
  have hends : Language.Ends Text.isAsciiDigit ("] >= (" ++ bound) := Code.ends_cons rfl _
  have hcount : Line.count? (Text.ofNat k ++ ("] >= (" ++ bound)) = some (.count k bound) := by
    unfold Line.count?
    rw [Language.takeWhile_munch (Text.ofNat_digits k) hends,
      Language.dropWhile_munch (Text.ofNat_digits k) hends, numeral?_ofNat, Option.bind_some,
      Code.after?_eq_some.mpr rfl, Option.map_some]
  have hline : "if (++fsm->retries[" ++ Text.ofNat k ++ "] >= (" ++ bound ++ ")) \x7b" =
      "if (++fsm->retries[" ++ ((Text.ofNat k ++ ("] >= (" ++ bound)) ++ ")) \x7b") := by
    simp only [List.append_assoc]
  rw [hline]
  change Line.parse? ("if (++fsm->retries[" ++ ((Text.ofNat k ++ ("] >= (" ++ bound)) ++
    ")) \x7b")) = _
  unfold Line.parse?
  rw [between?_append, Option.bind_some, hcount]
  rfl

theorem read?_loop (n : Nat) :
    Line.read? ("    for (i = 0; i < " ++ Text.ofNat n ++ "; i++) \x7b") = some (.loop n) := by
  rw [List.append_assoc]
  change Line.parse? ("for (i = 0; i < " ++ (Text.ofNat n ++ "; i++) \x7b")) = _
  unfold Line.parse?
  rw [between?_append, Option.bind_some, numeral?_ofNat]
  rfl

end Reading

section Running
variable {enumerators : List Text} {value : Text → Nat} {place : Place} {c : Config} {l : Text}
  {ls : List Text}

theorem runLines_cons {line : Line} (h : Line.read? l = some line) :
    runLines enumerators value place c (l :: ls) =
      (line.run enumerators value place c).bind fun r =>
        runLines enumerators value r.1 r.2 ls := by
  rw [runLines, h]
  rfl

theorem runLines_append (ls ks : List Text) :
    runLines enumerators value place c (ls ++ ks) =
      (runLines enumerators value place c ls).bind fun r =>
        runLines enumerators value r.1 r.2 ks := by
  induction ls generalizing place c with
  | nil => rfl
  | cons l ls ih =>
    rw [List.cons_append]
    cases hl : Line.read? l with
    | none => simp [runLines, hl]
    | some line =>
      rw [runLines_cons hl, runLines_cons hl]
      cases line.run enumerators value place c with
      | none => rfl
      | some r => exact ih

theorem runLines_margin (n : Nat) (ls : List Text) :
    runLines enumerators value place c (ls.map (Text.spaces n ++ ·)) =
      runLines enumerators value place c ls := by
  induction ls generalizing place c with
  | nil => rfl
  | cons l ls ih =>
    rw [List.map_cons, runLines, runLines, read?_margin]
    cases hl : Line.read? l with
    | none => rfl
    | some line =>
      change (line.run enumerators value place c).bind _ =
        (line.run enumerators value place c).bind _
      cases line.run enumerators value place c with
      | none => rfl
      | some r => exact ih

/-- Whether statements are carried out at a place as they come. -/
def Place.isActive : Place → Bool
  | outside => true
  | branch taken => taken
  | loop .. => false

theorem runLines_statement (hp : place.isActive) {s : Statement} {c' : Config}
    (h : Line.read? l = some (.statement s)) (hs : s.run enumerators none c = some c') :
    runLines enumerators value place c (l :: ls) = runLines enumerators value place c' ls := by
  rw [runLines_cons h]
  cases place with
  | outside => simp [Line.run, hs]
  | branch taken =>
    obtain rfl : taken = true := hp
    simp [Line.run, hs]
  | loop size body => cases hp

/-- Statements on other data change nothing here. -/
theorem runLines_others (hp : place.isActive)
    (h : ∀ l ∈ ls, Line.read? l = some (.statement .other)) :
    runLines enumerators value place c ls = some (place, c) := by
  induction ls with
  | nil => rfl
  | cons l ls ih =>
    obtain ⟨hl, hls⟩ := List.forall_mem_cons.mp h
    rw [runLines_statement hp hl rfl]
    exact ih hls

/-- Nor do statements in a branch that is not taken. -/
theorem runLines_passed (h : ∀ l ∈ ls, ∃ s, Line.read? l = some (.statement s)) :
    runLines enumerators value (.branch false) c ls = some (.branch false, c) := by
  induction ls with
  | nil => rfl
  | cons l ls ih =>
    obtain ⟨⟨s, hl⟩, hls⟩ := List.forall_mem_cons.mp h
    rw [runLines_cons hl]
    exact ih hls

theorem runLines_cleared (hp : place.isActive) {cleared : List Nat}
    (h : ∀ k ∈ cleared, k < c.retries.length) :
    runLines enumerators value place c
      (cleared.map fun k => "fsm->retries[" ++ Text.ofNat k ++ "] = 0;") =
        some (place, { c with retries := clear cleared c.retries }) := by
  induction cleared generalizing c with
  | nil => rfl
  | cons k ks ih =>
    obtain ⟨hk, hks⟩ := List.forall_mem_cons.mp h
    have hset : (Statement.clear (.fixed k)).run enumerators none c =
        some { c with retries := c.retries.set k 0 } := if_pos hk
    rw [List.map_cons, runLines_statement hp (read?_clear k) hset, ih]
    · rfl
    · simpa using hks

end Running

section Moves
variable {m : Machine} {stem : Text} {value : Text → Nat}

/-- The enumerators of the states. -/
def stateEnumerators (m : Machine) (stem : Text) : List Text :=
  (stateEntries m stem).map Enumerator.name

/-- Where names are distinct, the value of an enumerator is the number of its state. -/
theorem stateEnumerators_idxOf? (hd : (m.states.map State.name).Nodup) (stem : Text) {n : Nat}
    {name : Text} (h : m.states[n]?.map State.name = some name) :
    (stateEnumerators m stem).idxOf? (stateName stem name) = some n := by
  have heq : stateEnumerators m stem = (m.states.map State.name).map (stateName stem) := by
    simp [stateEnumerators, stateEntries]
  rw [← List.getElem?_map] at h
  generalize m.states.map State.name = names at hd heq h
  obtain ⟨hlt, rfl⟩ := List.getElem?_eq_some_iff.mp h
  rw [heq]
  apply List.findIdx?_eq_some_iff_getElem.mpr
  refine ⟨by simpa using hlt, by simp, ?_⟩
  intro j hj
  have hne := List.pairwise_iff_getElem.mp hd j n (by omega) hlt hj
  simpa [stateName] using hne

theorem runLines_setState (hd : (m.states.map State.name).Nodup) {place : Place} {c : Config}
    (hp : place.isActive) (n : Nat) {target : Nat} {name : Text} {ls : List Text}
    (h : m.states[target]?.map State.name = some name) :
    runLines (stateEnumerators m stem) value place c
      ((Text.spaces n ++ setState stem name) :: ls) =
        runLines (stateEnumerators m stem) value place { c with state := target } ls := by
  apply runLines_statement hp ((read?_margin n _).trans (read?_setState stem name))
  exact congrArg (Option.map _) (stateEnumerators_idxOf? hd stem h)

/-- What the lines of a move rest on: its counters exist, and its state has its number. -/
structure MoveNamed (m : Machine) (move : Move) : Prop where
  cleared : ∀ k ∈ move.cleared, k < m.untils.length
  state : m.states[move.target]?.map State.name = some move.state

def ChangeNamed (m : Machine) : Change → Prop
  | .move move => MoveNamed m move
  | .retry k _ overflow target state => k < m.untils.length ∧ MoveNamed m overflow ∧
    m.states[target]?.map State.name = some state

theorem runLines_move (hd : (m.states.map State.name).Nodup) {place : Place} {c : Config}
    (hp : place.isActive) (hc : c.retries.length = m.untils.length) {move : Move}
    (h : MoveNamed m move) :
    runLines (stateEnumerators m stem) value place c (move.lines stem) =
      some (place, move.apply c) := by
  have hcleared : ∀ k ∈ move.cleared, k < c.retries.length := by
    rw [hc]
    exact h.cleared
  have hlabel : ∀ l ∈ move.label.toList.map fun l => "fsm->err = " ++ labelName stem l ++ ";",
      Line.read? l = some (.statement .other) := by
    intro l hl
    obtain ⟨label, _, rfl⟩ := List.mem_map.mp hl
    exact read?_label stem label
  unfold Move.lines
  rw [runLines_append, runLines_append, runLines_cleared hp hcleared, Option.bind_some,
    runLines_others hp hlabel, Option.bind_some]
  exact runLines_setState hd hp 0 h.state

theorem read?_move (stem : Text) (move : Move) :
    ∀ l ∈ move.lines stem, ∃ s, Line.read? l = some (.statement s) := by
  unfold Move.lines
  rw [List.forall_mem_append, List.forall_mem_append, List.forall_mem_singleton]
  refine ⟨⟨?_, ?_⟩, ⟨_, read?_setState stem move.state⟩⟩
  · intro l hl
    obtain ⟨k, _, rfl⟩ := List.mem_map.mp hl
    exact ⟨_, read?_clear k⟩
  · intro l hl
    obtain ⟨label, _, rfl⟩ := List.mem_map.mp hl
    exact ⟨_, read?_label stem label⟩

/-- A try is counted, and compared with the bound. -/
theorem count_run {enumerators : List Text} {c : Config} {k x : Nat} (hx : c.retries[k]? = some x)
    (bound : Text) : (Line.count k bound).run enumerators value .outside c =
      some (.branch (boundValue value bound ≤ x + 1),
        { c with retries := c.retries.modify k (· + 1) }) := by
  have hset : c.retries.set k (x + 1) = c.retries.modify k (· + 1) := by
    have hlt := (List.getElem?_eq_some_iff.mp hx).1
    apply List.ext_getElem?
    intro j
    rw [List.getElem?_set, List.getElem?_modify]
    by_cases hj : k = j
    · rw [← hj, hx]
      simp [hlt]
    · simp [hj]
  simp only [Line.run, hx, Option.map_some, hset]

/-- Of the two branches behind a count one is taken. -/
theorem runLines_branches (hd : (m.states.map State.name).Nodup) {c : Config}
    (hc : c.retries.length = m.untils.length) {overflow : Move} (hover : MoveNamed m overflow)
    {target : Nat} {state : Text} (hstate : m.states[target]?.map State.name = some state)
    (taken : Bool) :
    runLines (stateEnumerators m stem) value (.branch taken) c
      ((overflow.lines stem).map (Text.spaces 4 ++ ·) ++
        [("\x7d else \x7b" : Text), Text.spaces 4 ++ setState stem state, "\x7d"]) =
      some (.outside, if taken then overflow.apply c else { c with state := target }) := by
  have helse : Line.read? "\x7d else \x7b" = some .otherwise := rfl
  have hclose : Line.read? "\x7d" = some .close := rfl
  have hset := (read?_margin 4 _).trans (read?_setState stem state)
  rw [runLines_append, runLines_margin]
  cases taken with
  | true =>
    -- the overflow is done, and the line of the other branch is passed over
    rw [runLines_move hd rfl hc hover, Option.bind_some, runLines_cons helse]
    change runLines _ value (.branch false) _ _ = _
    rw [runLines_cons hset]
    change runLines _ value (.branch false) _ _ = _
    rw [runLines_cons hclose]
    rfl
  | false =>
    rw [runLines_passed (read?_move stem overflow), Option.bind_some, runLines_cons helse]
    change runLines _ value (.branch true) _ _ = _
    rw [runLines_setState hd rfl 4 hstate, runLines_cons hclose]
    rfl

/-- The lines of a change do what the change does. -/
theorem runLines_change (hd : (m.states.map State.name).Nodup) (hstem : stem.IsUnbroken)
    {c : Config} (hc : c.retries.length = m.untils.length) {change : Change}
    (h : ChangeNamed m change) (hw : Worded change.words) :
    runLines (stateEnumerators m stem) value .outside c (change.lines stem) =
      some (.outside, change.apply value c) := by
  cases change with
  | move move => exact runLines_move hd rfl hc h
  | retry k bound overflow target state =>
    obtain ⟨hk, hover, hstate⟩ := h
    obtain ⟨x, hx⟩ : ∃ x, c.retries[k]? = some x := ⟨_, List.getElem?_eq_getElem (hc ▸ hk)⟩
    have hcounted : (c.retries.modify k (· + 1)).length = m.untils.length := by simpa using hc
    have hwords := (worded_cons.mp (worded_cons.mp hw).2).2
    -- the try is counted first, so both branches start from the counter raised by one
    have happly : (Change.retry k bound overflow target state).apply value c =
        if decide (boundValue value bound ≤ x + 1) then
          overflow.apply { c with retries := c.retries.modify k (· + 1) }
        else { state := target, retries := c.retries.modify k (· + 1) } := by
      simp [Change.apply, Change.overflows, hx]
    rw [retry_lines hstem hwords, happly, runLines_cons (read?_count k bound), count_run hx,
      Option.bind_some]
    exact runLines_branches hd hcounted hover hstate _

/-- Carrying out the lines of an actuation, as they stand in a unit, makes its change; starting
timers leaves the state and the counters as they are. -/
theorem execute_actuation (hd : (m.states.map State.name).Nodup) (hstem : stem.IsUnbroken)
    {c : Config} (hc : c.retries.length = m.untils.length) {a : Actuation}
    (h : ChangeNamed m a.change) (hw : Worded a.words) :
    execute (stateEnumerators m stem) value (a.printed stem) c =
      some (a.change.apply value c) := by
  have hstarts : ∀ l ∈ a.starts.flatMap (startLines stem),
      Line.read? l = some (.statement .other) := by
    intro l hl
    obtain ⟨t, _, hl⟩ := List.mem_flatMap.mp hl
    exact read?_start stem t l hl
  unfold execute
  rw [Actuation.printed, runLines_margin, Actuation.lines, runLines_append,
    runLines_others rfl hstarts, Option.bind_some,
    runLines_change hd hstem hc h (worded_append.mp hw).2]

end Moves

section Init
variable {enumerators : List Text} {value : Text → Nat} {c : Config}

/-- The statements of a loop are kept until it is closed. -/
theorem runLines_body {size : Nat} {body : List Statement} {ls : List Text} {ss : List Statement}
    (h : ls.map Line.read? = ss.map fun s => some (.statement s)) :
    runLines enumerators value (.loop size body) c ls = some (.loop size (body ++ ss), c) := by
  induction ls generalizing body ss with
  | nil =>
    obtain rfl : ss = [] := by simpa using h.symm
    rw [List.append_nil]
    rfl
  | cons l ls ih =>
    cases ss with
    | nil => cases h
    | cons s ss =>
      obtain ⟨hl, hls⟩ := List.cons.inj h
      rw [runLines_cons hl]
      change runLines enumerators value (.loop size (body ++ [s])) c ls = _
      rw [ih hls, List.append_assoc]
      rfl

/-- A loop carries out its statements at each index; without arrays there is none. -/
theorem runLines_clearLines (size : Nat) {fields : List Text} {body : List Statement}
    (h : fields.map (fun f => Line.read? ("        fsm->" ++ f ++ "[i] = 0;")) =
      body.map fun s => some (.statement s)) :
    runLines enumerators value .outside c (clearLines size fields) =
      ((List.range size).foldlM (fun c k => runBody enumerators k body c) c).map
        (.outside, ·) := by
  unfold clearLines
  split
  · rename_i hsize
    rw [hsize]
    rfl
  · have hclose : Line.read? "    \x7d" = some .close := rfl
    simp only [List.flatten_cons, List.flatten_nil, List.singleton_append, List.append_nil]
    rw [runLines_cons (read?_loop size)]
    change runLines enumerators value (.loop size []) c _ = _
    rw [runLines_append, runLines_body (by rw [List.map_map]; exact h), Option.bind_some,
      runLines_cons hclose]
    simp only [Line.run, List.nil_append]
    cases (List.range size).foldlM (fun c k => runBody enumerators k body c) c with
    | none => rfl
    | some c => rfl

theorem foldlM_others (indices : List Nat) :
    indices.foldlM (fun c k => runBody enumerators k [.other, .other] c) c = some c := by
  induction indices with
  | nil => rfl
  | cons k ks ih => exact ih

/-- After `n` rounds the first `n` counters are zero. -/
theorem foldlM_clear {n : Nat} (h : n ≤ c.retries.length) :
    (List.range n).foldlM (fun c k => runBody enumerators k [.clear .looped] c) c =
      some { c with retries := List.replicate n 0 ++ c.retries.drop n } := by
  induction n with
  | zero => rfl
  | succ n ih =>
    have hset : (List.replicate n 0 ++ c.retries.drop n).set n 0 =
        List.replicate (n + 1) 0 ++ c.retries.drop (n + 1) := by
      rw [List.set_append_right _ _ (by simp), List.length_replicate, Nat.sub_self,
        List.drop_eq_getElem_cons h, List.set_cons_zero, List.replicate_succ', List.append_assoc]
      rfl
    have hrun : runBody enumerators n [.clear .looped]
        { c with retries := List.replicate n 0 ++ c.retries.drop n } =
          some { c with retries := List.replicate (n + 1) 0 ++ c.retries.drop (n + 1) } := by
      have hlt : n < (List.replicate n 0 ++ c.retries.drop n).length := by
        simp
        omega
      rw [← hset]
      simp only [runBody, List.foldlM_cons, List.foldlM_nil, Statement.run, Option.bind_some,
        Config.clear?, hlt, ↓reduceIte]
      rfl
    rw [List.range_succ, List.foldlM_append, ih (by omega)]
    exact congrArg (· >>= pure) hrun

/-- The lines that set up a machine put it into its start state and clear every counter, whatever
was there before. -/
theorem execute_init {p : Program} (stem : Text) (hd : (p.machine.states.map State.name).Nodup)
    (hw : Worded (p.machine.vars.map Variable.name))
    (hfree : ∀ v ∈ p.machine.vars, v.name ∉ reservedNames) {n : Nat} {start : Text}
    (hs : p.machine.states[n]?.map State.name = some start)
    (hc : c.retries.length = p.machine.untils.length) :
    execute (stateEnumerators p.machine stem) value (initBody p stem start) c =
      some ⟨n, List.replicate p.machine.untils.length 0⟩ := by
  let enumerators := stateEnumerators p.machine stem
  have hint : ∀ l ∈ (if p.machine.timers.isEmpty && p.machine.untils.isEmpty then []
      else ["    int i;".toList]), Line.read? l = some (.statement .other) := by
    intro l hl
    split at hl
    · cases hl
    · obtain rfl := List.mem_singleton.mp hl
      rfl
  have hstart : runLines enumerators value .outside c
      ["    " ++ setState stem start, "    fsm->err = " ++ labelName stem noError ++ ";"] =
        some (.outside, { c with state := n }) := by
    apply (runLines_setState hd rfl 4 hs).trans
    exact runLines_statement rfl ((read?_margin 4 _).trans (read?_label stem noError)) rfl
  have hvars : ∀ l ∈ p.machine.vars.map fun v => "    " ++ assign p.machine v.name v.init,
      Line.read? l = some (.statement .other) := by
    intro l hl
    obtain ⟨v, hv, rfl⟩ := List.mem_map.mp hl
    have hname := hw v.name (List.mem_map_of_mem hv)
    exact (read?_margin 4 _).trans (read?_assign p.machine hname (hfree v hv) v.init)
  have htimers (c : Config) : runLines enumerators value .outside c
      (clearLines p.machine.timers.length ["timers", "running"]) = some (.outside, c) := by
    have hbody : ["timers".toList, "running".toList].map
        (fun f => Line.read? ("        fsm->" ++ f ++ "[i] = 0;")) =
          [Statement.other, .other].map fun s => some (.statement s) := rfl
    rw [runLines_clearLines _ hbody, foldlM_others, Option.map_some]
  have hretries : runLines enumerators value .outside { c with state := n }
      (clearLines p.machine.untils.length ["retries"]) =
        some (.outside, ⟨n, List.replicate p.machine.untils.length 0⟩) := by
    have hbody : ["retries".toList].map
        (fun f => Line.read? ("        fsm->" ++ f ++ "[i] = 0;")) =
          [Statement.clear .looped].map fun s => some (.statement s) := rfl
    have hsize : p.machine.untils.length ≤ { c with state := n : Config }.retries.length := hc.ge
    rw [runLines_clearLines _ hbody, foldlM_clear hsize, Option.map_some, ← hc, List.drop_length,
      List.append_nil]
  have htime : ∀ l ∈ (if isTimed p then ["    fsm->last_time = " ++ timeFunction stem ++ "();"]
      else []), Line.read? l = some (.statement .other) := by
    intro l hl
    split at hl
    · obtain rfl := List.mem_singleton.mp hl
      exact (read?_margin 4 _).trans (read?_lastTime stem)
    · cases hl
  unfold execute initBody
  simp only [List.flatten_cons, List.flatten_nil, List.append_nil]
  rw [runLines_append, runLines_others rfl hint, Option.bind_some, runLines_append, hstart,
    Option.bind_some, runLines_append, runLines_others rfl hvars, Option.bind_some,
    runLines_append, htimers, Option.bind_some, runLines_append, hretries, Option.bind_some,
    runLines_others rfl htime]

end Init
end CUnit
end Statewright
