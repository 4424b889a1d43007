import Statewright.Proofs.Qualified

namespace Statewright.Code
open Statewright.Language (Ends)

/-- Literals and comments, which say nothing about the machine. -/
def Piece.isInert (p : Piece) : Bool :=
  match p.shape with
  | .string | .character | .lineComment | .blockComment => true
  | _ => false

def inert (ps : List Piece) : List Piece :=
  ps.filter Piece.isInert

/-- A piece with the calls in it replaced. -/
def Piece.replaced (p : Piece) : Piece :=
  ⟨p.shape, replaceSelfCalls false p.text⟩

/-- The words of a call and of a field, which name no variable. -/
def ownWords : List Text :=
  ["this".toList, "fsm".toList, "state".toList, "err".toList]

/-- The names among those mentioned that may be variables. -/
def foreign (names : List Text) : List Text :=
  names.filter fun n => !ownWords.contains n

/-- What stands before the next piece, once all of the pieces are passed. -/
def passedAll (before : Option Text) (ps : List Piece) : Option Text :=
  ps.foldl passed before

theorem mentions_append (before : Option Text) (ps qs : List Piece) :
    mentions before (ps ++ qs) = mentions before ps ++ mentions (passedAll before ps) qs := by
  induction ps generalizing before with
  | nil => rfl
  | cons p ps ih =>
    rw [List.cons_append, mentions, ih, mentions, List.append_assoc]
    rfl

/-- Blanks, literals and comments are passed over. -/
theorem skipped {p : Piece} (h : p.isInert ∨ p.shape = .blank) (before : Option Text) :
    refers before p = false ∧ passed before p = before := by
  obtain ⟨shape, t⟩ := p
  cases shape with
  | string | character | lineComment | blockComment | blank => exact ⟨rfl, rfl⟩
  | arrow | word | number | mark => simp [Piece.isInert] at h

/-- The second pieces are the first with calls replaced, as far as literals, comments and mentions
of variables go. -/
structure Alike (ps qs : List Piece) : Prop where
  literals : inert qs = (inert ps).map Piece.replaced
  names : ∀ before, foreign (mentions before qs) = foreign (mentions before ps)
  last : ∀ before, passedAll before qs = passedAll before ps

namespace Alike
variable {ps qs ps' qs' : List Piece}

theorem append (h : Alike ps qs) (h' : Alike ps' qs') : Alike (ps ++ ps') (qs ++ qs') where
  literals := by
    have hfirst := h.literals
    have hsecond := h'.literals
    unfold inert at *
    rw [List.filter_append, List.filter_append, List.map_append, hfirst, hsecond]
  names before := by
    have hfirst := h.names before
    have hsecond := h'.names (passedAll before ps)
    unfold foreign at *
    rw [mentions_append, mentions_append, List.filter_append, List.filter_append, h.last, hfirst,
      hsecond]
  last before := by
    have hfirst := h.last before
    have hsecond := h'.last (passedAll before ps)
    unfold passedAll at *
    rw [List.foldl_append, List.foldl_append, hfirst, hsecond]

theorem same {p : Piece} (h : p.isInert = false) : Alike [p] [p] where
  literals := by simp [inert, h]
  names _ := rfl
  last _ := rfl

theorem replaced {p : Piece} (h : p.isInert) : Alike [p] [p.replaced] := by
  have hskip := skipped (.inl h)
  have hskip' := skipped (p := p.replaced) (.inl h)
  have hinert : p.replaced.isInert = true := h
  constructor
  · simp [inert, h, hinert]
  · intro before
    simp [mentions, hskip, hskip']
  · intro before
    simp [passedAll, hskip, hskip']

end Alike

/-- A piece of a call or of a field: neither a literal or comment nor the name of a variable. -/
def Silent (p : Piece) : Prop :=
  p.isInert = false ∧ (p.isName → p.text ∈ ownWords)

def closing : Piece := ⟨.mark, [')']⟩

section Silent
variable {cs ds ps : List Piece} {p : Piece}

theorem Silent.foreign_mentions (h : Silent p) (before : Option Text) :
    foreign (mentions before [p]) = [] := by
  rw [mentions]
  split
  · rename_i hr
    have hname : p.isName := by
      simp only [refers, Placed.isReference, Bool.and_eq_true] at hr
      exact hr.1.1
    simp [foreign, mentions, h.2 hname]
  · rfl

theorem inert_silent (h : ∀ p ∈ ps, Silent p) : inert ps = [] :=
  List.filter_eq_nil_iff.mpr fun p hp => by simp [(h p hp).1]

theorem foreign_silent (h : ∀ p ∈ ps, Silent p) (before : Option Text) :
    foreign (mentions before ps) = [] := by
  induction ps generalizing before with
  | nil => rfl
  | cons p ps ih =>
    have hp := (h p List.mem_cons_self).foreign_mentions before
    have hps := ih (fun q hq => h q (List.mem_cons_of_mem p hq)) (passed before p)
    rw [← List.singleton_append, mentions_append]
    unfold foreign at *
    rw [List.filter_append, hp]
    exact hps

/-- Silent pieces that end with a closing mark can stand for one another. -/
theorem alike_silent (hc : ∀ p ∈ cs, Silent p) (hd : ∀ p ∈ ds, Silent p)
    (hc' : cs.getLast? = some closing) (hd' : ds.getLast? = some closing) : Alike cs ds := by
  constructor
  · rw [inert_silent hc, inert_silent hd]
    rfl
  · intro before
    rw [foreign_silent hc, foreign_silent hd]
  · intro before
    obtain ⟨cs, rfl⟩ := List.getLast?_eq_some_iff.mp hc'
    obtain ⟨ds, rfl⟩ := List.getLast?_eq_some_iff.mp hd'
    simp only [passedAll, List.foldl_append]
    rfl

end Silent

def blanks (b : Text) : List Piece :=
  b.map fun c => ⟨.blank, [c]⟩

/-- The pieces of a call behind its field. -/
def afterField (b₃ b₄ : Text) : List Piece :=
  blanks b₃ ++ ⟨.mark, ['(']⟩ :: (blanks b₄ ++ [closing])

/-- The pieces of a call behind its dot. -/
def afterDot (field b₂ b₃ b₄ : Text) : List Piece :=
  blanks b₂ ++ ⟨.word, field⟩ :: afterField b₃ b₄

/-- The pieces of a call behind the machine's word. -/
def afterThis (field b₁ b₂ b₃ b₄ : Text) : List Piece :=
  blanks b₁ ++ ⟨.mark, ['.']⟩ :: afterDot field b₂ b₃ b₄

/-- The pieces of a field. -/
def fieldPieces (field : Text) : List Piece :=
  [⟨.mark, ['(']⟩, machineWord, arrowPiece, ⟨.word, field⟩, closing]

section CallPieces
variable {field b b₁ b₂ b₃ b₄ : Text} {ps : List Piece}

@[simp] theorem texts_blanks (b : Text) : texts (blanks b) = b := by
  induction b with
  | nil => rfl
  | cons c b ih => exact congrArg (c :: ·) ih

theorem tokens_blanks (hb : b.allBlank) (h : Tokens ps) : Tokens (blanks b ++ ps) := by
  induction b with
  | nil => exact h
  | cons c b ih =>
    obtain ⟨hc, hb⟩ := allBlank_cons.mp hb
    exact .cons (.blank hc) (ih hb)

theorem ends_blanks {p : Char → Bool} {rest : Text} (hb : b.allBlank) (hr : Ends p rest)
    (hp : ∀ c, Text.isBlank c → p c = false) : Ends p (b ++ rest) := by
  cases b with
  | nil => exact hr
  | cons c b => exact ends_cons (hp c (allBlank_cons.mp hb).1) _

theorem isNumeral_of_blank {c : Char} (h : Text.isBlank c) : isNumeral c = false := by
  have hdot : c ≠ '.' := by
    rintro rfl
    exact absurd h (by decide)
  simp [isNumeral, isNameChar_of_blank h, hdot]

theorem tokens_afterField (hb₃ : b₃.allBlank) (hb₄ : b₄.allBlank) (h : Tokens ps) :
    Tokens (afterField b₃ b₄ ++ ps) := by
  rw [afterField, List.append_assoc, List.cons_append, List.append_assoc]
  have hclosed : Tokens (closing :: ps) := .cons (.mark (by decide)) h
  exact tokens_blanks hb₃ (.cons (.mark (by decide)) (tokens_blanks hb₄ hclosed))

theorem ends_afterField (hb₃ : b₃.allBlank) (ps : List Piece) :
    Ends isNumeral (texts (afterField b₃ b₄ ++ ps)) := by
  rw [afterField, List.append_assoc, texts_append, texts_blanks]
  exact ends_blanks hb₃ (ends_cons rfl _) fun c => isNumeral_of_blank

theorem tokens_field (hf : field = "state".toList ∨ field = "err".toList) (h : Tokens ps)
    (he : Ends isNameChar (texts ps)) : Tokens (⟨.word, field⟩ :: ps) := by
  rcases hf with rfl | rfl
  · exact .cons (.word (by decide) (List.all_eq_true.mp rfl) he) h
  · exact .cons (.word (by decide) (List.all_eq_true.mp rfl) he) h

theorem ends_name {rest : Text} (h : Ends isNumeral rest) : Ends isNameChar rest := by
  intro c hc
  have := h c hc
  simp only [isNumeral, Bool.or_eq_false_iff] at this
  exact this.1

theorem tokens_afterDot (hf : field = "state".toList ∨ field = "err".toList)
    (hb₂ : b₂.allBlank) (hb₃ : b₃.allBlank) (hb₄ : b₄.allBlank) (h : Tokens ps) :
    Tokens (afterDot field b₂ b₃ b₄ ++ ps) := by
  rw [afterDot, List.append_assoc, List.cons_append]
  exact tokens_blanks hb₂ (tokens_field hf (tokens_afterField hb₃ hb₄ h)
    (ends_name (ends_afterField hb₃ _)))

theorem tokens_afterThis (hf : field = "state".toList ∨ field = "err".toList)
    (hb₁ : b₁.allBlank) (hb₂ : b₂.allBlank) (hb₃ : b₃.allBlank) (hb₄ : b₄.allBlank)
    (h : Tokens ps) : Tokens (afterThis field b₁ b₂ b₃ b₄ ++ ps) := by
  rw [afterThis, List.append_assoc, List.cons_append]
  exact tokens_blanks hb₁ (.cons (.mark (by decide)) (tokens_afterDot hf hb₂ hb₃ hb₄ h))

theorem ends_afterThis (hb₁ : b₁.allBlank) (ps : List Piece) :
    Ends isNameChar (texts (afterThis field b₁ b₂ b₃ b₄ ++ ps)) := by
  rw [afterThis, List.append_assoc, texts_append, texts_blanks]
  exact ends_blanks hb₁ (ends_cons rfl _) fun c => isNameChar_of_blank

theorem tokens_fieldPieces (hf : field = "state".toList ∨ field = "err".toList) (h : Tokens ps) :
    Tokens (fieldPieces field ++ ps) := by
  have hclosed : Tokens (⟨.word, field⟩ :: closing :: ps) :=
    tokens_field hf (.cons (.mark (by decide)) h) (ends_cons rfl _)
  have hmachine : Tokens (machineWord :: arrowPiece :: ⟨.word, field⟩ :: closing :: ps) :=
    .cons (.word (by decide) (List.all_eq_true.mp rfl) (ends_cons rfl _)) (.cons .arrow hclosed)
  exact .cons (.mark (by decide)) hmachine

theorem silent_of_not_name {p : Piece} (hi : p.isInert = false) (hn : p.isName = false) :
    Silent p :=
  ⟨hi, fun h => by rw [hn] at h; cases h⟩

theorem silent_blanks (b : Text) : ∀ p ∈ blanks b, Silent p := by
  intro p hp
  obtain ⟨c, _, rfl⟩ := List.mem_map.mp hp
  exact silent_of_not_name rfl rfl

theorem silent_word {w : Text} (hw : w ∈ ownWords) : Silent ⟨.word, w⟩ :=
  ⟨rfl, fun _ => hw⟩

theorem silent_number (t : Text) : Silent ⟨.number, t⟩ :=
  silent_of_not_name rfl rfl

theorem own_field (hf : field = "state".toList ∨ field = "err".toList) : field ∈ ownWords := by
  rcases hf with rfl | rfl <;> decide

theorem silent_afterField (b₃ b₄ : Text) : ∀ p ∈ afterField b₃ b₄, Silent p := by
  have hopen : Silent ⟨.mark, ['(']⟩ := silent_of_not_name rfl rfl
  have hclose : Silent closing := silent_of_not_name rfl rfl
  simp only [afterField, List.forall_mem_append, List.forall_mem_cons]
  exact ⟨silent_blanks b₃, hopen, silent_blanks b₄, hclose, fun p hp => by cases hp⟩

theorem silent_afterDot (hf : field = "state".toList ∨ field = "err".toList) (b₂ b₃ b₄ : Text) :
    ∀ p ∈ afterDot field b₂ b₃ b₄, Silent p :=
  List.forall_mem_append.mpr ⟨silent_blanks b₂,
    List.forall_mem_cons.mpr ⟨silent_word (own_field hf), silent_afterField b₃ b₄⟩⟩

theorem silent_afterThis (hf : field = "state".toList ∨ field = "err".toList)
    (b₁ b₂ b₃ b₄ : Text) : ∀ p ∈ afterThis field b₁ b₂ b₃ b₄, Silent p := by
  have hdot : Silent ⟨.mark, ['.']⟩ := silent_of_not_name rfl rfl
  exact List.forall_mem_append.mpr
    ⟨silent_blanks b₁, List.forall_mem_cons.mpr ⟨hdot, silent_afterDot hf b₂ b₃ b₄⟩⟩

theorem silent_fieldPieces (hf : field = "state".toList ∨ field = "err".toList) :
    ∀ p ∈ fieldPieces field, Silent p := by
  have hopen : Silent ⟨.mark, ['(']⟩ := silent_of_not_name rfl rfl
  have hclose : Silent closing := silent_of_not_name rfl rfl
  have harrow : Silent arrowPiece := silent_of_not_name rfl rfl
  have hmachine : Silent machineWord := silent_word (by decide)
  simp only [fieldPieces, List.forall_mem_cons]
  exact ⟨hopen, hmachine, harrow, silent_word (own_field hf), hclose, fun p hp => by cases hp⟩

/-- Pieces that make up a call, or a number and a call that begins in it. -/
structure CallRun (t : Text) (ps cs : List Piece) : Prop where
  tokens : Tokens (cs ++ ps)
  texts_eq : texts cs = t
  silent : ∀ p ∈ cs, Silent p
  closed : cs.getLast? = some closing

/-- A call that a word begins stands on pieces of its own. -/
theorem SelfCall.run {u : Text} (hu : SelfCall field u) (h : Tokens ps) :
    ∃ cs, CallRun u ps cs := by
  have hf := hu.field_cases
  cases hu with
  | @mk b₁ b₂ b₃ b₄ _ hb₁ hb₂ hb₃ hb₄ =>
    refine ⟨⟨.word, "this".toList⟩ :: afterThis field b₁ b₂ b₃ b₄, ?_, ?_, ?_, ?_⟩
    · exact .cons (.word (by decide) (List.all_eq_true.mp rfl) (ends_afterThis hb₁ _))
        (tokens_afterThis hf hb₁ hb₂ hb₃ hb₄ h)
    · simp [afterThis, afterDot, afterField, closing]
    · exact List.forall_mem_cons.mpr ⟨silent_word (by decide), silent_afterThis hf b₁ b₂ b₃ b₄⟩
    · simp [afterThis, afterDot, afterField, List.getLast?_cons, List.getLast?_append]

/-- A number takes in what it can of a call; the rest of the call stands on pieces of its own. -/
theorem SelfCall.run_number {u : Text} (hu : SelfCall field u) (h : Tokens ps) {c : Char}
    {w : Text} (hc : Text.isAsciiDigit c) (hw : ∀ d ∈ w, isNumeral d) :
    ∃ cs, CallRun ((c :: w) ++ u) ps cs := by
  have hf := hu.field_cases
  have hnumeral {v : Text} (hv : ∀ d ∈ v, isNumeral d) : ∀ d ∈ w ++ v, isNumeral d :=
    List.forall_mem_append.mpr ⟨hw, hv⟩
  cases hu with
  | @mk b₁ b₂ b₃ b₄ _ hb₁ hb₂ hb₃ hb₄ =>
    cases b₁ with
    | cons d b₁ =>
      refine ⟨⟨.number, c :: (w ++ "this".toList)⟩ :: afterThis field (d :: b₁) b₂ b₃ b₄,
        ?_, ?_, ?_, ?_⟩
      · have hd := isNumeral_of_blank (allBlank_cons.mp hb₁).1
        exact .cons (.number hc (hnumeral (List.all_eq_true.mp rfl)) (ends_cons hd _))
          (tokens_afterThis hf hb₁ hb₂ hb₃ hb₄ h)
      · simp [afterThis, afterDot, afterField, closing]
      · exact List.forall_mem_cons.mpr ⟨silent_number _, silent_afterThis hf _ b₂ b₃ b₄⟩
      · simp [afterThis, afterDot, afterField, List.getLast?_cons, List.getLast?_append]
    | nil =>
      cases b₂ with
      | cons d b₂ =>
        refine ⟨⟨.number, c :: (w ++ "this.".toList)⟩ :: afterDot field (d :: b₂) b₃ b₄,
          ?_, ?_, ?_, ?_⟩
        · have hd := isNumeral_of_blank (allBlank_cons.mp hb₂).1
          exact .cons (.number hc (hnumeral (List.all_eq_true.mp rfl)) (ends_cons hd _))
            (tokens_afterDot hf hb₂ hb₃ hb₄ h)
        · simp [afterDot, afterField, closing]
        · exact List.forall_mem_cons.mpr ⟨silent_number _, silent_afterDot hf _ b₃ b₄⟩
        · simp [afterDot, afterField, List.getLast?_cons, List.getLast?_append]
      | nil =>
        have hv : ∀ d ∈ "this.".toList ++ field, isNumeral d := by
          rcases hf with rfl | rfl <;> exact List.all_eq_true.mp rfl
        refine ⟨⟨.number, c :: (w ++ ("this.".toList ++ field))⟩ :: afterField b₃ b₄,
          ?_, ?_, ?_, ?_⟩
        · exact .cons (.number hc (hnumeral hv) (ends_afterField hb₃ _))
            (tokens_afterField hb₃ hb₄ h)
        · simp [afterField, closing]
        · exact List.forall_mem_cons.mpr ⟨silent_number _, silent_afterField b₃ b₄⟩
        · simp [afterField, List.getLast?_cons, List.getLast?_append]

/-- A field after nothing, or after what is left of a number. -/
theorem field_run (hf : field = "state".toList ∨ field = "err".toList) (h : Tokens ps) :
    CallRun (fieldAccess field) ps (fieldPieces field) :=
  ⟨tokens_fieldPieces hf h, by simp [fieldPieces, fieldAccess, machineWord, arrowPiece, closing],
    silent_fieldPieces hf, rfl⟩

theorem field_run_number (hf : field = "state".toList ∨ field = "err".toList) (h : Tokens ps)
    {c : Char} {w : Text} (hc : Text.isAsciiDigit c) (hw : ∀ d ∈ w, isNumeral d) :
    CallRun ((c :: w) ++ fieldAccess field) ps (⟨.number, c :: w⟩ :: fieldPieces field) := by
  obtain ⟨htokens, htexts, hsilent, _⟩ := field_run hf h
  refine ⟨.cons (.number hc hw (ends_cons rfl _)) htokens, ?_, ?_, rfl⟩
  · rw [texts_cons, htexts]
  · exact List.forall_mem_cons.mpr ⟨silent_number _, hsilent⟩

end CallPieces

end Statewright.Code
