import Statewright.Code.Piece

namespace Statewright.Code

/-- What follows a word at the start of a text. -/
def after? (word t : Text) : Option Text :=
  if word.isPrefixOf t then some (t.drop word.length) else none

theorem after?_eq_some {word t rest : Text} : after? word t = some rest ↔ t = word ++ rest := by
  unfold after?
  constructor
  · intro h
    split at h
    · rename_i hp
      obtain ⟨u, rfl⟩ := List.isPrefixOf_iff_prefix.mp hp
      cases h
      rw [List.drop_left]
    · cases h
  · intro h
    rw [h, if_pos (List.isPrefixOf_iff_prefix.mpr (List.prefix_append _ _)), List.drop_left]

theorem length_of_after? {word t rest : Text} (h : after? word t = some rest) :
    rest.length + word.length = t.length := by
  rw [after?_eq_some.mp h, List.length_append, Nat.add_comm]

/-- A field that a machine can be asked for, and the text after it. -/
def field? (t : Text) : Option (Text × Text) :=
  ["state".toList, "err".toList].findSome? fun word => (after? word t).map (word, ·)

theorem length_of_field? {t field rest : Text} (h : field? t = some (field, rest)) :
    rest.length ≤ t.length := by
  obtain ⟨word, _, hw⟩ := List.exists_of_findSome?_eq_some h
  obtain ⟨u, hu, hp⟩ := Option.map_eq_some_iff.mp hw
  cases hp
  have := length_of_after? hu
  omega

/-- The field that `this.state()` or `this.err()`, blanks between its parts, asks for, and the
text after the call. -/
def selfCall? (t : Text) : Option (Text × Text) := do
  let t ← after? "this" t
  let t ← after? "." t.trimStart
  let (field, t) ← field? t.trimStart
  let t ← after? "(" t.trimStart
  let t ← after? ")" t.trimStart
  return (field, t)

theorem length_trimStart_le (t : Text) : t.trimStart.length ≤ t.length :=
  (List.dropWhile_sublist _).length_le

theorem length_of_selfCall? {t field rest : Text} (h : selfCall? t = some (field, rest)) :
    rest.length < t.length := by
  simp only [selfCall?, Option.bind_eq_bind, Option.bind_eq_some_iff] at h
  obtain ⟨t₁, h₁, t₂, h₂, ⟨f, t₃⟩, h₃, t₄, h₄, t₅, h₅, h₆⟩ := h
  cases h₆
  have e₁ := length_of_after? h₁
  have e₂ := length_of_after? h₂
  have e₃ := length_of_field? h₃
  have e₄ := length_of_after? h₄
  have e₅ := length_of_after? h₅
  have l₁ := length_trimStart_le t₁
  have l₂ := length_trimStart_le t₂
  have l₃ := length_trimStart_le t₃
  have l₄ := length_trimStart_le t₄
  simp only [String.reduceToList, List.length_cons, List.length_nil] at e₁ e₂ e₄ e₅ l₃
  omega

/-- Puts fields in place of the calls, which start at the start of a word. -/
def replaceSelfCalls (inWord : Bool) (t : Text) : Text :=
  match t with
  | [] => []
  | c :: u =>
    match h : if inWord then none else selfCall? (c :: u) with
    | some (field, rest) =>
      have : rest.length < u.length + 1 := by
        split at h
        · cases h
        · exact length_of_selfCall? h
      "(fsm->" ++ field ++ ")" ++ replaceSelfCalls false rest
    | none => c :: replaceSelfCalls (Text.isWordChar c) u
termination_by t.length

/-- Puts the machine's data before every reference to one of the names. -/
def qualify (names : List Text) (t : Text) : Text :=
  (placed t).flatMap fun p =>
    if p.isReference && names.contains p.piece.text then "fsm->" ++ p.piece.text else p.piece.text

def expand (names : List Text) (t : Text) : Text :=
  qualify names (replaceSelfCalls false t)

/-- An expression as it stands in the unit. -/
def expression (names : List Text) (t : Text) : Text :=
  expand names t.trim

end Statewright.Code
