import Statewright.Reader

namespace Statewright

/-- The words that start an item. -/
def isItemWord (word : Text) : Bool :=
  Kind.ofWord word = .state || Kind.ofWord word = .untilWord

/-- Length of the text up to the next item: up to a word that starts one at brace depth 0, or to
the brace that closes the enclosing block, or to the end. The first word is the broken item's own. -/
def itemLength (depth : Nat) (first : Bool) (t : Text) : Nat :=
  let blank := gapLength t
  match h : t.drop blank with
  | [] => blank
  | c :: rest =>
    have : rest.length < t.length := by
      have := congrArg List.length h
      simp only [List.length_drop, List.length_cons] at this
      omega
    if isNameStart c then
      let word := c :: rest.takeWhile isNameChar
      if !first && depth == 0 && isItemWord word then blank
      else
        have : (rest.dropWhile isNameChar).length ≤ rest.length :=
          (List.dropWhile_sublist _).length_le
        blank + word.length + itemLength depth false (rest.dropWhile isNameChar)
    else if c = '{' then blank + 1 + itemLength (depth + 1) false rest
    else if c = '}' then
      match depth with
      | 0 => blank
      | depth + 1 => blank + 1 + itemLength depth false rest
    else blank + 1 + itemLength depth false rest
termination_by t.length

namespace Reader

/-- Goes on after the item that starts at an offset. -/
def recover (start : Nat) (r : Reader) : Reader :=
  let start := min start r.source.length
  let offset := start + itemLength 0 true (r.source.drop start)
  { r with offset, ahead := none }.push (.recovered (.inSource r.source offset))

end Reader
end Statewright
