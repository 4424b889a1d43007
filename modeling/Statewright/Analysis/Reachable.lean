import Statewright.Machine

namespace Statewright

/-- Searches from the pending numbers below `size`, `seen` being done. -/
def explore (next : Nat → List Nat) (size : Nat) (seen : List Nat) : List Nat → List Nat
  | [] => seen
  | n :: pending =>
    if n < size ∧ n ∉ seen then explore next size (n :: seen) (next n ++ pending)
    else explore next size seen pending
termination_by pending => (((List.range size).filter (· ∉ seen)).length, pending.length)
decreasing_by
  · have h : n < size ∧ n ∉ seen := by assumption
    apply Prod.Lex.left
    have heq : (List.range size).filter (· ∉ n :: seen) =
        ((List.range size).filter (· ∉ seen)).filter (· ≠ n) := by
      rw [List.filter_filter]
      exact List.filter_congr fun x _ => by simp
    rw [heq]
    exact List.length_filter_lt_length_iff_exists.mpr ⟨n, by simp [h.1, h.2], by simp⟩
  · exact Prod.Lex.right _ (Nat.lt_succ_self _)

namespace Machine

/-- Where a step out of a site can lead: its transitions' targets, and that of the overflow of the
until block around it. -/
def edges (s : Site) : List Int :=
  s.state.transitions.filterMap (·.link.target) ++
    s.block.toList.filterMap fun b => b.2.link.target

/-- The edges of the state with a number. -/
def edgesOf (m : Machine) (n : Nat) : List Int :=
  (m.sites[n]?.map edges).getD []

/-- Edges that end at a state. -/
def next (m : Machine) (n : Nat) : List Nat :=
  ((m.edgesOf n).filter (0 ≤ ·)).map Int.toNat

/-- The states reached from the start state, which is to be known. -/
def reached (m : Machine) (start : Nat) : List Nat :=
  explore m.next m.states.length [] [start]

/-- Whether a reached state has an edge to a state that does not exist. -/
def strays (m : Machine) (start : Nat) : Bool :=
  (m.reached start).any fun n =>
    (m.edgesOf n).any fun target => target < 0 || m.states.length ≤ target

/-- The states that are never reached. -/
def unreached (m : Machine) (start : Nat) : List State :=
  let reached := m.reached start
  (m.states.zipIdx.filter fun s => !reached.contains s.2).map (·.1)

end Machine
end Statewright
