import Statewright.Proofs.Placement
import Statewright.Proofs.Skipping

namespace Statewright

/-- The offset behind a token, the delimiters of a fragment included. -/
def Token.finish (t : Token) : Nat :=
  t.offset + t.text.length + if t.kind = .block ∨ t.kind = .expr then 2 else 0

namespace Language

/-- From `n` up to `o` there are blanks and comments only, and at `o` there are none. -/
def FirstSolid (source : Text) (n o : Nat) : Prop :=
  ∃ g rest, source.drop n = g ++ rest ∧ o = n + g.length ∧ Gap rest g ∧
    ∀ g' rest', rest = g' ++ rest' → Gap rest' g' → g' = []

/-- Each token starts at the first offset behind the one before it that is in no gap. -/
inductive Adjacent (source : Text) : Nat → List Token → Prop
  | nil : Adjacent source n []
  | cons : FirstSolid source n t.offset → Adjacent source t.finish ts → Adjacent source n (t :: ts)

section Adjacent
variable {source rest w v : Text} {k : Kind} {n : Nat} {ts : List Token}

theorem Spelling.finish (h : Spelling rest k w v) (place : Position) (o : Nat) :
    Token.finish ⟨k, v, place, o⟩ = o + w.length := by
  unfold Token.finish
  rcases h.text with ⟨hk, rfl⟩ | ⟨hk, a, b, rfl⟩
  · rw [if_neg hk, Nat.add_zero]
  · rw [if_pos hk]
    simp only [List.length_cons, List.length_append, List.length_nil]
    omega

theorem Spelling.solid (h : Spelling rest k w v) {g' rest' : Text} (he : w ++ rest = g' ++ rest')
    (hg : Gap rest' g') : g' = [] := by
  have hzero := h.gapLength_zero
  rw [he, gapLength_gap hg] at hzero
  exact List.length_eq_zero_iff.mp (Nat.add_eq_zero_iff.mp hzero).1

theorem Spelled.adjacent (h : Spelled source n ts) : Adjacent source n ts := by
  induction h with
  | nil => exact .nil
  | cons hd hg hs _ ih =>
    refine .cons ⟨_, _, hd, rfl, hg, fun _ _ => hs.solid⟩ ?_
    rw [hs.finish]
    exact ih

end Adjacent
end Language

namespace Reader
open Statewright.Language

inductive Request
  | peek (expected : List Kind)
  | scan (kind : Kind)
  | atEnd
  | mark

inductive Answer
  | kind (k : Kind)
  | token (t : Token)
  | flag (b : Bool)
  | offset (n : Nat)
  | fault (f : Fault)

/-- The token that was scanned, if it was one. -/
def Answer.token? : Answer → Option Token
  | token t => some t
  | _ => none

/-- What reading comes to, with the reader that is left when it fails, too. -/
def answer {α : Type} (f : α → Answer) : EStateM.Result Fault Reader α → Answer × Reader
  | .ok a r => (f a, r)
  | .error e r => (.fault e, r)

def Request.make (r : Reader) : Request → Answer × Reader
  | peek expected => answer .kind (Reader.peek expected r)
  | scan kind => answer .token (Reader.scan kind r)
  | atEnd => (.flag r.atEnd.1, r.atEnd.2)
  | mark => (.offset r.mark.1, r.mark.2)

/-- Requests one after the other, a fault being an answer like any other. -/
def serve (r : Reader) : List Request → List Answer × Reader
  | [] => ([], r)
  | q :: qs =>
    let next := serve (q.make r).2 qs
    ((q.make r).1 :: next.1, next.2)

/-- The tokens scanned. -/
def tokens (answers : List Answer) : List Token :=
  answers.filterMap Answer.token?

section Steps
variable {expected : List Kind} {k : Kind} {r r' : Reader} {f : Fault} {t : Token}

/-- Where no token can be cut the gap is skipped all the same. -/
theorem cut_fault (h : cut expected r = .error f r') : r' = r.skipGap := by
  simp only [cut] at h
  split at h
  · cases h
    rfl
  · cases h

theorem look_fault (h : look expected r = .error f r') : Passes r [] r' := by
  simp only [look] at h
  split at h
  · cases h
  · rename_i ha
    split at h
    · rename_i hc
      cases h
      rw [cut_fault hc]
      exact Grammar.passes_skipGap ha
    · cases h

/-- Looking at the next token goes over nothing, be it the expected one, another, or none. -/
theorem peek_passes (expected : List Kind) (r : Reader) :
    Passes r [] (answer .kind (peek expected r)).2 := by
  cases hl : look expected r with
  | error e s =>
    rw [peek, bind_of_error hl]
    exact look_fault hl
  | ok t s =>
    rw [peek, bind_of_ok hl]
    split <;> exact (look_sound hl).2

theorem scan_fault (h : scan k r = .error f r') : Passes r [] r' := by
  have hp := peek_passes [k] r
  cases hr : peek [k] r with
  | error e s =>
    rw [scan, bind_of_error hr] at h
    rw [hr] at hp
    cases h
    exact hp
  | ok j s =>
    obtain ⟨_, ⟨t, ha, _⟩, _⟩ := peek_sound hr (by simp)
    rw [scan, bind_of_ok hr, bind_of_ok (look_ahead ha)] at h
    cases h

theorem passes_atEnd (r : Reader) : Passes r [] r.atEnd.2 := by
  unfold atEnd
  split
  · exact .refl r
  · rename_i ha
    exact Grammar.passes_skipGap ha

/-- A request goes over the token that it scans, if it does, and over nothing else. -/
theorem Request.passes (q : Request) (r : Reader) :
    Passes r (q.make r).1.token?.toList (q.make r).2 := by
  cases q with
  | peek expected =>
    have hp := peek_passes expected r
    rw [make]
    cases hr : Reader.peek expected r with
    | ok j s | error e s =>
      rw [hr] at hp
      exact hp
  | scan kind =>
    rw [make]
    cases hr : Reader.scan kind r with
    | ok t s => exact (scan_sound hr).2
    | error e s => exact scan_fault hr
  | atEnd => exact passes_atEnd r
  | mark => exact Grammar.passes_mark r

theorem tokens_cons (a : Answer) (as : List Answer) :
    tokens (a :: as) = a.token?.toList ++ tokens as := by
  cases ha : a.token? <;> simp [tokens, ha]

/-- Requests go over the tokens that they scan. -/
theorem serve_passes (r : Reader) (qs : List Request) :
    Passes r (tokens (serve r qs).1) (serve r qs).2 := by
  induction qs generalizing r with
  | nil => exact .refl r
  | cons q qs ih =>
    rw [serve, tokens_cons]
    exact (q.passes r).trans (ih _)

end Steps

section Marks
variable {source : Text} {n m : Nat} {r r' : Reader} {ts : List Token}

/-- The first token behind an offset starts behind the gap that is there; without one, the gap is
that at the other end. -/
theorem Path.solid (h : Path source n ts m) : n + gapLength (source.drop n) =
    (ts.head?.map Token.offset).getD (m + gapLength (source.drop m)) := by
  induction h with
  | refl => rfl
  | @gap n g after ts m hd hg _ ih =>
    have hafter : source.drop (n + g.length) = after := by
      rw [← List.drop_drop, hd, List.drop_left]
    rw [← ih, hafter, hd, gapLength_gap hg, Nat.add_assoc]
  | token hd hs _ _ =>
    rw [hd, hs.gapLength_zero]
    rfl

theorem mark_eq (r : Reader) :
    r.mark.1 = (r.ahead.toList.head?.map Token.offset).getD (r.offset + gapLength r.rest) := by
  unfold mark
  split <;> rename_i ha <;> rw [ha] <;> rfl

/-- What is marked is the first token that reading goes over, and before that stays as it is. -/
theorem Passes.mark (h : Passes r ts r') :
    r.mark.1 = (ts.head?.map Token.offset).getD r'.mark.1 := by
  obtain ⟨hsource, us, he, hpath⟩ := h.path
  have hsolid := hpath.solid
  rw [← hsource] at hsolid
  have hall : r.mark.1 = ((r.ahead.toList ++ us).head?.map Token.offset).getD
      (r'.offset + gapLength r'.rest) := by
    rw [mark_eq]
    cases r.ahead with
    | none =>
      rw [Reader.rest, ← hsource]
      exact hsolid
    | some a => rfl
  rw [hall, he]
  cases ts with
  | nil => rw [List.nil_append, ← mark_eq]; rfl
  | cons t ts => rfl

end Marks

/-- Whatever is asked of a reader of a source, in any order and with any faults, the tokens that are
scanned stand in the source one behind the other. What scans nothing leaves the mark as it is; and
the next token that is scanned, however many faults later, starts at the mark. -/
theorem requests_adjacent (source : Text) (qs : List Request) :
    Spelled source 0 (tokens (serve { source } qs).1) ∧
    Adjacent source 0 (tokens (serve { source } qs).1) ∧
    (∀ q : Request, (q.make (serve { source } qs).2).1.token? = none →
      (q.make (serve { source } qs).2).2.mark.1 = (serve { source } qs).2.mark.1) ∧
    ∀ ps (q : Request) t, tokens (serve (serve { source } qs).2 ps).1 = [] →
      (q.make (serve (serve { source } qs).2 ps).2).1.token? = some t →
      t.offset = (serve { source } qs).2.mark.1 := by
  have hspelled : Spelled source 0 (tokens (serve { source } qs).1) := by
    have hstands := (serve_passes { source } qs).stands [] trivial
    rw [List.append_nil] at hstands
    exact (stands_cut rfl).mp hstands
  generalize (serve { source } qs).2 = r
  refine ⟨hspelled, hspelled.adjacent, fun q hq => ?_, fun ps q t hps hq => ?_⟩
  · have hmark := (q.passes r).mark
    rw [hq] at hmark
    exact hmark.symm
  · have hbefore := (serve_passes r ps).mark
    have hscan := (q.passes (serve r ps).2).mark
    rw [hps] at hbefore
    rw [hq] at hscan
    exact (hbefore.trans hscan).symm

/-- A name, a comment, a block, and a character that starts no token. -/
def faultySource : Text :=
  "a // b\n\x7bc\x7d $"

/-- Looks for an integer and fails twice before it scans the name. -/
def scanName : List Request :=
  [.peek [.int], .scan .int, .scan .name]

/-- Cuts the block, and then fails to scan its brace alone. -/
def missBrace : List Request :=
  [.atEnd, .peek [.block], .scan .openBrace]

theorem requests_adjacent_faulty :
    tokens (serve { source := faultySource } (scanName ++ missBrace ++ [.scan .block])).1 =
      [⟨.name, ['a'], ⟨1, 1⟩, 0⟩, ⟨.block, ['c'], ⟨2, 2⟩, 7⟩] ∧
    Adjacent faultySource 0 [⟨.name, ['a'], ⟨1, 1⟩, 0⟩, ⟨.block, ['c'], ⟨2, 2⟩, 7⟩] ∧
    ((Request.peek []).make (serve { source := faultySource }
      (scanName ++ missBrace ++ [.scan .block])).2).2.mark.1 =
      (serve { source := faultySource } (scanName ++ missBrace ++ [.scan .block])).2.mark.1 ∧
    (serve { source := faultySource } scanName).2.mark.1 = 7 := by
  have htokens : tokens (serve { source := faultySource }
      (scanName ++ missBrace ++ [.scan .block])).1 =
      [⟨.name, ['a'], ⟨1, 1⟩, 0⟩, ⟨.block, ['c'], ⟨2, 2⟩, 7⟩] := by decide +kernel
  obtain ⟨_, hadjacent, hmark, _⟩ :=
    requests_adjacent faultySource (scanName ++ missBrace ++ [.scan .block])
  rw [htokens] at hadjacent
  have hscan : ((Request.scan .block).make (serve (serve { source := faultySource } scanName).2
      missBrace).2).1.token? = some ⟨.block, ['c'], ⟨2, 2⟩, 7⟩ := by decide +kernel
  have hnext := (requests_adjacent faultySource scanName).2.2.2 missBrace _ _
    (by decide +kernel) hscan
  exact ⟨htokens, hadjacent, hmark (.peek []) (by decide +kernel), hnext.symm⟩

end Reader
end Statewright
