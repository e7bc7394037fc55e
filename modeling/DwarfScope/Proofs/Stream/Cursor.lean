import DwarfScope.Navigation
import DwarfScope.Proofs.Effect
import DwarfScope.Proofs.Stream.Offsets
import Mathlib.Logic.Relation

/-!
# Places of the cursor

Whatever the entries of a stream are, also if lists are not closed and offsets stand twice, the
cursor stays in the stream and remembers at most the entry right before it.
-/

namespace DwarfScope

open Effect
open Relation (ReflTransGen)

/-- The cursor is in the stream, and the entry it has just passed is the one before it. -/
structure Cursor.Within (c : Cursor) (s : Stream) : Prop where
  position_le : c.position ≤ s.size
  last_succ : ∀ i, c.last = some i → i + 1 = c.position

namespace Stream

variable {s : Stream} {c d : Cursor} {n p depth offset : Nat} {e : Entry}

/-! ## The loop over a list of children -/

/-- One turn of the loop. So many lists are open, and the loop stands at a position. It ends if no
list is open or no entry is ahead. -/
def turn? (s : Stream) : Nat × Nat → Option (Nat × Nat)
  | (0, _) => none
  | (depth + 1, position) => s.entries[position]?.map fun e =>
    (if e.isNull then depth else if e.children then depth + 2 else depth + 1, position + 1)

/-- The loop gets from the first place to the second in some turns, and ends there. -/
def LoopEnds (s : Stream) (a b : Nat × Nat) : Prop :=
  ReflTransGen (fun a b => s.turn? a = some b) a b ∧ s.turn? b = none

theorem LoopEnds.head {a b a' : Nat × Nat} (hturn : s.turn? a = some a') (h : s.LoopEnds a' b) :
    s.LoopEnds a b := ⟨.head hturn h.1, h.2⟩

theorem turn?_of_get (depth : Nat) (he : s.entries[p]? = some e) :
    s.turn? (depth + 1, p) =
      some (if e.isNull then depth else if e.children then depth + 2 else depth + 1, p + 1) := by
  simp [turn?, he]

theorem turn?_of_size_le (h : s.size ≤ p) : s.turn? (depth, p) = none := by
  have hget : s.entries[p]? = none := Array.getElem?_eq_none h
  cases depth with
  | zero => rfl
  | succ depth => simp [turn?, hget]

theorem turn?_eq_some {a b : Nat × Nat} (h : s.turn? a = some b) :
    b.2 = a.2 + 1 ∧ a.2 < s.size := by
  obtain ⟨_ | depth, p⟩ := a
  · cases h
  · obtain ⟨e, he, rfl⟩ := Option.map_eq_some_iff.mp h
    exact ⟨rfl, (Array.getElem?_eq_some_iff.mp he).1⟩

theorem LoopEnds.le {a b : Nat × Nat} (h : s.LoopEnds a b) :
    a.2 ≤ b.2 ∧ (a.2 ≤ s.size → b.2 ≤ s.size) := by
  obtain ⟨hturns, -⟩ := h
  induction hturns with
  | refl => exact ⟨Nat.le_refl _, id⟩
  | tail _ hturn ih =>
    obtain ⟨hnext, hlt⟩ := turn?_eq_some hturn
    exact ⟨by omega, by omega⟩

theorem loopEnds_closing (depth : Nat) (h : s.size ≤ p + n) :
    ∃ d, s.LoopEnds (depth + 1, p) (d, s.closing depth n p) := by
  -- Each step of the recursion is one turn, and with enough room it stops where the loop does.
  induction n generalizing p depth with
  | zero => exact ⟨depth + 1, .refl, turn?_of_size_le h⟩
  | succ n ih =>
    rcases he : s.entries[p]? with _ | e
    · have hsize : s.size ≤ p := Array.getElem?_eq_none_iff.mp he
      simp only [closing, he]
      exact ⟨depth + 1, .refl, turn?_of_size_le hsize⟩
    · have hturn := turn?_of_get depth he
      simp only [closing, he]
      cases hn : e.isNull with
      | true =>
        rw [hn, if_pos rfl] at hturn
        cases depth with
        | zero => exact ⟨0, .head hturn ⟨.refl, rfl⟩⟩
        | succ depth =>
          obtain ⟨d, hd⟩ := ih (p := p + 1) depth (by omega)
          exact ⟨d, hd.head hturn⟩
      | false =>
        rw [hn, if_neg Bool.false_ne_true] at hturn
        cases hc : e.children with
        | true =>
          rw [hc, if_pos rfl] at hturn
          obtain ⟨d, hd⟩ := ih (p := p + 1) (depth + 1) (by omega)
          exact ⟨d, hd.head hturn⟩
        | false =>
          rw [hc, if_neg Bool.false_ne_true] at hturn
          obtain ⟨d, hd⟩ := ih (p := p + 1) depth (by omega)
          exact ⟨d, hd.head hturn⟩

/-- The lists that are open when the loop begins: that of the entry just passed, if it has
children. -/
def openLists (s : Stream) (c : Cursor) : Nat :=
  match c.last.bind (s.entries[·]?) with
  | some e => if e.children then 1 else 0
  | none => 0

/-- To skip the children is to run the loop to its end. -/
theorem skipChildren_loop (s : Stream) (c : Cursor) :
    ∃ d depth, s.skipChildren c = .ok () d ∧ d.last = none ∧
      s.LoopEnds (s.openLists c, c.position) (depth, d.position) := by
  unfold skipChildren openLists
  cases c.last.bind (s.entries[·]?) with
  | none => exact ⟨_, 0, rfl, rfl, .refl, rfl⟩
  | some e =>
    dsimp only
    cases e.children with
    | false => exact ⟨_, 0, rfl, rfl, .refl, rfl⟩
    | true =>
      have hroom : s.size ≤ c.position + s.ahead c := by
        unfold ahead
        omega
      obtain ⟨depth, hends⟩ := loopEnds_closing 0 hroom
      exact ⟨_, depth, rfl, rfl, hends⟩

/-! ## Moves -/

inductive Move where
  | next
  | seek (offset : Nat)
  | rewind
  | skip
  deriving Repr, DecidableEq

def Move.walk (move : Move) (s : Stream) : Walk Unit :=
  match move with
  | .next => do
    let _ ← s.next
  | .seek offset => s.seek offset
  | .rewind => Stream.rewind
  | .skip => s.skipChildren

theorem locate?_le {i : Nat} (h : s.locate? offset = some i) : i ≤ s.size := by
  unfold locate? at h
  split at h
  · obtain rfl := Option.some.inj h
    exact Nat.zero_le _
  · obtain ⟨⟨e, he, -⟩, -⟩ := indexOf?_eq_some_iff.mp h
    exact Nat.le_of_lt he.lt_size

theorem seek_keepsFailing (s : Stream) (offset : Nat) : KeepsFailing id (s.seek offset) := by
  intro c e d h
  unfold seek at h
  split at h
  · cases h
    rfl
  · cases h

theorem within_of_last_none (h : c.position ≤ s.size) (hlast : c.last = none) : c.Within s where
  position_le := h
  last_succ i hi := by
    rw [hlast] at hi
    cases hi

theorem within_behind {i : Nat} (he : s.entries[i]? = some e) : (Cursor.behind i).Within s where
  position_le := (Array.getElem?_eq_some_iff.mp he).1
  last_succ j hj := by
    obtain rfl : i = j := Option.some.inj hj
    rfl

theorem within_move (h : c.Within s) (move : Move) : (after (move.walk s) c).Within s := by
  cases move with
  | next =>
    rcases he : s.entries[c.position]? with _ | e
    · have hafter : after (Move.next.walk s) c = { c with last := none } :=
        after_of_ok (bind_of_ok (Walk.outcome_eq_ok.mp (outcome_next_none he)))
      rw [hafter]
      exact within_of_last_none h.position_le rfl
    · have hafter : after (Move.next.walk s) c = .behind c.position :=
        after_of_ok (bind_of_ok (Walk.outcome_eq_ok.mp (outcome_next_some he)))
      rw [hafter]
      exact within_behind he
  | seek offset =>
    rcases hi : s.locate? offset with _ | i
    · have hafter : after (Move.seek offset |>.walk s) c = c := by
        simp only [after, Move.walk, seek, hi]
      rw [hafter]
      exact h
    · have hafter : after (Move.seek offset |>.walk s) c = { position := i } :=
        after_of_ok (Walk.outcome_eq_ok.mp (outcome_seek hi))
      rw [hafter]
      exact within_of_last_none (locate?_le hi) rfl
  | rewind => exact within_of_last_none (Nat.zero_le _) rfl
  | skip =>
    obtain ⟨d, depth, hd, hlast, hends⟩ := s.skipChildren_loop c
    have hafter : after (Move.skip.walk s) c = d := after_of_ok hd
    rw [hafter]
    exact within_of_last_none (hends.le.2 h.position_le) hlast

theorem isSome_passed (h : c.Within s) :
    (c.last.bind (s.entries[·]?)).isSome = c.last.isSome := by
  cases hlast : c.last with
  | none => rfl
  | some i =>
    have := h.last_succ i hlast
    have := h.position_le
    have hlt : i < s.entries.size := by
      show i < s.size
      omega
    simp [hlt]

end Stream

namespace Navigation

variable {n : Navigation}

def moveAll (moves : List Stream.Move) (n : Navigation) : Navigation :=
  moves.foldl (fun n move => after (walk move.walk) n) n

theorem after_walk {α : Type} (step : Stream → Walk α) (n : Navigation) :
    after (walk step) n = { n with cursor := after (step n.stream) n.cursor } := by
  unfold after walk
  cases step n.stream n.cursor <;> rfl

theorem walk_eq_error {α : Type} {step : Stream → Walk α} {e : Failure} {m : Navigation} :
    walk step n = .error e m ↔
      ∃ c, step n.stream n.cursor = .error e c ∧ m = { n with cursor := c } := by
  unfold walk
  cases step n.stream n.cursor with
  | ok a d => simp
  | error fault d =>
    constructor
    · rintro ⟨⟩
      exact ⟨d, rfl, rfl⟩
    · rintro ⟨_, ⟨⟩, rfl⟩
      rfl

theorem walk_seek_keepsFailing (offset : Nat) : KeepsFailing id (walk (·.seek offset)) := by
  intro n e m h
  obtain ⟨c, hc, rfl⟩ := walk_eq_error.mp h
  have hsame : c = n.cursor := Stream.seek_keepsFailing n.stream offset _ _ _ hc
  rw [hsame]

theorem moveAll_cons (move : Stream.Move) (moves : List Stream.Move) :
    n.moveAll (move :: moves) =
      { n with cursor := after (move.walk n.stream) n.cursor }.moveAll moves := by
  rw [← after_walk]
  rfl

theorem within_moveAll (h : n.cursor.Within n.stream) (moves : List Stream.Move) :
    (n.moveAll moves).stream = n.stream ∧ (n.moveAll moves).cursor.Within n.stream := by
  induction moves generalizing n with
  | nil => exact ⟨rfl, h⟩
  | cons move moves ih =>
    rw [moveAll_cons]
    exact ih (n := { n with cursor := _ }) (Stream.within_move h move)

/-- After any moves the entries are the same, and so are the offsets by which they are found. The
cursor is in the stream, and an entry is there if one is remembered. From there the loop over a list
of children comes to its end, and not further back. Whenever an offset is not found, nothing
changes. -/
theorem moveAll_within (s : Stream) (moves : List Stream.Move) :
    let n := moveAll moves { stream := s }
    n.stream = s ∧ n.cursor.Within s ∧
      (n.cursor.last.bind (s.entries[·]?)).isSome = n.cursor.last.isSome ∧
      (∃ d depth, s.skipChildren n.cursor = .ok () d ∧ n.cursor.position ≤ d.position ∧
        s.LoopEnds (s.openLists n.cursor, n.cursor.position) (depth, d.position)) ∧
      ∀ offset, KeepsFailing id (walk (·.seek offset)) := by
  intro n
  have hstart : Cursor.Within {} s := Stream.within_of_last_none (Nat.zero_le _) rfl
  obtain ⟨hstream, hwithin⟩ := within_moveAll (n := { stream := s }) hstart moves
  obtain ⟨d, depth, hskip, -, hends⟩ := s.skipChildren_loop n.cursor
  exact ⟨hstream, hwithin, Stream.isSome_passed hwithin, ⟨d, depth, hskip, hends.le.1, hends⟩,
    walk_seek_keepsFailing⟩

end Navigation
end DwarfScope
