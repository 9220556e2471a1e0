import Libuc.Ring.Submission

/-! The completion side as a lossless FIFO queue. The counters run freely
through `2 ^ 32`; the mask keeps every subscript inside the CQE array, and the
kernel's bound on unreaped CQEs keeps equality of the counters exact. -/

namespace Libuc.Ring

open Lib

theorem cqShift_lt (ring : Ring) : ring.cqShift < 32 := by
  have h := ring.cqEntries.isLt
  rw [ring.cqEntries_eq] at h
  exact (Nat.pow_lt_pow_iff_right (by norm_num)).mp h

theorem cqMask_toNat (ring : Ring) : ring.cqMask.toNat = 2 ^ ring.cqShift - 1 := by
  have hpos : 0 < ring.cqEntries.toNat := by rw [ring.cqEntries_eq]; positivity
  rw [ring.cqMask_eq, toNat_pred hpos, ring.cqEntries_eq]

theorem cqIndex_eq (ring : Ring) (counter : U32) :
    ring.cqIndex counter = CircularBuffer.index ring.cqShift counter :=
  CircularBuffer.toNat_and_mask counter ring.cqMask ring.cqMask_toNat

/-- No subscript leaves the CQE array, whatever the counter. -/
theorem cqIndex_lt (ring : Ring) (counter : U32) : ring.cqIndex counter < ring.cqEntries.toNat := by
  rw [cqIndex_eq, ring.cqEntries_eq]
  exact CircularBuffer.index_lt counter

theorem created_unreaped (g : Geometry) (memory : Mem) (counter : U32) (cqes : ℕ → Cqe) :
    (created g memory counter cqes).Unreaped [] :=
  CircularBuffer.holds_empty cqes counter

theorem Unreaped.length_le {ring : Ring} {q : List Cqe} (h : ring.Unreaped q) :
    q.length ≤ ring.cqEntries.toNat := by
  rw [ring.cqEntries_eq]
  exact CircularBuffer.Holds.length_le h

theorem Unreaped.post {ring : Ring} {q : List Cqe} (h : ring.Unreaped q)
    (hroom : q.length < ring.cqEntries.toNat) (cqe : Cqe) : (ring.post cqe).Unreaped (q ++ [cqe]) := by
  rw [ring.cqEntries_eq] at hroom
  have hp := CircularBuffer.Holds.push ring.cqShift_lt.le h hroom cqe
  rw [← cqIndex_eq] at hp
  exact hp

/-- An empty queue is reported and left alone. -/
theorem Unreaped.reap_nil {ring : Ring} (h : ring.Unreaped []) : ring.reap = (none, ring) := by
  have he : ring.cqHead = ring.cqTail := (CircularBuffer.Holds.eq_iff ring.cqShift_lt h).mpr rfl
  simp only [reap, he, ↓reduceIte]

/-- Reap takes the oldest CQE and releases its cell. -/
theorem Unreaped.reap_cons {ring : Ring} {q : List Cqe} {cqe : Cqe} (h : ring.Unreaped (cqe :: q)) :
    ring.reap = (some cqe, { ring with cqHead := ring.cqHead + 1#32 }) ∧
      Unreaped { ring with cqHead := ring.cqHead + 1#32 } q := by
  have hne : ring.cqHead ≠ ring.cqTail := by
    intro he
    cases (CircularBuffer.Holds.eq_iff ring.cqShift_lt h).mp he
  have hfront : ring.cqes (ring.cqIndex ring.cqHead) = cqe := by
    rw [cqIndex_eq]
    exact CircularBuffer.Holds.front h
  exact ⟨by simp only [reap, hne, ↓reduceIte, hfront], CircularBuffer.Holds.pop h⟩

structure Completions where
  ring : Ring
  posted : List Cqe
  reaped : List Cqe

inductive Move : Completions → Completions → Prop
  | post {c : Completions} (cqe : Cqe)
      (room : c.posted.length < c.reaped.length + c.ring.cqEntries.toNat) :
      Move c ⟨c.ring.post cqe, c.posted ++ [cqe], c.reaped⟩
  | reap {c : Completions} : Move c ⟨c.ring.reap.2, c.posted, c.reaped ++ c.ring.reap.1.toList⟩

abbrev Moves : Completions → Completions → Prop := Relation.ReflTransGen Move

/-- The unreaped CQEs are what was posted beyond what was reaped. -/
def Completions.Fifo (c : Completions) : Prop :=
  ∃ q, c.ring.Unreaped q ∧ c.reaped ++ q = c.posted

theorem Move.fifo {c c' : Completions} (h : Move c c') (hi : c.Fifo) : c'.Fifo := by
  obtain ⟨q, hq, he⟩ := hi
  cases h with
  | post cqe room =>
    have hlen := congrArg List.length he
    rw [List.length_append] at hlen
    refine ⟨q ++ [cqe], hq.post (by omega) cqe, ?_⟩
    simp only
    rw [← List.append_assoc, he]
  | reap =>
    cases q with
    | nil =>
      rw [hq.reap_nil]
      exact ⟨[], hq, by simpa using he⟩
    | cons cqe q =>
      obtain ⟨hr, hn⟩ := hq.reap_cons
      rw [hr]
      refine ⟨q, hn, ?_⟩
      simp only [Option.toList_some, List.append_assoc]
      exact he

theorem Moves.fifo {c c' : Completions} (h : Moves c c') (hi : c.Fifo) : c'.Fifo :=
  keeps_run (fun _ _ hi hmove => hmove.fifo hi) hi h

/-- The completion side is a lossless FIFO queue over any interleaving of posts
and reaps, from any equal value of the two counters. The reaped CQEs are the
first posted ones in order, and the next reap finds the next one. It finds
nothing exactly when all have been reaped, and then changes nothing. -/
theorem completion_lossless_fifo (g : Geometry) (memory : Mem) (counter : U32) (cqes : ℕ → Cqe)
    (c : Completions) (run : Moves ⟨created g memory counter cqes, [], []⟩ c) :
    c.reaped = c.posted.take c.reaped.length ∧
    c.ring.reap.1 = c.posted[c.reaped.length]? ∧
    (c.ring.reap.1 = none ↔ c.reaped = c.posted) ∧
    (c.ring.reap.1 = none → c.ring.reap.2 = c.ring) ∧
    c.ring.cqIndex c.ring.cqHead < c.ring.cqEntries.toNat ∧
    c.ring.cqIndex c.ring.cqTail < c.ring.cqEntries.toNat := by
  obtain ⟨q, hq, he⟩ := run.fifo ⟨[], created_unreaped g memory counter cqes, rfl⟩
  refine ⟨by rw [← he]; simp, ?_, ?_, ?_, cqIndex_lt _ _, cqIndex_lt _ _⟩
  · cases q with
    | nil =>
      rw [hq.reap_nil, ← he]
      simp
    | cons cqe q =>
      rw [hq.reap_cons.1, ← he]
      simp
  · cases q with
    | nil =>
      rw [hq.reap_nil, ← he]
      simp
    | cons cqe q =>
      rw [hq.reap_cons.1, ← he]
      simp
  · cases q with
    | nil =>
      rw [hq.reap_nil]
      exact fun _ => rfl
    | cons cqe q =>
      rw [hq.reap_cons.1]
      exact fun h => nomatch h

/-- Two CQEs are posted across the wrap of the counters, then reaped in their order; a third
waits. -/
theorem completion_lossless_fifo_wrap :
    ∃ c, Moves ⟨created .small (fun _ => 0#8) 0xffffffff#32 (fun _ => ⟨0#64, 0#32, 0#32⟩), [], []⟩ c ∧
      c.ring.cqTail = 2#32 ∧ c.posted = [⟨1#64, 7#32, 0#32⟩, ⟨2#64, 8#32, 0#32⟩, ⟨3#64, 9#32, 0#32⟩] ∧
      c.reaped = [⟨1#64, 7#32, 0#32⟩, ⟨2#64, 8#32, 0#32⟩] ∧
      c.ring.reap.1 = some ⟨3#64, 9#32, 0#32⟩ := by
  have h₁ : Moves
      ⟨created .small (fun _ => 0#8) 0xffffffff#32 (fun _ => ⟨0#64, 0#32, 0#32⟩), [], []⟩ _ :=
    .single (.post ⟨1#64, 7#32, 0#32⟩ (by decide))
  have h₂ := h₁.tail (.post ⟨2#64, 8#32, 0#32⟩ (by decide))
  have h₃ := (h₂.tail .reap).tail (.post ⟨3#64, 9#32, 0#32⟩ (by decide))
  have hrun := h₃.tail .reap
  obtain ⟨hreaped, hnext, -⟩ := completion_lossless_fifo _ _ _ _ _ hrun
  exact ⟨_, hrun, rfl, rfl, hreaped, hnext⟩

end Libuc.Ring
