import Libuc.Scheduler.Rehearsal

/-! Admission to the completion queue. Every operation is counted from its staging
to its reaping, and no more than `cq_entries` are admitted, so whenever the
kernel holds an operation there is a free cell for its completion. -/

namespace Libuc.Scheduler

open Lib

variable {k : Kernel} {s s' : State} {b : Board}

/-- What `parked_count` counts. -/
structure Admitted (s : State) (unreaped : List Cqe) : Prop where
  completions : s.ring.Unreaped unreaped
  outstanding : s.ring.staged.length + s.held.length + unreaped.length = s.parkedCount.toNat
  capacity : s.parkedCount.toNat ≤ s.ring.cqEntries.toNat
  room : s.held ≠ [] → unreaped.length < s.ring.cqEntries.toNat
  batch : s.ring.staged.length = s.ring.batchCount.toNat
  slots : s.ring.batchCount.toNat ≤ s.ring.sqEntries.toNat

theorem Refines.admitted (h : Refines k s b) : ∃ unreaped, Admitted s unreaped := by
  obtain ⟨q, hq, hall⟩ := h.flight.posted
  have hlen : s.ring.staged.length + s.held.length + q.length = b.ops.length := by
    rw [h.flight.staged.length_eq, h.flight.held.length_eq, hall.length_eq]
    simp [Board.ops, add_assoc]
  refine ⟨q, hq, by rw [hlen, h.flight.parked], by rw [h.flight.parked]; exact h.flight.capacity, ?_,
    Ring.staged_length _, h.flight.fits⟩
  intro hheld
  rw [hall.length_eq]
  refine h.flight.room fun hnil => hheld ?_
  have hf := h.flight.held
  rw [hnil] at hf
  exact List.forall₂_nil_right_iff.mp hf

/-- A turn that awaits dies in the first test of `park` or not at all. -/
theorem Good.await_dies (h : Good k s) {x : Turn} {sqe : Sqe} (hx : x.call = .await sqe)
    (allowed : Allowed k s (.turn x)) (hs : Scheduler.step s (.turn x) = some s') :
    (∀ stop, s'.control = .stopped stop → stop = .trap .parkRefused) ∧
      (s'.control = .stopped (.trap .parkRefused) ↔
        sqe.flags ≠ 0#8 ∨ s.parkedCount = s.ring.cqEntries) := by
  obtain ⟨turns, f, t, hc, -, -, -, hserved, rfl⟩ := h.served allowed hs
  rw [h.refines.parkedCount_eq]
  generalize s.dispatch turns x = result at hserved
  cases hserved with
  | parkRefused call hr =>
    rw [hx] at call
    cases call
    simp [State.settle, hr]
  | parkStaged call flags room slot ends =>
    rw [hx] at call
    cases call
    simp [State.settle, ends.control, flags, room.ne]
  | parkFlush call flags room full frame ring ends =>
    rw [hx] at call
    cases call
    simp [State.settle, ends.control, flags, room.ne]
  | _ => simp_all

/-- An enter inside the flush of `park` dies of its own failure or not at all,
as long as the queue has a slot. -/
theorem Good.flush_dies (h : Good k s) {turns : U32} {f r : Addr} (hc : s.control = .flush turns f r)
    {result : Long} (allowed : Allowed k s (.enter result))
    (hs : Scheduler.step s (.enter result) = some s')
    (hslot : 0 < s.ring.sqEntries.toNat) {stop : Stop} (hstop : s'.control = .stopped stop) :
    stop = .trap .flushFailed ∧ syscallFailed result = true := by
  cases h.stepped allowed hs with
  | flushDies input c hd ends =>
    cases input
    rw [ends.control] at hstop
    cases hstop
    rcases hd with hd | ⟨-, hz⟩
    · exact hd
    · rw [hz] at hslot
      cases hslot
  | flushAgain input c answers fibers geometry ends => simp_all [ends.control]
  | flushed input c answers ends => simp_all [ends.control]
  | _ => simp_all [Control.ready]

/-- The admission proof. In every state of every run, whatever the kernel's
timing, `parked_count` is the number of operations staged, held and unreaped, it
fits in the completion queue, and the kernel always has a free cell for what it
holds. `park` dies only of a non-zero flags field, of a full completion queue,
or of a failed enter. -/
theorem completion_queue_never_full (k : Kernel) (s : State) (reach : Reachable k s) :
    (∃ unreaped, Admitted s unreaped) ∧
    (∀ (x : Turn) (sqe : Sqe) (s' : State), x.call = .await sqe → Allowed k s (.turn x) →
      step s (.turn x) = some s' →
      (∀ stop, s'.control = .stopped stop → stop = .trap .parkRefused) ∧
        (s'.control = .stopped (.trap .parkRefused) ↔
          sqe.flags ≠ 0#8 ∨ s.parkedCount = s.ring.cqEntries)) ∧
    (∀ (turns : U32) (f r : Addr) (result : Long) (s' : State), s.control = .flush turns f r →
      Allowed k s (.enter result) → step s (.enter result) = some s' → 0 < s.ring.sqEntries.toNat →
      ∀ stop, s'.control = .stopped stop → stop = .trap .flushFailed ∧
      syscallFailed result = true) := by
  have h := reach.good
  exact ⟨h.refines.admitted, fun x sqe s' hx allowed hs => h.await_dies hx allowed hs,
    fun turns f r result s' hc allowed hs hslot stop hstop => h.flush_dies hc allowed hs hslot hstop⟩

/-- One operation is staged, and was admitted; with the queue full of staged SQEs, `park`
dies of the failed enter. -/
theorem completion_queue_never_full_opening :
    (Sample.after (Sample.opening Sample.child)).parkedCount = 1#32 ∧
    (∃ unreaped, Admitted (Sample.after (Sample.opening Sample.child)) unreaped) ∧
    (∀ stop, (Sample.after (Sample.opening Sample.child)).control ≠ .stopped stop) ∧
    ∃ stop, (Sample.after Sample.crowded).control = .stopped stop ∧ stop = .trap .flushFailed := by
  refine ⟨by decide +kernel,
    (completion_queue_never_full Sample.kernel _ Sample.reachable_opening).1, fun stop hstop => ?_, ?_⟩
  · obtain ⟨hreach, hallowed, hstep⟩ := Sample.step_after
      (show (Sample.opening Sample.child)[7]? =
        some (Sample.turn 0x201000#64 (.await Sample.nop) none) from rfl)
      (by decide +kernel)
    obtain ⟨hdies, hiff⟩ :=
      (completion_queue_never_full Sample.kernel _ hreach).2.1 _ _ _ rfl hallowed hstep
    rw [hdies stop hstop] at hstop
    exact absurd (hiff.mp hstop) (by decide +kernel)
  · obtain ⟨hreach, hallowed, hstep⟩ := Sample.step_after
      (show Sample.crowded[8]? = some (.enter (BitVec.ofInt 64 (-11))) from rfl) (by decide +kernel)
    have hflush : (Sample.after (Sample.crowded.take 8)).control =
        .flush 1#32 Sample.third 0x301000#64 :=
      Control.eq_of_same (by decide +kernel)
    have hstop : (Sample.after Sample.crowded).control = .stopped (.trap .flushFailed) :=
      Control.eq_of_same (by decide +kernel)
    exact ⟨_, hstop,
      ((completion_queue_never_full Sample.kernel _ hreach).2.2 _ _ _ _ _ hflush hallowed hstep
      (by decide +kernel) _ hstop).1⟩

end Libuc.Scheduler
