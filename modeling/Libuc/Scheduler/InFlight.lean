import Libuc.Ring.Completion
import Libuc.Scheduler.Places

/-! The operations between staging and reaping, in the three places they pass
through: the batch, the kernel, the completion queue. Each carries the address
of its fiber's request as a cookie. -/

namespace Libuc.Scheduler

open Lib

structure Carries (frame : Addr → Option Addr) (x : Sqe) (o : Op) : Prop where
  cookie : frame o.fiber = some x.userData
  same : Board.SameButCookie x o.sqe

def Works (frame : Addr → Option Addr) (x : Operation) (o : Op) : Prop :=
  x.number = o.number ∧ Carries frame x.sqe o

structure Answered (frame : Addr → Option Addr) (c : Cqe) (r : Reply) : Prop where
  cookie : frame r.op.fiber = some c.userData
  res : c.res = r.res
  flags : c.flags = r.flags

structure InFlight (frame : Addr → Option Addr) (ring : Ring) (held : List Operation) (taken : ℕ)
    (parked : U32) (b : Board) : Prop where
  fits : ring.BatchFits
  staged : List.Forall₂ (Carries frame) ring.staged b.staged
  held : List.Forall₂ (Works frame) held b.held
  posted : ∃ q, ring.Unreaped q ∧ List.Forall₂ (Answered frame) q b.posted
  parked : parked.toNat = b.ops.length
  capacity : b.ops.length ≤ ring.cqEntries.toNat
  numbers : b.staged.map Op.number = List.range' taken b.staged.length
  count : taken + b.staged.length = b.count

namespace InFlight

variable {frame frame' : Addr → Option Addr} {ring : Ring} {held : List Operation} {taken : ℕ}
  {parked : U32} {b b' : Board}

theorem created (g : Geometry) (memory : Mem) (counter : U32) (cqes : ℕ → Cqe) :
    InFlight frame (Ring.created g memory counter cqes) [] 0 0#32 Board.empty where
  fits := Nat.zero_le _
  staged := by rw [Ring.staged_eq_nil rfl]; exact .nil
  held := .nil
  posted := ⟨[], Ring.created_unreaped g memory counter cqes, .nil⟩
  parked := rfl
  capacity := Nat.zero_le _
  numbers := rfl
  count := rfl

/-- Only the frames of parked fibers matter. -/
theorem congr (h : InFlight frame ring held taken parked b)
    (hf : ∀ a ∈ b.parked, frame' a = frame a) (hs : b'.staged = b.staged) (hh : b'.held = b.held)
    (hp : b'.posted = b.posted) (hc : b'.count = b.count) :
    InFlight frame' ring held taken parked b' := by
  have hops : b'.ops = b.ops := by simp [Board.ops, hs, hh, hp]
  have hop : ∀ o ∈ b.ops, frame' o.fiber = frame o.fiber := fun o ho => hf _ (List.mem_map_of_mem ho)
  simp only [Board.ops, List.append_assoc, List.mem_append] at hop
  obtain ⟨q, hq, hall⟩ := h.posted
  refine ⟨h.fits, ?_, ?_, ⟨q, hq, ?_⟩, hops ▸ h.parked, hops ▸ h.capacity, hs ▸ h.numbers, by
    rw [hs, hc]; exact h.count⟩
  · rw [hs]
    exact forall₂_imp_mem h.staged fun x o ho hc => ⟨(hop o (.inl ho)).trans hc.cookie, hc.same⟩
  · rw [hh]
    exact forall₂_imp_mem h.held fun x o ho hc =>
      ⟨hc.1, (hop o (.inr (.inl ho))).trans hc.2.cookie, hc.2.same⟩
  · rw [hp]
    exact forall₂_imp_mem hall fun c r hr ha =>
      ⟨(hop r.op (.inr (.inr (List.mem_map_of_mem hr)))).trans ha.cookie, ha.res, ha.flags⟩

/-- An admitted SQE takes the next slot of the batch. -/
theorem stage (h : InFlight frame ring held taken parked b) {slot r f : Addr} {next : Ring} {sqe : Sqe}
    (ha : ring.appendSqe = some (slot, next)) (hf : frame f = some r) (hroom : parked ≠ ring.cqEntries)
    (hs : b'.staged = b.staged ++ [⟨b.count, f, sqe⟩]) (hh : b'.held = b.held)
    (hp : b'.posted = b.posted) (hc : b'.count = b.count + 1) :
    InFlight frame (next.writeSqe slot (sqe.setUserData r)) held taken (parked + 1#32) b' := by
  obtain ⟨hstaged, hfits, honly⟩ := Ring.appendSqe_writeSqe h.fits ha (sqe.setUserData r)
  have hlt : parked.toNat < ring.cqEntries.toNat :=
    lt_of_le_of_ne (h.parked ▸ h.capacity) fun he => hroom (BitVec.eq_of_toNat_eq he)
  have hcount : (parked + 1#32).toNat = parked.toNat + 1 :=
    toNat_succ (by have := ring.cqEntries.isLt; omega)
  have hops : b'.ops.length = b.ops.length + 1 := by
    simp only [Board.ops, hs, hh, hp, List.length_append, List.length_singleton]
    omega
  have hcq : (next.writeSqe slot (sqe.setUserData r)).cqEntries = ring.cqEntries := by
    rw [honly.geometry]
  have hpark := h.parked
  obtain ⟨q, hq, hall⟩ := h.posted
  refine ⟨hfits, ?_, hh ▸ h.held, ⟨q, honly.unreaped hq, hp ▸ hall⟩, ?_, ?_, ?_, ?_⟩
  · rw [hstaged, hs]
    refine forall₂_concat h.staged ⟨?_, fun j hj => Sqe.setUserData_outside sqe r hj⟩
    rw [Sqe.userData_setUserData]
    exact hf
  · omega
  · rw [hcq]
    omega
  · rw [hs, List.map_append, h.numbers, List.length_append, List.length_singleton, List.range'_1_concat,
      h.count]
    rfl
  · rw [hs, List.length_append, List.length_singleton, hc, ← h.count, add_assoc]

theorem numbered_works {xs : List Sqe} {os : List Op} {n : ℕ} (h : List.Forall₂ (Carries frame) xs os)
    (hn : os.map Op.number = List.range' n os.length) :
    List.Forall₂ (Works frame) (State.numbered n xs) os := by
  induction h generalizing n with
  | nil => exact .nil
  | cons hr _ ih =>
    simp only [List.map_cons, List.length_cons, List.range'_succ, List.cons.injEq] at hn
    exact .cons ⟨hn.1.symm, hr⟩ (ih hn.2)

theorem takes_le {result : Long} (ha : Ring.Answers ring.batchCount.toNat result) :
    Ring.takes result ≤ ring.batchCount.toNat := by
  unfold Ring.takes
  rcases ha with ⟨-, h⟩ | ⟨h, -⟩
  · simp [h]
  · split_ifs
    · exact Nat.zero_le _
    · exact h

/-- The kernel takes the front of the batch. -/
theorem enter (h : InFlight frame ring held taken parked b) {result : Long} (minComplete : U32)
    (ha : Ring.Answers ring.batchCount.toNat result) :
    InFlight frame (ring.submitPass result).ring
      (held ++ State.numbered taken (ring.enter minComplete result).taken)
      (taken + (ring.enter minComplete result).taken.length) parked
      (b.apply (.enter (ring.enter minComplete result))) ∧
    b.Enabled (.enter (ring.enter minComplete result)) := by
  obtain ⟨hstaged, hfits, honly⟩ := Ring.submitPass_spec h.fits ha
  have hlen : (ring.enter minComplete result).taken.length = Ring.takes result := by
    simp [Ring.enter, takes_le ha]
  have hb : b.staged.length = ring.batchCount.toNat := by
    rw [← h.staged.length_eq, Ring.staged_length]
  have hle := takes_le ha
  have htake : List.Forall₂ (Carries frame) (ring.enter minComplete result).taken
      (b.staged.take (Ring.takes result)) := List.forall₂_take _ h.staged
  have hnum : (b.staged.take (Ring.takes result)).map Op.number =
      List.range' taken (b.staged.take (Ring.takes result)).length := by
    rw [List.map_take, h.numbers, List.length_take, hb, Nat.min_eq_left hle]
    exact List.take_range'_of_length_ge hle
  obtain ⟨q, hq, hall⟩ := h.posted
  have hops : (b.apply (.enter (ring.enter minComplete result))).ops.length = b.ops.length := by
    simp only [Board.apply, Board.ops, hlen, List.length_append, List.length_take, List.length_drop]
    omega
  refine ⟨⟨hfits, ?_, ?_, ⟨q, honly.unreaped hq, hall⟩, ?_, ?_, ?_, ?_⟩, ?_⟩
  · rw [hstaged, Board.apply, hlen]
    exact List.forall₂_drop _ h.staged
  · simp only [Board.apply, hlen]
    exact List.rel_append h.held (numbered_works htake hnum)
  · rw [hops]
    exact h.parked
  · rw [hops, honly.geometry]
    exact h.capacity
  · simp only [Board.apply, hlen, List.map_drop, h.numbers, List.length_drop, List.drop_range']
    simp
  · simp only [Board.apply, hlen, List.length_drop]
    have := h.count
    omega
  · simp only [Board.Enabled, hlen]
    exact forall₂_imp_mem htake fun x o _ hc => hc.same

/-- While the kernel holds an operation there is a free cell for its CQE. -/
theorem room (h : InFlight frame ring held taken parked b) (hne : b.held ≠ []) :
    b.posted.length < ring.cqEntries.toNat := by
  have hpos := List.length_pos_of_ne_nil hne
  have hcap := h.capacity
  simp only [Board.ops, List.length_append, List.length_map] at hcap
  omega

/-- The kernel completes an operation it holds. -/
theorem post (h : InFlight frame ring held taken parked b) {number : ℕ} {x : Operation}
    (hx : held.find? (fun x => decide (x.number = number)) = some x) (res : CInt) (flags : U32) :
    InFlight frame (ring.post ⟨x.sqe.userData, res, flags⟩)
      (held.eraseP (fun x => decide (x.number = number))) taken parked
      (b.apply (.post number ⟨x.sqe.userData, res, flags⟩)) ∧
    b.Enabled (.post number ⟨x.sqe.userData, res, flags⟩) := by
  obtain ⟨o, ho, hwork, herase⟩ := forall₂_find? (q := fun o : Op => decide (o.number = number)) h.held
    (fun x o hw => by rw [hw.1]) hx
  have hmem := List.mem_of_find?_eq_some ho
  have hnum : o.number = number := by simpa using List.find?_some ho
  obtain ⟨y, before, after, hheld, -, hy, herase'⟩ :=
    exists_split_find? (p := fun o : Op => decide (o.number = number)) hmem (by simpa using hnum)
  obtain ⟨q, hq, hall⟩ := h.posted
  have hroom := h.room (List.ne_nil_of_mem hmem)
  rw [← hall.length_eq] at hroom
  have hops : (b.apply (.post number ⟨x.sqe.userData, res, flags⟩)).ops.length = b.ops.length := by
    simp only [Board.apply, ho, Board.ops, herase', List.length_append, List.length_map,
      List.length_cons, List.length_nil]
    rw [hheld]
    simp only [List.length_append, List.length_cons]
    omega
  refine ⟨⟨h.fits, ?_, ?_, ⟨q ++ [⟨x.sqe.userData, res, flags⟩], hq.post hroom _, ?_⟩, ?_,
    ?_, ?_, ?_⟩, ?_⟩
  · simp only [Board.apply, ho]
    exact h.staged
  · simp only [Board.apply, ho]
    exact herase
  · simp only [Board.apply, ho]
    exact forall₂_concat hall ⟨hwork.2.cookie, rfl, rfl⟩
  · rw [hops]
    exact h.parked
  · rw [hops]
    exact h.capacity
  · simp only [Board.apply, ho]
    exact h.numbers
  · simp only [Board.apply, ho]
    exact h.count
  · exact ⟨o, hmem, hnum⟩

/-- A reap that finds nothing: nothing is posted. -/
theorem reap_none (h : InFlight frame ring held taken parked b) (hr : ring.reap.1 = none) :
    b.posted = [] ∧ ring.reap = (none, ring) := by
  obtain ⟨q, hq, hall⟩ := h.posted
  cases q with
  | nil => exact ⟨List.forall₂_nil_left_iff.mp hall, hq.reap_nil⟩
  | cons c q =>
    rw [hq.reap_cons.1] at hr
    cases hr

/-- A reap takes the oldest answer. -/
theorem reap_some (h : InFlight frame ring held taken parked b) {c : Cqe} (hr : ring.reap.1 = some c) :
    ∃ r rest, b.posted = r :: rest ∧ Answered frame c r ∧
      ∀ b' : Board, b'.staged = b.staged → b'.held = b.held → b'.posted = rest → b'.count = b.count →
        InFlight frame ring.reap.2 held taken (parked - 1#32) b' := by
  obtain ⟨q, hq, hall⟩ := h.posted
  cases q with
  | nil =>
    rw [hq.reap_nil] at hr
    cases hr
  | cons c' q =>
    obtain ⟨hreap, hrest⟩ := hq.reap_cons
    rw [hreap] at hr ⊢
    cases hr
    obtain ⟨r, rest, hans, hall', hb⟩ := List.forall₂_cons_left_iff.mp hall
    refine ⟨r, rest, hb, hans, fun b' hs hh hp hc => ?_⟩
    have hlen : b.ops.length = b'.ops.length + 1 := by
      simp only [Board.ops, hs, hh, hp, hb, List.length_append, List.length_map, List.length_cons]
      omega
    have hpark := h.parked
    have hpred : (parked - 1#32).toNat = parked.toNat - 1 := toNat_pred (by omega)
    have hcap := h.capacity
    exact ⟨h.fits, hs ▸ h.staged, hh ▸ h.held, ⟨q, hrest, hp ▸ hall'⟩, by omega, by
      show b'.ops.length ≤ ring.cqEntries.toNat
      omega, hs ▸ h.numbers, by rw [hs, hc]; exact h.count⟩

end InFlight

end Libuc.Scheduler
