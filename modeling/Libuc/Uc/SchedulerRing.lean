import Libuc.Ring.Submission

/-! The ring of `uc/scheduler/ring.c`, written to replace `ring.c`. It moves the
remainder of a short submission slot by slot, by struct assignment, where `ring.c`
moves bytes with `memmove`. The two are driven through one script of calls, slot
contents, kernel answers and posted CQEs. They agree on everything a caller or the
kernel can see; bytes of the SQE array beyond the batch may differ. -/

namespace Libuc

open Lib

/-- `struct __libuc_scheduler_ring` with the memory it points to. -/
structure SchedulerRing extends Geometry where
  descriptor : CInt
  batchCount : U32
  memory : Mem
  cqHead : U32
  cqTail : U32
  cqes : ℕ → Cqe

/-- The arguments of one `io_uring_enter`, and the SQEs the kernel finds in the slots
it is asked to submit. -/
structure EnterCall where
  descriptor : CInt
  toSubmit : U32
  minComplete : U32
  flags : U32
  sig : Addr
  size : BitVec 64
  slots : List Sqe

/-- `IORING_ENTER_GETEVENTS`. -/
def enterGetevents : U32 := 1#32

namespace SchedulerRing

/-- `&ring->sqes[i]`. -/
def sqeAt (ring : SchedulerRing) (i : U32) : Addr := ring.sqes + BitVec.ofNat 64 (64 * i.toNat)

/-- `__libuc_scheduler_ring_append`. -/
def append (ring : SchedulerRing) : Option (Addr × SchedulerRing) :=
  if ring.batchCount = ring.sqEntries then none
  else
    let submission := ring.sqeAt ring.batchCount
    some (submission, { ring with
      memory := store ring.memory submission (fun _ : Fin 64 => 0#8)
      batchCount := ring.batchCount + 1#32 })

/-- The loop of `shift_unsubmitted` after `index` rounds: each is one assignment of a
whole slot. -/
def shiftLoop (ring : SchedulerRing) (submitted : U32) : ℕ → Mem
  | 0 => ring.memory
  | index + 1 =>
    let memory := shiftLoop ring submitted index
    store memory (ring.sqeAt (BitVec.ofNat 32 index))
      (block memory (ring.sqeAt (submitted + BitVec.ofNat 32 index)) 64)

/-- `shift_unsubmitted`. -/
def shiftUnsubmitted (ring : SchedulerRing) (submitted : U32) : SchedulerRing :=
  let remaining := ring.batchCount - submitted
  { ring with memory := shiftLoop ring submitted remaining.toNat, batchCount := remaining }

inductive Pass where
  | again (ring : SchedulerRing)
  | done (result : Long) (ring : SchedulerRing)

/-- The body of the loop in `__libuc_scheduler_ring_submit`, after `io_uring_enter` has
answered `result`. -/
def submitPass (ring : SchedulerRing) (result : Long) : Pass :=
  if result = Ring.eintr then .again ring
  else if syscallFailed result then .done result ring
  else
    let submitted : U32 := result.setWidth 32
    if submitted = ring.batchCount then .done result { ring with batchCount := 0#32 }
    else .again (ring.shiftUnsubmitted submitted)

/-- The SQEs in slots `0` to `batch_count - 1`. -/
def staged (ring : SchedulerRing) : List Sqe :=
  (List.range ring.batchCount.toNat).map (slot ring.memory ring.sqes 64)

/-- The call of `io_uring_enter` the loop makes. -/
def enterCall (ring : SchedulerRing) (minComplete : U32) : EnterCall :=
  ⟨ring.descriptor, ring.batchCount, minComplete, enterGetevents, 0#64, 0#64, ring.staged⟩

/-- How far `__libuc_scheduler_ring_submit` gets on a given list of answers. It is still
in its loop when `result` is absent. -/
structure Submission where
  ring : SchedulerRing
  result : Option Long
  calls : List EnterCall

/-- `__libuc_scheduler_ring_submit` against the kernel's answers. -/
def submit (ring : SchedulerRing) (minComplete : U32) : List Long → Submission
  | [] => ⟨ring, none, []⟩
  | result :: answers =>
    match submitPass ring result with
    | .done value next => ⟨next, some value, [ring.enterCall minComplete]⟩
    | .again next =>
      let rest := submit next minComplete answers
      { rest with calls := ring.enterCall minComplete :: rest.calls }

/-- `head & ring->cq_mask`. -/
def cqIndex (ring : SchedulerRing) (counter : U32) : ℕ := (counter &&& ring.cqMask).toNat

/-- `__libuc_scheduler_ring_reap`. -/
def reap (ring : SchedulerRing) : Option Cqe × SchedulerRing :=
  let head := ring.cqHead
  let tail := ring.cqTail
  if head = tail then (none, ring)
  else (some (ring.cqes (ring.cqIndex head)), { ring with cqHead := head + 1#32 })

def writeSqe (ring : SchedulerRing) (slot : Addr) (sqe : Sqe) : SchedulerRing :=
  { ring with memory := store ring.memory slot sqe }

def post (ring : SchedulerRing) (cqe : Cqe) : SchedulerRing :=
  { ring with
    cqes := Function.update ring.cqes (ring.cqIndex ring.cqTail) cqe
    cqTail := ring.cqTail + 1#32 }

end SchedulerRing

/-! ### One script for both -/

/-- A call of one of the three functions with what the kernel answers to it, a write
through a slot pointer, or a CQE posted by the kernel. -/
inductive RingOp where
  | append
  | write (slot : Addr) (sqe : Sqe)
  | submit (minComplete : U32) (answers : List Long)
  | reap
  | post (cqe : Cqe)

/-- What an operation shows: the value returned, and the calls made of the kernel. -/
inductive RingOutcome where
  | appended (slot : Option Addr)
  | submitted (result : Option Long) (calls : List EnterCall)
  | reaped (cqe : Option Cqe)
  | silent

namespace Ring

/-- The call of `io_uring_enter` the loop makes. -/
def enterCall (ring : Ring) (descriptor : CInt) (minComplete : U32) : EnterCall :=
  ⟨descriptor, ring.batchCount, minComplete, enterGetevents, 0#64, 0#64, ring.staged⟩

/-- The calls `__libuc_ring_submit` makes against the kernel's answers. -/
def submitCalls (ring : Ring) (descriptor : CInt) (minComplete : U32) : List Long → List EnterCall
  | [] => []
  | result :: answers =>
    ring.enterCall descriptor minComplete ::
      match ring.submitPass result with
      | .done _ _ => []
      | .again next => submitCalls next descriptor minComplete answers

/-- An operation on the ring of `ring.c`. -/
def perform (ring : Ring) (descriptor : CInt) : RingOp → RingOutcome × Ring
  | .append =>
    match ring.appendSqe with
    | none => (.appended none, ring)
    | some (slot, next) => (.appended (some slot), next)
  | .write slot sqe => (.silent, ring.writeSqe slot sqe)
  | .submit minComplete answers =>
    let s := ring.submit minComplete answers
    (.submitted s.result (ring.submitCalls descriptor minComplete answers), s.ring)
  | .reap => (.reaped ring.reap.1, ring.reap.2)
  | .post cqe => (.silent, ring.post cqe)

/-- A whole script, and what it shows. -/
def script (ring : Ring) (descriptor : CInt) : List RingOp → List RingOutcome × Ring
  | [] => ([], ring)
  | op :: ops =>
    let (outcome, next) := ring.perform descriptor op
    let (outcomes, last) := script next descriptor ops
    (outcome :: outcomes, last)

/-- What `io_uring_enter` may answer under `SQ_REWIND`: an error number, or how many of
the `batch` SQEs it took, none of them included. -/
def Admits (batch : ℕ) (result : Long) : Prop :=
  (-4095 ≤ result.toInt ∧ result.toInt < 0) ∨ result.toNat ≤ batch

/-- The kernel keeps to `Admits` in every round the loop makes. -/
def AdmitsAll (ring : Ring) : List Long → Prop
  | [] => True
  | result :: answers =>
    Admits ring.batchCount.toNat result ∧
      match ring.submitPass result with
      | .done _ _ => True
      | .again next => AdmitsAll next answers

def OpAdmissible (ring : Ring) : RingOp → Prop
  | .submit _ answers => ring.AdmitsAll answers
  | _ => True

def ScriptAdmissible (ring : Ring) (descriptor : CInt) : List RingOp → Prop
  | [] => True
  | op :: ops => ring.OpAdmissible op ∧ ScriptAdmissible (ring.perform descriptor op).2 descriptor ops

instance (batch : ℕ) (result : Long) : Decidable (Admits batch result) :=
  inferInstanceAs (Decidable (_ ∨ _))

instance decidableAdmitsAll (ring : Ring) : (answers : List Long) → Decidable (ring.AdmitsAll answers)
  | [] => isTrue trivial
  | result :: answers =>
    have : Decidable (match ring.submitPass result with
        | .done _ _ => True
        | .again next => AdmitsAll next answers) :=
      match ring.submitPass result with
      | .done _ _ => isTrue trivial
      | .again next => decidableAdmitsAll next answers
    inferInstanceAs (Decidable (_ ∧ _))

instance (ring : Ring) : (op : RingOp) → Decidable (ring.OpAdmissible op)
  | .submit _ answers => inferInstanceAs (Decidable (ring.AdmitsAll answers))
  | .append => isTrue trivial
  | .write _ _ => isTrue trivial
  | .reap => isTrue trivial
  | .post _ => isTrue trivial

instance decidableScriptAdmissible (ring : Ring) (descriptor : CInt) :
    (ops : List RingOp) → Decidable (ring.ScriptAdmissible descriptor ops)
  | [] => isTrue trivial
  | op :: ops =>
    have : Decidable (ScriptAdmissible (ring.perform descriptor op).2 descriptor ops) :=
      decidableScriptAdmissible _ descriptor ops
    inferInstanceAs (Decidable (_ ∧ _))

end Ring

namespace SchedulerRing

/-- An operation on the ring of `uc/scheduler/ring.c`. -/
def perform (ring : SchedulerRing) : RingOp → RingOutcome × SchedulerRing
  | .append =>
    match ring.append with
    | none => (.appended none, ring)
    | some (slot, next) => (.appended (some slot), next)
  | .write slot sqe => (.silent, ring.writeSqe slot sqe)
  | .submit minComplete answers =>
    let s := ring.submit minComplete answers
    (.submitted s.result s.calls, s.ring)
  | .reap => (.reaped ring.reap.1, ring.reap.2)
  | .post cqe => (.silent, ring.post cqe)

/-- A whole script, and what it shows. -/
def script (ring : SchedulerRing) : List RingOp → List RingOutcome × SchedulerRing
  | [] => ([], ring)
  | op :: ops =>
    let (outcome, next) := ring.perform op
    let (outcomes, last) := script next ops
    (outcome :: outcomes, last)

end SchedulerRing

/-! ### The slot loop -/

namespace SchedulerRing

theorem slots_le (ring : SchedulerRing) : 64 * ring.sqEntries.toNat ≤ 2 ^ 64 := by
  have := ring.sqes_fit
  omega

/-- After `n` rounds the first `n` slots hold what stood `submitted` slots higher, and
the slots from `n` on are untouched. -/
theorem shiftLoop_slot (ring : SchedulerRing) {submitted : U32} {n : ℕ}
    (hn : submitted.toNat + n ≤ ring.sqEntries.toNat) {i : ℕ} (hi : i < ring.sqEntries.toNat) :
    slot (ring.shiftLoop submitted n) ring.sqes 64 i =
      slot ring.memory ring.sqes 64 (if i < n then submitted.toNat + i else i) := by
  have hlt := ring.sqEntries.isLt
  induction n generalizing i with
  | zero => simp [shiftLoop]
  | succ n ih =>
    have hto : (BitVec.ofNat 32 n).toNat = n := by
      rw [BitVec.toNat_ofNat, Nat.mod_eq_of_lt (by omega)]
    have hfrom : (submitted + BitVec.ofNat 32 n).toNat = submitted.toNat + n := by
      rw [BitVec.toNat_add, hto, Nat.mod_eq_of_lt (by omega)]
    -- the source slot of this round has not been overwritten yet
    have hread : block (ring.shiftLoop submitted n) (ring.sqeAt (submitted + BitVec.ofNat 32 n)) 64 =
        slot ring.memory ring.sqes 64 (submitted.toNat + n) := by
      have h := ih (by omega) (show submitted.toNat + n < ring.sqEntries.toNat by omega)
      rw [if_neg (by omega)] at h
      rw [sqeAt, hfrom]
      exact h
    simp only [shiftLoop, hread]
    rw [sqeAt, hto]
    by_cases he : i = n
    · subst he
      rw [slot_store_self _ _ ring.slots_le hi, if_pos (Nat.lt_succ_self i)]
    · rw [slot_store_ne _ _ ring.slots_le (show n < ring.sqEntries.toNat by omega) hi he,
        ih (by omega) hi]
      have hiff : i < n ↔ i < n + 1 := by omega
      simp only [hiff]

@[simp] theorem staged_length (ring : SchedulerRing) : ring.staged.length = ring.batchCount.toNat := by
  simp [staged]

theorem staged_getElem (ring : SchedulerRing) {i : ℕ} (hi : i < ring.staged.length) :
    ring.staged[i] = slot ring.memory ring.sqes 64 i := by
  simp [staged]

/-- `shift_unsubmitted` drops the SQEs that were submitted. -/
theorem staged_shiftUnsubmitted (ring : SchedulerRing) {submitted : U32}
    (hf : ring.batchCount.toNat ≤ ring.sqEntries.toNat)
    (hle : submitted.toNat ≤ ring.batchCount.toNat) :
    (ring.shiftUnsubmitted submitted).staged = ring.staged.drop submitted.toNat := by
  have hrest : (ring.batchCount - submitted).toNat = ring.batchCount.toNat - submitted.toNat :=
    BitVec.toNat_sub_of_le (BitVec.le_def.mpr hle)
  apply List.ext_getElem
  · simp [shiftUnsubmitted, hrest]
  · intro i h₁ h₂
    simp only [staged_length, shiftUnsubmitted, hrest] at h₁
    rw [staged_getElem, List.getElem_drop, staged_getElem]
    simp only [shiftUnsubmitted, hrest]
    rw [shiftLoop_slot ring (by omega) (by omega), if_pos h₁]

end SchedulerRing

/-! ### Agreement -/

namespace Ring

/-- The two rings show the same: their live slots agree, the bytes beyond may not. -/
structure Agree (ring : Ring) (descriptor : CInt) (other : SchedulerRing) : Prop where
  geometry : other.toGeometry = ring.toGeometry
  descriptor : other.descriptor = descriptor
  batchCount : other.batchCount = ring.batchCount
  staged : other.staged = ring.staged
  cqHead : other.cqHead = ring.cqHead
  cqTail : other.cqTail = ring.cqTail
  cqes : other.cqes = ring.cqes

variable {ring : Ring} {descriptor : CInt} {other : SchedulerRing}

theorem Agree.sqeAt (h : ring.Agree descriptor other) (i : U32) : other.sqeAt i = ring.sqeAt i := by
  rw [SchedulerRing.sqeAt, Ring.sqeAt, h.geometry]

theorem Agree.enterCall (h : ring.Agree descriptor other) (minComplete : U32) :
    other.enterCall minComplete = ring.enterCall descriptor minComplete := by
  rw [SchedulerRing.enterCall, Ring.enterCall, h.descriptor, h.batchCount, h.staged]

theorem Agree.slot (h : ring.Agree descriptor other) {i : ℕ} (hi : i < ring.batchCount.toNat) :
    Lib.slot other.memory ring.sqes 64 i = Lib.slot ring.memory ring.sqes 64 i := by
  have hb : i < other.staged.length := by simpa [h.batchCount] using hi
  have hget := List.getElem_of_eq h.staged hb
  rw [SchedulerRing.staged_getElem, staged_getElem, h.geometry] at hget
  exact hget

/-- The same bytes written anywhere keep equal slots equal. -/
theorem slot_store_congr {m m' : Mem} {a : Addr} {i : ℕ} (h : Lib.slot m' a 64 i = Lib.slot m a 64 i)
    (at' : Addr) (sqe : Sqe) :
    Lib.slot (store m' at' sqe) a 64 i = Lib.slot (store m at' sqe) a 64 i := by
  funext j
  have hj := congrFun h j
  rw [slot_apply, slot_apply] at hj ⊢
  simp only [store, hj]

theorem Agree.writeSqe (h : ring.Agree descriptor other) (slot : Addr) (sqe : Sqe) :
    (ring.writeSqe slot sqe).Agree descriptor (other.writeSqe slot sqe) := by
  refine ⟨h.geometry, h.descriptor, h.batchCount, ?_, h.cqHead, h.cqTail, h.cqes⟩
  apply List.ext_getElem
  · simp [SchedulerRing.writeSqe, Ring.writeSqe, h.batchCount]
  · intro i h₁ h₂
    simp only [staged_length, Ring.writeSqe] at h₂
    rw [SchedulerRing.staged_getElem, staged_getElem]
    simp only [SchedulerRing.writeSqe, Ring.writeSqe, h.geometry]
    exact slot_store_congr (h.slot h₂) slot sqe

theorem Agree.append (h : ring.Agree descriptor other) (hf : ring.BatchFits) :
    (ring.appendSqe = none ∧ other.append = none) ∨
      ∃ slot next next', ring.appendSqe = some (slot, next) ∧ other.append = some (slot, next') ∧
        next.Agree descriptor next' ∧ next.BatchFits := by
  have hfull : other.batchCount = other.sqEntries ↔ ring.batchCount = ring.sqEntries := by
    rw [h.batchCount, h.geometry]
  by_cases he : ring.batchCount = ring.sqEntries
  · exact .inl ⟨if_pos he, if_pos (hfull.mpr he)⟩
  · have hlt : ring.batchCount.toNat < ring.sqEntries.toNat :=
      lt_of_le_of_ne hf fun hn => he (BitVec.eq_of_toNat_eq hn)
    have hcount : (ring.batchCount + 1#32).toNat = ring.batchCount.toNat + 1 :=
      toNat_succ (by have := ring.sqEntries.isLt; omega)
    have hat : other.sqeAt other.batchCount = ring.sqeAt ring.batchCount := by
      rw [h.batchCount, h.sqeAt]
    refine .inr ⟨_, _, _, if_neg he, (if_neg (hfull.not.mpr he)).trans (by rw [hat]), ?_, ?_⟩
    · refine ⟨h.geometry, h.descriptor, by simp only [h.batchCount], ?_, h.cqHead, h.cqTail, h.cqes⟩
      apply List.ext_getElem
      · simp [h.batchCount]
      · intro i h₁ h₂
        simp only [staged_length, hcount] at h₂
        rw [SchedulerRing.staged_getElem, staged_getElem]
        simp only [h.geometry]
        by_cases hi : i < ring.batchCount.toNat
        · exact slot_store_congr (h.slot hi) _ _
        · -- the new slot holds zeros in both
          have hlast : i = ring.batchCount.toNat := by omega
          rw [hlast, Ring.sqeAt, slot_store_self _ _ ring.slots_le hlt,
            slot_store_self _ _ ring.slots_le hlt]
    · simp only [BatchFits, hcount]
      omega

theorem Agree.reap (h : ring.Agree descriptor other) :
    other.reap.1 = ring.reap.1 ∧ ring.reap.2.Agree descriptor other.reap.2 ∧
      (ring.BatchFits → ring.reap.2.BatchFits) := by
  have hindex : ∀ counter, other.cqIndex counter = ring.cqIndex counter := by
    intro counter
    rw [SchedulerRing.cqIndex, Ring.cqIndex, h.geometry]
  simp only [SchedulerRing.reap, Ring.reap, h.cqHead, h.cqTail, h.cqes, hindex]
  split_ifs with he
  · exact ⟨rfl, h, id⟩
  · exact ⟨rfl, ⟨h.geometry, h.descriptor, h.batchCount, h.staged, rfl, rfl, rfl⟩, id⟩

theorem Agree.post (h : ring.Agree descriptor other) (cqe : Cqe) :
    (ring.post cqe).Agree descriptor (other.post cqe) := by
  refine ⟨h.geometry, h.descriptor, h.batchCount, h.staged, h.cqHead, ?_, ?_⟩
  · simp only [SchedulerRing.post, Ring.post, h.cqTail]
  · simp only [SchedulerRing.post, Ring.post, h.cqes, h.cqTail, SchedulerRing.cqIndex,
      Ring.cqIndex, h.geometry]

/-! ### The submit loops side by side -/

/-- One round: both stop with the same value, or both go on. -/
theorem Agree.submitPass (h : ring.Agree descriptor other) (hf : ring.BatchFits) {result : Long}
    (ha : Admits ring.batchCount.toNat result) :
    (∃ next next', ring.submitPass result = .done result next ∧
      other.submitPass result = .done result next' ∧
      next.Agree descriptor next' ∧ next.BatchFits) ∨
    (∃ next next', ring.submitPass result = .again next ∧ other.submitPass result = .again next' ∧
      next.Agree descriptor next' ∧ next.BatchFits) := by
  by_cases hi : result = eintr
  · refine .inr ⟨ring, other, ?_, ?_, h, hf⟩
    · simp only [Ring.submitPass, hi, ↓reduceIte]
    · simp only [SchedulerRing.submitPass, hi, ↓reduceIte]
  by_cases hfail : syscallFailed result = true
  · refine .inl ⟨ring, other, ?_, ?_, h, hf⟩
    · simp only [Ring.submitPass, hi, hfail, ↓reduceIte]
    · simp only [SchedulerRing.submitPass, hi, hfail, ↓reduceIte]
  have hok : syscallFailed result = false := by simpa using hfail
  have hle : result.toNat ≤ ring.batchCount.toNat := by
    rcases ha with ⟨h1, h2⟩ | h1
    · simp [syscallFailed, h1, h2] at hok
    · exact h1
  have hbatch := ring.batchCount.isLt
  have hsub : (result.setWidth 32).toNat = result.toNat := by
    rw [BitVec.toNat_setWidth, Nat.mod_eq_of_lt (by omega)]
  by_cases hall : result.setWidth 32 = ring.batchCount
  · refine .inl ⟨{ ring with batchCount := 0#32 }, { other with batchCount := 0#32 }, ?_, ?_, ?_,
      Nat.zero_le _⟩
    · simp only [Ring.submitPass, hi, hok, hall, ↓reduceIte, Bool.false_eq_true]
    · simp only [SchedulerRing.submitPass, hi, hok, hall, h.batchCount, ↓reduceIte, Bool.false_eq_true]
    · exact ⟨h.geometry, h.descriptor, rfl, by simp [SchedulerRing.staged, Ring.staged], h.cqHead,
        h.cqTail, h.cqes⟩
  · have hlt : result.toNat < ring.batchCount.toNat :=
      lt_of_le_of_ne hle fun he => hall (BitVec.eq_of_toNat_eq (hsub.trans he))
    obtain ⟨next, hp, hnf, hs, hcount, -, hd⟩ := submitPass_short hf hok hlt
    refine .inr ⟨next, other.shiftUnsubmitted (result.setWidth 32), hp, ?_, ?_, hnf⟩
    · simp only [SchedulerRing.submitPass, hi, hok, hall, h.batchCount, ↓reduceIte, Bool.false_eq_true]
    · refine ⟨h.geometry.trans hs.geometry.symm, h.descriptor, ?_, ?_, h.cqHead.trans hs.cqHead.symm,
        h.cqTail.trans hs.cqTail.symm, h.cqes.trans hs.cqes.symm⟩
      · rw [hcount, ← h.batchCount]
        rfl
      · have hfits : other.batchCount.toNat ≤ other.sqEntries.toNat := by
          rw [h.batchCount, h.geometry]
          exact hf
        rw [SchedulerRing.staged_shiftUnsubmitted other hfits (by rw [h.batchCount]; omega),
          h.staged, hd, hsub]

/-- The whole loop: the same calls, the same result, and rings that agree. -/
theorem Agree.submit (minComplete : U32) (answers : List Long) (h : ring.Agree descriptor other)
    (hf : ring.BatchFits) (ha : ring.AdmitsAll answers) :
    (other.submit minComplete answers).result = (ring.submit minComplete answers).result ∧
      (other.submit minComplete answers).calls = ring.submitCalls descriptor minComplete answers ∧
      (ring.submit minComplete answers).ring.Agree descriptor (other.submit minComplete answers).ring ∧
      (ring.submit minComplete answers).ring.BatchFits := by
  induction answers generalizing ring other with
  | nil => exact ⟨rfl, rfl, h, hf⟩
  | cons result answers ih =>
    obtain ⟨ha₁, ha₂⟩ := ha
    simp only [SchedulerRing.submit, Ring.submit, submitCalls, h.enterCall]
    rcases h.submitPass hf ha₁ with ⟨next, next', hp, hp', hn, hnf⟩ | ⟨next, next', hp, hp', hn, hnf⟩
    · rw [hp, hp']
      exact ⟨rfl, rfl, hn, hnf⟩
    · rw [hp] at ha₂
      rw [hp, hp']
      obtain ⟨hr, hc, hl, hlf⟩ := ih hn hnf ha₂
      exact ⟨hr, by simp only [hc], hl, hlf⟩

/-! ### Scripts -/

/-- One operation shows the same on both rings and keeps them in agreement. -/
theorem Agree.perform (h : ring.Agree descriptor other) (hf : ring.BatchFits) (op : RingOp)
    (ha : ring.OpAdmissible op) :
    (other.perform op).1 = (ring.perform descriptor op).1 ∧
      (ring.perform descriptor op).2.Agree descriptor (other.perform op).2 ∧
      (ring.perform descriptor op).2.BatchFits := by
  cases op with
  | append =>
    rcases h.append hf with ⟨hn, hn'⟩ | ⟨slot, next, next', hs, hs', hagree, hfits⟩
    · simp only [Ring.perform, SchedulerRing.perform, hn, hn']
      exact ⟨trivial, h, hf⟩
    · simp only [Ring.perform, SchedulerRing.perform, hs, hs']
      exact ⟨trivial, hagree, hfits⟩
  | write slot sqe => exact ⟨rfl, h.writeSqe slot sqe, hf⟩
  | submit minComplete answers =>
    obtain ⟨hr, hc, hagree, hfits⟩ := h.submit minComplete answers hf ha
    simp only [Ring.perform, SchedulerRing.perform, hr, hc]
    exact ⟨trivial, hagree, hfits⟩
  | reap =>
    obtain ⟨hr, hagree, hfits⟩ := h.reap
    simp only [Ring.perform, SchedulerRing.perform, hr]
    exact ⟨trivial, hagree, hfits hf⟩
  | post cqe => exact ⟨rfl, h.post cqe, hf⟩

theorem Agree.script (ops : List RingOp) (h : ring.Agree descriptor other) (hf : ring.BatchFits)
    (ha : ring.ScriptAdmissible descriptor ops) :
    (other.script ops).1 = (ring.script descriptor ops).1 ∧
      (ring.script descriptor ops).2.Agree descriptor (other.script ops).2 := by
  induction ops generalizing ring other with
  | nil => exact ⟨rfl, h⟩
  | cons op ops ih =>
    obtain ⟨ha₁, ha₂⟩ := ha
    obtain ⟨ho, hn, hnf⟩ := h.perform hf op ha₁
    obtain ⟨hos, hl⟩ := ih hn hnf ha₂
    exact ⟨by simp only [SchedulerRing.script, Ring.script, ho, hos], hl⟩

/-- The two rings are interchangeable. From equal geometry, descriptor, batch, live
slots and completion queue, and under every admissible script, both make the same
`io_uring_enter` calls with the same SQEs in the submitted slots and return the same
values; they end with the same batch, live slots and completion queue head. -/
theorem scheduler_ring_agrees (ring : Ring) (descriptor : CInt) (other : SchedulerRing)
    (ops : List RingOp) (hf : ring.BatchFits) (hstart : ring.Agree descriptor other)
    (ha : ring.ScriptAdmissible descriptor ops) :
    (other.script ops).1 = (ring.script descriptor ops).1 ∧
      (other.script ops).2.batchCount = (ring.script descriptor ops).2.batchCount ∧
      (∀ i < (ring.script descriptor ops).2.batchCount.toNat,
        Lib.slot (other.script ops).2.memory (other.script ops).2.sqes 64 i =
          Lib.slot (ring.script descriptor ops).2.memory (ring.script descriptor ops).2.sqes 64 i) ∧
      (other.script ops).2.cqHead = (ring.script descriptor ops).2.cqHead := by
  obtain ⟨ho, hl⟩ := hstart.script ops hf ha
  refine ⟨ho, hl.batchCount, fun i hi => ?_, hl.cqHead⟩
  rw [hl.geometry]
  exact hl.slot hi

/-- A batch of two goes in by an interruption and two short counts, from SQE arrays
whose free slots differ. -/
theorem scheduler_ring_agrees_short :
    let ring := created .small (fun _ => 0#8) 0#32 (fun _ => ⟨0#64, 0#32, 0#32⟩)
    let other : SchedulerRing :=
      { Geometry.small with descriptor := 3#32, batchCount := 0#32, memory := fun _ => 7#8, cqHead := 0#32,
                            cqTail := 0#32, cqes := fun _ => ⟨0#64, 0#32, 0#32⟩ }
    let ops := [.append, .append, .write (ring.sqeAt 1#32) (fun _ => 9#8),
        .submit 1#32 [eintr, 1#64, 1#64],
      .post ⟨5#64, 0#32, 0#32⟩, .reap]
    (other.script ops).1 = (ring.script 3#32 ops).1 ∧ (ring.script 3#32 ops).2.batchCount = 0#32 :=
  ⟨(scheduler_ring_agrees _ 3#32 _ _ (Nat.zero_le _) ⟨rfl, rfl, rfl, rfl, rfl, rfl, rfl⟩
    (by decide +kernel)).1, by decide +kernel⟩

end Ring

end Libuc
