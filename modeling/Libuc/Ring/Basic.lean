import Libuc.Lib.CircularBuffer
import Libuc.Lib.LittleEndian
import Libuc.String.Basic

/-! The `io_uring` instance of `ring.c`. The SQE array is raw memory: a slot is
64 bytes, and the remainder of a short submission is moved down by `memmove`.
Under `SQ_REWIND` the kernel reads a batch from slot zero, so the batch is the
first `batch_count` slots. The completion queue is an array of CQEs under two
free-running 32-bit counters; the kernel writes the tail, libuc the head. The
atomics are single loads and stores here: calls do not interleave. -/

namespace Libuc

open Lib

/-- `struct io_uring_sqe`, 64 bytes. -/
abbrev Sqe := Fin 64 → Byte

/-- `struct io_uring_cqe`. -/
structure Cqe where
  userData : BitVec 64
  res : CInt
  flags : U32
  deriving BEq, ReflBEq, LawfulBEq

namespace Sqe

/-- The IOSQE flags, byte 1. -/
def flags (sqe : Sqe) : Byte := sqe 1

/-- The cookie the CQE carries back, bytes 32 to 39. -/
def userData (sqe : Sqe) : BitVec 64 := BitVec.ofNat 64 (field sqe 32 8)

def setUserData (sqe : Sqe) (v : BitVec 64) : Sqe := setField sqe 32 8 v.toNat

@[simp] theorem userData_setUserData (sqe : Sqe) (v : BitVec 64) :
    (sqe.setUserData v).userData = v := by
  have hv : v.toNat < 256 ^ 8 := lt_of_lt_of_eq v.isLt (by norm_num)
  rw [userData, setUserData, field_setField sqe (by norm_num) hv, BitVec.ofNat_toNat,
    BitVec.setWidth_eq]

/-- Every other byte of the SQE is kept. -/
theorem setUserData_outside (sqe : Sqe) (v : BitVec 64) {j : Fin 64}
    (hj : (j : ℕ) < 32 ∨ 40 ≤ (j : ℕ)) : sqe.setUserData v j = sqe j :=
  setField_outside sqe 32 8 v.toNat hj

end Sqe

/-- What a successful `__libuc_ring_create` fixes for good: the two arrays and
their sizes. The kernel's mapping does not wrap, the mask has been compared with
the size, and the kernel rounds the completion queue to a power of two. -/
structure Geometry where
  sqes : Addr
  sqEntries : U32
  cqEntries : U32
  cqMask : U32
  cqShift : ℕ
  sqes_fit : sqes.toNat + 64 * sqEntries.toNat ≤ 2 ^ 64
  cqMask_eq : cqMask = cqEntries - 1#32
  cqEntries_eq : cqEntries.toNat = 2 ^ cqShift

def Geometry.small : Geometry where
  sqes := 0x1000#64
  sqEntries := 2#32
  cqEntries := 4#32
  cqMask := 3#32
  cqShift := 2
  sqes_fit := by decide
  cqMask_eq := by decide
  cqEntries_eq := by decide

/-- `struct __libuc_ring` with the memory it points to. -/
structure Ring extends Geometry where
  batchCount : U32
  memory : Mem
  cqHead : U32
  cqTail : U32
  cqes : ℕ → Cqe

namespace Ring

/-- The ring `__libuc_ring_create` leaves behind, whatever the mapped memory
holds and wherever the kernel's equal counters stand. -/
def created (g : Geometry) (memory : Mem) (counter : U32) (cqes : ℕ → Cqe) : Ring :=
  { g with batchCount := 0#32, memory := memory, cqHead := counter, cqTail := counter, cqes := cqes }

/-- `&ring->sqes[i]`. -/
def sqeAt (ring : Ring) (i : U32) : Addr := ring.sqes + BitVec.ofNat 64 (64 * i.toNat)

/-! ### Submission -/

/-- `__libuc_ring_append_sqe`: the next slot, zeroed, or null when the batch
fills the queue. -/
def appendSqe (ring : Ring) : Option (Addr × Ring) :=
  if ring.batchCount = ring.sqEntries then none
  else
    let sqe := ring.sqeAt ring.batchCount
    some (sqe, { ring with
      memory := store ring.memory sqe (fun _ : Fin 64 => 0#8)
      batchCount := ring.batchCount + 1#32 })

/-- The caller's assignment `*slot = sqe`. -/
def writeSqe (ring : Ring) (slot : Addr) (sqe : Sqe) : Ring :=
  { ring with memory := store ring.memory slot sqe }

/-- The SQEs written since the last enter, in slot order. -/
def staged (ring : Ring) : List Sqe :=
  (List.range ring.batchCount.toNat).map (slot ring.memory ring.sqes 64)

/-- `-EINTR`. -/
def eintr : Long := BitVec.ofInt 64 (-4)

inductive Pass where
  | again (ring : Ring)
  | done (result : Long) (ring : Ring)

/-- The body of the loop in `__libuc_ring_submit`, after `io_uring_enter` has
answered `result`. -/
def submitPass (ring : Ring) (result : Long) : Pass :=
  if result = eintr then .again ring
  else if syscallFailed result then .done result ring
  else
    let submitted : U32 := result.setWidth 32
    if submitted = ring.batchCount then .done result { ring with batchCount := 0#32 }
    else
      let length := (ring.batchCount - submitted).setWidth 64 * 64#64
      .again { ring with
        memory := (String.memmove ring.memory ring.sqes (ring.sqeAt submitted) length).1
        batchCount := ring.batchCount - submitted }

/-- One call of `io_uring_enter`: its arguments, its result, and the SQEs the
kernel took. -/
structure Enter where
  toSubmit : U32
  minComplete : U32
  result : Long
  taken : List Sqe
  deriving BEq, ReflBEq, LawfulBEq

/-- How many slots an answer consumes, from slot zero on. -/
def takes (result : Long) : ℕ := if result.toInt < 0 then 0 else result.toNat

/-- What `io_uring_enter` may answer when it is asked to submit `batch` SQEs. A
negative answer is an error number; a batch that is not empty is never answered
by zero. -/
def Answers (batch : ℕ) (result : Long) : Prop :=
  (-4095 ≤ result.toInt ∧ result.toInt < 0) ∨
    (result.toNat ≤ batch ∧ (0 < batch → 0 < result.toNat))

/-- The call the loop makes on `ring`, when the kernel answers `result`. -/
def enter (ring : Ring) (minComplete : U32) (result : Long) : Enter :=
  ⟨ring.batchCount, minComplete, result, (staged ring).take (takes result)⟩

/-- How far `__libuc_ring_submit` gets on a given list of answers. It is still
in its loop when `result` is absent. -/
structure Submission where
  ring : Ring
  result : Option Long
  enters : List Enter

/-- `__libuc_ring_submit` against the kernel's answers. -/
def submit (ring : Ring) (minComplete : U32) : List Long → Submission
  | [] => ⟨ring, none, []⟩
  | result :: answers =>
    match submitPass ring result with
    | .done value next => ⟨next, some value, [enter ring minComplete result]⟩
    | .again next =>
      let rest := submit next minComplete answers
      { rest with enters := enter ring minComplete result :: rest.enters }

/-- The kernel keeps to `Answers` in every round the loop makes. -/
def Admissible (ring : Ring) : List Long → Prop
  | [] => True
  | result :: answers =>
    Answers ring.batchCount.toNat result ∧
      match submitPass ring result with
      | .done _ _ => True
      | .again next => Admissible next answers

/-! ### Completion -/

/-- `head & ring->cq_mask`, the subscript of the CQE array. -/
def cqIndex (ring : Ring) (counter : U32) : ℕ := (counter &&& ring.cqMask).toNat

/-- `__libuc_ring_reap`: the CQE it stores, none when it returns false, and the
ring afterwards. -/
def reap (ring : Ring) : Option Cqe × Ring :=
  let head := ring.cqHead
  let tail := ring.cqTail
  if head = tail then (none, ring)
  else (some (ring.cqes (ring.cqIndex head)), { ring with cqHead := head + 1#32 })

def post (ring : Ring) (cqe : Cqe) : Ring :=
  { ring with
    cqes := Function.update ring.cqes (ring.cqIndex ring.cqTail) cqe
    cqTail := ring.cqTail + 1#32 }

/-- The CQEs posted and not yet reaped, oldest first. -/
abbrev Unreaped (ring : Ring) (q : List Cqe) : Prop :=
  CircularBuffer.Holds ring.cqShift ring.cqes ring.cqHead ring.cqTail q

end Ring

end Libuc
