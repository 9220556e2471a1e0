import Libuc.Fiber.Basic

/-! The calls of libc that go through the ring: each fills in an SQE, awaits it, and turns
the result of the CQE into a return value and `errno`. `read` and `write` first refuse a
count that is negative as an `ssize_t`; then nothing is submitted. -/

namespace Libuc

open Lib

/-- An SQE of which only these fields are set. `off` and `addr2` share their place, and so
do the flags of the several opcodes. -/
def Sqe.make (opcode : Byte) (fd : CInt) (off addr : BitVec 64) (len opFlags : U32) : Sqe :=
  let sqe : Sqe := fun _ => 0#8
  let sqe := setField sqe 0 1 opcode.toNat
  let sqe := setField sqe 4 4 fd.toNat
  let sqe := setField sqe 8 8 off.toNat
  let sqe := setField sqe 16 8 addr.toNat
  let sqe := setField sqe 24 4 len.toNat
  setField sqe 28 4 opFlags.toNat

def Sqe.len (sqe : Sqe) : U32 := BitVec.ofNat 32 (field sqe 24 4)

/-- `__libuc_rw_len`. -/
def rwLen (count : BitVec 64) : U32 :=
  let limit := 0x7fffffff#64
  (if limit.toNat < count.toNat then limit else count).setWidth 32

inductive LibcCall where
  | read (fd : CInt) (buf : Addr) (count : BitVec 64)
  | write (fd : CInt) (buf : Addr) (count : BitVec 64)
  | close (fd : CInt)
  | pipe2 (fds : Addr) (flags : CInt)
  | socket (domain type protocol : CInt)
  | bind (fd : CInt) (addr : Addr) (len : U32)
  | listen (fd backlog : CInt)
  | accept (fd : CInt) (addr len : Addr)
  | connect (fd : CInt) (addr : Addr) (len : U32)

namespace LibcCall

/-- `pipe`. -/
def pipe (fds : Addr) : LibcCall := .pipe2 fds 0#32

/-- What `read` and `write` submit, unless they refuse the count. -/
def rwSubmission (opcode : Byte) (fd : CInt) (buf : Addr) (count : BitVec 64) : Option Sqe :=
  if count.toInt < 0 then none else some (.make opcode fd (BitVec.allOnes 64) buf (rwLen count) 0#32)

/-- The SQE that the call awaits; none when it fails with `EINVAL` before that. -/
def submission : LibcCall → Option Sqe
  | .read fd buf count => rwSubmission 22#8 fd buf count
  | .write fd buf count => rwSubmission 23#8 fd buf count
  | .close fd => some (.make 19#8 fd 0#64 0#64 0#32 0#32)
  | .pipe2 fds flags => some (.make 62#8 0#32 0#64 fds 0#32 flags)
  | .socket domain type protocol => some (.make 45#8 domain (type.setWidth 64) 0#64 protocol 0#32)
  | .bind fd addr len => some (.make 56#8 fd (len.setWidth 64) addr 0#32 0#32)
  | .listen fd backlog => some (.make 57#8 fd 0#64 0#64 backlog 0#32)
  | .accept fd addr len => some (.make 13#8 fd len addr 0#32 0#32)
  | .connect fd addr len => some (.make 16#8 fd (len.setWidth 64) addr 0#32 0#32)

/-- The conversion of the result on return: `read` and `write` return a `long`, the others
an `int`. -/
def convert : LibcCall → Long → Long
  | .read _ _ _, result => result
  | .write _ _ _, result => result
  | _, result => toLong (toInt result)

end LibcCall

/-- `EINVAL`. -/
def einval : CInt := 22#32

/-- `-1` as a `long`. -/
def minusOne : Long := BitVec.ofInt 64 (-1)

/-- `__libuc_errno_result`: what it returns, and `errno` afterwards. -/
def errnoResult (res : Long) (errno : CInt) : Long × CInt :=
  if res.toInt < 0 then (minusOne, toInt (-res)) else (res, errno)

/-! ### The SQE -/

structure Sqe.Reads (sqe : Sqe) (opcode : Byte) (fd : CInt) (off addr : BitVec 64)
    (len opFlags : U32) : Prop where
  opcode : field sqe 0 1 = opcode.toNat
  flags : sqe.flags = 0#8
  fd : field sqe 4 4 = fd.toNat
  off : field sqe 8 8 = off.toNat
  addr : field sqe 16 8 = addr.toNat
  len : sqe.len = len
  opFlags : field sqe 28 4 = opFlags.toNat

theorem Sqe.make_reads (opcode : Byte) (fd : CInt) (off addr : BitVec 64) (len opFlags : U32) :
    (Sqe.make opcode fd off addr len opFlags).Reads opcode fd off addr len opFlags := by
  have hbyte : opcode.toNat < 256 ^ 1 := lt_of_lt_of_eq opcode.isLt (by norm_num)
  have hword : ∀ x : U32, x.toNat < 256 ^ 4 := fun x => lt_of_lt_of_eq x.isLt (by norm_num)
  have hlong : ∀ x : BitVec 64, x.toNat < 256 ^ 8 := fun x => lt_of_lt_of_eq x.isLt (by norm_num)
  have hone : ((1 : Fin 64) : ℕ) = 1 := rfl
  simp only [Sqe.make]
  constructor
  · simp (disch := omega) only [field_setField_ne]
    rw [field_setField _ (by norm_num) hbyte]
  · simp only [Sqe.flags]
    simp (disch := omega) only [setField_outside]
  · simp (disch := omega) only [field_setField_ne]
    rw [field_setField _ (by norm_num) (hword fd)]
  · simp (disch := omega) only [field_setField_ne]
    rw [field_setField _ (by norm_num) (hlong off)]
  · simp (disch := omega) only [field_setField_ne]
    rw [field_setField _ (by norm_num) (hlong addr)]
  · simp (disch := omega) only [Sqe.len, field_setField_ne]
    rw [field_setField _ (by norm_num) (hword len), BitVec.ofNat_toNat, BitVec.setWidth_eq]
  · rw [field_setField _ (by norm_num) (hword opFlags)]

/-! ### Counts -/

/-- What each call puts into its SQE. -/
def LibcCall.Submits (sqe : Sqe) : LibcCall → Prop
  | .read fd buf count => sqe.Reads 22#8 fd (BitVec.allOnes 64) buf (rwLen count) 0#32
  | .write fd buf count => sqe.Reads 23#8 fd (BitVec.allOnes 64) buf (rwLen count) 0#32
  | .close fd => sqe.Reads 19#8 fd 0#64 0#64 0#32 0#32
  | .pipe2 fds flags => sqe.Reads 62#8 0#32 0#64 fds 0#32 flags
  | .socket domain type protocol => sqe.Reads 45#8 domain (type.setWidth 64) 0#64 protocol 0#32
  | .bind fd addr len => sqe.Reads 56#8 fd (len.setWidth 64) addr 0#32 0#32
  | .listen fd backlog => sqe.Reads 57#8 fd 0#64 0#64 backlog 0#32
  | .accept fd addr len => sqe.Reads 13#8 fd len addr 0#32 0#32
  | .connect fd addr len => sqe.Reads 16#8 fd (len.setWidth 64) addr 0#32 0#32

theorem LibcCall.submits {c : LibcCall} {sqe : Sqe} (h : c.submission = some sqe) : c.Submits sqe := by
  have hrw : ∀ opcode fd buf count, rwSubmission opcode fd buf count = some sqe →
      sqe.Reads opcode fd (BitVec.allOnes 64) buf (rwLen count) 0#32 := by
    intro opcode fd buf count hrw
    unfold rwSubmission at hrw
    split_ifs at hrw
    rw [← Option.some.inj hrw]
    exact Sqe.make_reads _ _ _ _ _ _
  cases c with
  | read fd buf count => exact hrw _ _ _ _ h
  | write fd buf count => exact hrw _ _ _ _ h
  | _ =>
    rw [← Option.some.inj h]
    exact Sqe.make_reads _ _ _ _ _ _

/-- No call sets an IOSQE flag. -/
theorem LibcCall.submission_flags {c : LibcCall} {sqe : Sqe} (h : c.submission = some sqe) :
    sqe.flags = 0#8 := by
  have hsubmits := LibcCall.submits h
  cases c <;> exact hsubmits.flags

/-! ### Results -/

theorem toLong_toInt (res : CInt) : (toLong res).toInt = res.toInt :=
  BitVec.toInt_signExtend_of_le (by norm_num)

/-- A result that is not negative is returned as it is, whatever the type of the call. -/
theorem errnoResult_of_nonneg (c : LibcCall) {res : CInt} (h : 0 ≤ res.toInt) (errno : CInt) :
    c.convert (errnoResult (toLong res) errno).1 = toLong res ∧
    (errnoResult (toLong res) errno).2 = errno := by
  have hres : ¬(toLong res).toInt < 0 := by
    rw [toLong_toInt]
    omega
  rw [errnoResult, if_neg hres]
  refine ⟨?_, rfl⟩
  cases c <;> simp only [LibcCall.convert, toInt_toLong]

/-- A negative one gives `-1`, and its negation is `errno`. -/
theorem errnoResult_of_neg (c : LibcCall) {res : CInt} (h : res.toInt < 0) (errno : CInt) :
    c.convert (errnoResult (toLong res) errno).1 = minusOne ∧
    (errnoResult (toLong res) errno).2 = -res := by
  have hres : (toLong res).toInt < 0 := by
    rw [toLong_toInt]
    exact h
  have hneg : toInt (-toLong res) = -res := by
    rw [toInt, BitVec.setWidth_neg_of_le (by norm_num)]
    exact congrArg (- ·) (toInt_toLong res)
  have hone : toLong (toInt minusOne) = minusOne := by decide
  rw [errnoResult, if_pos hres, hneg]
  refine ⟨?_, rfl⟩
  cases c <;> simp only [LibcCall.convert, hone]

theorem neg_toInt {res : CInt} (h : -4095 ≤ res.toInt) : (-res).toInt = -res.toInt := by
  have hlt := BitVec.toInt_lt (x := res)
  rw [BitVec.toInt_neg, Int.bmod_eq_of_le (by omega) (by omega)]

end Libuc
