import Libuc.Machine

/-! `memset` and `memcpy` take the bytes in ascending order; `memmove` compares the two
addresses and copies bytes upwards when the destination is the lower one, downwards
otherwise. Either of its loops places the whole source range, however the ranges overlap;
the ranges of `memcpy` are `restrict` and may not meet. -/

namespace Libuc.String

open Lib

/-- `memset`, with the pointer it returns. -/
def memset (m : Mem) (dst : Addr) (value : CInt) (n : BitVec 64) : Mem × Addr :=
  (fillUp m dst (value.setWidth 8) n.toNat, dst)

/-- `memcpy` of ranges that do not meet, with the pointer it returns. -/
def memcpy (m : Mem) (dst src : Addr) (n : BitVec 64) : Mem × Addr := (copyUp m dst src n.toNat, dst)

/-- `memmove`, with the pointer it returns. -/
def memmove (m : Mem) (dst src n : BitVec 64) : Mem × Addr :=
  if dst.toNat < src.toNat then (copyUp m dst src n.toNat, dst) else (copyDown m dst src n.toNat, dst)

/-- For ranges that do not wrap the address space both loops move the range as
if it had been read whole first. -/
theorem memmove_eq_moved (m : Mem) {dst src n : BitVec 64} (hd : dst.toNat + n.toNat ≤ 2 ^ 64)
    (hs : src.toNat + n.toNat ≤ 2 ^ 64) : memmove m dst src n = (moved m dst src n.toNat, dst) := by
  unfold memmove
  split_ifs with h
  · rw [copyUp_eq m h.le hs]
  · rw [copyDown_eq m (Nat.not_lt.mp h) hd]

/-- `memmove` is right for ranges that are disjoint, equal, or overlap by any amount in
either direction: the destination holds what the source held before the call, every
other byte is unchanged, and the destination is returned. -/
theorem memmove_correct (m : Mem) (dst src n : BitVec 64) (hd : dst.toNat + n.toNat ≤ 2 ^ 64)
    (hs : src.toNat + n.toNat ≤ 2 ^ 64) :
    (∀ i < n.toNat, (memmove m dst src n).1 (dst + BitVec.ofNat 64 i) = m (src + BitVec.ofNat 64 i)) ∧
      (∀ x : Addr, x.toNat < dst.toNat ∨ dst.toNat + n.toNat ≤ x.toNat →
        (memmove m dst src n).1 x = m x) ∧
      (memmove m dst src n).2 = dst := by
  rw [memmove_eq_moved m hd hs]
  exact ⟨fun i hi => moved_at m dst src hi (by omega), fun x hx => moved_of_outside m hd hx, rfl⟩

/-- Two bytes move up by one over themselves. -/
theorem memmove_correct_overlap :
    (memmove (fun x => x.setWidth 8) 5#64 4#64 2#64).1 6#64 = 5#8 ∧
      (memmove (fun x => x.setWidth 8) 5#64 4#64 2#64).1 5#64 = 4#8 :=
  ⟨(memmove_correct _ 5#64 4#64 2#64 (by decide) (by decide)).1 1 (by decide),
    (memmove_correct _ 5#64 4#64 2#64 (by decide) (by decide)).1 0 (by decide)⟩

end Libuc.String
