import Mathlib.Data.BitVec
import Mathlib.Tactic

/-! Little-endian integer fields of fixed-size byte records: reading `n` bytes
at an offset as a number, and writing a number over them. A write is read back
by the same field and seen by no byte outside it. -/

namespace Libuc.Lib

variable {k : ℕ}

/-- Byte `i` of a record as a number; nothing is read past its end. -/
def byteAt (b : Fin k → BitVec 8) (i : ℕ) : ℕ := if h : i < k then (b ⟨i, h⟩).toNat else 0

/-- The `n` bytes at offset `o`, least significant first. -/
def field (b : Fin k → BitVec 8) (o : ℕ) : ℕ → ℕ
  | 0 => 0
  | n + 1 => byteAt b o + 256 * field b (o + 1) n

/-- Write `v` over the `n` bytes at offset `o`. -/
def setField (b : Fin k → BitVec 8) (o n v : ℕ) : Fin k → BitVec 8 := fun j =>
  if o ≤ j ∧ j < o + n then BitVec.ofNat 8 (v / 256 ^ (j - o)) else b j

theorem field_congr {b b' : Fin k → BitVec 8} {o n : ℕ}
    (h : ∀ j : Fin k, o ≤ (j : ℕ) → (j : ℕ) < o + n → b' j = b j) : field b' o n = field b o n := by
  induction n generalizing o with
  | zero => rfl
  | succ n ih =>
    have hbyte : byteAt b' o = byteAt b o := by
      unfold byteAt
      split_ifs with ho
      · rw [h ⟨o, ho⟩ le_rfl (by simp)]
      · rfl
    rw [field, field, hbyte, ih fun j hj hj' => h j (by omega) (by omega)]

theorem setField_outside (b : Fin k → BitVec 8) (o n v : ℕ) {j : Fin k}
    (hj : (j : ℕ) < o ∨ o + n ≤ j) : setField b o n v j = b j := by
  have : ¬ (o ≤ (j : ℕ) ∧ (j : ℕ) < o + n) := by omega
  simp only [setField, this, ↓reduceIte]

theorem byteAt_setField (b : Fin k → BitVec 8) {o n : ℕ} (v : ℕ) {i : ℕ} (hi : i < n)
    (hk : o + n ≤ k) : byteAt (setField b o n v) (o + i) = v / 256 ^ i % 256 := by
  have hlt : o + i < k := by omega
  have hin : o ≤ o + i ∧ o + i < o + n := by omega
  simp only [byteAt, hlt, ↓reduceDIte, setField, hin, and_self, ↓reduceIte, BitVec.toNat_ofNat,
    Nat.add_sub_cancel_left, Nat.reducePow]

/-- Reading the last `n` bytes of a written field. -/
theorem field_setField_suffix (b : Fin k → BitVec 8) {o m : ℕ} (v : ℕ) (hk : o + m ≤ k) :
    ∀ (n i : ℕ), i + n = m → field (setField b o m v) (o + i) n = v / 256 ^ i % 256 ^ n
  | 0, _, _ => by simp [field, Nat.mod_one]
  | n + 1, i, h => by
    rw [field, add_assoc, field_setField_suffix b v hk n (i + 1) (by omega),
      byteAt_setField b v (by omega) hk, pow_succ 256 i, ← Nat.div_div_eq_div_mul,
      pow_succ' 256 n, Nat.mod_mul]

theorem field_setField (b : Fin k → BitVec 8) {o n v : ℕ} (hk : o + n ≤ k) (hv : v < 256 ^ n) :
    field (setField b o n v) o n = v := by
  have h := field_setField_suffix b v hk n 0 (by omega)
  rw [add_zero, pow_zero, Nat.div_one, Nat.mod_eq_of_lt hv] at h
  exact h

theorem field_setField_ne (b : Fin k → BitVec 8) {o n o' n' : ℕ} (v : ℕ)
    (h : o' + n' ≤ o ∨ o + n ≤ o') :
    field (setField b o n v) o' n' = field b o' n' :=
  field_congr fun j _ hj => setField_outside _ _ _ _ (by omega)

end Libuc.Lib
