import Mathlib.Data.BitVec
import Mathlib.Tactic

/-! Offsets, counters and alignments in `w`-bit words. An offset is a difference modulo
`2 ^ w`; a counter that stays in range counts like a natural number; an alignment is a
power of two, rounded up to by adding and masking. -/

namespace Libuc.Lib

variable {w : ℕ}

/-- The offset of the cell `i` places after `a`. -/
theorem toNat_add_sub_self (a : BitVec w) {i : ℕ} (hi : i < 2 ^ w) :
    (a + BitVec.ofNat w i - a).toNat = i := by
  have e : a + BitVec.ofNat w i - a = BitVec.ofNat w i := by
    rw [add_comm, BitVec.add_sub_cancel]
  rw [e, BitVec.toNat_ofNat, Nat.mod_eq_of_lt hi]

theorem add_ofNat_sub_toNat (a x : BitVec w) : a + BitVec.ofNat w (x - a).toNat = x := by
  rw [BitVec.ofNat_toNat, BitVec.setWidth_eq, add_comm, BitVec.sub_add_cancel]

theorem toNat_add_of_fits {a : BitVec w} {i : ℕ} (h : a.toNat + i < 2 ^ w) :
    (a + BitVec.ofNat w i).toNat = a.toNat + i := by
  rw [BitVec.toNat_add, BitVec.toNat_ofNat, Nat.mod_eq_of_lt (a := i) (by omega), Nat.mod_eq_of_lt h]

theorem toNat_succ {c : BitVec w} (h : c.toNat + 1 < 2 ^ w) : (c + 1#w).toNat = c.toNat + 1 :=
  toNat_add_of_fits h

theorem toNat_pred {c : BitVec w} (h : 0 < c.toNat) : (c - 1#w).toNat = c.toNat - 1 := by
  have hw : 1 < 2 ^ w := by have := c.isLt; omega
  have h1 : (1#w).toNat = 1 := by rw [BitVec.toNat_ofNat, Nat.mod_eq_of_lt hw]
  rw [BitVec.toNat_sub_of_le (by rw [BitVec.le_def, h1]; omega), h1]

theorem eq_zero_iff_toNat {c : BitVec w} : c = 0#w ↔ c.toNat = 0 := by
  rw [← BitVec.toNat_inj, BitVec.toNat_ofNat, Nat.zero_mod]

/-! ### Alignments -/

section Alignment

variable {k : ℕ} {x a : BitVec w}

/-- The least multiple of `a` that is not below `n`. -/
def roundUp (n a : ℕ) : ℕ := (n + (a - 1)) / a * a

theorem le_roundUp (n : ℕ) {a : ℕ} (ha : 0 < a) : n ≤ roundUp n a := by
  have h := Nat.div_add_mod (n + (a - 1)) a
  have hlt := Nat.mod_lt (n + (a - 1)) ha
  rw [mul_comm] at h
  unfold roundUp
  omega

theorem dvd_roundUp (n a : ℕ) : a ∣ roundUp n a := Nat.dvd_mul_left a _

theorem roundUp_le (n a : ℕ) : roundUp n a ≤ n + (a - 1) := Nat.div_mul_le_self _ _

theorem roundUp_of_dvd {n a : ℕ} (h : a ∣ n) : roundUp n a = n := by
  obtain ⟨q, rfl⟩ := h
  rcases Nat.eq_zero_or_pos a with rfl | ha
  · simp [roundUp]
  · have hq : (a * q + (a - 1)) / a = q := by
      rw [Nat.mul_add_div ha, Nat.div_eq_of_lt (by omega), add_zero]
    rw [roundUp, hq, mul_comm]

/-- The mask `~(a - 1)` clears the low bits. -/
theorem toNat_and_not_pred (hk : k < w) (ha : a.toNat = 2 ^ k) :
    (x &&& ~~~(a - 1#w)).toNat = x.toNat / 2 ^ k * 2 ^ k := by
  have hpow : 2 ^ k < 2 ^ w := Nat.pow_lt_pow_right (by norm_num) hk
  have hpos : 0 < 2 ^ k := Nat.two_pow_pos k
  have hpred : (a - 1#w).toNat = 2 ^ k - 1 := by rw [toNat_pred (by omega), ha]
  have hshift : x &&& ~~~(a - 1#w) = x >>> k <<< k := by
    apply BitVec.eq_of_getLsbD_eq
    intro i hi
    have hbit : (a - 1#w).getLsbD i = decide (i < k) := by
      rw [← BitVec.testBit_toNat, hpred, Nat.testBit_two_pow_sub_one]
    rw [BitVec.getLsbD_and, BitVec.getLsbD_not, hbit, BitVec.getLsbD_shiftLeft,
      BitVec.getLsbD_ushiftRight]
    by_cases hik : i < k
    · simp [hik]
    · have he : k + (i - k) = i := by omega
      simp [hik, hi, he]
  have hle : x.toNat / 2 ^ k * 2 ^ k ≤ x.toNat := Nat.div_mul_le_self _ _
  rw [hshift, BitVec.toNat_shiftLeft, BitVec.toNat_ushiftRight, Nat.shiftRight_eq_div_pow,
    Nat.shiftLeft_eq, Nat.mod_eq_of_lt (lt_of_le_of_lt hle x.isLt)]

def popcount (x : BitVec w) : ℕ := ((List.range w).filter x.getLsbD).length

theorem popcount_eq_one : popcount x = 1 ↔ ∃ k < w, x.toNat = 2 ^ k := by
  constructor
  · intro h
    obtain ⟨k, hk⟩ := List.length_eq_one_iff.mp h
    have hmem : ∀ i, i < w ∧ x.getLsbD i = true ↔ i = k := by
      intro i
      have hi : i ∈ (List.range w).filter x.getLsbD ↔ i ∈ [k] := by rw [hk]
      simpa using hi
    refine ⟨k, ((hmem k).mpr rfl).1, Nat.eq_of_testBit_eq fun i => ?_⟩
    rw [Nat.testBit_two_pow, BitVec.testBit_toNat]
    by_cases hi : i = k
    · rw [hi, ((hmem k).mpr rfl).2]
      simp
    · have hlt : x.getLsbD i = false := by
        by_contra ht
        rw [Bool.not_eq_false] at ht
        exact hi ((hmem i).mp ⟨BitVec.lt_of_getLsbD ht, ht⟩)
      rw [hlt]
      simp [Ne.symm hi]
  · rintro ⟨k, hk, hx⟩
    have hbit : ∀ i, x.getLsbD i = decide (k = i) := by
      intro i
      rw [← BitVec.testBit_toNat, hx, Nat.testBit_two_pow]
    have hfilter : (List.range w).filter x.getLsbD = [k] := by
      have hf : x.getLsbD = fun i => decide (i = k) := by
        funext i
        rw [hbit, decide_eq_decide]
        exact eq_comm
      have hcount : (List.range w).count k = 1 :=
        List.count_eq_one_of_mem List.nodup_range (List.mem_range.mpr hk)
      rw [hf, List.filter_eq, hcount]
      rfl
    rw [popcount, hfilter]
    rfl

end Alignment

end Libuc.Lib
