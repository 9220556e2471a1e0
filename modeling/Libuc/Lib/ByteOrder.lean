import Libuc.Lib.LittleEndian

/-! Byte strings compared at their first difference, and as numbers with the most
significant byte first. For strings of one length the two orders agree. -/

namespace Libuc.Lib

/-- How the bytes at the first difference compare. -/
def firstDifference : List (BitVec 8) → List (BitVec 8) → Ordering
  | x :: xs, y :: ys => if x = y then firstDifference xs ys else compare x.toNat y.toNat
  | _, _ => .eq

def bigEndian : List (BitVec 8) → ℕ
  | [] => 0
  | b :: bs => b.toNat * 256 ^ bs.length + bigEndian bs

theorem bigEndian_lt (bs : List (BitVec 8)) : bigEndian bs < 256 ^ bs.length := by
  induction bs with
  | nil => simp [bigEndian]
  | cons b bs ih =>
    have hb := b.isLt
    calc bigEndian (b :: bs) < b.toNat * 256 ^ bs.length + 256 ^ bs.length := Nat.add_lt_add_left ih _
      _ = (b.toNat + 1) * 256 ^ bs.length := by ring
      _ ≤ 256 * 256 ^ bs.length := Nat.mul_le_mul_right _ (by omega)
      _ = 256 ^ (b :: bs).length := by rw [List.length_cons, pow_succ']

/-- A byte that differs decides, whatever comes after it. -/
theorem bigEndian_cons_lt {x y : BitVec 8} {xs ys : List (BitVec 8)} (hl : xs.length = ys.length)
    (h : x.toNat < y.toNat) : bigEndian (x :: xs) < bigEndian (y :: ys) := by
  have hx := bigEndian_lt xs
  rw [hl] at hx
  calc bigEndian (x :: xs) < x.toNat * 256 ^ ys.length + 256 ^ ys.length := by
        rw [bigEndian, hl]
        exact Nat.add_lt_add_left hx _
    _ = (x.toNat + 1) * 256 ^ ys.length := by ring
    _ ≤ y.toNat * 256 ^ ys.length := Nat.mul_le_mul_right _ h
    _ ≤ bigEndian (y :: ys) := Nat.le_add_right _ _

theorem firstDifference_eq_compare {xs ys : List (BitVec 8)} (hl : xs.length = ys.length) :
    firstDifference xs ys = compare (bigEndian xs) (bigEndian ys) := by
  induction xs generalizing ys with
  | nil =>
    cases ys with
    | nil => rfl
    | cons y ys => cases hl
  | cons x xs ih =>
    cases ys with
    | nil => cases hl
    | cons y ys =>
      rw [List.length_cons, List.length_cons, Nat.succ_inj] at hl
      by_cases hxy : x = y
      · subst hxy
        simp only [firstDifference, if_true, ih hl, bigEndian, hl]
        rcases Nat.lt_trichotomy (bigEndian xs) (bigEndian ys) with h | h | h
        · rw [Nat.compare_eq_lt.mpr h, Nat.compare_eq_lt.mpr (by omega)]
        · rw [h]
          simp
        · rw [Nat.compare_eq_gt.mpr h, Nat.compare_eq_gt.mpr (by omega)]
      · simp only [firstDifference, hxy, if_false]
        have hne : x.toNat ≠ y.toNat := fun h => hxy (BitVec.eq_of_toNat_eq h)
        rcases Nat.lt_or_gt_of_ne hne with h | h
        · rw [Nat.compare_eq_lt.mpr h, Nat.compare_eq_lt.mpr (bigEndian_cons_lt hl h)]
        · rw [Nat.compare_eq_gt.mpr h, Nat.compare_eq_gt.mpr (bigEndian_cons_lt hl.symm h)]

theorem firstDifference_append_self (xs ys zs : List (BitVec 8)) :
    firstDifference (xs ++ ys) (xs ++ zs) = firstDifference ys zs := by
  induction xs with
  | nil => rfl
  | cons x xs ih => simpa [firstDifference] using ih

theorem firstDifference_append_of_ne {xs xs' : List (BitVec 8)} (hl : xs.length = xs'.length)
    (hne : xs ≠ xs')
    (ys zs : List (BitVec 8)) : firstDifference (xs ++ ys) (xs' ++ zs) = firstDifference xs xs' := by
  induction xs generalizing xs' with
  | nil =>
    cases xs' with
    | nil => exact absurd rfl hne
    | cons y ys => cases hl
  | cons x xs ih =>
    cases xs' with
    | nil => cases hl
    | cons y xs' =>
      rw [List.length_cons, List.length_cons, Nat.succ_inj] at hl
      simp only [List.cons_append, firstDifference]
      split_ifs with hxy
      · exact ih hl fun h => hne (by rw [hxy, h])
      · rfl

theorem firstDifference_eq_eq {xs ys : List (BitVec 8)} (hl : xs.length = ys.length) :
    firstDifference xs ys = .eq ↔ xs = ys := by
  induction xs generalizing ys with
  | nil =>
    cases ys with
    | nil => simp [firstDifference]
    | cons y ys => cases hl
  | cons x xs ih =>
    cases ys with
    | nil => cases hl
    | cons y ys =>
      rw [List.length_cons, List.length_cons, Nat.succ_inj] at hl
      by_cases hxy : x = y
      · simp [firstDifference, hxy, ih hl]
      · have hne : x.toNat ≠ y.toNat := fun h => hxy (BitVec.eq_of_toNat_eq h)
        simp [firstDifference, hxy, hne]

theorem byteAt_lt {k : ℕ} (b : Fin k → BitVec 8) (j : ℕ) : byteAt b j < 256 := by
  unfold byteAt
  split
  · exact BitVec.isLt _
  · norm_num

theorem field_lt {k : ℕ} (b : Fin k → BitVec 8) (o n : ℕ) : field b o n < 256 ^ n := by
  induction n generalizing o with
  | zero => simp [field]
  | succ n ih =>
    have hb := byteAt_lt b o
    have hf := ih (o + 1)
    rw [field, pow_succ']
    omega

/-- Byte `i` of a field is the `i`-th byte of its value. -/
theorem field_div {k : ℕ} (b : Fin k → BitVec 8) {o n i : ℕ} (hi : i < n) :
    field b o n / 256 ^ i % 256 = byteAt b (o + i) := by
  induction n generalizing o i with
  | zero => omega
  | succ n ih =>
    have ho := byteAt_lt b o
    cases i with
    | zero =>
      rw [field, pow_zero, Nat.div_one, Nat.add_mul_mod_self_left, Nat.mod_eq_of_lt ho, add_zero]
    | succ i =>
      have hdiv : (byteAt b o + 256 * field b (o + 1) n) / 256 = field b (o + 1) n := by omega
      rw [field, pow_succ', ← Nat.div_div_eq_div_mul, hdiv, ih (by omega)]
      congr 1
      omega

end Libuc.Lib
