import Libuc.Lib.Words

/-! Flat memories addressed by `w`-bit words, and the two loops that copy a
range one cell at a time. Offsets are differences modulo `2 ^ w`, so a range is
`{x | (x - a).toNat < n}` and never needs a bound on its own. The overlap
condition of each loop is the only place where addresses are compared. -/

namespace Libuc.Lib

variable {w : ℕ} {β : Type*}

/-- Memory after the range of `n` cells at `s` has been placed at `d`, all of
its cells read before any is written. -/
def moved (m : BitVec w → β) (d s : BitVec w) (n : ℕ) : BitVec w → β := fun x =>
  if (x - d).toNat < n then m (s + (x - d)) else m x

@[simp] theorem moved_zero (m : BitVec w → β) (d s : BitVec w) : moved m d s 0 = m := by
  funext x; simp [moved]

theorem moved_at (m : BitVec w → β) (d s : BitVec w) {n i : ℕ} (hi : i < n) (hw : i < 2 ^ w) :
    moved m d s n (d + BitVec.ofNat w i) = m (s + BitVec.ofNat w i) := by
  have e : d + BitVec.ofNat w i - d = BitVec.ofNat w i := by rw [add_comm, BitVec.add_sub_cancel]
  have hlt : (BitVec.ofNat w i).toNat < n := by rwa [BitVec.toNat_ofNat, Nat.mod_eq_of_lt hw]
  simp only [moved, e, hlt, ↓reduceIte]

theorem moved_outside (m : BitVec w → β) (d s : BitVec w) {n : ℕ} {x : BitVec w}
    (hx : n ≤ (x - d).toNat) : moved m d s n x = m x := by
  simp only [moved, Nat.not_lt.mpr hx, ↓reduceIte]

theorem moved_succ (m : BitVec w → β) (d s : BitVec w) {n : ℕ} (hn : n < 2 ^ w) :
    moved m d s (n + 1) =
      Function.update (moved m d s n) (d + BitVec.ofNat w n) (m (s + BitVec.ofNat w n)) := by
  funext x
  by_cases hx : x = d + BitVec.ofNat w n
  · subst hx
    rw [Function.update_self, moved_at m d s (Nat.lt_succ_self n) hn]
  · rw [Function.update_of_ne hx]
    have hne : (x - d).toNat ≠ n := by
      intro h
      apply hx
      rw [← h, add_ofNat_sub_toNat]
    have he : (x - d).toNat < n + 1 ↔ (x - d).toNat < n := by omega
    simp only [moved, he]

/-- Ascending copy: the cell at offset `i` is copied in round `i`. -/
def copyUp (m : BitVec w → β) (d s : BitVec w) : ℕ → BitVec w → β
  | 0 => m
  | n + 1 => Function.update (copyUp m d s n) (d + BitVec.ofNat w n)
      (copyUp m d s n (s + BitVec.ofNat w n))

/-- Descending copy: the last cell of the range is copied first. -/
def copyDown (m : BitVec w → β) (d s : BitVec w) : ℕ → BitVec w → β
  | 0 => m
  | n + 1 => copyDown (Function.update m (d + BitVec.ofNat w n) (m (s + BitVec.ofNat w n))) d s n

/-- Ascending is right when the destination starts at or below the source: the
cells overwritten so far lie below the next source cell. -/
theorem copyUp_eq (m : BitVec w → β) {d s : BitVec w} {n : ℕ} (hds : d.toNat ≤ s.toNat)
    (hs : s.toNat + n ≤ 2 ^ w) : copyUp m d s n = moved m d s n := by
  induction n with
  | zero => simp [copyUp]
  | succ n ih =>
    have hsn : (s + BitVec.ofNat w n).toNat = s.toNat + n := toNat_add_of_fits (by omega)
    have hout : n ≤ (s + BitVec.ofNat w n - d).toNat := by
      rw [BitVec.toNat_sub_of_le (by rw [BitVec.le_def, hsn]; omega), hsn]
      omega
    rw [copyUp, ih (by omega), moved_outside m d s hout, ← moved_succ m d s (by omega)]

/-- Descending is right when the destination starts at or above the source. -/
theorem copyDown_eq (m : BitVec w → β) {d s : BitVec w} {n : ℕ} (hsd : s.toNat ≤ d.toNat)
    (hd : d.toNat + n ≤ 2 ^ w) : copyDown m d s n = moved m d s n := by
  induction n generalizing m with
  | zero => simp [copyDown]
  | succ n ih =>
    have hdn : (d + BitVec.ofNat w n).toNat = d.toNat + n := toNat_add_of_fits (by omega)
    rw [copyDown, ih _ (by omega), moved_succ m d s (by omega)]
    funext x
    by_cases hx : x = d + BitVec.ofNat w n
    · subst hx
      rw [Function.update_self, moved_outside _ _ _ (by rw [toNat_add_sub_self d (by omega)]),
        Function.update_self]
    · rw [Function.update_of_ne hx]
      by_cases hn : (x - d).toNat < n
      · have hsrc : (s + BitVec.ofNat w (x - d).toNat).toNat = s.toNat + (x - d).toNat :=
          toNat_add_of_fits (by omega)
        have hne : s + (x - d) ≠ d + BitVec.ofNat w n := by
          intro h
          rw [BitVec.ofNat_toNat, BitVec.setWidth_eq] at hsrc
          have := congrArg BitVec.toNat h
          omega
        simp only [moved, hn, ↓reduceIte, Function.update_of_ne hne]
      · rw [moved_outside _ _ _ (by omega), moved_outside _ _ _ (by omega), Function.update_of_ne hx]

/-! ### Records in memory -/

/-- The `k` cells at `a`. -/
def block (m : BitVec w → β) (a : BitVec w) (k : ℕ) : Fin k → β := fun j => m (a + BitVec.ofNat w j)

/-- Write `k` cells at `a`. -/
def store {k : ℕ} (m : BitVec w → β) (a : BitVec w) (v : Fin k → β) : BitVec w → β := fun x =>
  if h : (x - a).toNat < k then v ⟨(x - a).toNat, h⟩ else m x

/-- Record `i` of an array of `k`-cell records at `a`. -/
def slot (m : BitVec w → β) (a : BitVec w) (k i : ℕ) : Fin k → β :=
  block m (a + BitVec.ofNat w (k * i)) k

theorem slot_index_lt {k N i : ℕ} (hi : i < N) (j : Fin k) : k * i + j < k * N := by
  have h1 : k * (i + 1) ≤ k * N := Nat.mul_le_mul_left k hi
  have h2 := j.isLt
  rw [Nat.mul_add, Nat.mul_one] at h1
  omega

theorem slot_apply (m : BitVec w → β) (a : BitVec w) (k i : ℕ) (j : Fin k) :
    slot m a k i j = m (a + BitVec.ofNat w (k * i + j)) := by
  simp only [slot, block, BitVec.ofNat_add, add_assoc]

/-- The offset from record `i` of a cell of record `j`, when it is not below it. -/
theorem slot_offset (a : BitVec w) {p q : ℕ} (hqp : q ≤ p) (hp : p < 2 ^ w) :
    (a + BitVec.ofNat w p - (a + BitVec.ofNat w q)).toNat = p - q := by
  have e : a + BitVec.ofNat w p = a + BitVec.ofNat w q + BitVec.ofNat w (p - q) := by
    rw [add_assoc, ← BitVec.ofNat_add, Nat.add_sub_cancel' hqp]
  rw [e, toNat_add_sub_self _ (by omega)]

theorem slot_offset_below (a : BitVec w) {p q : ℕ} (hpq : p < q) (hq : q < 2 ^ w) :
    (a + BitVec.ofNat w p - (a + BitVec.ofNat w q)).toNat = 2 ^ w - (q - p) := by
  have e : a + BitVec.ofNat w p - (a + BitVec.ofNat w q) =
      -(a + BitVec.ofNat w q - (a + BitVec.ofNat w p)) := by rw [neg_sub]
  rw [e, BitVec.toNat_neg, slot_offset a hpq.le hq, Nat.mod_eq_of_lt (by omega)]

theorem slot_store_self {k N i : ℕ} (m : BitVec w → β) (a : BitVec w) (hN : k * N ≤ 2 ^ w)
    (hi : i < N) (v : Fin k → β) : slot (store m (a + BitVec.ofNat w (k * i)) v) a k i = v := by
  funext j
  have hj := slot_index_lt hi j
  have ho : (a + BitVec.ofNat w (k * i + j) - (a + BitVec.ofNat w (k * i))).toNat = j := by
    rw [slot_offset a (by omega) (by omega)]
    omega
  rw [slot_apply]
  simp only [store, ho, j.isLt, ↓reduceDIte]

theorem slot_store_ne {k N i j : ℕ} (m : BitVec w → β) (a : BitVec w) (hN : k * N ≤ 2 ^ w)
    (hi : i < N) (hj : j < N) (hne : j ≠ i) (v : Fin k → β) :
    slot (store m (a + BitVec.ofNat w (k * i)) v) a k j = slot m a k j := by
  funext c
  have hc := slot_index_lt hj c
  have hi' : k * i ≤ k * N := Nat.mul_le_mul_left k hi.le
  rw [slot_apply, slot_apply]
  have hout : ¬ (a + BitVec.ofNat w (k * j + c) - (a + BitVec.ofNat w (k * i))).toNat < k := by
    rcases Nat.lt_or_gt_of_ne hne with h | h
    · -- record `j` lies below record `i`: the difference wraps to nearly `2 ^ w`
      have h1 : k * (j + 1) ≤ k * i := Nat.mul_le_mul_left k h
      have h2 : k * (i + 1) ≤ k * N := Nat.mul_le_mul_left k hi
      rw [Nat.mul_add, Nat.mul_one] at h1 h2
      have h3 := c.isLt
      rw [slot_offset_below a (by omega) (by omega)]
      omega
    · have h1 : k * (i + 1) ≤ k * j := Nat.mul_le_mul_left k h
      rw [Nat.mul_add, Nat.mul_one] at h1
      rw [slot_offset a (by omega) (by omega)]
      omega
  simp only [store, hout, ↓reduceDIte]

/-- Moving `n` records down by `r` places. -/
theorem slot_moved {k N r n i : ℕ} (m : BitVec w → β) (a : BitVec w) (hN : k * N ≤ 2 ^ w)
    (hn : r + n ≤ N) (hi : i < n) :
    slot (moved m a (a + BitVec.ofNat w (k * r)) (k * n)) a k i = slot m a k (r + i) := by
  funext c
  have hc := slot_index_lt hi c
  have hk : k * n ≤ k * N := Nat.mul_le_mul_left k (by omega)
  rw [slot_apply, slot_apply, moved_at _ _ _ hc (by omega), add_assoc, ← BitVec.ofNat_add,
    ← add_assoc, ← Nat.mul_add]

end Libuc.Lib
