import Mathlib.Data.BitVec
import Mathlib.Tactic

/-! A circular buffer of `2 ^ k` cells under two free-running `w`-bit counters,
`k < w`. The counters are never reduced; a cell index is a counter modulo the
capacity. Emptiness is equality of the counters, which is exact because at most
`2 ^ k < 2 ^ w` elements are held. Everything is relative to the abstract queue
`q`, oldest element first. -/

namespace Libuc.Lib.CircularBuffer

variable {w k : ℕ} {α : Type*}

/-- The cell a counter selects. -/
def index (k : ℕ) (c : BitVec w) : ℕ := c.toNat % 2 ^ k

theorem index_lt (c : BitVec w) : index k c < 2 ^ k := Nat.mod_lt _ (by positivity)

theorem index_add (hk : k ≤ w) (c : BitVec w) (i : ℕ) :
    index k (c + BitVec.ofNat w i) = (c.toNat + i) % 2 ^ k := by
  have hd : 2 ^ k ∣ 2 ^ w := pow_dvd_pow 2 hk
  rw [index, BitVec.toNat_add, BitVec.toNat_ofNat, Nat.add_mod_mod, Nat.mod_mod_of_dvd _ hd]

/-- A mask of `k` ones selects the same cell as the remainder. -/
theorem toNat_and_mask (c mask : BitVec w) (h : mask.toNat = 2 ^ k - 1) :
    (c &&& mask).toNat = index k c := by
  rw [BitVec.toNat_and, h, Nat.and_two_pow_sub_one_eq_mod, index]

/-- Distinct held positions use distinct cells. -/
theorem index_ne (hk : k ≤ w) (c : BitVec w) {i j : ℕ} (hij : i < j) (hj : j - i < 2 ^ k) :
    index k (c + BitVec.ofNat w i) ≠ index k (c + BitVec.ofNat w j) := by
  rw [index_add hk, index_add hk]
  intro h
  have hm : (c.toNat + i) ≡ (c.toNat + j) [MOD 2 ^ k] := h
  have hd : 2 ^ k ∣ (c.toNat + j) - (c.toNat + i) := (Nat.modEq_iff_dvd' (by omega)).mp hm
  have hle := Nat.le_of_dvd (by omega) hd
  omega

/-- The cells from `head` on hold `q`, and `tail` is one past its end. -/
structure Holds (k : ℕ) (cells : ℕ → α) (head tail : BitVec w) (q : List α) : Prop where
  length_le : q.length ≤ 2 ^ k
  tail_eq : tail = head + BitVec.ofNat w q.length
  cell : ∀ (i : ℕ) (hi : i < q.length), cells (index k (head + BitVec.ofNat w i)) = q[i]

theorem holds_empty (cells : ℕ → α) (c : BitVec w) : Holds k cells c c [] where
  length_le := Nat.zero_le _
  tail_eq := by simp
  cell := by intro i hi; simp at hi

variable {cells : ℕ → α} {head tail : BitVec w} {q : List α}

/-- The counters are equal exactly when nothing is held, also after they wrap. -/
theorem Holds.eq_iff (hk : k < w) (h : Holds k cells head tail q) : head = tail ↔ q = [] := by
  have hpow : 2 ^ k < 2 ^ w := Nat.pow_lt_pow_right (by norm_num) hk
  have hlen := h.length_le
  rw [h.tail_eq]
  constructor
  · intro he
    have h0 : BitVec.ofNat w q.length = 0#w := by
      have := congrArg (fun x => x - head) he
      simpa [add_comm head] using this.symm
    have := congrArg BitVec.toNat h0
    rw [BitVec.toNat_ofNat, Nat.mod_eq_of_lt (by omega)] at this
    exact List.length_eq_zero_iff.mp (by simpa using this)
  · rintro rfl
    simp

theorem Holds.push (hk : k ≤ w) (h : Holds k cells head tail q) (hroom : q.length < 2 ^ k) (x : α) :
    Holds k (Function.update cells (index k tail) x) head (tail + 1#w) (q ++ [x]) where
  length_le := by rw [List.length_append, List.length_singleton]; omega
  tail_eq := by
    rw [h.tail_eq, List.length_append, List.length_singleton, BitVec.ofNat_add, add_assoc]
  cell := by
    intro i hi
    rw [h.tail_eq]
    by_cases hlt : i < q.length
    · rw [Function.update_of_ne (index_ne hk head hlt (by omega)), h.cell i hlt,
        List.getElem_append_left hlt]
    · have he : i = q.length := by simp at hi; omega
      subst he
      simp

theorem Holds.front {x : α} (h : Holds k cells head tail (x :: q)) : cells (index k head) = x := by
  have h0 := h.cell 0 (Nat.zero_lt_succ _)
  rw [BitVec.add_zero] at h0
  exact h0

theorem Holds.pop {x : α} (h : Holds k cells head tail (x :: q)) :
    Holds k cells (head + 1#w) tail q where
  length_le := by have := h.length_le; simp at this; omega
  tail_eq := by
    rw [h.tail_eq, List.length_cons, add_comm q.length 1, BitVec.ofNat_add, add_assoc]
  cell := by
    intro i hi
    have hc := h.cell (i + 1) (Nat.succ_lt_succ hi)
    have e : head + BitVec.ofNat w (i + 1) = head + 1#w + BitVec.ofNat w i := by
      rw [add_comm i 1, BitVec.ofNat_add, add_assoc]
    rw [e] at hc
    exact hc

/-- A held queue is determined by the cells and the counters. -/
theorem Holds.unique (hk : k < w) {q' : List α} (h : Holds k cells head tail q)
    (h' : Holds k cells head tail q') : q = q' := by
  have hpow : 2 ^ k < 2 ^ w := Nat.pow_lt_pow_right (by norm_num) hk
  have hlen := h.length_le
  have hlen' := h'.length_le
  have he : BitVec.ofNat w q.length = BitVec.ofNat w q'.length := by
    have := h.tail_eq.symm.trans h'.tail_eq
    exact add_left_cancel this
  have hl : q.length = q'.length := by
    have := congrArg BitVec.toNat he
    rwa [BitVec.toNat_ofNat, BitVec.toNat_ofNat, Nat.mod_eq_of_lt (by omega),
      Nat.mod_eq_of_lt (by omega)] at this
  apply List.ext_getElem hl
  intro i h₁ h₂
  rw [← h.cell i h₁, ← h'.cell i h₂]

end Libuc.Lib.CircularBuffer
