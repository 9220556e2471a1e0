import Libuc.Lib.Copy

/-! Ranges of memory that do not wrap, by the natural numbers of their bounds. A cell
is inside or outside a range; what a store or a copy does to a range it does not meet
is nothing. -/

namespace Libuc.Lib

variable {w : ℕ} {β : Type*} {a d s x : BitVec w} {k n : ℕ}

/-- Not one of the `n` cells from `a` on. -/
def Outside (a : BitVec w) (n : ℕ) (x : BitVec w) : Prop := x.toNat < a.toNat ∨ a.toNat + n ≤ x.toNat

/-- The `n` cells from `a` on and the `k` cells from `b` on have none in common. -/
def Separate (a : BitVec w) (n : ℕ) (b : BitVec w) (k : ℕ) : Prop :=
  a.toNat + n ≤ b.toNat ∨ b.toNat + k ≤ a.toNat

instance (a : BitVec w) (n : ℕ) (x : BitVec w) : Decidable (Outside a n x) :=
  inferInstanceAs (Decidable (_ ∨ _))

instance (a : BitVec w) (n : ℕ) (b : BitVec w) (k : ℕ) : Decidable (Separate a n b k) :=
  inferInstanceAs (Decidable (_ ∨ _))

theorem Separate.symm {b : BitVec w} (h : Separate a n b k) : Separate b k a n := Or.symm h

/-- A part of a range is as separate as the range. -/
theorem Separate.sub {b c : BitVec w} {j : ℕ} (h : Separate a n b k) (hle : a.toNat ≤ c.toNat)
    (hc : c.toNat + j ≤ a.toNat + n) : Separate c j b k := by
  rcases h with h | h
  · exact .inl (by omega)
  · exact .inr (by omega)

/-- A cell of one range is outside the other. -/
theorem Separate.cell {b : BitVec w} (h : Separate a n b k) (hlow : a.toNat ≤ x.toNat)
    (hhigh : x.toNat < a.toNat + n) :
    Outside b k x := by
  rcases h with h | h
  · exact .inl (by omega)
  · exact .inr (by omega)

theorem le_sub_of_outside (ha : a.toNat + n ≤ 2 ^ w) (hx : Outside a n x) : n ≤ (x - a).toNat := by
  rcases hx with hx | hx
  · -- below the range the offset wraps around
    have hwrap : (x - a).toNat = 2 ^ w - a.toNat + x.toNat := by
      rw [BitVec.toNat_sub, Nat.mod_eq_of_lt (by omega)]
    omega
  · rw [BitVec.toNat_sub_of_le (by rw [BitVec.le_def]; omega)]
    omega

theorem Separate.outside {b : BitVec w} (h : Separate a n b k) {i : ℕ} (hi : i < n)
    (ha : a.toNat + n ≤ 2 ^ w) :
    Outside b k (a + BitVec.ofNat w i) := by
  have hx : (a + BitVec.ofNat w i).toNat = a.toNat + i := toNat_add_of_fits (by omega)
  exact h.cell (by omega) (by omega)

theorem store_outside (m : BitVec w → β) (v : Fin k → β) (ha : a.toNat + k ≤ 2 ^ w)
    (hx : Outside a k x) :
    store m a v x = m x := by
  have h := le_sub_of_outside ha hx
  simp only [store, Nat.not_lt.mpr h, ↓reduceDIte]

theorem block_store_self (m : BitVec w → β) (v : Fin k → β) (hk : k ≤ 2 ^ w) :
    block (store m a v) a k = v := by
  funext j
  have hj : (a + BitVec.ofNat w j - a).toNat = j := toNat_add_sub_self a (by omega)
  simp only [block, store, hj, j.isLt, ↓reduceDIte]

/-- What is read from a range depends on nothing else. -/
theorem block_congr {m m' : BitVec w → β}
    (h : ∀ i < n, m' (a + BitVec.ofNat w i) = m (a + BitVec.ofNat w i)) :
    block m' a n = block m a n := by
  funext j
  exact h j j.isLt

/-! ### Filling and copying -/

/-- Ascending fill: one cell in each round. -/
def fillUp (m : BitVec w → β) (d : BitVec w) (v : β) : ℕ → BitVec w → β
  | 0 => m
  | n + 1 => Function.update (fillUp m d v n) (d + BitVec.ofNat w n) v

theorem fillUp_at (m : BitVec w → β) (v : β) {i : ℕ} (hi : i < n) :
    fillUp m d v n (d + BitVec.ofNat w i) = v := by
  induction n with
  | zero => omega
  | succ n ih =>
    rw [fillUp, Function.update_apply]
    split_ifs with he
    · rfl
    · rcases Nat.lt_or_ge i n with hlt | hge
      · exact ih hlt
      · exact absurd (by rw [show i = n by omega]) he

theorem fillUp_outside (m : BitVec w → β) (v : β) (hd : d.toNat + n ≤ 2 ^ w) (hx : Outside d n x) :
    fillUp m d v n x = m x := by
  induction n with
  | zero => rfl
  | succ n ih =>
    have hdn : (d + BitVec.ofNat w n).toNat = d.toNat + n := toNat_add_of_fits (by omega)
    have hne : x ≠ d + BitVec.ofNat w n := by
      rintro rfl
      rcases hx with hx | hx <;> omega
    rw [fillUp, Function.update_of_ne hne]
    exact ih (by omega) (hx.imp id fun h => by omega)

theorem copyUp_outside (m : BitVec w → β) (hd : d.toNat + n ≤ 2 ^ w) (hx : Outside d n x) :
    copyUp m d s n x = m x := by
  induction n with
  | zero => rfl
  | succ n ih =>
    have hdn : (d + BitVec.ofNat w n).toNat = d.toNat + n := toNat_add_of_fits (by omega)
    have hne : x ≠ d + BitVec.ofNat w n := by
      rintro rfl
      rcases hx with hx | hx <;> omega
    rw [copyUp, Function.update_of_ne hne]
    exact ih (by omega) (hx.imp id fun h => by omega)

/-- Ascending copy of cells that are not overwritten. -/
theorem copyUp_of_outside (m : BitVec w → β) (hd : d.toNat + n ≤ 2 ^ w)
    (h : ∀ i < n, Outside d n (s + BitVec.ofNat w i)) : copyUp m d s n = moved m d s n := by
  have hrounds : ∀ k ≤ n, copyUp m d s k = moved m d s k := by
    intro k hk
    induction k with
    | zero => simp [copyUp]
    | succ k ih =>
      have hout : k ≤ (s + BitVec.ofNat w k - d).toNat :=
        le_sub_of_outside (by omega) ((h k (by omega)).imp id fun h => by omega)
      rw [copyUp, ih (by omega), moved_outside m d s hout, ← moved_succ m d s (by omega)]
  exact hrounds n le_rfl

theorem moved_of_outside (m : BitVec w → β) (hd : d.toNat + n ≤ 2 ^ w) (hx : Outside d n x) :
    moved m d s n x = m x :=
  moved_outside m d s (le_sub_of_outside hd hx)

end Libuc.Lib
