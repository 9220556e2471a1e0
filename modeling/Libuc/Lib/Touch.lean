import Libuc.Lib.Region

/-! Two memories, and the range they differ in or agree on. A write touches its range; a
range that does not meet it is kept, and so is what is read from any part of it. -/

namespace Libuc.Lib

variable {w : ℕ} {β : Type*} {a b : BitVec w} {k n : ℕ} {m m' m'' : BitVec w → β}

/-- Every cell outside the `n` cells from `a` on is the same. -/
def Touches (a : BitVec w) (n : ℕ) (m m' : BitVec w → β) : Prop := ∀ x, Outside a n x → m' x = m x

/-- Each of the `n` cells from `a` on is the same. -/
def Keeps (a : BitVec w) (n : ℕ) (m m' : BitVec w → β) : Prop := ∀ x, ¬Outside a n x → m' x = m x

theorem Touches.trans (h : Touches a n m m') (h' : Touches a n m' m'') : Touches a n m m'' :=
  fun x hx => (h' x hx).trans (h x hx)

theorem Touches.mono (h : Touches a n m m') (hlow : b.toNat ≤ a.toNat)
    (hhigh : a.toNat + n ≤ b.toNat + k) :
    Touches b k m m' := by
  intro x hx
  refine h x ?_
  rcases hx with hx | hx
  · exact .inl (by omega)
  · exact .inr (by omega)

theorem Touches.keeps (h : Touches a n m m') (hapart : Separate b k a n) : Keeps b k m m' := by
  intro x hx
  refine h x ?_
  unfold Outside at hx ⊢
  rcases hapart with hapart | hapart <;> omega

theorem touches_store (m : BitVec w → β) (v : Fin k → β) (ha : a.toNat + k ≤ 2 ^ w) :
    Touches a k m (store m a v) :=
  fun _ hx => store_outside m v ha hx

theorem Keeps.refl (a : BitVec w) (n : ℕ) (m : BitVec w → β) : Keeps a n m m := fun _ _ => rfl

theorem Keeps.trans (h : Keeps a n m m') (h' : Keeps a n m' m'') : Keeps a n m m'' :=
  fun x hx => (h' x hx).trans (h x hx)

theorem Keeps.sub (h : Keeps a n m m') (hlow : a.toNat ≤ b.toNat)
    (hhigh : b.toNat + k ≤ a.toNat + n) : Keeps b k m m' := by
  intro x hx
  refine h x fun hout => hx ?_
  rcases hout with hout | hout
  · exact .inl (by omega)
  · exact .inr (by omega)

theorem Keeps.block (h : Keeps a n m m') (ha : a.toNat + n ≤ 2 ^ w) : block m' a n = block m a n := by
  refine block_congr fun i hi => h _ ?_
  have hx : (a + BitVec.ofNat w i).toNat = a.toNat + i := toNat_add_of_fits (by omega)
  unfold Outside
  omega

end Libuc.Lib
