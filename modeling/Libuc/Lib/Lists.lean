import Mathlib.Data.List.Basic
import Mathlib.Data.List.Forall2

/-! Taking an element out of the middle of a list, and doing so in two related
lists at once. Two ways of saying which element is meant: it is the last of its
kind, or so many of its kind come before it. -/

namespace Libuc.Lib

variable {α β : Type*} {R S : α → β → Prop} {l : List α} {l' : List β}

/-- `find?` and `eraseP` meet the same element. -/
theorem exists_split_find? {p : α → Bool} {x : α} (hx : x ∈ l) (hp : p x = true) :
    ∃ y before after, l = before ++ y :: after ∧ p y = true ∧ l.find? p = some y ∧
      l.eraseP p = before ++ after := by
  obtain ⟨y, before, after, hb, hy, hl, he⟩ := List.exists_of_eraseP hx hp
  refine ⟨y, before, after, hl, hy, ?_, he⟩
  rw [hl, List.find?_append, List.find?_eq_none.mpr hb, Option.none_or, List.find?_cons_of_pos hy]

theorem forall₂_imp_mem (h : List.Forall₂ R l l') (hi : ∀ a, ∀ b ∈ l', R a b → S a b) :
    List.Forall₂ S l l' := by
  induction h with
  | nil => exact .nil
  | cons hr _ ih =>
    exact .cons (hi _ _ (by simp) hr) (ih fun a b hb => hi a b (by simp [hb]))

theorem forall₂_mem_left {a : α} (h : List.Forall₂ R l l') (ha : a ∈ l) : ∃ b ∈ l', R a b := by
  induction h with
  | nil => cases ha
  | @cons x y l l' hr _ ih =>
    rcases List.mem_cons.mp ha with rfl | ha
    · exact ⟨y, by simp, hr⟩
    · obtain ⟨b, hb, hab⟩ := ih ha
      exact ⟨b, by simp [hb], hab⟩

theorem forall₂_concat {a : α} {b : β} (h : List.Forall₂ R l l') (hr : R a b) :
    List.Forall₂ R (l ++ [a]) (l' ++ [b]) :=
  List.rel_append h (.cons hr .nil)

/-- A search by a property that the relation respects meets related elements,
and leaves related lists behind. -/
theorem forall₂_find? {p : α → Bool} {q : β → Bool} (h : List.Forall₂ R l l')
    (hpq : ∀ a b, R a b → p a = q b) {a : α} (ha : l.find? p = some a) :
    ∃ b, l'.find? q = some b ∧ R a b ∧ List.Forall₂ R (l.eraseP p) (l'.eraseP q) := by
  induction h with
  | nil => cases ha
  | @cons x y l l' hr hrest ih =>
    have hxy := hpq x y hr
    cases hx : p x with
    | true =>
      rw [hx] at hxy
      rw [List.find?_cons_of_pos hx] at ha
      cases ha
      refine ⟨y, List.find?_cons_of_pos hxy.symm, hr, ?_⟩
      rwa [List.eraseP_cons_of_pos hx, List.eraseP_cons_of_pos hxy.symm]
    | false =>
      rw [hx] at hxy
      rw [List.find?_cons_of_neg (by simp [hx])] at ha
      obtain ⟨b, hb, hab, he⟩ := ih ha
      refine ⟨b, ?_, hab, ?_⟩
      · rwa [List.find?_cons_of_neg (by simp [← hxy])]
      · rw [List.eraseP_cons_of_neg (by simp [hx]), List.eraseP_cons_of_neg (by simp [← hxy])]
        exact .cons hr he

/-- An element of a concatenation is in the second list or in the first. -/
theorem append_eq_append_cons {l m p q : List α} {x : α} (h : l ++ m = p ++ x :: q) :
    (∃ p', p = l ++ p' ∧ m = p' ++ x :: q) ∨ ∃ q', l = p ++ x :: q' ∧ q = q' ++ m := by
  rcases List.append_eq_append_iff.mp h with ⟨as, hp, hm⟩ | ⟨as, hl, hq⟩
  · exact .inl ⟨as, hp, hm⟩
  · cases as with
    | nil => exact .inl ⟨[], by simpa using hl.symm, by simpa using hq.symm⟩
    | cons y as =>
      cases hq
      exact .inr ⟨as, hl, rfl⟩

/-- There is one last element with a property. -/
theorem split_last_unique {P : α → Prop} {p q p' q' : List α} {x x' : α}
    (h : p ++ x :: q = p' ++ x' :: q')
    (hx : P x) (hx' : P x') (hq : ∀ y ∈ q, ¬ P y) (hq' : ∀ y ∈ q', ¬ P y) :
    p = p' ∧ x = x' ∧ q = q' := by
  rcases List.append_eq_append_iff.mp h with ⟨as, rfl, has⟩ | ⟨as, rfl, has⟩
  · cases as with
    | nil =>
      cases has
      exact ⟨(List.append_nil p).symm, rfl, rfl⟩
    | cons a as =>
      cases has
      exact absurd hx' (hq x' (by simp))
  · cases as with
    | nil =>
      cases has
      exact ⟨List.append_nil p', rfl, rfl⟩
    | cons a as =>
      cases has
      exact absurd hx (hq' x (by simp))

/-- There is one first occurrence of an element. -/
theorem split_first_unique {p q p' q' : List α} {x : α} (h : p ++ x :: q = p' ++ x :: q') (hp : x ∉ p)
    (hp' : x ∉ p') : p = p' := by
  rcases List.append_eq_append_iff.mp h with ⟨as, rfl, has⟩ | ⟨as, rfl, has⟩
  · cases as with
    | nil => exact (List.append_nil p).symm
    | cons a as =>
      cases has
      exact absurd (by simp) hp'
  · cases as with
    | nil => exact List.append_nil p'
    | cons a as =>
      cases has
      exact absurd (by simp) hp

/-- There is one element of a kind with a given number of its kind before it. -/
theorem split_count_unique {f : α → Option β} {p q p' q' : List α} {x x' : α}
    (h : p ++ x :: q = p' ++ x' :: q')
    (hx : f x ≠ none) (hx' : f x' ≠ none) (hn : (p.filterMap f).length = (p'.filterMap f).length) :
    p = p' ∧ x = x' ∧ q = q' := by
  have hlong : ∀ (p as : List α) (x : α), f x ≠ none →
      (p.filterMap f).length < ((p ++ x :: as).filterMap f).length := by
    intro p as x hx
    obtain ⟨y, hy⟩ := Option.ne_none_iff_exists'.mp hx
    rw [List.filterMap_append, List.filterMap_cons_some hy, List.length_append, List.length_cons]
    omega
  rcases List.append_eq_append_iff.mp h with ⟨as, rfl, has⟩ | ⟨as, rfl, has⟩
  · cases as with
    | nil =>
      cases has
      exact ⟨(List.append_nil p).symm, rfl, rfl⟩
    | cons a as =>
      cases has
      exact absurd hn (Nat.ne_of_lt (hlong p as x hx))
  · cases as with
    | nil =>
      cases has
      exact ⟨List.append_nil p', rfl, rfl⟩
    | cons a as =>
      cases has
      exact absurd hn.symm (Nat.ne_of_lt (hlong p' as x' hx'))

end Libuc.Lib
