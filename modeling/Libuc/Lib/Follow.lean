import Mathlib.Tactic

/-! Computations that may fail, one following another. The follower has to do what the
other does, up to a relation on results, and to fail as it fails; some failures of the
other are excused, and there the follower may do anything. -/

namespace Libuc.Lib

universe u v w

variable {ε : Type u} {α α' : Type v} {β β' : Type w} {excused : ε → Prop} {R : α → β → Prop}
  {S : α' → β' → Prop} {x : Except ε α} {y : Except ε β}

/-- Where `y` returns, so does `x`, with a related result; where `y` fails, `x` fails in
the same way, unless the failure is excused. -/
def Follows (excused : ε → Prop) (R : α → β → Prop) (x : Except ε α) (y : Except ε β) : Prop :=
  (∀ b, y = .ok b → ∃ a, x = .ok a ∧ R a b) ∧ ∀ e, y = .error e → excused e ∨ x = .error e

theorem Follows.ok {a : α} {b : β} (h : R a b) : Follows excused R (.ok a) (.ok b) := by
  refine ⟨fun b' hb => ⟨a, rfl, ?_⟩, fun e he => ?_⟩
  · cases hb
    exact h
  · cases he

theorem Follows.error (e : ε) : Follows excused R (.error e) (.error e) := by
  refine ⟨fun b hb => ?_, fun e' he => .inr ?_⟩
  · cases hb
  · cases he
    rfl

theorem Follows.excuse {e : ε} (h : excused e) : Follows excused R x (.error e) := by
  refine ⟨fun b hb => ?_, fun e' he => .inl ?_⟩
  · cases hb
  · cases he
    exact h

theorem Follows.bind {f : α → Except ε α'} {g : β → Except ε β'} (h : Follows excused R x y)
    (hf : ∀ a b, R a b → Follows excused S (f a) (g b)) : Follows excused S (x >>= f) (y >>= g) := by
  cases hy : y with
  | ok b =>
    obtain ⟨a, rfl, hab⟩ := h.1 b hy
    exact hf a b hab
  | error e =>
    rcases h.2 e hy with he | rfl
    · exact .excuse he
    · exact .error e

/-- The follower's next result is known. -/
theorem Follows.next {a : α} {x' : Except ε α'} {g : β → Except ε β'} (h : Follows excused R (.ok a) y)
    (hg : ∀ b, y = .ok b → R a b → Follows excused S x' (g b)) : Follows excused S x' (y >>= g) := by
  cases hy : y with
  | ok b =>
    obtain ⟨a', ha, hab⟩ := h.1 b hy
    cases ha
    exact hg b hy hab
  | error e =>
    rcases h.2 e hy with he | he
    · exact .excuse he
    · cases he

theorem Follows.stop {e : ε} {x' : Except ε α'} {g : β → Except ε β'}
    (h : Follows excused R (.error e) y) (hx : x' = .error e) : Follows excused S x' (y >>= g) := by
  rw [hx]
  cases hy : y with
  | ok b =>
    obtain ⟨a, ha, -⟩ := h.1 b hy
    cases ha
  | error e' =>
    rcases h.2 e' hy with he | he
    · exact .excuse he
    · cases he
      exact .error e

theorem Follows.map {f : α → α'} {g : β → β'} (h : Follows excused R x y) (hf : ∀ a b, R a b →
    S (f a) (g b)) :
    Follows excused S (f <$> x) (g <$> y) := by
  cases hy : y with
  | ok b =>
    obtain ⟨a, rfl, hab⟩ := h.1 b hy
    exact .ok (hf a b hab)
  | error e =>
    rcases h.2 e hy with he | rfl
    · exact .excuse he
    · exact .error e

theorem Follows.ite {p q : Prop} [Decidable p] [Decidable q] {x' : Except ε α}
    {y' : Except ε β} (hpq : p ↔ q)
    (h : q → Follows excused R x y) (h' : ¬q → Follows excused R x' y') :
    Follows excused R (if p then x else x') (if q then y else y') := by
  by_cases hq : q
  · rw [if_pos (hpq.mpr hq), if_pos hq]
    exact h hq
  · rw [if_neg (fun hp => hq (hpq.mp hp)), if_neg hq]
    exact h' hq

end Libuc.Lib
