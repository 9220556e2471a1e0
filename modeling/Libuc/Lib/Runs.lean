import Mathlib.Data.Set.Finite.Basic
import Mathlib.Data.Fintype.Pigeonhole
import Mathlib.Logic.Relation
import Mathlib.Tactic

/-! Runs. What every step keeps holds along a run; a list of inputs is made into a run by
evaluation, one check an input; and a relation on a finite set in which nothing is last
has a cycle. -/

namespace Libuc.Lib

section Run

variable {σ ι : Type*} {R : σ → σ → Prop} {P : σ → Prop} {step : σ → ι → Option σ}
  {check : σ → ι → Bool} {s s' : σ} {i : ι} {inputs : List ι}

theorem keeps_run (hstep : ∀ s s', P s → R s s' → P s') (hs : P s)
    (hrun : Relation.ReflTransGen R s s') : P s' := by
  induction hrun with
  | refl => exact hs
  | tail _ h ih => exact hstep _ _ ih h

/-- The inputs one after the other, as long as the check lets them pass. -/
def rehearse (step : σ → ι → Option σ) (check : σ → ι → Bool) (s : σ) (inputs : List ι) : Option σ :=
  inputs.foldlM (fun s i => if check s i then step s i else none) s

theorem rehearse_cons (h : rehearse step check s (i :: inputs) = some s') :
    ∃ s₁, check s i = true ∧ step s i = some s₁ ∧ rehearse step check s₁ inputs = some s' := by
  simp only [rehearse, List.foldlM_cons] at h
  split_ifs at h with hi
  · obtain ⟨s₁, hs, hrest⟩ := Option.bind_eq_some_iff.mp h
    exact ⟨s₁, hi, hs, hrest⟩
  · cases h

theorem rehearse_append {inputs' : List ι} (h : rehearse step check s (inputs ++ inputs') = some s') :
    ∃ s₁, rehearse step check s inputs = some s₁ ∧ rehearse step check s₁ inputs' = some s' := by
  rw [rehearse, List.foldlM_append] at h
  exact Option.bind_eq_some_iff.mp h

theorem rehearse_concat (h : rehearse step check s (inputs ++ [i]) = some s') :
    ∃ s₁, rehearse step check s inputs = some s₁ ∧ check s₁ i = true ∧ step s₁ i = some s' := by
  obtain ⟨s₁, hs, hlast⟩ := rehearse_append h
  obtain ⟨s₂, hi, hstep, hnil⟩ := rehearse_cons hlast
  cases hnil
  exact ⟨s₁, hs, hi, hstep⟩

/-- A rehearsal is a run, of whatever kind of step the check is good for. -/
theorem rehearse_run (hcheck : ∀ s i s', P s → check s i = true → step s i = some s' → R s s' ∧
    P s') (hs : P s)
    (h : rehearse step check s inputs = some s') : Relation.ReflTransGen R s s' := by
  induction inputs generalizing s with
  | nil =>
    cases h
    exact .refl
  | cons i inputs ih =>
    obtain ⟨s₁, hi, hstep, hrest⟩ := rehearse_cons h
    obtain ⟨hr, hs₁⟩ := hcheck s i s₁ hs hi hstep
    exact .head hr (ih hs₁ hrest)

end Run

section Cycle

variable {α : Type*} {R : α → α → Prop}

/-- Following a step function from `a` is following the relation. -/
theorem transGen_iterate {f : α → α} (hf : ∀ x, R x (f x)) (a : α) (n : ℕ) :
    Relation.TransGen R a (f^[n + 1] a) := by
  induction n with
  | zero => exact .single (hf a)
  | succ n ih =>
    rw [Function.iterate_succ_apply']
    exact ih.tail (hf _)

/-- In a finite set where every element is related to one, some element is
related to itself, by a chain. -/
theorem exists_cycle {S : Set α} (hfin : S.Finite) (hne : S.Nonempty) (hs : ∀ a ∈ S, ∃ b ∈ S, R a b) :
    ∃ a ∈ S, Relation.TransGen R a a := by
  obtain ⟨a₀, ha₀⟩ := hne
  choose! f hmem hrel using hs
  let g : S → S := fun x => ⟨f x, hmem x x.2⟩
  have hg : ∀ x : S, R x (g x) := fun x => hrel x x.2
  have := hfin.to_subtype
  obtain ⟨m, n, hmn, heq⟩ := Finite.exists_ne_map_eq_of_infinite fun n => g^[n] ⟨a₀, ha₀⟩
  -- the iterates repeat; from one occurrence to the next is a cycle
  have key : ∀ {m n : ℕ}, m < n → g^[m] ⟨a₀, ha₀⟩ = g^[n] ⟨a₀, ha₀⟩ → ∃ a ∈ S,
      Relation.TransGen R a a := by
    intro m n hlt heq
    obtain ⟨d, rfl⟩ := Nat.exists_eq_add_of_lt hlt
    have hstep := transGen_iterate (R := fun x y : S => R x y) hg (g^[m] ⟨a₀, ha₀⟩) d
    rw [← Function.iterate_add_apply, show d + 1 + m = m + d + 1 by omega, ← heq] at hstep
    exact ⟨_, (g^[m] ⟨a₀, ha₀⟩).2, hstep.lift Subtype.val fun _ _ h => h⟩
  rcases Nat.lt_or_gt_of_ne hmn with hlt | hlt
  · exact key hlt heq
  · exact key hlt heq.symm

end Cycle

end Libuc.Lib
