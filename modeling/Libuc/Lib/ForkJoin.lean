import Mathlib.Data.List.Infix
import Mathlib.Logic.Relation
import Mathlib.Data.Set.Insert
import Libuc.Lib.Runs

/-! Processes that fork and join, under any scheduler. What a process does next is
a function of its name and of the answers it has had: it ends with a result, gets
an answer that is fixed beforehand, makes a new process, or waits for another one
to end. A run adds one answer at a time, in any order. Two runs that can go no
further have given every process the same answers. -/

namespace Libuc.Lib.ForkJoin

inductive Act (N A S : Type*) where
  | ends (result : S)
  | gets (answer : A)
  | makes (child : N) (answer : A)
  | waits (target : N) (answer : S → A)

abbrev Network (N A S : Type*) := N → List A → Act N A S

structure Progress (N A : Type*) where
  known : Set N
  had : N → List A

variable {N A S : Type*} {P : Network N A S} {x y z : Progress N A} {n q : N} {a : A} {h : List A}

/-- Why the process `n`, after the answers `h`, may have the answer `a`. -/
inductive Earned (P : Network N A S) (x : Progress N A) (n : N) (h : List A) (a : A) : Prop
  | gets (act : P n h = .gets a)
  | makes {child : N} (act : P n h = .makes child a) (known : child ∈ x.known)
  | waits {target : N} {answer : S → A} {result : S} (act : P n h = .waits target answer)
      (known : target ∈ x.known) (ended : P target (x.had target) = .ends result)
      (eq : a = answer result)

structure Adds (x y : Progress N A) (n : N) (a : A) : Prop where
  self : y.had n = x.had n ++ [a]
  other : ∀ m, m ≠ n → y.had m = x.had m

inductive Step (P : Network N A S) (x y : Progress N A) : Prop
  | gets {n : N} {a : A} (hn : n ∈ x.known) (act : P n (x.had n) = .gets a) (adds : Adds x y n a)
      (known : y.known = x.known)
  | makes {n child : N} {a : A} (hn : n ∈ x.known) (act : P n (x.had n) = .makes child a)
      (adds : Adds x y n a) (fresh : x.had child = []) (known : y.known = insert child x.known)
  | waits {n target : N} {answer : S → A} {result : S} (hn : n ∈ x.known)
      (act : P n (x.had n) = .waits target answer) (there : target ∈ x.known)
      (ended : P target (x.had target) = .ends result) (adds : Adds x y n (answer result))
      (known : y.known = x.known)

/-- Nobody can have another answer. -/
def Closed (P : Network N A S) (x : Progress N A) : Prop :=
  ∀ n ∈ x.known, (∃ s, P n (x.had n) = .ends s) ∨
    ∃ target answer, P n (x.had n) = .waits target answer ∧
      ¬ (target ∈ x.known ∧ ∃ s, P target (x.had target) = .ends s)

def Justified (P : Network N A S) (x : Progress N A) : Prop :=
  ∀ n ∈ x.known, ∀ h a, h ++ [a] <+: x.had n → Earned P x n h a

/-- As far as `x` has come, `y` has come too. -/
structure Within (x y : Progress N A) : Prop where
  known : x.known ⊆ y.known
  had : ∀ n ∈ x.known, x.had n <+: y.had n

/-- A process that has ended has no more answers. -/
theorem Justified.had_eq (hy : Justified P y) (hn : n ∈ y.known) (hp : h <+: y.had n) {s : S}
    (hs : P n h = .ends s) : y.had n = h := by
  obtain ⟨rest, hrest⟩ := hp
  cases rest with
  | nil => rw [← hrest, List.append_nil]
  | cons a rest =>
    have hearned := hy n hn h a ⟨rest, by rw [← hrest]; simp⟩
    cases hearned with
    | gets act => rw [hs] at act; cases act
    | makes act _ => rw [hs] at act; cases act
    | waits act _ _ _ => rw [hs] at act; cases act

/-- What ended here ended there, with the same result. -/
theorem Within.ended (hxy : Within x y) (hy : Justified P y) (hq : q ∈ x.known) {s : S}
    (hs : P q (x.had q) = .ends s) : P q (y.had q) = .ends s := by
  rw [hy.had_eq (hxy.known hq) (hxy.had q hq) hs]
  exact hs

/-! ### One step -/

theorem Earned.mono (he : Earned P x n h a) (hk : x.known ⊆ y.known)
    (hended : ∀ m ∈ x.known, ∀ s, P m (x.had m) = .ends s → y.had m = x.had m) : Earned P y n h a := by
  cases he with
  | gets act => exact .gets act
  | makes act known => exact .makes act (hk known)
  | @waits target answer result act known ended eq =>
    refine .waits act (hk known) ?_ eq
    rw [hended target known result ended]
    exact ended

/-- An answer that is added has been earned. -/
theorem Justified.adds (hx : Justified P x) (hadds : Adds x y n a) (hk : x.known ⊆ y.known)
    (hnew : ∀ m ∈ y.known, m ∉ x.known → y.had m = []) (hearned : Earned P x n (x.had n) a ∨
      Earned P y n (x.had n) a)
    (hgoes : ∀ s, P n (x.had n) ≠ .ends s) : Justified P y := by
  have hended : ∀ m ∈ x.known, ∀ s, P m (x.had m) = .ends s → y.had m = x.had m := by
    intro m _ s hs
    refine hadds.other m ?_
    rintro rfl
    exact hgoes s hs
  intro m hm h a' hp
  by_cases hmx : m ∈ x.known
  · by_cases hmn : m = n
    · subst hmn
      rw [hadds.self] at hp
      rcases List.prefix_concat_iff.mp hp with heq | hp
      · obtain ⟨rfl, ha⟩ := List.append_inj' heq rfl
        cases ha
        rcases hearned with he | he
        · exact he.mono hk hended
        · exact he
      · exact (hx m hmx h a' hp).mono hk hended
    · rw [hadds.other m hmn] at hp
      exact (hx m hmx h a' hp).mono hk hended
  · rw [hnew m hm hmx] at hp
    simp at hp

theorem Justified.step (hx : Justified P x) (hs : Step P x y) : Justified P y := by
  cases hs with
  | gets hn act adds known =>
    refine hx.adds adds known.ge ?_ (.inl (.gets act)) (by rw [act]; nofun)
    intro m hm hmx
    exact absurd (known ▸ hm) hmx
  | @makes n child a hn act adds fresh known =>
    refine hx.adds adds (known ▸ Set.subset_insert child _) ?_
      (.inr (.makes act (known ▸ Set.mem_insert child _)))
      (by rw [act]; nofun)
    intro m hm hmx
    rw [known] at hm
    obtain rfl : m = child := hm.resolve_right hmx
    have hne : m ≠ n := by
      rintro rfl
      exact hmx hn
    rw [adds.other m hne, fresh]
  | waits hn act there ended adds known =>
    refine hx.adds adds known.ge ?_ (.inl (.waits act there ended rfl)) (by rw [act]; nofun)
    intro m hm hmx
    exact absurd (known ▸ hm) hmx

/-- A step stays within whatever can go no further. -/
theorem Within.step (hxz : Within x z) (hz : Justified P z) (hc : Closed P z) (hs : Step P x y) :
    Within y z := by
  -- the next answer of a process that goes on is there already
  have hnext : ∀ {n a}, n ∈ x.known → Adds x y n a → (∀ a', Earned P z n (x.had n) a' → a' = a) →
      (∀ s, P n (x.had n) ≠ .ends s) →
      (∀ target answer, P n (x.had n) = .waits target answer → target ∈ z.known ∧ ∃ s,
        P target (z.had target) = .ends s) →
      ∀ m ∈ x.known, y.had m <+: z.had m := by
    intro n a hn hadds hsame hgoes hwaits m hm
    by_cases hmn : m = n
    · subst hmn
      obtain ⟨rest, hrest⟩ := hxz.had m hm
      cases rest with
      | nil =>
        rw [List.append_nil] at hrest
        rcases hc m (hxz.known hm) with ⟨s, hs⟩ | ⟨target, answer, hw, hnot⟩
        · exact absurd (hrest ▸ hs) (hgoes s)
        · exact absurd (hwaits target answer (hrest ▸ hw)) hnot
      | cons a' rest =>
        have hp : x.had m ++ [a'] <+: z.had m := ⟨rest, by rw [← hrest]; simp⟩
        obtain rfl := hsame a' (hz m (hxz.known hm) _ a' hp)
        rw [hadds.self]
        exact hp
    · rw [hadds.other m hmn]
      exact hxz.had m hm
  cases hs with
  | gets hn act adds known =>
    refine ⟨known ▸ hxz.known, ?_⟩
    rw [known]
    refine hnext hn adds ?_ (by rw [act]; nofun) (by rw [act]; nofun)
    intro a' he
    cases he <;> simp_all
  | @makes n child a hn act adds fresh known =>
    have hrest := hnext hn adds (by intro a' he; cases he <;> simp_all) (by rw [act]; nofun)
        (by rw [act]; nofun)
    have hchild : child ∈ z.known := by
      have hp := hrest n hn
      rw [adds.self] at hp
      have he := hz n (hxz.known hn) _ _ hp
      cases he <;> simp_all
    refine ⟨?_, ?_⟩
    · rw [known]
      exact Set.insert_subset hchild hxz.known
    · intro m hm
      rw [known] at hm
      rcases hm with rfl | hm
      · by_cases hmx : m ∈ x.known
        · exact hrest m hmx
        · have hne : m ≠ n := by
            rintro rfl
            exact hmx hn
          rw [adds.other m hne, fresh]
          exact List.nil_prefix
      · exact hrest m hm
  | @waits n target answer result hn act there ended adds known =>
    have hz' := hxz.ended hz there ended
    refine ⟨known ▸ hxz.known, ?_⟩
    rw [known]
    refine hnext hn adds ?_ (by rw [act]; nofun) ?_
    · intro a' he
      cases he with
      | gets act' => rw [act] at act'; cases act'
      | makes act' _ => rw [act] at act'; cases act'
      | waits act' _ ended' eq =>
        rw [act] at act'
        cases act'
        rw [hz'] at ended'
        cases ended'
        exact eq
    · intro target' answer' hw
      rw [act] at hw
      cases hw
      exact ⟨hxz.known there, result, hz'⟩

/-! ### Whole runs -/

def start (roots : Set N) : Progress N A := ⟨roots, fun _ => []⟩

theorem justified_start (roots : Set N) : Justified P (start roots) := by
  intro n _ h a hp
  simp [start] at hp

theorem justified_of_run {roots : Set N} (hrun : Relation.ReflTransGen (Step P) (start roots) x) :
    Justified P x :=
  keeps_run (fun _ _ h hstep => h.step hstep) (justified_start roots) hrun

theorem within_of_run {roots : Set N} (hx : Relation.ReflTransGen (Step P) (start roots) x)
    (hz : Relation.ReflTransGen (Step P) (start roots) z) (hc : Closed P z) : Within x z := by
  have hj := justified_of_run hz
  induction hx with
  | refl =>
    have hk : roots ⊆ z.known := by
      clear hc hj
      induction hz with
      | refl => exact subset_rfl
      | tail _ hstep ih =>
        cases hstep with
        | gets _ _ _ known => rw [known]; exact ih
        | makes _ _ _ _ known => rw [known]; exact ih.trans (Set.subset_insert _ _)
        | waits _ _ _ _ _ known => rw [known]; exact ih
    exact ⟨hk, fun _ _ => List.nil_prefix⟩
  | tail _ hstep ih => exact ih.step hj hc hstep

/-- Two runs from the same roots that can go no further have come equally far. -/
theorem closed_unique {roots : Set N} (hx : Relation.ReflTransGen (Step P) (start roots) x)
    (hz : Relation.ReflTransGen (Step P) (start roots) z) (hcx : Closed P x) (hcz : Closed P z) :
    x.known = z.known ∧ ∀ n ∈ x.known, x.had n = z.had n := by
  have hxz := within_of_run hx hz hcz
  have hzx := within_of_run hz hx hcx
  refine ⟨Set.Subset.antisymm hxz.known hzx.known, fun n hn => ?_⟩
  exact (hxz.had n hn).eq_of_length_le (hzx.had n (hxz.known hn)).length_le

end Libuc.Lib.ForkJoin
