import Libuc.Machine
import Libuc.Lib.Runs

/-! Contexts in memory, for any machine. A context is a run of words that `fiber_switch`
writes for one party and reads for another; between two switches anything may happen to
the registers and to the rest of memory. What a context was written with is kept beside
the machine, so that a run can say which switch a context belongs to. -/

namespace Libuc

open Lib

/-- A machine as its contexts see it: the arguments of a call of `fiber_switch` and what
the call saves. -/
structure Isa (S : Type) where
  memory : S → Mem
  words : ℕ
  save : S → Addr
  restore : S → Addr
  contextOf : S → List (BitVec 64)
  contextMake : Addr → Addr → Addr → List (BitVec 64)
  fiberSwitch : S → S
  /-- What a call has of its return address. -/
  Entered : S → Prop
  contextOf_length : ∀ s, (contextOf s).length = words
  contextMake_length : ∀ stackTop function argument,
    (contextMake stackTop function argument).length = words
  saves : ∀ s, Entered s → (save s).toNat + 8 * words ≤ 2 ^ 64 →
    HoldsWords (memory (fiberSwitch s)) (save s) (contextOf s)
  frame : ∀ s, (save s).toNat + 8 * words ≤ 2 ^ 64 → ∀ x, Outside (save s) (8 * words) x →
    memory (fiberSwitch s) x = memory s x

/-- Where a context comes from: `fiber_context_make`, or a switch made in the state `s`. -/
inductive Origin (S : Type) where
  | made (stackTop function argument : Addr)
  | saved (s : S)

variable {S : Type} {isa : Isa S}

def Isa.wordsOf (isa : Isa S) : Origin S → List (BitVec 64)
  | .made stackTop function argument => isa.contextMake stackTop function argument
  | .saved s => isa.contextOf s

theorem Isa.wordsOf_length (isa : Isa S) (o : Origin S) : (isa.wordsOf o).length = isa.words := by
  cases o with
  | made stackTop function argument => exact isa.contextMake_length stackTop function argument
  | saved s => exact isa.contextOf_length s

structure Contexts (S : Type) where
  machine : S
  origin : Addr → Option (Origin S)

namespace Contexts

/-- An object of a context's size at `c` that is none of the other contexts. -/
def Room (isa : Isa S) (w : Contexts S) (c : Addr) : Prop :=
  c.toNat + 8 * isa.words ≤ 2 ^ 64 ∧
    ∀ c' o, w.origin c' = some o → c' ≠ c → Separate c' (8 * isa.words) c (8 * isa.words)

structure Calls (isa : Isa S) (w : Contexts S) : Prop where
  entered : isa.Entered w.machine
  room : w.Room isa (isa.save w.machine)
  target : ∃ o, w.origin (isa.restore w.machine) = some o
  distinct : isa.restore w.machine ≠ isa.save w.machine

/-- A context is made, a switch is made, or code runs: with any registers, but writing
over no context that is still one afterwards. -/
inductive Step (isa : Isa S) (w : Contexts S) : Contexts S → Prop
  | make {s : S} {c stackTop function argument : Addr} (hroom : w.Room isa c)
      (hmemory : isa.memory s =
      storeWords (isa.memory w.machine) c (isa.contextMake stackTop function argument)) :
      Step isa w ⟨s, Function.update w.origin c (some (.made stackTop function argument))⟩
  | code {s : S} {origin : Addr → Option (Origin S)}
      (h : ∀ c o, origin c = some o → w.origin c = some o ∧ ∀ x : Addr, c.toNat ≤ x.toNat →
        x.toNat < c.toNat + 8 * isa.words → isa.memory s x = isa.memory w.machine x) :
        Step isa w ⟨s, origin⟩
  | switch (hcalls : w.Calls isa) :
      Step isa w ⟨isa.fiberSwitch w.machine,
        Function.update w.origin (isa.save w.machine) (some (.saved w.machine))⟩

def Intact (isa : Isa S) (w : Contexts S) : Prop :=
  ∀ c o, w.origin c = some o → c.toNat + 8 * isa.words ≤ 2 ^ 64 ∧
  HoldsWords (isa.memory w.machine) c (isa.wordsOf o)

variable {w w' : Contexts S}

/-- Writing one context leaves the others as they were. -/
theorem Intact.write (h : w.Intact isa) {s : S} {c : Addr} {o : Origin S} (hroom : w.Room isa c)
    (hholds : HoldsWords (isa.memory s) c (isa.wordsOf o))
    (hframe : ∀ x, Outside c (8 * isa.words) x → isa.memory s x = isa.memory w.machine x) :
    Intact isa ⟨s, Function.update w.origin c (some o)⟩ := by
  intro c' o' ho
  simp only at ho ⊢
  by_cases hc : c' = c
  · subst hc
    rw [Function.update_self, Option.some.injEq] at ho
    subst ho
    exact ⟨hroom.1, hholds⟩
  · rw [Function.update_of_ne hc] at ho
    obtain ⟨hfits, hwords⟩ := h c' o' ho
    have hlen := isa.wordsOf_length o'
    refine ⟨hfits, hwords.congr (by rw [hlen]; exact hfits) fun x hlow hhigh => hframe x ?_⟩
    rw [hlen] at hhigh
    exact (hroom.2 c' o' ho hc).cell hlow hhigh

theorem Intact.step (h : w.Intact isa) (hs : Step isa w w') : w'.Intact isa := by
  cases hs with
  | @make s c stackTop function argument hroom hmemory =>
    have hlen := isa.contextMake_length stackTop function argument
    have hfits : c.toNat + 8 * (isa.contextMake stackTop function argument).length ≤ 2 ^ 64 := by
      rw [hlen]
      exact hroom.1
    refine h.write hroom ?_ fun x hx => ?_
    · rw [hmemory]
      exact holdsWords_storeWords _ hfits
    · rw [hmemory]
      exact storeWords_outside _ _ hfits (by rw [hlen]; exact hx)
  | code hkept =>
    intro c o ho
    obtain ⟨ho', hsame⟩ := hkept c o ho
    obtain ⟨hfits, hwords⟩ := h c o ho'
    have hlen := isa.wordsOf_length o
    exact ⟨hfits, hwords.congr (by rw [hlen]; exact hfits) (by rw [hlen]; exact hsame)⟩
  | switch hcalls =>
    exact h.write hcalls.room (isa.saves _ hcalls.entered hcalls.room.1) (isa.frame _ hcalls.room.1)

/-- In every run each context holds what it was last written with. -/
theorem intact_run (hstart : ∀ c, w.origin c = none)
    (hrun : Relation.ReflTransGen (Step isa) w w') : w'.Intact isa := by
  refine keeps_run (fun _ _ h hs => h.step hs) (fun c o ho => ?_) hrun
  rw [hstart c] at ho
  cases ho

/-- What a switch finds in the context it switches to. -/
theorem Calls.finds (hc : w.Calls isa) (h : w.Intact isa) {o : Origin S}
    (ho : w.origin (isa.restore w.machine) = some o) :
    HoldsWords (isa.memory (isa.fiberSwitch w.machine)) (isa.restore w.machine) (isa.wordsOf o) := by
  obtain ⟨hfits, hwords⟩ := h _ o ho
  have hlen := isa.wordsOf_length o
  refine hwords.congr (by rw [hlen]; exact hfits) fun x hlow hhigh => isa.frame _ hc.room.1 x ?_
  rw [hlen] at hhigh
  exact (hc.room.2 _ o ho hc.distinct).cell hlow hhigh

/-- There and back: a party makes a context, switches to it, and code that runs there
switches back. Each step may be asked to keep `P`. -/
theorem there_and_back {P : S → S → Prop} {s₀ s₁ s₂ : S} {c d stackTop function argument : Addr}
    (hc : c.toNat + 8 * isa.words ≤ 2 ^ 64) (hd : d.toNat + 8 * isa.words ≤ 2 ^ 64)
    (hapart : Separate c (8 * isa.words) d (8 * isa.words)) (hne : c ≠ d)
    (hmake : isa.memory s₁ = storeWords (isa.memory s₀) d (isa.contextMake stackTop function argument))
    (h₁ : isa.save s₁ = c ∧ isa.restore s₁ = d ∧ isa.Entered s₁)
    (h₂ : isa.save s₂ = d ∧ isa.restore s₂ = c ∧ isa.Entered s₂)
    (hmemory : isa.memory s₂ = isa.memory (isa.fiberSwitch s₁))
    (hP : P s₀ s₁ ∧ P s₁ (isa.fiberSwitch s₁) ∧ P (isa.fiberSwitch s₁) s₂) :
    ∃ w : Contexts S, Relation.ReflTransGen (fun w w' => Step isa w w' ∧ P w.machine w'.machine)
      ⟨s₀, fun _ => none⟩ w ∧
      w.Calls isa ∧ w.machine = s₂ ∧ w.origin (isa.restore w.machine) = some (.saved s₁) := by
  obtain ⟨hsave₁, hrestore₁, hentered₁⟩ := h₁
  obtain ⟨hsave₂, hrestore₂, hentered₂⟩ := h₂
  let made : Addr → Option (Origin S) :=
    Function.update (fun _ => none) d (some (.made stackTop function argument))
  have hmade : ∀ c' o, made c' = some o → c' = d := by
    intro c' o ho
    by_contra hc'
    simp only [made, Function.update_of_ne hc'] at ho
    cases ho
  have hroom₀ : Room isa ⟨s₀, fun _ => none⟩ d := ⟨hd, nofun⟩
  have hcalls₁ : Calls isa ⟨s₁, made⟩ := by
    refine ⟨hentered₁, ?_, ⟨.made stackTop function argument, ?_⟩, ?_⟩
    · rw [hsave₁]
      refine ⟨hc, fun c' o ho _ => ?_⟩
      rw [hmade c' o ho]
      exact hapart.symm
    · simp only [hrestore₁, made, Function.update_self]
    · rw [hsave₁, hrestore₁]
      exact hne.symm
  have hback : Function.update made c (some (.saved s₁)) c = some (.saved s₁) :=
    Function.update_self _ _ _
  have hcalls₂ : Calls isa ⟨s₂, Function.update made c (some (.saved s₁))⟩ := by
    refine ⟨hentered₂, ?_, ⟨.saved s₁, ?_⟩, ?_⟩
    · rw [hsave₂]
      refine ⟨hd, fun c' o ho hc' => ?_⟩
      have hcc : c' = c := by
        by_contra hcc
        simp only [Function.update_of_ne hcc] at ho
        exact hc' (hmade c' o ho)
      rw [hcc]
      exact hapart
    · rw [hrestore₂]
      exact hback
    · rw [hsave₂, hrestore₂]
      exact hne
  have hstep₁ : Step isa ⟨s₀, fun _ => none⟩ ⟨s₁, made⟩ := .make hroom₀ hmake
  have hstep₂ :
      Step isa ⟨s₁, made⟩ ⟨isa.fiberSwitch s₁, Function.update made c (some (.saved s₁))⟩ := by
    have h := Step.switch hcalls₁
    simp only [hsave₁] at h
    exact h
  have hstep₃ : Step isa ⟨isa.fiberSwitch s₁, Function.update made c (some (.saved s₁))⟩
      ⟨s₂, Function.update made c (some (.saved s₁))⟩ :=
    .code fun c' o ho => ⟨ho, fun x _ _ => by rw [hmemory]⟩
  refine ⟨_, ((Relation.ReflTransGen.single ⟨hstep₁, hP.1⟩).tail ⟨hstep₂, hP.2.1⟩).tail
    ⟨hstep₃, hP.2.2⟩, hcalls₂, rfl, ?_⟩
  simp only [hrestore₂]
  exact hback

end Contexts

end Libuc
