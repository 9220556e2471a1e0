import Libuc.Arch.Aarch64
import Libuc.Arch.X8664

/-! `fiber_switch` as a call of the psABI, over every run of switches. On AArch64 a
switch back restores all that a call must keep. On x86-64 it restores the registers but
not the floating-point control words, which stay those of the party that switched. -/

namespace Libuc

open Lib

variable {code : Code}

/-- No saved context has other control words than the machine. -/
def X8664.ControlKept (w : Contexts X8664.State) : Prop :=
  ∀ c s, w.origin c = some (.saved s) → s.control = w.machine.control

theorem X8664.ControlKept.step {w w' : Contexts X8664.State} (h : ControlKept w)
    (hs : Contexts.Step (isa code) w w')
    (hkept : w'.machine.control = w.machine.control) : ControlKept w' := by
  intro c s hc
  rw [hkept]
  cases hs with
  | @make s' d stackTop function argument hroom hmemory =>
    by_cases hd : c = d
    · subst hd
      simp only [Function.update_self] at hc
      cases hc
    · simp only [Function.update_of_ne hd] at hc
      exact h c s hc
  | code hsame => exact h c s (hsame c _ hc).1
  | switch hcalls =>
    by_cases hd : c = (isa code).save w.machine
    · subst hd
      simp only [Function.update_self, Option.some.injEq, Origin.saved.injEq] at hc
      rw [hc]
    · simp only [Function.update_of_ne hd] at hc
      exact h c s hc

def X8664.KeepsControl (s s' : X8664.State) : Prop := s'.control = s.control

theorem X8664.controlKept_run {w w' : Contexts X8664.State} (hstart : ∀ c, w.origin c = none)
    (hrun : Relation.ReflTransGen
      (fun w w' => Contexts.Step (isa code) w w' ∧ KeepsControl w.machine w'.machine) w w') :
    ControlKept w' := by
  refine keeps_run (fun _ _ h hs => h.step hs.1 hs.2) (fun c s hc => ?_) hrun
  rw [hstart c] at hc
  cases hc

/-- In every run of switches a context that is switched back to continues as its psABI
promises: on AArch64 always, on x86-64 if no step changes the control words. There, at
each switch, the control words are the only thing that can differ, and they do exactly
if the switcher's are not those of the saved party. A new context starts its function. -/
theorem fiberSwitch_psabi (code : Code) :
    (∀ w w' : Contexts Aarch64.State, (∀ c, w.origin c = none) →
      Relation.ReflTransGen (Contexts.Step (Aarch64.isa code)) w w' → w'.Calls (Aarch64.isa code) →
      (∀ s, w'.origin (w'.machine.x 1) = some (.saved s) →
        Aarch64.Returns s (Aarch64.fiberSwitch w'.machine) ∧
        (Aarch64.fiberSwitch w'.machine).x 0 = w'.machine.x 2) ∧
      (∀ stackTop function argument,
        w'.origin (w'.machine.x 1) = some (.made stackTop function argument) →
        (Aarch64.fiberSwitch w'.machine).pc = code.fiberStart ∧
          Aarch64.Starts function argument (Aarch64.fiberStart (Aarch64.fiberSwitch w'.machine)))) ∧
    (∀ w w' : Contexts X8664.State, (∀ c, w.origin c = none) →
      Relation.ReflTransGen
        (fun w w' => Contexts.Step (X8664.isa code) w w' ∧
          X8664.KeepsControl w.machine w'.machine) w w' →
      w'.Calls (X8664.isa code) →
      ∀ s, w'.origin (w'.machine.r .rsi) = some (.saved s) →
      X8664.Returns s (X8664.fiberSwitch w'.machine)) ∧
    (∀ w w' : Contexts X8664.State, (∀ c, w.origin c = none) →
      Relation.ReflTransGen (Contexts.Step (X8664.isa code)) w w' → w'.Calls (X8664.isa code) →
      (∀ s, w'.origin (w'.machine.r .rsi) = some (.saved s) →
        X8664.Restores s (X8664.fiberSwitch w'.machine) ∧
        (X8664.fiberSwitch w'.machine).r .rax = w'.machine.r .rdx ∧
        (X8664.Returns s (X8664.fiberSwitch w'.machine) ↔ w'.machine.control = s.control)) ∧
      (∀ stackTop function argument,
        w'.origin (w'.machine.r .rsi) = some (.made stackTop function argument) →
        (X8664.fiberSwitch w'.machine).rip = code.fiberStart ∧
          X8664.Starts function argument (X8664.fiberStart (X8664.fiberSwitch w'.machine)))) := by
  refine ⟨fun w w' hstart hrun hc => ?_, fun w w' hstart hrun hc s ho => ?_,
    fun w w' hstart hrun hc => ?_⟩
  · have hi := Contexts.intact_run hstart hrun
    exact ⟨fun s ho => ⟨Aarch64.switch_returns hc hi ho, Aarch64.switch_token _⟩,
      fun stackTop function argument ho => Aarch64.switch_starts hc hi ho⟩
  · have hi := Contexts.intact_run hstart (hrun.lift id fun _ _ h => h.1)
    exact (X8664.switch_returns_iff hc hi ho).mpr (X8664.controlKept_run hstart hrun _ s ho).symm
  · have hi := Contexts.intact_run hstart hrun
    exact ⟨fun s ho =>
      ⟨X8664.switch_restores hc hi ho, X8664.switch_token _, X8664.switch_returns_iff hc hi ho⟩,
      fun stackTop function argument ho => X8664.switch_starts hc hi ho⟩

/-- A caller at `0x8000` that is about to switch from the context at `0x1000` to the one
at `0x2000`, with the default control words. -/
def X8664.caller : X8664.State where
  r := fun reg => match reg with
    | .rdi => 0x1000#64
    | .rsi => 0x2000#64
    | .rsp => 0x8000#64
    | _ => 0#64
  rip := 0#64
  mxcsr := 0x1F80#32
  fpcw := 0x37F#16
  memory := storeWords (fun _ => 0#8) 0x2000#64
    (FiberRecord.contextMake .x8664 sampleCode 0x7000#64 0x402000#64 0#64)

/-- The function it starts, about to switch back, with the given MXCSR. -/
def X8664.answerer (mxcsr : BitVec 32) : X8664.State where
  r := fun reg => match reg with
    | .rdi => 0x2000#64
    | .rsi => 0x1000#64
    | .rsp => 0x6000#64
    | _ => 0#64
  rip := 0#64
  mxcsr := mxcsr
  fpcw := 0x37F#16
  memory := (X8664.fiberSwitch X8664.caller).memory

theorem X8664.caller_back (mxcsr : BitVec 32) {P : X8664.State → X8664.State → Prop}
    (hP : P { caller with memory := fun _ => 0#8 } caller ∧ P caller (fiberSwitch caller) ∧
      P (fiberSwitch caller) (answerer mxcsr)) :
    ∃ w : Contexts X8664.State, Relation.ReflTransGen
        (fun w w' => Contexts.Step (isa sampleCode) w w' ∧ P w.machine w'.machine)
        ⟨{ caller with memory := fun _ => 0#8 }, fun _ => none⟩ w ∧
      w.Calls (isa sampleCode) ∧ w.machine = answerer mxcsr ∧
      w.origin (w.machine.r .rsi) = some (.saved caller) := by
  have hcaller : (isa sampleCode).save caller = 0x1000#64 ∧
      (isa sampleCode).restore caller = 0x2000#64 ∧
      (isa sampleCode).Entered caller := ⟨rfl, rfl, .inr (by decide), by decide⟩
  have hanswerer : (isa sampleCode).save (answerer mxcsr) = 0x2000#64 ∧
      (isa sampleCode).restore (answerer mxcsr) = 0x1000#64 ∧
      (isa sampleCode).Entered (answerer mxcsr) := by
    refine ⟨rfl, rfl, ?_⟩
    simp only [isa, Entered, Separate, answerer]
    decide
  have hmemory : (isa sampleCode).memory (answerer mxcsr) =
      (isa sampleCode).memory ((isa sampleCode).fiberSwitch caller) := by simp only [isa, answerer]
  have hmake : (isa sampleCode).memory caller =
      storeWords ((isa sampleCode).memory { caller with memory := fun _ => 0#8 }) 0x2000#64
        ((isa sampleCode).contextMake 0x7000#64 0x402000#64 0#64) := rfl
  exact Contexts.there_and_back (by decide) (by decide) (.inl (by decide))
    (by decide) hmake hcaller hanswerer hmemory hP

/-- On x86-64 a fiber that rounds towards zero and switches back hands its rounding to
the caller, which had switched away rounding to nearest. -/
theorem rounding_leaks_through_switch :
    ∃ w w' : Contexts X8664.State, (∀ c, w.origin c = none) ∧
      Relation.ReflTransGen (Contexts.Step (X8664.isa sampleCode)) w w' ∧
      w'.Calls (X8664.isa sampleCode) ∧
      w'.origin (w'.machine.r .rsi) = some (.saved X8664.caller) ∧
      ¬ X8664.Returns X8664.caller (X8664.fiberSwitch w'.machine) := by
  obtain ⟨w, hrun, hcalls, hmachine, ho⟩ :=
    X8664.caller_back 0x7F80#32 (P := fun _ _ => True) ⟨trivial, trivial, trivial⟩
  refine ⟨_, w, fun _ => rfl, hrun.lift id fun _ _ h => h.1, hcalls, ho, fun hr => ?_⟩
  have hcontrol := hr.control
  rw [X8664.switch_control, hmachine] at hcontrol
  exact absurd hcontrol (by decide)

def Aarch64.caller : Aarch64.State where
  x := fun i => if i.val = 0 then 0x1000#64 else if i.val = 1 then 0x2000#64 else 0#64
  sp := 0x8000#64
  v := fun _ => 0#128
  pc := 0#64
  memory := storeWords (fun _ => 0#8) 0x2000#64
    (FiberRecord.contextMake .aarch64 sampleCode 0x7000#64 0x402000#64 0#64)

def Aarch64.answerer : Aarch64.State where
  x := fun i => if i.val = 0 then 0x2000#64 else if i.val = 1 then 0x1000#64 else 0xdead#64
  sp := 0x6000#64
  v := fun _ => 0xdead#128
  pc := 0#64
  memory := (Aarch64.fiberSwitch Aarch64.caller).memory

/-- Runs there and back on both machines; on x86-64 the fiber sets a status bit of MXCSR
and no control bit. -/
theorem fiberSwitch_psabi_there_and_back :
    (∃ w : Contexts Aarch64.State, w.machine = Aarch64.answerer ∧
      Aarch64.Returns Aarch64.caller (Aarch64.fiberSwitch w.machine)) ∧
    (∃ w : Contexts X8664.State, w.machine = X8664.answerer 0x1FA0#32 ∧
      X8664.Returns X8664.caller (X8664.fiberSwitch w.machine)) := by
  obtain ⟨harm, hx86, -⟩ := fiberSwitch_psabi sampleCode
  constructor
  · have hmemory : (Aarch64.isa sampleCode).memory Aarch64.answerer =
        (Aarch64.isa sampleCode).memory ((Aarch64.isa sampleCode).fiberSwitch Aarch64.caller) := by
      simp only [Aarch64.isa, Aarch64.answerer]
    have hmake : (Aarch64.isa sampleCode).memory Aarch64.caller =
        storeWords ((Aarch64.isa sampleCode).memory
          { Aarch64.caller with memory := fun _ => 0#8 }) 0x2000#64
          ((Aarch64.isa sampleCode).contextMake 0x7000#64 0x402000#64 0#64) := rfl
    obtain ⟨w, hrun, hcalls, hmachine, ho⟩ :=
      Contexts.there_and_back (P := fun _ _ => True) (c := 0x1000#64) (by decide)
      (by decide) (.inl (by decide)) (by decide) hmake ⟨rfl, rfl, trivial⟩ ⟨rfl, rfl, trivial⟩ hmemory
      ⟨trivial, trivial, trivial⟩
    exact ⟨w, hmachine, ((harm _ w (fun _ => rfl) (hrun.lift id fun _ _ h => h.1) hcalls).1 _ ho).1⟩
  · obtain ⟨w, hrun, hcalls, hmachine, ho⟩ := X8664.caller_back 0x1FA0#32 (P := X8664.KeepsControl)
      ⟨rfl, X8664.switch_control _, by
        rw [X8664.KeepsControl, X8664.switch_control]
        decide⟩
    exact ⟨w, hmachine, hx86 _ w (fun _ => rfl) hrun hcalls _ ho⟩

end Libuc
