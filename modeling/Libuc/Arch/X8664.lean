import Libuc.Fiber.Contexts
import Libuc.Fiber.Spawn

/-! `fiber_switch` and `fiber_start` on x86-64, instruction by instruction. The return
address is on the stack, so it is read before the stack pointer that follows it is
saved. The control bits of MXCSR and the x87 control word are callee-saved too; no
instruction here reads or writes them. -/

namespace Libuc.X8664

open Lib

inductive Reg where
  | rax | rbx | rcx | rdx | rsi | rdi | rbp | rsp | r8 | r9 | r10 | r11 | r12 | r13 | r14 | r15
  deriving DecidableEq

structure State where
  r : Reg → BitVec 64
  rip : BitVec 64
  mxcsr : BitVec 32
  fpcw : BitVec 16
  memory : Mem

/-- The instructions the two functions use; memory operands are `offset(%base)`. -/
inductive Instr where
  | store (src base : Reg) (offset : ℕ)
  | load (base dst : Reg) (offset : ℕ)
  | mov (src dst : Reg)
  | lea (base dst : Reg) (offset : ℕ)
  | xorlSelf (dst : Reg)
  | pushZero
  | jmpMemory (base : Reg) (offset : ℕ)
  | jmp (src : Reg)

def exec (s : State) : Instr → State
  | .store src base offset =>
      { s with memory := store64 s.memory (s.r base + BitVec.ofNat 64 offset) (s.r src) }
  | .load base dst offset =>
    { s with r := Function.update s.r dst (load64 s.memory (s.r base + BitVec.ofNat 64 offset)) }
  | .mov src dst => { s with r := Function.update s.r dst (s.r src) }
  | .lea base dst offset => { s with r := Function.update s.r dst (s.r base + BitVec.ofNat 64 offset) }
  -- a 32-bit result clears the upper half
  | .xorlSelf dst => { s with r := Function.update s.r dst 0#64 }
  | .pushZero =>
    let top := s.r .rsp - 8#64
    { s with r := Function.update s.r .rsp top, memory := store64 s.memory top 0#64 }
  | .jmpMemory base offset => { s with rip := load64 s.memory (s.r base + BitVec.ofNat 64 offset) }
  | .jmp src => { s with rip := s.r src }

def run (s : State) (program : List Instr) : State := program.foldl exec s

/-- The first half of `fiber_switch`: `save` is in `rdi`. -/
def saving : List Instr :=
  [.store .rbx .rdi 0, .store .rbp .rdi 8, .store .r12 .rdi 16, .store .r13 .rdi 24,
    .store .r14 .rdi 32,
    .store .r15 .rdi 40, .load .rsp .rax 0, .store .rax .rdi 56, .lea .rsp .rax 8, .store .rax .rdi 48]

/-- The second half: `restore` is in `rsi`, the token in `rdx`. -/
def restoring : List Instr :=
  [.load .rsi .rbx 0, .load .rsi .rbp 8, .load .rsi .r12 16, .load .rsi .r13 24, .load .rsi .r14 32,
    .load .rsi .r15 40, .load .rsi .rsp 48, .mov .rdx .rax, .jmpMemory .rsi 56]

def fiberSwitch (s : State) : State := run s (saving ++ restoring)

def fiberStart (s : State) : State := run s [.xorlSelf .rbp, .pushZero, .mov .r13 .rdi, .jmp .r12]

def State.returnAddress (s : State) : BitVec 64 := load64 s.memory (s.r .rsp)

/-- What `fiber_switch` saves, in the order of `struct fiber_context`. -/
def contextOf (s : State) : List (BitVec 64) :=
  [s.r .rbx, s.r .rbp, s.r .r12, s.r .r13, s.r .r14, s.r .r15, s.r .rsp + 8#64, s.returnAddress]

/-- The return address is not part of the context. -/
def Entered (s : State) : Prop := Separate (s.r .rsp) 8 (s.r .rdi) 64 ∧ (s.r .rsp).toNat + 8 ≤ 2 ^ 64

def registersOf (s : State) : List (BitVec 64) :=
  [s.r .rbx, s.r .rbp, s.r .r12, s.r .r13, s.r .r14, s.r .r15]

def savedMemory (s : State) : Mem :=
  let m := storeWords s.memory (s.r .rdi) (registersOf s)
  store64 (store64 m (s.r .rdi + 56#64) (load64 m (s.r .rsp))) (s.r .rdi + 48#64) (s.r .rsp + 8#64)

theorem run_saving (s : State) : run s saving =
    { s with r := Function.update s.r .rax (s.r .rsp + 8#64), memory := savedMemory s } := by
  simp only [run, saving, List.foldl_cons, List.foldl_nil, exec, savedMemory, registersOf, storeWords,
    add_assoc, BitVec.reduceAdd, Function.update_self, BitVec.add_zero,
    Function.update_of_ne (show Reg.rdi ≠ .rax by decide),
    Function.update_of_ne (show Reg.rsp ≠ .rax by decide), Function.update_idem]

/-- Word `i` of the context in `rsi`. -/
def State.word (s : State) (i : ℕ) : BitVec 64 := load64 s.memory (s.r .rsi + BitVec.ofNat 64 (8 * i))

theorem restored (s : State) :
    (run s restoring).r .rbx = s.word 0 ∧ (run s restoring).r .rbp = s.word 1 ∧
    (run s restoring).r .r12 = s.word 2 ∧
    (run s restoring).r .r13 = s.word 3 ∧ (run s restoring).r .r14 = s.word 4 ∧
    (run s restoring).r .r15 = s.word 5 ∧
    (run s restoring).r .rsp = s.word 6 ∧ (run s restoring).rip = s.word 7 :=
  ⟨rfl, rfl, rfl, rfl, rfl, rfl, rfl, rfl⟩

theorem restored_rest (s : State) :
    (run s restoring).r .rax = s.r .rdx ∧ (run s restoring).mxcsr = s.mxcsr ∧
    (run s restoring).fpcw = s.fpcw ∧ (run s restoring).memory = s.memory := ⟨rfl, rfl, rfl, rfl⟩

theorem fiberSwitch_eq (s : State) : fiberSwitch s = run (run s saving) restoring := List.foldl_append

theorem fiberSwitch_memory (s : State) : (fiberSwitch s).memory = savedMemory s := by
  rw [fiberSwitch_eq, (restored_rest _).2.2.2, run_saving]

variable {s : State}

theorem savedMemory_outside (hfits : (s.r .rdi).toNat + 64 ≤ 2 ^ 64) {x : Addr}
    (hx : Outside (s.r .rdi) 64 x) :
    savedMemory s x = s.memory x := by
  have h48 : (s.r .rdi + 48#64).toNat = (s.r .rdi).toNat + 48 := toNat_add_of_fits (i := 48) (by omega)
  have h56 : (s.r .rdi + 56#64).toNat = (s.r .rdi).toNat + 56 := toNat_add_of_fits (i := 56) (by omega)
  have hlen : 8 * (registersOf s).length = 48 := rfl
  simp only [savedMemory]
  rw [store64_outside _ _ (by omega) (hx.imp (fun h => by omega) fun h => by omega),
    store64_outside _ _ (by omega) (hx.imp (fun h => by omega) fun h => by omega),
    storeWords_outside _ _ (by omega) (by rw [hlen]; exact hx.imp id fun h => by omega)]

/-- The stores leave the context in memory: the return address is still on the stack
when it is read. -/
theorem savedMemory_holds (he : Entered s) (hfits : (s.r .rdi).toNat + 64 ≤ 2 ^ 64) :
    HoldsWords (savedMemory s) (s.r .rdi) (contextOf s) := by
  have h48 : (s.r .rdi + 48#64).toNat = (s.r .rdi).toNat + 48 := toNat_add_of_fits (i := 48) (by omega)
  have h56 : (s.r .rdi + 56#64).toNat = (s.r .rdi).toNat + 56 := toNat_add_of_fits (i := 56) (by omega)
  have hlen : 8 * (registersOf s).length = 48 := rfl
  have hreturn : load64 (storeWords s.memory (s.r .rdi) (registersOf s)) (s.r .rsp) = s.returnAddress :=
    load64_storeWords_separate _ _ he.2 (by omega) (by
      rw [hlen]
      exact (he.1.symm.sub le_rfl (by omega)).symm)
  have hregister : ∀ i, (hi : i < (registersOf s).length) →
      load64 (savedMemory s) (s.r .rdi + BitVec.ofNat 64 (8 * i)) = (registersOf s)[i] := by
    intro i hi
    have hi' : i < 6 := hi
    have hat : (s.r .rdi + BitVec.ofNat 64 (8 * i)).toNat = (s.r .rdi).toNat + 8 * i :=
      toNat_add_of_fits (by omega)
    simp only [savedMemory]
    rw [load64_store64_separate _ _ (by omega) (by omega) (.inl (by omega)),
      load64_store64_separate _ _ (by omega) (by omega) (.inl (by omega))]
    exact load64_storeWords _ (by omega) hi
  intro i hi
  have hi' : i < 8 := hi
  have hcases : i = 0 ∨ i = 1 ∨ i = 2 ∨ i = 3 ∨ i = 4 ∨ i = 5 ∨ i = 6 ∨ i = 7 := by omega
  rcases hcases with rfl | rfl | rfl | rfl | rfl | rfl | rfl | rfl
  · exact hregister 0 (by simp [registersOf])
  · exact hregister 1 (by simp [registersOf])
  · exact hregister 2 (by simp [registersOf])
  · exact hregister 3 (by simp [registersOf])
  · exact hregister 4 (by simp [registersOf])
  · exact hregister 5 (by simp [registersOf])
  · exact load64_store64 _ _ _
  · have hword : load64 (savedMemory s) (s.r .rdi + 56#64) =
        load64 (storeWords s.memory (s.r .rdi) (registersOf s)) (s.r .rsp) := by
      simp only [savedMemory]
      rw [load64_store64_separate _ _ (by omega) (by omega) (.inr (by omega)), load64_store64]
    exact hword.trans hreturn

def isa (code : Code) : Isa State where
  memory := State.memory
  words := 8
  save s := s.r .rdi
  restore s := s.r .rsi
  contextOf := contextOf
  contextMake := FiberRecord.contextMake .x8664 code
  fiberSwitch := fiberSwitch
  Entered := Entered
  contextOf_length _ := rfl
  contextMake_length _ _ _ := rfl
  saves s he hfits := by
    rw [fiberSwitch_memory]
    exact savedMemory_holds he hfits
  frame s hfits x hx := by
    rw [fiberSwitch_memory]
    exact savedMemory_outside hfits hx

/-- The control bits of MXCSR and the x87 control word. -/
def State.control (s : State) : BitVec 32 × BitVec 16 := (s.mxcsr &&& 0xFFC0#32, s.fpcw)

/-- Where a call returns to, with the registers the psABI keeps. -/
structure Restores (before after : State) : Prop where
  rip : after.rip = before.returnAddress
  rsp : after.r .rsp = before.r .rsp + 8#64
  rbx : after.r .rbx = before.r .rbx
  rbp : after.r .rbp = before.r .rbp
  r12 : after.r .r12 = before.r .r12
  r13 : after.r .r13 = before.r .r13
  r14 : after.r .r14 = before.r .r14
  r15 : after.r .r15 = before.r .r15

/-- All that the psABI keeps across a call. -/
structure Returns (before after : State) : Prop extends Restores before after where
  control : after.control = before.control

/-- The entry of a function that is called with one argument and never returns. -/
structure Starts (function argument : Addr) (s : State) : Prop where
  rip : s.rip = function
  argument : s.r .rdi = argument
  frame : s.r .rbp = 0#64
  link : s.returnAddress = 0#64
  aligned : (s.r .rsp).toNat % 16 = 8

variable {code : Code} {w : Contexts State}

theorem switched (hc : w.Calls (isa code)) (h : w.Intact (isa code)) {o : Origin State}
    (ho : w.origin (w.machine.r .rsi) = some o) {i : ℕ} (hi : i < ((isa code).wordsOf o).length) :
    (run w.machine saving).word i = ((isa code).wordsOf o)[i] := by
  have hfinds := hc.finds h ho i hi
  rw [← hfinds, State.word, run_saving]
  simp only [isa, fiberSwitch_memory, Function.update_of_ne (show Reg.rsi ≠ .rax by decide)]

theorem switch_restores (hc : w.Calls (isa code)) (h : w.Intact (isa code)) {s : State}
    (ho : w.origin (w.machine.r .rsi) = some (.saved s)) : Restores s (fiberSwitch w.machine) := by
  have hlen : (contextOf s).length = 8 := rfl
  have hword : ∀ i, (hi : i < (contextOf s).length) →
      (run w.machine saving).word i = (contextOf s)[i] :=
    fun i hi => switched hc h ho hi
  obtain ⟨h₀, h₁, h₂, h₃, h₄, h₅, h₆, h₇⟩ := restored (run w.machine saving)
  rw [fiberSwitch_eq]
  exact ⟨h₇.trans (hword 7 (by omega)), h₆.trans (hword 6 (by omega)), h₀.trans (hword 0 (by omega)),
    h₁.trans (hword 1 (by omega)), h₂.trans (hword 2 (by omega)), h₃.trans (hword 3 (by omega)),
    h₄.trans (hword 4 (by omega)), h₅.trans (hword 5 (by omega))⟩

theorem switch_token (s : State) : (fiberSwitch s).r .rax = s.r .rdx := by
  rw [fiberSwitch_eq, (restored_rest _).1, run_saving]
  rfl

/-- The control words stay those of the party that switches away. -/
theorem switch_control (s : State) : (fiberSwitch s).control = s.control := by
  obtain ⟨-, hm, hf, -⟩ := restored_rest (run s saving)
  rw [fiberSwitch_eq, State.control, hm, hf, run_saving]
  rfl

/-- So a switch back keeps the psABI exactly if the switcher has the control words that
were in force when the context was saved. -/
theorem switch_returns_iff (hc : w.Calls (isa code)) (h : w.Intact (isa code)) {s : State}
    (ho : w.origin (w.machine.r .rsi) = some (.saved s)) :
    Returns s (fiberSwitch w.machine) ↔ w.machine.control = s.control := by
  rw [← switch_control w.machine]
  exact ⟨fun hr => hr.control, fun he => ⟨switch_restores hc h ho, he⟩⟩

theorem fiberStart_spec (s : State) : (fiberStart s).rip = s.r .r12 ∧ (fiberStart s).r .rdi = s.r .r13 ∧
    (fiberStart s).r .rbp = 0#64 ∧ (fiberStart s).r .rsp = s.r .rsp - 8#64 ∧
    (fiberStart s).memory = store64 s.memory (s.r .rsp - 8#64) 0#64 := ⟨rfl, rfl, rfl, rfl, rfl⟩

theorem switch_starts (hc : w.Calls (isa code)) (h : w.Intact (isa code))
    {stackTop function argument : Addr}
    (ho : w.origin (w.machine.r .rsi) = some (.made stackTop function argument)) :
    (fiberSwitch w.machine).rip = code.fiberStart ∧
    Starts function argument (fiberStart (fiberSwitch w.machine)) := by
  have hlen : ((isa code).wordsOf (.made stackTop function argument)).length = 8 := rfl
  have hword : ∀ i, (hi : i < ((isa code).wordsOf (.made stackTop function argument)).length) →
      (run w.machine saving).word i = ((isa code).wordsOf (.made stackTop function argument))[i] :=
    fun i hi => switched hc h ho hi
  obtain ⟨-, -, h₂, h₃, -, -, h₆, h₇⟩ := restored (run w.machine saving)
  have hmade : (run (run w.machine saving) restoring).r .r12 = function ∧
      (run (run w.machine saving) restoring).r .r13 = argument :=
    ⟨h₂.trans (hword 2 (by omega)), h₃.trans (hword 3 (by omega))⟩
  have htop : (run (run w.machine saving) restoring).r .rsp = stackTop &&& ~~~15#64 :=
    h₆.trans (hword 6 (by omega))
  rw [fiberSwitch_eq]
  obtain ⟨hrip, harg, hframe, hrsp, hmemory⟩ := fiberStart_spec (run (run w.machine saving) restoring)
  refine ⟨h₇.trans (hword 7 (by omega)), hrip.trans hmade.1, harg.trans hmade.2, hframe, ?_, ?_⟩
  · rw [State.returnAddress, hmemory, hrsp, load64_store64]
  · -- the pushed word takes a stack pointer on a boundary of 16 to the parity of a call
    rw [hrsp, htop, BitVec.toNat_sub, and_not_fifteen_toNat]
    simp only [BitVec.toNat_ofNat]
    omega

end Libuc.X8664
