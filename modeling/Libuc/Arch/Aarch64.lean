import Libuc.Fiber.Contexts
import Libuc.Fiber.Spawn

/-! `fiber_switch` and `fiber_start` on AArch64, instruction by instruction. Of the
vector registers only the low halves are callee-saved, and only those are stored. -/

namespace Libuc.Aarch64

open Lib

structure State where
  x : Fin 31 → BitVec 64
  sp : BitVec 64
  v : Fin 32 → BitVec 128
  pc : BitVec 64
  memory : Mem

def State.d (s : State) (i : Fin 32) : BitVec 64 := (s.v i).setWidth 64

/-- The instructions the two functions use; memory operands are `[xn, #offset]`. -/
inductive Instr where
  | stp (t u n : Fin 31) (offset : ℕ)
  | str (t n : Fin 31) (offset : ℕ)
  | stpD (t u : Fin 32) (n : Fin 31) (offset : ℕ)
  | ldp (t u n : Fin 31) (offset : ℕ)
  | ldr (t n : Fin 31) (offset : ℕ)
  | ldpD (t u : Fin 32) (n : Fin 31) (offset : ℕ)
  | movFromSp (d : Fin 31)
  | movToSp (n : Fin 31)
  | mov (d n : Fin 31)
  | movZero (d : Fin 31)
  | br (n : Fin 31)
  | ret

/-- A pair of words at `a`. -/
def storePair (m : Mem) (a : Addr) (offset : ℕ) (v w : BitVec 64) : Mem :=
  store64 (store64 m (a + BitVec.ofNat 64 offset) v) (a + BitVec.ofNat 64 (offset + 8)) w

def exec (s : State) : Instr → State
  | .stp t u n offset => { s with memory := storePair s.memory (s.x n) offset (s.x t) (s.x u) }
  | .str t n offset => { s with memory := store64 s.memory (s.x n + BitVec.ofNat 64 offset) (s.x t) }
  | .stpD t u n offset => { s with memory := storePair s.memory (s.x n) offset (s.d t) (s.d u) }
  | .ldp t u n offset =>
    let first := load64 s.memory (s.x n + BitVec.ofNat 64 offset)
    let second := load64 s.memory (s.x n + BitVec.ofNat 64 (offset + 8))
    { s with x := Function.update (Function.update s.x t first) u second }
  | .ldr t n offset =>
    { s with x := Function.update s.x t (load64 s.memory (s.x n + BitVec.ofNat 64 offset)) }
  -- a load into `d` clears the high half
  | .ldpD t u n offset =>
    let first := load64 s.memory (s.x n + BitVec.ofNat 64 offset)
    let second := load64 s.memory (s.x n + BitVec.ofNat 64 (offset + 8))
    { s with v := Function.update (Function.update s.v t (first.setWidth 128)) u (second.setWidth 128) }
  | .movFromSp d => { s with x := Function.update s.x d s.sp }
  | .movToSp n => { s with sp := s.x n }
  | .mov d n => { s with x := Function.update s.x d (s.x n) }
  | .movZero d => { s with x := Function.update s.x d 0#64 }
  | .br n => { s with pc := s.x n }
  | .ret => { s with pc := s.x 30 }

def run (s : State) (program : List Instr) : State := program.foldl exec s

/-- The first half of `fiber_switch`: `save` is in `x0`. -/
def saving : List Instr :=
  [.stp 19 20 0 0, .stp 21 22 0 16, .stp 23 24 0 32, .stp 25 26 0 48, .stp 27 28 0 64, .stp 29 30 0 80,
    .movFromSp 3, .str 3 0 96, .stpD 8 9 0 104, .stpD 10 11 0 120, .stpD 12 13 0 136, .stpD 14 15 0 152]

/-- The second half: `restore` is in `x1`, the token in `x2`. -/
def restoring : List Instr :=
  [.ldp 19 20 1 0, .ldp 21 22 1 16, .ldp 23 24 1 32, .ldp 25 26 1 48, .ldp 27 28 1 64, .ldp 29 30 1 80,
    .ldr 3 1 96, .movToSp 3, .ldpD 8 9 1 104, .ldpD 10 11 1 120, .ldpD 12 13 1 136, .ldpD 14 15 1 152,
    .mov 0 2, .ret]

def fiberSwitch (s : State) : State := run s (saving ++ restoring)

def fiberStart (s : State) : State := run s [.movZero 29, .movZero 30, .mov 0 20, .br 19]

/-- What `fiber_switch` saves, in the order of `struct fiber_context`. -/
def contextOf (s : State) : List (BitVec 64) :=
  [s.x 19, s.x 20, s.x 21, s.x 22, s.x 23, s.x 24, s.x 25, s.x 26, s.x 27, s.x 28, s.x 29, s.x 30, s.sp,
    s.d 8, s.d 9, s.d 10, s.d 11, s.d 12, s.d 13, s.d 14, s.d 15]

theorem run_saving (s : State) : run s saving =
    { s with x := Function.update s.x 3 s.sp, memory := storeWords s.memory (s.x 0) (contextOf s) } := by
  simp only [run, saving, List.foldl_cons, List.foldl_nil, exec, contextOf, storeWords,
    storePair, State.d,
    add_assoc, BitVec.reduceAdd, Nat.reduceAdd, Function.update_self, BitVec.add_zero,
    Function.update_of_ne (show (0 : Fin 31) ≠ 3 by decide)]

/-- Word `i` of the context in `x1`. -/
def State.word (s : State) (i : ℕ) : BitVec 64 := load64 s.memory (s.x 1 + BitVec.ofNat 64 (8 * i))

theorem restored_x (s : State) : ∀ i :
    Fin 31, 19 ≤ i → i ≤ 29 → (run s restoring).x i = s.word (i - 19) := by
  intro i hlow hhigh
  have hi : i = 19 ∨ i = 20 ∨ i = 21 ∨ i = 22 ∨ i = 23 ∨ i = 24 ∨ i = 25 ∨ i = 26 ∨ i = 27 ∨
      i = 28 ∨ i = 29 := by omega
  rcases hi with rfl | rfl | rfl | rfl | rfl | rfl | rfl | rfl | rfl | rfl | rfl <;> rfl

theorem restored_d (s : State) : ∀ i :
    Fin 32, 8 ≤ i → i ≤ 15 → (run s restoring).d i = s.word (i + 5) := by
  intro i hlow hhigh
  have hi : i = 8 ∨ i = 9 ∨ i = 10 ∨ i = 11 ∨ i = 12 ∨ i = 13 ∨ i = 14 ∨ i = 15 := by omega
  have hv : (run s restoring).v i = (s.word (i + 5)).setWidth 128 := by
    rcases hi with rfl | rfl | rfl | rfl | rfl | rfl | rfl | rfl <;> rfl
  rw [State.d, hv, BitVec.setWidth_setWidth_of_le _ (by norm_num), BitVec.setWidth_eq]

theorem restored_control (s : State) :
    (run s restoring).pc = s.word 11 ∧ (run s restoring).sp = s.word 12 ∧
    (run s restoring).x 0 = s.x 2 ∧ (run s restoring).memory = s.memory := ⟨rfl, rfl, rfl, rfl⟩

theorem fiberSwitch_eq (s : State) : fiberSwitch s = run (run s saving) restoring := List.foldl_append

theorem fiberSwitch_memory (s : State) :
    (fiberSwitch s).memory = storeWords s.memory (s.x 0) (contextOf s) := by
  rw [fiberSwitch_eq, (restored_control _).2.2.2, run_saving]

def isa (code : Code) : Isa State where
  memory := State.memory
  words := 21
  save s := s.x 0
  restore s := s.x 1
  contextOf := contextOf
  contextMake := FiberRecord.contextMake .aarch64 code
  fiberSwitch := fiberSwitch
  -- the return address is in `x30`
  Entered _ := True
  contextOf_length _ := rfl
  contextMake_length _ _ _ := rfl
  saves s _ hfits := by
    rw [fiberSwitch_memory]
    exact holdsWords_storeWords _ hfits
  frame s hfits x hx := by
    rw [fiberSwitch_memory]
    exact storeWords_outside _ _ hfits hx

/-- What the psABI keeps across a call, and where the call returns to. -/
structure Returns (before after : State) : Prop where
  pc : after.pc = before.x 30
  sp : after.sp = before.sp
  x : ∀ i : Fin 31, 19 ≤ i → i ≤ 29 → after.x i = before.x i
  d : ∀ i : Fin 32, 8 ≤ i → i ≤ 15 → after.d i = before.d i

/-- The entry of a function that is called with one argument and never returns. -/
structure Starts (function argument : Addr) (s : State) : Prop where
  pc : s.pc = function
  argument : s.x 0 = argument
  frame : s.x 29 = 0#64
  link : s.x 30 = 0#64
  aligned : 16 ∣ s.sp.toNat

variable {code : Code} {w : Contexts State}

/-- The registers after a switch, by the words of the context switched to. -/
theorem switched (hc : w.Calls (isa code)) (h : w.Intact (isa code)) {o : Origin State}
    (ho : w.origin (w.machine.x 1) = some o) {i : ℕ} (hi : i < ((isa code).wordsOf o).length) :
    (run w.machine saving).word i = ((isa code).wordsOf o)[i] := by
  have hfinds := hc.finds h ho i hi
  rw [← hfinds, State.word, run_saving]
  simp only [isa, fiberSwitch_memory, Function.update_of_ne (show (1 : Fin 31) ≠ 3 by decide)]

theorem switch_returns (hc : w.Calls (isa code)) (h : w.Intact (isa code)) {s : State}
    (ho : w.origin (w.machine.x 1) = some (.saved s)) : Returns s (fiberSwitch w.machine) := by
  have hword : ∀ i, (hi : i < (contextOf s).length) →
      (run w.machine saving).word i = (contextOf s)[i] :=
    fun i hi => switched hc h ho hi
  obtain ⟨hpc, hsp, -⟩ := restored_control (run w.machine saving)
  rw [fiberSwitch_eq]
  refine ⟨hpc.trans (hword 11 (by simp [contextOf])), hsp.trans (hword 12 (by simp [contextOf])),
    fun i hlow hhigh => ?_, fun i hlow hhigh => ?_⟩
  · rw [restored_x _ i hlow hhigh]
    have hi : i = 19 ∨ i = 20 ∨ i = 21 ∨ i = 22 ∨ i = 23 ∨ i = 24 ∨ i = 25 ∨ i = 26 ∨ i = 27 ∨
        i = 28 ∨ i = 29 := by omega
    rcases hi with rfl | rfl | rfl | rfl | rfl | rfl | rfl | rfl | rfl | rfl | rfl <;> exact hword _
      (by simp [contextOf])
  · rw [restored_d _ i hlow hhigh]
    have hi : i = 8 ∨ i = 9 ∨ i = 10 ∨ i = 11 ∨ i = 12 ∨ i = 13 ∨ i = 14 ∨ i = 15 := by omega
    rcases hi with rfl | rfl | rfl | rfl | rfl | rfl | rfl | rfl <;> exact hword _ (by simp [contextOf])

theorem switch_token (s : State) : (fiberSwitch s).x 0 = s.x 2 := by
  rw [fiberSwitch_eq, (restored_control _).2.2.1, run_saving]
  rfl

theorem fiberStart_spec (s : State) : (fiberStart s).pc = s.x 19 ∧ (fiberStart s).x 0 = s.x 20 ∧
    (fiberStart s).x 29 = 0#64 ∧ (fiberStart s).x 30 = 0#64 ∧ (fiberStart s).sp = s.sp :=
  ⟨rfl, rfl, rfl, rfl, rfl⟩

theorem switch_starts (hc : w.Calls (isa code)) (h : w.Intact (isa code))
    {stackTop function argument : Addr}
    (ho : w.origin (w.machine.x 1) = some (.made stackTop function argument)) :
    (fiberSwitch w.machine).pc = code.fiberStart ∧
    Starts function argument (fiberStart (fiberSwitch w.machine)) := by
  have hlen : ((isa code).wordsOf (.made stackTop function argument)).length = 21 := rfl
  have hword : ∀ i, (hi : i < ((isa code).wordsOf (.made stackTop function argument)).length) →
      (run w.machine saving).word i = ((isa code).wordsOf (.made stackTop function argument))[i] :=
    fun i hi => switched hc h ho hi
  obtain ⟨hpc, hsp, -⟩ := restored_control (run w.machine saving)
  have hx₁ := restored_x (run w.machine saving) 19 (by decide) (by decide)
  have hx₂ := restored_x (run w.machine saving) 20 (by decide) (by decide)
  have hmade : (run (run w.machine saving) restoring).x 19 = function ∧
      (run (run w.machine saving) restoring).x 20 = argument :=
    ⟨hx₁.trans (hword 0 (by omega)), hx₂.trans (hword 1 (by omega))⟩
  have htop : (run (run w.machine saving) restoring).sp = stackTop &&& ~~~15#64 :=
    hsp.trans (hword 12 (by omega))
  rw [fiberSwitch_eq]
  obtain ⟨hpc', harg, hframe, hlink, hsp'⟩ := fiberStart_spec (run (run w.machine saving) restoring)
  refine ⟨hpc.trans (hword 11 (by omega)), hpc'.trans hmade.1, harg.trans hmade.2, hframe, hlink, ?_⟩
  rw [hsp', htop, and_not_fifteen_toNat]
  exact Nat.dvd_mul_left _ _

end Libuc.Aarch64
