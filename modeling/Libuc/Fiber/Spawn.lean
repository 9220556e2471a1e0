import Libuc.ThreadLocal.Block

/-! Creating and destroying fibers. The record lives at the top of the stack mapping it
describes, and names the mapping of its thread-local block; `__libuc_fiber_destroy`
reads both out of memory it is about to give back. -/

namespace Libuc

open Lib ThreadLocal

/-- The two functions whose addresses go into a new context. -/
structure Code where
  runFiber : Addr
  fiberStart : Addr

def sampleCode : Code := ⟨0x400000#64, 0x401000#64⟩

namespace FiberRecord

/-- The words of `struct fiber_context`. -/
def contextWords : Arch → ℕ
  | .aarch64 => 21
  | .x8664 => 8

/-- `sizeof(struct __libuc_fiber)`: the context and twelve more words. -/
def size (arch : Arch) : ℕ := 8 * contextWords arch + 96

/-- The fields after the context, one word each; the last holds `status` and `life`. -/
inductive Field where
  | entry | argument | stack | stackLength | mapping | mappingLength | block | threadPointer
  | returnTo | readyNext | joiner | statusLife
  deriving DecidableEq

def Field.index : Field → ℕ
  | .entry => 0
  | .argument => 1
  | .stack => 2
  | .stackLength => 3
  | .mapping => 4
  | .mappingLength => 5
  | .block => 6
  | .threadPointer => 7
  | .returnTo => 8
  | .readyNext => 9
  | .joiner => 10
  | .statusLife => 11

def fieldAt (arch : Arch) (fiber : Addr) (field : Field) : Addr :=
  fiber + BitVec.ofNat 64 (8 * (contextWords arch + field.index))

def get (arch : Arch) (m : Mem) (fiber : Addr) (field : Field) : BitVec 64 :=
  load64 m (fieldAt arch fiber field)

/-- `fiber->life`. -/
def life (arch : Arch) (m : Mem) (fiber : Addr) : U32 :=
  load32 m (fieldAt arch fiber .statusLife + 4#64)

def stackPointer (arch : Arch) (m : Mem) (fiber : Addr) : BitVec 64 :=
  match arch with
  | .aarch64 => load64 m (fiber + 96#64)
  | .x8664 => load64 m (fiber + 48#64)

/-- `fiber_context_make`, word by word. -/
def contextMake (arch : Arch) (code : Code) (stackTop function argument : Addr) : List (BitVec 64) :=
  match arch with
  | .aarch64 =>
    [function, argument, 0#64, 0#64, 0#64, 0#64, 0#64, 0#64, 0#64, 0#64, 0#64, code.fiberStart,
      stackTop &&& ~~~15#64, 0#64, 0#64, 0#64, 0#64, 0#64, 0#64, 0#64, 0#64]
  | .x8664 =>
    [0#64, 0#64, function, argument, 0#64, 0#64, stackTop &&& ~~~15#64, code.fiberStart]

end FiberRecord

open FiberRecord

/-- `__libuc_fiber_spawn`, with the layout of the process and the answers of its two
`mmap` calls. -/
def fiberSpawn (arch : Arch) (code : Code) (layout : Option Layout) (stackLength : BitVec 64)
    (entry argument : Addr)
    (stackAnswer blockAnswer : Long) (p : Process) : Option Addr × Process :=
  if stackLength.toNat ≤ FiberRecord.size arch then (none, p)
  else
    let p := p.mmap stackLength stackAnswer
    if syscallFailed stackAnswer then (none, p)
    else
      let top := stackAnswer + stackLength - BitVec.ofNat 64 (FiberRecord.size arch)
      let fiber := top &&& ~~~(8#64 - 1#64)
      let p := { p with memory := storeWords p.memory fiber (List.replicate (contextWords arch) 0#64 ++
        [entry, argument, stackAnswer, stackLength, 0#64, 0#64, 0#64, 0#64, 0#64, 0#64, 0#64, 0#64]) }
      match blockCreate arch layout blockAnswer p with
      | (none, p) => (none, (p.munmap stackAnswer stackLength).2)
      | (some block, p) =>
        let m := storeWords p.memory (fieldAt arch fiber .mapping)
          [block.mapping, block.mappingLength, block.block, block.threadPointer]
        let tcb := get arch m fiber .threadPointer
        let m := store64 m (tcb + 8#64) fiber
        let m := storeWords m fiber (contextMake arch code fiber code.runFiber fiber)
        (some fiber, { p with memory := m })

/-- `__libuc_fiber_destroy`. -/
def fiberDestroy (arch : Arch) (fiber : Addr) (p : Process) : Bool × Process :=
  let block : Block := ⟨get arch p.memory fiber .mapping, get arch p.memory fiber .mappingLength,
    get arch p.memory fiber .block, get arch p.memory fiber .threadPointer⟩
  let b := blockDestroy block p
  let stack := get arch b.2.memory fiber .stack
  let stackLength := get arch b.2.memory fiber .stackLength
  let r := b.2.munmap stack stackLength
  (b.1 && !syscallFailed r.1, r.2)

/-- What it may answer to the two calls of a creation, the second made while the stack
is mapped. -/
def SpawnAnswers (arch : Arch) (layout : Option Layout) (stackLength : BitVec 64) (p : Process)
    (stackAnswer blockAnswer : Long) : Prop :=
  p.Answers stackLength stackAnswer ∧ ∀ l pl, layout = some l → plan arch l = some pl →
    (p.mmap stackLength stackAnswer).Answers pl.mappingLength blockAnswer

instance (arch : Arch) (layout : Option Layout) (stackLength : BitVec 64) (p : Process)
    (stackAnswer blockAnswer : Long) :
    Decidable (SpawnAnswers arch layout stackLength p stackAnswer blockAnswer) :=
  decidable_of_iff (p.Answers stackLength stackAnswer ∧ ∀ l ∈ layout, ∀ pl ∈ plan arch l,
      (p.mmap stackLength stackAnswer).Answers pl.mappingLength blockAnswer)
    ⟨fun h => ⟨h.1, fun l pl hl hp => h.2 l hl pl hp⟩, fun h => ⟨h.1, fun l hl pl hp => h.2 l pl hl hp⟩⟩

/-! ### The record in its mapping -/

/-- The record lies in the first `length` bytes from `base` on. -/
def FiberRecord.Inside (arch : Arch) (fiber : Addr) (stack : Mapping) : Prop :=
  stack.base.toNat ≤ fiber.toNat ∧
  fiber.toNat + FiberRecord.size arch ≤ stack.base.toNat + stack.length.toNat

variable {arch : Arch} {stack : Mapping} {fiber : Addr} {m : Mem}

def recordAt (arch : Arch) (stack : Mapping) : Addr :=
  (stack.base + stack.length - BitVec.ofNat 64 (FiberRecord.size arch)) &&& ~~~(8#64 - 1#64)

/-- Subtracting and rounding down stays inside the mapping. -/
theorem record_placed (stack : Mapping) (hlong : FiberRecord.size arch < stack.length.toNat)
    (hplaced : Process.Placed stack.base stack.length) :
    8 ∣ (recordAt arch stack).toNat ∧ Inside arch (recordAt arch stack) stack := by
  obtain ⟨⟨page, hpage⟩, hend⟩ := hplaced
  have hlen := stack.length.isLt
  have hsize : (BitVec.ofNat 64 (FiberRecord.size arch)).toNat = FiberRecord.size arch := by
    rw [BitVec.toNat_ofNat, Nat.mod_eq_of_lt (by omega)]
  have hpos : 0 < FiberRecord.size arch := by simp [FiberRecord.size]
  have hroom : (stack.length - BitVec.ofNat 64 (FiberRecord.size arch)).toNat =
      stack.length.toNat - FiberRecord.size arch := by
    rw [BitVec.toNat_sub_of_le (by rw [BitVec.le_def, hsize]; omega), hsize]
  have htop : (stack.base + stack.length - BitVec.ofNat 64 (FiberRecord.size arch)).toNat =
      stack.base.toNat + (stack.length.toNat - FiberRecord.size arch) := by
    rw [add_sub_assoc, BitVec.toNat_add, hroom, Nat.mod_eq_of_lt (by omega)]
  have hnat : (recordAt arch stack).toNat =
      (stack.base.toNat + (stack.length.toNat - FiberRecord.size arch)) / 2 ^ 3 * 2 ^ 3 := by
    rw [recordAt, toNat_and_not_pred (k := 3) (by norm_num) rfl, htop]
  unfold Inside
  omega

theorem and_not_fifteen_toNat (x : Addr) : (x &&& ~~~15#64).toNat = x.toNat / 16 * 16 :=
  toNat_and_not_pred (a := 16#64) (k := 4) (by norm_num) rfl

/-- The stack starts right below the record. -/
theorem stackTop_placed (hplaced : Process.Placed stack.base stack.length)
    (hin : Inside arch fiber stack) :
    16 ∣ (fiber &&& ~~~15#64).toNat ∧ stack.base.toNat ≤ (fiber &&& ~~~15#64).toNat ∧
      (fiber &&& ~~~15#64).toNat ≤ fiber.toNat := by
  obtain ⟨⟨page, hpage⟩, -⟩ := hplaced
  have hnat := and_not_fifteen_toNat fiber
  have hlow := hin.1
  omega

theorem contextMake_length (arch : Arch) (code : Code) (stackTop function argument : Addr) :
    (contextMake arch code stackTop function argument).length = contextWords arch := by
  cases arch <;> rfl

theorem FiberRecord.Field.index_lt (field : Field) : field.index < 12 := by
  cases field <;> decide

theorem fieldAt_toNat (hfits : fiber.toNat + FiberRecord.size arch ≤ 2 ^ 64) (field : Field) :
    (fieldAt arch fiber field).toNat = fiber.toNat + 8 * (contextWords arch + field.index) := by
  have hlt := field.index_lt
  unfold FiberRecord.size at hfits
  exact toNat_add_of_fits (by omega)

/-- A field depends on the bytes of the record only. -/
theorem get_congr {m' : Mem} (hfits : fiber.toNat + FiberRecord.size arch ≤ 2 ^ 64)
    (h : ∀ x : Addr, fiber.toNat ≤ x.toNat → x.toNat < fiber.toNat + FiberRecord.size arch →
      m' x = m x) (field : Field) :
    get arch m' fiber field = get arch m fiber field := by
  have hlt := field.index_lt
  have hat := fieldAt_toNat hfits field
  unfold FiberRecord.size at h hfits
  refine load64_congr fun i hi => ?_
  have hx : (fieldAt arch fiber field + BitVec.ofNat 64 i).toNat =
      (fieldAt arch fiber field).toNat + i :=
    toNat_add_of_fits (by omega)
  exact h _ (by omega) (by omega)

theorem load32_of_load64_eq_zero {a : Addr} (h : load64 m a = 0#64) : load32 m (a + 4#64) = 0#32 := by
  have hfield : Lib.field (block m a 8) 0 8 = 0 := by
    have hlt := Lib.field_lt (block m a 8) 0 8
    have hz := congrArg BitVec.toNat h
    rw [load64, BitVec.toNat_ofNat, Nat.mod_eq_of_lt (lt_of_lt_of_eq hlt (by norm_num))] at hz
    exact hz
  have hbyte : ∀ i < 8, byteAt (block m a 8) i = 0 := by
    intro i hi
    have hd := field_div (block m a 8) (o := 0) (n := 8) hi
    rw [hfield, Nat.zero_div, Nat.zero_mod, Nat.zero_add] at hd
    exact hd.symm
  have hhigh : ∀ i < 4, byteAt (block m (a + 4#64) 4) i = 0 := by
    intro i hi
    have h8 : 4 + i < 8 := by omega
    have hadd : a + 4#64 + BitVec.ofNat 64 i = a + BitVec.ofNat 64 (4 + i) := by
      rw [BitVec.ofNat_add, add_assoc]
    have hb := hbyte (4 + i) h8
    simp only [byteAt, h8, hi, ↓reduceDIte, block, hadd] at hb ⊢
    exact hb
  have h0 : Lib.field (block m (a + 4#64) 4) 0 4 = 0 := by
    simp only [Lib.field, hhigh 0 (by norm_num), hhigh (0 + 1) (by norm_num),
      hhigh (0 + 1 + 1) (by norm_num), hhigh (0 + 1 + 1 + 1) (by norm_num)]
  rw [load32, h0]

/-! ### The writes of a creation -/

def fieldWord (entry argument : Addr) (stack : Mapping) (b : Block) : Field → BitVec 64
  | .entry => entry
  | .argument => argument
  | .stack => stack.base
  | .stackLength => stack.length
  | .mapping => b.mapping
  | .mappingLength => b.mappingLength
  | .block => b.block
  | .threadPointer => b.threadPointer
  | .returnTo | .readyNext | .joiner | .statusLife => 0#64

def recordWords (arch : Arch) (entry argument : Addr) (stack : Mapping) : List (BitVec 64) :=
  List.replicate (contextWords arch) 0#64 ++
    [entry, argument, stack.base, stack.length, 0#64, 0#64, 0#64, 0#64, 0#64, 0#64, 0#64, 0#64]

def blockWords (b : Block) : List (BitVec 64) := [b.mapping, b.mappingLength, b.block, b.threadPointer]

/-- What follows the creation of the block. -/
def recordFinish (arch : Arch) (code : Code) (m : Mem) (fiber : Addr) (b : Block) : Mem :=
  let m := storeWords m (fieldAt arch fiber .mapping) (blockWords b)
  storeWords (store64 m (get arch m fiber .threadPointer + 8#64) fiber) fiber
    (contextMake arch code fiber code.runFiber fiber)

variable {code : Code} {b : Block} {entry argument x : Addr}

theorem recordWords_length (arch : Arch) (entry argument : Addr) (stack : Mapping) :
    8 * (recordWords arch entry argument stack).length = FiberRecord.size arch := by
  simp only [recordWords, List.length_append, List.length_replicate, List.length_cons,
    List.length_nil, FiberRecord.size]
  omega

theorem recordInit_get (hfits : fiber.toNat + FiberRecord.size arch ≤ 2 ^ 64) (field : Field) :
    get arch (storeWords m fiber (recordWords arch entry argument stack)) fiber field =
      fieldWord entry argument stack ⟨0#64, 0#64, 0#64, 0#64⟩ field := by
  have hlen := recordWords_length arch entry argument stack
  have hlt := field.index_lt
  have hi : contextWords arch + field.index < (recordWords arch entry argument stack).length := by
    unfold FiberRecord.size at hlen
    omega
  refine (load64_storeWords m (by omega) hi).trans ?_
  cases arch <;> cases field <;> rfl

theorem blockWords_get (hfits : fiber.toNat + FiberRecord.size arch ≤ 2 ^ 64)
    (h : ∀ field, get arch m fiber field =
      fieldWord entry argument stack ⟨0#64, 0#64, 0#64, 0#64⟩ field) (field : Field) :
    get arch (storeWords m (fieldAt arch fiber .mapping) (blockWords b)) fiber field =
      fieldWord entry argument stack b field := by
  have hsize := hfits
  unfold FiberRecord.size at hsize
  have hmapping : (fieldAt arch fiber .mapping).toNat = fiber.toNat + 8 * (contextWords arch + 4) :=
    fieldAt_toNat hfits .mapping
  have hlen : (blockWords b).length = 4 := rfl
  have hroom : (fieldAt arch fiber .mapping).toNat + 8 * (blockWords b).length ≤ 2 ^ 64 := by omega
  have hword : ∀ i (hi : i < (blockWords b).length), field.index = 4 + i →
      get arch (storeWords m (fieldAt arch fiber .mapping) (blockWords b)) fiber field =
        (blockWords b).get ⟨i, hi⟩ := by
    intro i hi hindex
    have hat : fieldAt arch fiber field = fieldAt arch fiber .mapping + BitVec.ofNat 64 (8 * i) := by
      have hsum : 8 * (contextWords arch + (4 + i)) = 8 * (contextWords arch + 4) + 8 * i := by omega
      rw [fieldAt, hindex, hsum, BitVec.ofNat_add, ← add_assoc]
      rfl
    rw [FiberRecord.get, hat]
    exact load64_storeWords m hroom hi
  have hother : (field.index < 4 ∨ 8 ≤ field.index) →
      get arch (storeWords m (fieldAt arch fiber .mapping) (blockWords b)) fiber field =
        get arch m fiber field := by
    intro hindex
    have hat := fieldAt_toNat hfits field
    have hlt := field.index_lt
    refine load64_storeWords_separate m _ (by omega) hroom ?_
    unfold Separate
    omega
  cases field with
  | mapping => exact hword 0 (by omega) rfl
  | mappingLength => exact hword 1 (by omega) rfl
  | block => exact hword 2 (by omega) rfl
  | threadPointer => exact hword 3 (by omega) rfl
  | _ => exact (hother (by decide)).trans (h _)

/-- The context goes into the words before the fields. -/
theorem contextMake_get (hfits : fiber.toNat + FiberRecord.size arch ≤ 2 ^ 64)
    (stackTop function argument : Addr) (field : Field) :
    get arch (storeWords m fiber (contextMake arch code stackTop function argument)) fiber field =
      get arch m fiber field := by
  have hsize := hfits
  unfold FiberRecord.size at hsize
  have hlen := contextMake_length arch code stackTop function argument
  have hat := fieldAt_toNat hfits field
  have hlt := field.index_lt
  exact load64_storeWords_separate m _ (by omega) (by omega) (.inr (by omega))

theorem contextMake_stackPointer (hfits : fiber.toNat + FiberRecord.size arch ≤ 2 ^ 64)
    (stackTop function argument : Addr) :
    stackPointer arch (storeWords m fiber (contextMake arch code stackTop function argument)) fiber =
      stackTop &&& ~~~15#64 := by
  have hsize := hfits
  unfold FiberRecord.size at hsize
  have hlen := contextMake_length arch code stackTop function argument
  cases arch with
  | aarch64 => exact load64_storeWords (i := 12) m (by omega) (by rw [hlen]; decide)
  | x8664 => exact load64_storeWords (i := 6) m (by omega) (by rw [hlen]; decide)

/-! ### Creation -/

@[ext] structure Holding where
  fiber : Addr
  stack : Mapping
  block : Mapping

/-- The four words that `__libuc_fiber_destroy` reads. -/
def Holding.read (arch : Arch) (m : Mem) (fiber : Addr) : Holding :=
  ⟨fiber, ⟨get arch m fiber .stack, get arch m fiber .stackLength⟩,
    ⟨get arch m fiber .mapping, get arch m fiber .mappingLength⟩⟩

/-- A fiber that has been created: two mappings more, the record at the top of the
first, and nothing written outside them. -/
structure Created (arch : Arch) (entry argument : Addr) (h : Holding) (p p' : Process) : Prop where
  mappings : p'.mappings = insert h.block (insert h.stack p.mappings)
  fresh : h.stack ∉ p.mappings ∧ h.block ∉ insert h.stack p.mappings
  aligned : 8 ∣ h.fiber.toNat
  inside : Inside arch h.fiber h.stack
  ends : h.stack.base.toNat + h.stack.length.toNat ≤ 2 ^ 64
  nonnull : h.stack.base ≠ 0#64 → h.fiber ≠ 0#64
  stackTop : 16 ∣ (stackPointer arch p'.memory h.fiber).toNat ∧
    h.stack.base.toNat ≤ (stackPointer arch p'.memory h.fiber).toNat ∧
    (stackPointer arch p'.memory h.fiber).toNat ≤ h.fiber.toNat
  start : get arch p'.memory h.fiber .entry = entry ∧ get arch p'.memory h.fiber .argument = argument
  live : life arch p'.memory h.fiber = 0#32
  unlinked : get arch p'.memory h.fiber .joiner = 0#64 ∧ get arch p'.memory h.fiber .readyNext = 0#64 ∧
    get arch p'.memory h.fiber .returnTo = 0#64
  tcb : load64 p'.memory (get arch p'.memory h.fiber .threadPointer + 8#64) = h.fiber
  recorded : Holding.read arch p'.memory h.fiber = h
  frame : ∀ x, Outside h.stack.base h.stack.length.toNat x →
    Outside h.block.base h.block.length.toNat x →
    p'.memory x = p.memory x

def Process.Undisturbed (p p' : Process) : Prop :=
  ∀ m ∈ p.mappings, ∀ x : Addr, m.base.toNat ≤ x.toNat → x.toNat < m.base.toNat + m.length.toNat →
  p'.memory x = p.memory x

variable {layout : Option Layout} {stackLength : BitVec 64}
  {stackAnswer blockAnswer : Long} {p : Process}

/-- A creation whose stack is mapped, by the creation of its block. -/
theorem fiberSpawn_mapped (code : Code) (layout : Option Layout) (entry argument : Addr)
    (blockAnswer : Long)
    (hlong : FiberRecord.size arch < stackLength.toNat) (hok : syscallFailed stackAnswer = false) :
    fiberSpawn arch code layout stackLength entry argument stackAnswer blockAnswer p =
      match blockCreate arch layout blockAnswer
        ⟨storeWords p.memory (recordAt arch ⟨stackAnswer, stackLength⟩)
          (recordWords arch entry argument ⟨stackAnswer, stackLength⟩),
          insert ⟨stackAnswer, stackLength⟩ p.mappings⟩ with
      | (none, p) => (none, (p.munmap stackAnswer stackLength).2)
      | (some b, p) => (some (recordAt arch ⟨stackAnswer, stackLength⟩),
          { p with memory := recordFinish arch code p.memory (recordAt arch ⟨stackAnswer, stackLength⟩) b }) := by
  simp only [fiberSpawn, Nat.not_le.mpr hlong, if_false, hok, Bool.false_eq_true, Process.mmap]
  rfl

/-- The record once everything is written, and its TCB. -/
theorem recordFinish_get (code : Code) (hfits : fiber.toNat + FiberRecord.size arch ≤ 2 ^ 64)
    (htcb : (b.threadPointer + 8#64).toNat + 8 ≤ 2 ^ 64)
    (hapart : Separate fiber (FiberRecord.size arch) (b.threadPointer + 8#64) 8)
    (h : ∀ field, get arch m fiber field =
      fieldWord entry argument stack ⟨0#64, 0#64, 0#64, 0#64⟩ field) :
    (∀ field, get arch (recordFinish arch code m fiber b) fiber field =
      fieldWord entry argument stack b field) ∧
      load64 (recordFinish arch code m fiber b) (b.threadPointer + 8#64) = fiber := by
  have hsize := hfits
  unfold FiberRecord.size at hsize
  have hwords := blockWords_get (b := b) hfits h
  have htp := hwords .threadPointer
  simp only [recordFinish, htp]
  constructor
  · intro field
    have hlt := field.index_lt
    have hat := fieldAt_toNat hfits field
    rw [contextMake_get hfits]
    refine (load64_store64_separate _ _ (by omega) htcb ?_).trans (hwords field)
    refine hapart.sub (by omega) ?_
    unfold FiberRecord.size
    omega
  · have hlen := contextMake_length arch code fiber code.runFiber fiber
    refine (load64_storeWords_separate _ _ htcb (by omega) ?_).trans (load64_store64 _ _ _)
    refine (hapart.sub (c := fiber) le_rfl ?_).symm
    unfold FiberRecord.size
    omega

theorem recordFinish_outside (hfits : fiber.toNat + FiberRecord.size arch ≤ 2 ^ 64)
    (htcb : (b.threadPointer + 8#64).toNat + 8 ≤ 2 ^ 64)
    (h : ∀ field, get arch m fiber field =
      fieldWord entry argument stack ⟨0#64, 0#64, 0#64, 0#64⟩ field)
    (hx : Outside fiber (FiberRecord.size arch) x) (hxt : Outside (b.threadPointer + 8#64) 8 x) :
    recordFinish arch code m fiber b x = m x := by
  have hsize := hfits
  have hout := hx
  unfold FiberRecord.size at hsize hout
  have htp := blockWords_get (b := b) hfits h .threadPointer
  have hlen := contextMake_length arch code fiber code.runFiber fiber
  have hmapping : (fieldAt arch fiber .mapping).toNat = fiber.toNat + 8 * (contextWords arch + 4) :=
    fieldAt_toNat hfits .mapping
  have hwords : 8 * (blockWords b).length = 32 := rfl
  simp only [recordFinish, htp]
  rw [storeWords_outside _ _ (by omega) (hout.imp id fun h => by omega), fieldWord,
    store64_outside _ _ htcb hxt,
    storeWords_outside _ _ (by omega) (hout.imp (fun h => by omega) fun h => by omega)]

/-- A block is created within its mapping. -/
theorem blockInit_frame {l : Layout} (hf : Fits b arch l)
    (hend : b.mapping.toNat + b.mappingLength.toNat ≤ 2 ^ 64)
    (hx : Outside b.mapping b.mappingLength.toNat x) :
    blockInit l m b.block b.threadPointer x = m x := by
  obtain ⟨hb₁, hb₂⟩ := hf.block_inside
  obtain ⟨ht₁, ht₂⟩ := hf.tcb_inside
  rw [blockInit_outside (by omega) (hx.imp (fun h => by omega) fun h => by omega),
    blockFill_outside (by omega) (hx.imp (fun h => by omega) fun h => by omega)]

theorem fiberSpawn_created {l : Layout} (code : Code) (entry argument : Addr) (block : Mapping)
    (hlong : FiberRecord.size arch < stack.length.toNat)
    (hplaced : Process.Placed stack.base stack.length)
    (hstack : ∀ m ∈ p.mappings, Separate m.base m.length.toNat stack.base stack.length.toNat)
    (hplaced' : Process.Placed block.base block.length)
    (hblock : ∀ m ∈ insert stack p.mappings,
      Separate m.base m.length.toNat block.base block.length.toNat)
    (hmapping : b.mapping = block.base) (hlength : b.mappingLength = block.length)
    (hf : Fits b arch l) :
    Created arch entry argument ⟨recordAt arch stack, stack, block⟩ p
      ⟨recordFinish arch code (blockInit l
        (storeWords p.memory (recordAt arch stack) (recordWords arch entry argument stack))
        b.block b.threadPointer) (recordAt arch stack) b, insert block (insert stack p.mappings)⟩ := by
  obtain ⟨haligned, hin⟩ := record_placed stack hlong hplaced
  have hapart := hblock stack (Finset.mem_insert_self _ _)
  have hend := hplaced.2
  have hend' := hplaced'.2
  have hfits : (recordAt arch stack).toNat + FiberRecord.size arch ≤ 2 ^ 64 := hin.2.trans hend
  obtain ⟨ht₁, ht₂⟩ := hf.tcb_inside
  rw [hmapping] at ht₁ ht₂
  rw [hlength] at ht₂
  have htp : (b.threadPointer + 8#64).toNat = b.threadPointer.toNat + 8 :=
    toNat_add_of_fits (i := 8) (by omega)
  -- the record and the block do not meet, since their mappings do not
  have hrecord : Separate (recordAt arch stack) (FiberRecord.size arch) block.base block.length.toNat :=
    hapart.sub hin.1 hin.2
  have hword : Separate (recordAt arch stack) (FiberRecord.size arch) (b.threadPointer + 8#64) 8 :=
    (hrecord.symm.sub (by omega) (by omega)).symm
  have hinit : ∀ x, Outside block.base block.length.toNat x →
      blockInit l (storeWords p.memory (recordAt arch stack)
        (recordWords arch entry argument stack)) b.block b.threadPointer x =
        storeWords p.memory (recordAt arch stack) (recordWords arch entry argument stack) x := by
    intro x hx
    refine blockInit_frame hf ?_ ?_
    · rw [hmapping, hlength]
      exact hend'
    · rw [hmapping, hlength]
      exact hx
  have hget : ∀ field, get arch (blockInit l (storeWords p.memory (recordAt arch stack)
      (recordWords arch entry argument stack)) b.block b.threadPointer) (recordAt arch stack) field =
        fieldWord entry argument stack ⟨0#64, 0#64, 0#64, 0#64⟩ field := by
    intro field
    exact (get_congr hfits (fun x hlow hhigh => hinit x (hrecord.cell hlow hhigh)) field).trans
      (recordInit_get hfits field)
  obtain ⟨hfields, htcb⟩ := recordFinish_get code hfits (by omega) hword hget
  have htop := stackTop_placed hplaced hin
  have hpointer : stackPointer arch
      (recordFinish arch code (blockInit l (storeWords p.memory (recordAt arch stack)
      (recordWords arch entry argument stack)) b.block b.threadPointer) (recordAt arch stack) b)
        (recordAt arch stack) =
        recordAt arch stack &&& ~~~15#64 := contextMake_stackPointer hfits _ _ _
  have hpos : 0 < block.length.toNat := by omega
  have hpos' : 0 < stack.length.toNat := by omega
  refine ⟨rfl, ⟨Process.not_mem_of_separate hpos' hstack, Process.not_mem_of_separate hpos hblock⟩,
    haligned, hin, hend, fun hbase h0 => hbase ?_, ?_, ⟨hfields .entry, hfields .argument⟩,
    load32_of_load64_eq_zero (hfields .statusLife),
    ⟨hfields .joiner, hfields .readyNext, hfields .returnTo⟩, ?_, ?_, fun x hx hx' => ?_⟩
  · have hlow := hin.1
    have hzero : (recordAt arch stack).toNat = 0 := eq_zero_iff_toNat.mp h0
    exact eq_zero_iff_toNat.mpr (show stack.base.toNat = 0 by omega)
  · simp only [hpointer]
    exact htop
  · simp only [hfields .threadPointer]
    exact htcb
  · simp only [Holding.read, hfields, fieldWord, hmapping, hlength]
  · simp only at hx hx' ⊢
    have hlen := recordWords_length arch entry argument stack
    have hout : Outside (recordAt arch stack) (FiberRecord.size arch) x := by
      obtain ⟨h₁, h₂⟩ := hin
      exact hx.imp (fun h => by omega) fun h => by omega
    rw [recordFinish_outside hfits (by omega) hget hout
      (hx'.imp (fun h => by omega) fun h => by omega), hinit x hx',
      storeWords_outside _ _ (by omega) (by rw [hlen]; exact hout)]

/-- A creation fails and leaves the mappings as they were, or creates the fiber; what
was mapped before is not written to. -/
theorem fiberSpawn_cases (arch : Arch) (code : Code) (layout : Option Layout) (stackLength : BitVec 64)
    (entry argument : Addr) (stackAnswer blockAnswer : Long) (p : Process)
    (h : SpawnAnswers arch layout stackLength p stackAnswer blockAnswer) :
    (((fiberSpawn arch code layout stackLength entry argument stackAnswer blockAnswer p).1 = none ∧
      (fiberSpawn arch code layout stackLength entry argument stackAnswer blockAnswer p).2.mappings = p.mappings) ∨
    ∃ g : Holding,
    (fiberSpawn arch code layout stackLength entry argument stackAnswer blockAnswer p).1 =
      some g.fiber ∧
      g.stack = ⟨stackAnswer, stackLength⟩ ∧
      Created arch entry argument g p
        (fiberSpawn arch code layout stackLength entry argument stackAnswer blockAnswer p).2) ∧
    p.Undisturbed
      (fiberSpawn arch code layout stackLength entry argument stackAnswer blockAnswer p).2 := by
  by_cases hshort : stackLength.toNat ≤ FiberRecord.size arch
  · have hnone : fiberSpawn arch code layout stackLength entry argument stackAnswer blockAnswer p =
        (none, p) := by
      simp only [fiberSpawn, hshort, if_true]
    rw [hnone]
    exact ⟨.inl ⟨rfl, rfl⟩, fun _ _ _ _ _ => rfl⟩
  have hlong : FiberRecord.size arch < stackLength.toNat := Nat.not_le.mp hshort
  cases hfail : syscallFailed stackAnswer with
  | true =>
    have hnone : fiberSpawn arch code layout stackLength entry argument stackAnswer blockAnswer p =
        (none, p) := by
      simp only [fiberSpawn, hshort, if_false, hfail, if_true, Process.mmap]
    rw [hnone]
    exact ⟨.inl ⟨rfl, rfl⟩, fun _ _ _ _ _ => rfl⟩
  | false =>
    obtain ⟨hplaced, hstack⟩ := h.1.resolve_left (by rw [hfail]; decide)
    have hmmap : p.mmap stackLength stackAnswer =
        ⟨p.memory, insert ⟨stackAnswer, stackLength⟩ p.mappings⟩ := by
      simp only [Process.mmap, hfail, Bool.false_eq_true, if_false]
    have hanswer : ∀ l pl, layout = some l → plan arch l = some pl → syscallFailed blockAnswer = false →
        Process.Placed blockAnswer pl.mappingLength ∧
        ∀ m ∈ insert ⟨stackAnswer, stackLength⟩ p.mappings,
          Separate m.base m.length.toNat blockAnswer pl.mappingLength.toNat := by
      intro l pl hl hp hok
      have hblock := (h.2 l pl hl hp).resolve_left (by rw [hok]; decide)
      rw [hmmap] at hblock
      exact hblock
    rw [fiberSpawn_mapped code layout entry argument blockAnswer hlong hfail]
    obtain ⟨haligned, hin⟩ := record_placed ⟨stackAnswer, stackLength⟩ hlong hplaced
    rcases blockCreate_cases arch layout blockAnswer _
      (fun l pl hl hp hok => (hanswer l pl hl hp hok).1) with
      ⟨l, pl, b, hl, hp, hok, hcreate, hmapping, hlength, hf⟩ | hcreate
    · rw [hcreate]
      obtain ⟨hplaced', hblock⟩ := hanswer l pl hl hp hok
      have hcreated := fiberSpawn_created code entry argument
          ⟨blockAnswer, pl.mappingLength⟩ hlong hplaced hstack hplaced' hblock hmapping hlength hf
      refine ⟨.inr ⟨_, rfl, rfl, hcreated⟩, fun m hm x hlow hhigh => hcreated.frame x ?_ ?_⟩
      · exact (hstack m hm).cell hlow hhigh
      · exact (hblock m (Finset.mem_insert_of_mem hm)).cell hlow hhigh
    · rw [hcreate]
      have hlen := recordWords_length arch entry argument ⟨stackAnswer, stackLength⟩
      have hfresh : (⟨stackAnswer, stackLength⟩ : Mapping) ∉ p.mappings :=
        Process.not_mem_of_separate (show 0 < stackLength.toNat by omega) hstack
      simp only [Process.munmap_live _ hfresh]
      refine ⟨.inl ⟨trivial, trivial⟩, fun m hm x hlow hhigh => ?_⟩
      have hend := hplaced.2
      obtain ⟨h₁, h₂⟩ := hin
      simp only at h₁ h₂
      refine storeWords_outside _ _ (by omega) ?_
      rw [hlen]
      exact ((hstack m hm).cell hlow hhigh).imp (fun h => by omega) fun h => by omega

end Libuc
