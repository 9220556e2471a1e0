import Libuc.Process
import Libuc.String.Basic
import Libuc.ThreadLocal.Layout

/-! Thread-local blocks. One mapping holds the block and the TCB, at the distance the
linker assumed between them: the block above the TCB on AArch64, below it on x86-64.
All sizes are 64-bit words and every sum is checked, so the geometry below is stated
over natural numbers and holds without a bound on any size. -/

namespace Libuc

open Lib

/-- `struct __libuc_thread_local_block`. -/
structure Block where
  mapping : Addr
  mappingLength : BitVec 64
  block : Addr
  threadPointer : Addr

namespace ThreadLocal

/-! ### Placement -/

/-- `struct thread_local_placement`. -/
structure Placement where
  length : BitVec 64
  blockOffset : BitVec 64
  tpOffset : BitVec 64

/-- `thread_local_tcb_size`. -/
def tcbSize : BitVec 64 := 16#64

/-- `thread_local_place` on AArch64. -/
def placeAarch64 (blockSize alignment : BitVec 64) : Option Placement := do
  let raised ← ckdAdd tcbSize (alignment - 1#64)
  let blockOffset := raised &&& ~~~(alignment - 1#64)
  let length ← ckdAdd blockOffset blockSize
  some ⟨length, blockOffset, 0#64⟩

/-- `thread_local_place` on x86-64; pointers are aligned to eight bytes. -/
def placeX8664 (blockSize alignment : BitVec 64) : Option Placement := do
  let raised ← ckdAdd blockSize (alignment - 1#64)
  let distance := raised &&& ~~~(alignment - 1#64)
  let tcbRaised ← ckdAdd distance (8#64 - 1#64)
  let tpOffset := tcbRaised &&& ~~~(8#64 - 1#64)
  let length ← ckdAdd tpOffset tcbSize
  some ⟨length, tpOffset - distance, tpOffset⟩

def place : Arch → BitVec 64 → BitVec 64 → Option Placement
  | .aarch64 => placeAarch64
  | .x8664 => placeX8664

/-! ### Creation -/

/-- What `__libuc_thread_local_block_create` asks the kernel for. -/
structure Plan where
  placement : Placement
  baseAlignment : BitVec 64
  mappingLength : BitVec 64

/-- `__libuc_thread_local_block_create` up to its `mmap`; a TCB is aligned to eight
bytes. -/
def plan (arch : Arch) (layout : Layout) : Option Plan := do
  let placement ← place arch layout.blockSize layout.alignment
  let baseAlignment := if layout.alignment.toNat < 8 then 8#64 else layout.alignment
  let mappingLength ← ckdAdd placement.length (baseAlignment - 1#64)
  some ⟨placement, baseAlignment, mappingLength⟩

/-- The writes into the block itself: zeros, and the image over them. -/
def blockFill (layout : Layout) (m : Mem) (tlsBlock : Addr) : Mem :=
  if layout.blockSize ≠ 0#64 then
    let m := (String.memset m tlsBlock 0#32 layout.blockSize).1
    if layout.imageSize ≠ 0#64 then (String.memcpy m tlsBlock layout.image layout.imageSize).1 else m
  else m

/-- The writes into a new mapping: the block, then the TCB. -/
def blockInit (layout : Layout) (m : Mem) (tlsBlock threadPointer : Addr) : Mem :=
  storeWords (blockFill layout m tlsBlock) threadPointer [threadPointer, 0#64]

/-- `__libuc_thread_local_block_create`, with the layout it finds and the answer of its
`mmap`: what it assigns to `*block`, absent when it returns false. -/
def blockCreate (arch : Arch) (layout : Option Layout) (result : Long) (p : Process) :
    Option Block × Process :=
  match layout with
  | none => (none, p)
  | some layout =>
    match plan arch layout with
    | none => (none, p)
    | some plan =>
      let p := p.mmap plan.mappingLength result
      if syscallFailed result then (none, p)
      else
        match ckdAdd result (plan.baseAlignment - 1#64) with
        | none => (none, (p.munmap result plan.mappingLength).2)
        | some rounded =>
          let address := rounded &&& ~~~(plan.baseAlignment - 1#64)
          let threadPointer := address + plan.placement.tpOffset
          let tlsBlock := address + plan.placement.blockOffset
          (some ⟨result, plan.mappingLength, tlsBlock, threadPointer⟩,
            { p with memory := blockInit layout p.memory tlsBlock threadPointer })

/-- `__libuc_thread_local_block_destroy`. -/
def blockDestroy (block : Block) (p : Process) : Bool × Process :=
  let r := p.munmap block.mapping block.mappingLength
  (!syscallFailed r.1, r.2)

/-! ### The numbers -/

/-- The alignment of the base: that of the block or of the TCB, whichever is coarser. -/
def baseAlign (l : Layout) : ℕ := max l.alignment.toNat 8

def tpAt (l : Layout) : Arch → ℕ
  | .aarch64 => 0
  | .x8664 => roundUp (roundUp l.blockSize.toNat l.alignment.toNat) 8

def blockAt (l : Layout) : Arch → ℕ
  | .aarch64 => roundUp 16 l.alignment.toNat
  | .x8664 => roundUp (roundUp l.blockSize.toNat l.alignment.toNat) 8 -
      roundUp l.blockSize.toNat l.alignment.toNat

def span (l : Layout) : Arch → ℕ
  | .aarch64 => roundUp 16 l.alignment.toNat + l.blockSize.toNat
  | .x8664 => roundUp (roundUp l.blockSize.toNat l.alignment.toNat) 8 + 16

/-- The sums that `thread_local_place` and the creation check, in order. -/
def sizeSums (l : Layout) : Arch → List ℕ
  | .aarch64 => [16 + (l.alignment.toNat - 1), span l .aarch64, span l .aarch64 + (baseAlign l - 1)]
  | .x8664 =>
    [l.blockSize.toNat + (l.alignment.toNat - 1), roundUp l.blockSize.toNat l.alignment.toNat + 7,
      span l .x8664, span l .x8664 + (baseAlign l - 1)]

structure Placement.Offsets (pl : Placement) (arch : Arch) (l : Layout) : Prop where
  tp : pl.tpOffset.toNat = tpAt l arch
  block : pl.blockOffset.toNat = blockAt l arch
  length : pl.length.toNat = span l arch

variable {arch : Arch} {l : Layout}

theorem Layout.pred_toNat (l : Layout) : (l.alignment - 1#64).toNat = l.alignment.toNat - 1 := by
  obtain ⟨k, -, hk⟩ := l.power
  exact toNat_pred (by rw [hk]; exact Nat.two_pow_pos k)

theorem masked_toNat {x raised a : BitVec 64} {k : ℕ} (hk : k < 64) (ha : a.toNat = 2 ^ k)
    (h : raised.toNat = x.toNat + (a.toNat - 1)) :
    (raised &&& ~~~(a - 1#64)).toNat = roundUp x.toNat a.toNat := by
  rw [toNat_and_not_pred hk ha, h, roundUp, ha]

theorem placeAarch64_cases (l : Layout) :
    (∃ pl, placeAarch64 l.blockSize l.alignment = some pl ∧ pl.Offsets .aarch64 l ∧
      16 + (l.alignment.toNat - 1) < 2 ^ 64) ∨
    placeAarch64 l.blockSize l.alignment = none ∧
      (2 ^ 64 ≤ 16 + (l.alignment.toNat - 1) ∨ 2 ^ 64 ≤ span l .aarch64) := by
  obtain ⟨k, hk, ha⟩ := l.power
  have hpred := Layout.pred_toNat l
  have htcb : tcbSize.toNat = 16 := rfl
  cases h₁ : ckdAdd tcbSize (l.alignment - 1#64) with
  | none =>
    have h₁' := h₁
    rw [ckdAdd_eq_none, hpred, htcb] at h₁'
    exact .inr ⟨by simp only [placeAarch64, h₁, bind, Option.bind], .inl h₁'⟩
  | some raised =>
    have hr := ckdAdd_eq_some.mp h₁
    rw [hpred] at hr
    have hoffset := masked_toNat hk ha hr
    rw [htcb] at hr hoffset
    have hlt := raised.isLt
    cases h₂ : ckdAdd (raised &&& ~~~(l.alignment - 1#64)) l.blockSize with
    | none =>
      have h₂' := h₂
      rw [ckdAdd_eq_none, hoffset] at h₂'
      exact .inr ⟨by simp only [placeAarch64, h₁, h₂, bind, Option.bind], .inr h₂'⟩
    | some length =>
      have hlen := ckdAdd_eq_some.mp h₂
      rw [hoffset] at hlen
      refine .inl ⟨⟨length, raised &&& ~~~(l.alignment - 1#64), 0#64⟩, ?_,
        ⟨rfl, hoffset, hlen⟩, by omega⟩
      simp only [placeAarch64, h₁, h₂, bind, Option.bind]

theorem placeX8664_cases (l : Layout) :
    (∃ pl, placeX8664 l.blockSize l.alignment = some pl ∧ pl.Offsets .x8664 l ∧
      l.blockSize.toNat + (l.alignment.toNat - 1) < 2 ^ 64 ∧
      roundUp l.blockSize.toNat l.alignment.toNat + 7 < 2 ^ 64) ∨
    placeX8664 l.blockSize l.alignment = none ∧
      (2 ^ 64 ≤ l.blockSize.toNat + (l.alignment.toNat - 1) ∨
        2 ^ 64 ≤ roundUp l.blockSize.toNat l.alignment.toNat + 7 ∨ 2 ^ 64 ≤ span l .x8664) := by
  obtain ⟨k, hk, ha⟩ := l.power
  have hpred := Layout.pred_toNat l
  have hseven : (8#64 - 1#64).toNat = 7 := rfl
  cases h₁ : ckdAdd l.blockSize (l.alignment - 1#64) with
  | none =>
    have h₁' := h₁
    rw [ckdAdd_eq_none, hpred] at h₁'
    exact .inr ⟨by simp only [placeX8664, h₁, bind, Option.bind], .inl h₁'⟩
  | some raised =>
    have hr := ckdAdd_eq_some.mp h₁
    rw [hpred] at hr
    have hlt := raised.isLt
    have hdistance := masked_toNat hk ha hr
    cases h₂ : ckdAdd (raised &&& ~~~(l.alignment - 1#64)) (8#64 - 1#64) with
    | none =>
      have h₂' := h₂
      rw [ckdAdd_eq_none, hdistance, hseven] at h₂'
      exact .inr ⟨by simp only [placeX8664, h₁, h₂, bind, Option.bind], .inr (.inl h₂')⟩
    | some tcbRaised =>
      have ht := ckdAdd_eq_some.mp h₂
      have hlt' := tcbRaised.isLt
      have htp : (tcbRaised &&& ~~~(8#64 - 1#64)).toNat =
          roundUp (roundUp l.blockSize.toNat l.alignment.toNat) 8 := by
        have h := masked_toNat (k := 3) (by norm_num) (show (8#64).toNat = 2 ^ 3 from rfl) ht
        rw [hdistance] at h
        exact h
      rw [hdistance, hseven] at ht
      cases h₃ : ckdAdd (tcbRaised &&& ~~~(8#64 - 1#64)) tcbSize with
      | none =>
        have h₃' := h₃
        rw [ckdAdd_eq_none, htp] at h₃'
        exact .inr ⟨by simp only [placeX8664, h₁, h₂, h₃, bind, Option.bind], .inr (.inr h₃')⟩
      | some length =>
        have hlen := ckdAdd_eq_some.mp h₃
        rw [htp] at hlen
        have hle := le_roundUp (roundUp l.blockSize.toNat l.alignment.toNat) (show 0 < 8 by norm_num)
        refine .inl ⟨⟨length, (tcbRaised &&& ~~~(8#64 - 1#64)) - (raised &&& ~~~(l.alignment - 1#64)),
          tcbRaised &&& ~~~(8#64 - 1#64)⟩, by simp only [placeX8664, h₁, h₂, h₃, bind, Option.bind],
          ⟨htp, ?_, hlen⟩, by omega, by omega⟩
        simp only
        rw [BitVec.toNat_sub_of_le (by rw [BitVec.le_def, hdistance, htp]; exact hle), hdistance, htp]
        rfl

theorem baseAlignment_toNat (l : Layout) :
    (if l.alignment.toNat < 8 then 8#64 else l.alignment).toNat = baseAlign l := by
  split_ifs with h
  · rw [baseAlign, max_eq_right h.le]
    rfl
  · rw [baseAlign, max_eq_left (by omega)]

theorem baseAlign_pow (l : Layout) : ∃ k < 64, baseAlign l = 2 ^ k := by
  obtain ⟨k, hk, ha⟩ := l.power
  rcases le_total l.alignment.toNat 8 with h | h
  · exact ⟨3, by norm_num, max_eq_right h⟩
  · exact ⟨k, hk, (max_eq_left h).trans ha⟩

structure Plan.Fits (plan : Plan) (arch : Arch) (l : Layout) : Prop where
  offsets : plan.placement.Offsets arch l
  base : plan.baseAlignment.toNat = baseAlign l
  length : plan.mappingLength.toNat = span l arch + (baseAlign l - 1)

/-- The last of the checked sums. -/
theorem plan_of_place (arch : Arch) {l : Layout} {pl : Placement}
    (h : place arch l.blockSize l.alignment = some pl) (ho : pl.Offsets arch l) :
    (∃ p, plan arch l = some p ∧ p.Fits arch l) ∨ plan arch l = none ∧
    2 ^ 64 ≤ span l arch + (baseAlign l - 1) := by
  have hbase := baseAlignment_toNat l
  have hpred : ((if l.alignment.toNat < 8 then 8#64 else l.alignment) - 1#64).toNat =
      baseAlign l - 1 := by
    rw [toNat_pred (by rw [hbase, baseAlign]; omega), hbase]
  cases hs : ckdAdd pl.length ((if l.alignment.toNat < 8 then 8#64 else l.alignment) - 1#64) with
  | none =>
    have hs' := hs
    rw [ckdAdd_eq_none, hpred, ho.length] at hs'
    exact .inr ⟨by simp only [plan, h, hs, bind, Option.bind], hs'⟩
  | some length =>
    have hs' := ckdAdd_eq_some.mp hs
    rw [hpred, ho.length] at hs'
    refine .inl ⟨⟨pl, if l.alignment.toNat < 8 then 8#64 else l.alignment, length⟩, ?_, ho, hbase, hs'⟩
    simp only [plan, h, hs, bind, Option.bind]

theorem plan_cases (arch : Arch) (l : Layout) :
    (∃ p, plan arch l = some p ∧ p.Fits arch l ∧ ∀ x ∈ sizeSums l arch, x < 2 ^ 64) ∨
      plan arch l = none ∧ ∃ x ∈ sizeSums l arch, 2 ^ 64 ≤ x := by
  cases arch with
  | aarch64 =>
    rcases placeAarch64_cases l with ⟨pl, hpl, ho, hsum⟩ | ⟨hpl, hsum⟩
    · rcases plan_of_place .aarch64 hpl ho with ⟨p, hp, hfits⟩ | ⟨hp, hover⟩
      · have hlt := p.mappingLength.isLt
        rw [hfits.length] at hlt
        refine .inl ⟨p, hp, hfits, ?_⟩
        simp only [sizeSums, List.mem_cons, List.not_mem_nil, or_false, forall_eq_or_imp, forall_eq]
        omega
      · exact .inr ⟨hp, _, by simp only [sizeSums, List.mem_cons, true_or, or_true], hover⟩
    · have hp : plan .aarch64 l = none := by simp only [plan, place, hpl, bind, Option.bind]
      rcases hsum with hsum | hsum
      · exact .inr ⟨hp, _, by simp only [sizeSums, List.mem_cons, true_or], hsum⟩
      · exact .inr ⟨hp, _, by simp only [sizeSums, List.mem_cons, true_or, or_true], hsum⟩
  | x8664 =>
    rcases placeX8664_cases l with ⟨pl, hpl, ho, hsum₁, hsum₂⟩ | ⟨hpl, hsum⟩
    · rcases plan_of_place .x8664 hpl ho with ⟨p, hp, hfits⟩ | ⟨hp, hover⟩
      · have hlt := p.mappingLength.isLt
        rw [hfits.length] at hlt
        refine .inl ⟨p, hp, hfits, ?_⟩
        simp only [sizeSums, List.mem_cons, List.not_mem_nil, or_false, forall_eq_or_imp, forall_eq]
        omega
      · exact .inr ⟨hp, _, by simp only [sizeSums, List.mem_cons, true_or, or_true], hover⟩
    · have hp : plan .x8664 l = none := by simp only [plan, place, hpl, bind, Option.bind]
      rcases hsum with hsum | hsum | hsum
      · exact .inr ⟨hp, _, by simp only [sizeSums, List.mem_cons, true_or], hsum⟩
      · exact .inr ⟨hp, _, by simp only [sizeSums, List.mem_cons, true_or, or_true], hsum⟩
      · exact .inr ⟨hp, _, by simp only [sizeSums, List.mem_cons, true_or, or_true], hsum⟩

/-! ### The geometry -/

theorem alignment_pos (l : Layout) : 0 < l.alignment.toNat := by
  obtain ⟨k, -, hk⟩ := l.power
  rw [hk]
  exact Nat.two_pow_pos k

/-- The block's alignment divides eight or is a multiple of it. -/
theorem alignment_cases (l : Layout) :
    (l.alignment.toNat ∣ 8 ∧ baseAlign l = 8) ∨
    (8 ∣ l.alignment.toNat ∧ baseAlign l = l.alignment.toNat) := by
  obtain ⟨k, -, hk⟩ := l.power
  rcases Nat.lt_or_ge 3 k with h | h
  · have hdvd : 8 ∣ l.alignment.toNat := hk ▸ (Nat.pow_dvd_pow 2 h.le : 2 ^ 3 ∣ 2 ^ k)
    exact .inr ⟨hdvd, max_eq_left (Nat.le_of_dvd (alignment_pos l) hdvd)⟩
  · have hdvd : l.alignment.toNat ∣ 8 := hk ▸ (Nat.pow_dvd_pow 2 h : 2 ^ k ∣ 2 ^ 3)
    exact .inl ⟨hdvd, max_eq_right (Nat.le_of_dvd (by norm_num) hdvd)⟩

theorem dvd_baseAlign (l : Layout) : l.alignment.toNat ∣ baseAlign l ∧ 8 ∣ baseAlign l := by
  rcases alignment_cases l with ⟨h, he⟩ | ⟨h, he⟩
  · rw [he]
    exact ⟨h, dvd_refl 8⟩
  · rw [he]
    exact ⟨dvd_refl _, h⟩

theorem dvd_tpAt (l : Layout) (arch : Arch) : l.alignment.toNat ∣ tpAt l arch ∧ 8 ∣ tpAt l arch := by
  cases arch with
  | aarch64 => exact ⟨dvd_zero _, dvd_zero _⟩
  | x8664 =>
    refine ⟨?_, dvd_roundUp _ 8⟩
    rcases alignment_cases l with ⟨h, -⟩ | ⟨h, -⟩
    · exact h.trans (dvd_roundUp _ 8)
    · -- a coarse alignment needs no padding below the block
      have hd := dvd_roundUp l.blockSize.toNat l.alignment.toNat
      rw [tpAt, roundUp_of_dvd (h.trans hd)]
      exact hd

theorem dvd_blockAt (l : Layout) (arch : Arch) : l.alignment.toNat ∣ blockAt l arch := by
  cases arch with
  | aarch64 => exact dvd_roundUp _ _
  | x8664 => exact Nat.dvd_sub (dvd_tpAt l .x8664).1 (dvd_roundUp _ _)

/-- The distance between block and thread pointer that the linker assumes. -/
def Distance (l : Layout) (block tp : ℕ) : Arch → Prop
  | .aarch64 => block = tp + roundUp 16 l.alignment.toNat
  | .x8664 => tp = block + roundUp l.blockSize.toNat l.alignment.toNat

theorem distance_at (l : Layout) (arch : Arch) (base : ℕ) :
    Distance l (base + blockAt l arch) (base + tpAt l arch) arch := by
  cases arch with
  | aarch64 => rfl
  | x8664 =>
    have hle := le_roundUp (roundUp l.blockSize.toNat l.alignment.toNat) (show 0 < 8 by norm_num)
    simp only [Distance, blockAt, tpAt]
    omega

/-- Block and TCB lie side by side within the span. -/
theorem within_span (l : Layout) (arch : Arch) :
    blockAt l arch + l.blockSize.toNat ≤ span l arch ∧ tpAt l arch + 16 ≤ span l arch ∧
      (blockAt l arch + l.blockSize.toNat ≤ tpAt l arch ∨ tpAt l arch + 16 ≤ blockAt l arch) := by
  have hpos := alignment_pos l
  cases arch with
  | aarch64 =>
    have hle := le_roundUp 16 hpos
    simp only [blockAt, tpAt, span]
    omega
  | x8664 =>
    have hle := le_roundUp l.blockSize.toNat hpos
    have hle' := le_roundUp (roundUp l.blockSize.toNat l.alignment.toNat) (show 0 < 8 by norm_num)
    simp only [blockAt, tpAt, span]
    omega

/-- A block as the ABI wants it: inside its mapping, apart from the TCB, aligned, and at
the right distance. -/
structure Fits (b : Block) (arch : Arch) (l : Layout) : Prop where
  block_inside : b.mapping.toNat ≤ b.block.toNat ∧
    b.block.toNat + l.blockSize.toNat ≤ b.mapping.toNat + b.mappingLength.toNat
  tcb_inside : b.mapping.toNat ≤ b.threadPointer.toNat ∧
    b.threadPointer.toNat + 16 ≤ b.mapping.toNat + b.mappingLength.toNat
  apart : Separate b.block l.blockSize.toNat b.threadPointer 16
  block_aligned : l.alignment.toNat ∣ b.block.toNat
  tp_aligned : 8 ∣ b.threadPointer.toNat ∧ l.alignment.toNat ∣ b.threadPointer.toNat
  distance : Distance l b.block.toNat b.threadPointer.toNat arch

variable {arch : Arch} {l : Layout} {pl : Plan} {result : Long} {p : Process}

/-- Rounding the mapping's address up to the base alignment leaves room for the span. -/
theorem base_fits (hf : pl.Fits arch l) (hplaced : Process.Placed result pl.mappingLength) :
    result.toNat ≤ roundUp result.toNat (baseAlign l) ∧
      roundUp result.toNat (baseAlign l) + span l arch < result.toNat + pl.mappingLength.toNat := by
  obtain ⟨hpage, hend⟩ := hplaced
  have h8 := (dvd_baseAlign l).2
  have hpos : 0 < baseAlign l := by
    obtain ⟨k, -, hk⟩ := baseAlign_pow l
    rw [hk]
    exact Nat.two_pow_pos k
  have hle := roundUp_le result.toNat (baseAlign l)
  refine ⟨le_roundUp _ hpos, ?_⟩
  -- both are multiples of eight, so at most `baseAlign - 8` bytes are skipped
  obtain ⟨u, hu⟩ := (h8.trans (dvd_roundUp result.toNat (baseAlign l)))
  obtain ⟨v, hv⟩ := (show 8 ∣ 4096 by norm_num).trans hpage
  obtain ⟨w, hw⟩ := h8
  rw [hf.length]
  omega

/-- The check on the rounded address never fires. -/
theorem rounded_fits (hf : pl.Fits arch l) (hplaced : Process.Placed result pl.mappingLength) :
    result.toNat + (baseAlign l - 1) < 2 ^ 64 := by
  have hend := hplaced.2
  have hspan := (within_span l arch).2.1
  rw [hf.length] at hend
  omega

/-- A creation that gets its mapping succeeds. -/
theorem blockCreate_mapped (hp : plan arch l = some pl) (hf : pl.Fits arch l)
    (hok : syscallFailed result = false) (hplaced : Process.Placed result pl.mappingLength) :
    ∃ b, blockCreate arch (some l) result p =
        (some b, ⟨blockInit l p.memory b.block b.threadPointer,
          insert ⟨result, pl.mappingLength⟩ p.mappings⟩) ∧
      b.mapping = result ∧ b.mappingLength = pl.mappingLength ∧ Fits b arch l := by
  have hpred : (pl.baseAlignment - 1#64).toNat = baseAlign l - 1 := by
    rw [toNat_pred (by rw [hf.base, baseAlign]; omega), hf.base]
  have hsum := rounded_fits hf hplaced
  obtain ⟨hlow, hhigh⟩ := base_fits hf hplaced
  have hend := hplaced.2
  have hrounded : ckdAdd result (pl.baseAlignment - 1#64) =
      some (result + (pl.baseAlignment - 1#64)) := by
    rw [ckdAdd_eq_some, BitVec.toNat_add, hpred, Nat.mod_eq_of_lt hsum]
  obtain ⟨k, hk, hbase⟩ := baseAlign_pow l
  have haddress : ((result + (pl.baseAlignment - 1#64)) &&& ~~~(pl.baseAlignment - 1#64)).toNat =
      roundUp result.toNat (baseAlign l) := by
    rw [← hf.base]
    refine masked_toNat hk (hf.base.trans hbase) ?_
    rw [ckdAdd_eq_some.mp hrounded, hpred, hf.base]
  obtain ⟨hblock, htcb, hapart⟩ := within_span l arch
  obtain ⟨address, hdef⟩ : ∃ address,
      address = (result + (pl.baseAlignment - 1#64)) &&& ~~~(pl.baseAlignment - 1#64) :=
    ⟨_, rfl⟩
  rw [← hdef] at haddress
  refine ⟨⟨result, pl.mappingLength, address + pl.placement.blockOffset,
    address + pl.placement.tpOffset⟩, ?_, rfl, rfl, ?_⟩
  · simp only [blockCreate, hp, hok, Process.mmap, hrounded, Bool.false_eq_true, if_false, hdef]
  have htpNat : (address + pl.placement.tpOffset).toNat =
      roundUp result.toNat (baseAlign l) + tpAt l arch := by
    rw [BitVec.toNat_add, haddress, hf.offsets.tp, Nat.mod_eq_of_lt (by omega)]
  have hblockNat : (address + pl.placement.blockOffset).toNat =
      roundUp result.toNat (baseAlign l) + blockAt l arch := by
    rw [BitVec.toNat_add, haddress, hf.offsets.block, Nat.mod_eq_of_lt (by omega)]
  have hdvd := (dvd_baseAlign l).1.trans (dvd_roundUp result.toNat (baseAlign l))
  have h8 := (dvd_baseAlign l).2.trans (dvd_roundUp result.toNat (baseAlign l))
  constructor
  · simp only [hblockNat]
    omega
  · simp only [htpNat]
    omega
  · simp only [Separate, hblockNat, htpNat]
    omega
  · simp only [hblockNat]
    exact Nat.dvd_add hdvd (dvd_blockAt l arch)
  · simp only [htpNat]
    exact ⟨Nat.dvd_add h8 (dvd_tpAt l arch).2, Nat.dvd_add hdvd (dvd_tpAt l arch).1⟩
  · simp only [hblockNat, htpNat]
    exact distance_at l arch _

/-- Either a mapping is made and the block written, or nothing happens. -/
theorem blockCreate_cases (arch : Arch) (layout : Option Layout) (result : Long) (p : Process)
    (hplaced : ∀ l pl, layout = some l → plan arch l = some pl → syscallFailed result = false →
      Process.Placed result pl.mappingLength) :
    (∃ l pl b, layout = some l ∧ plan arch l = some pl ∧ syscallFailed result = false ∧
      blockCreate arch layout result p =
        (some b, ⟨blockInit l p.memory b.block b.threadPointer,
          insert ⟨result, pl.mappingLength⟩ p.mappings⟩) ∧
      b.mapping = result ∧ b.mappingLength = pl.mappingLength ∧ Fits b arch l) ∨
    blockCreate arch layout result p = (none, p) := by
  cases layout with
  | none => exact .inr rfl
  | some l =>
    rcases plan_cases arch l with ⟨pl, hp, hf, -⟩ | ⟨hp, -⟩
    · cases hfail : syscallFailed result with
      | true =>
        right
        simp only [blockCreate, hp, hfail, Process.mmap, if_true]
      | false =>
        obtain ⟨b, hb⟩ := blockCreate_mapped (p := p) hp hf hfail (hplaced l pl rfl hp hfail)
        exact .inl ⟨l, pl, b, rfl, hp, rfl, hb⟩
    · right
      simp only [blockCreate, hp]

/-! ### The contents -/

/-- A block that has been written: the image, zeros, and the TCB; nothing else changed. -/
structure Holds (b : Block) (l : Layout) (m m' : Mem) : Prop where
  image : ∀ i < l.imageSize.toNat, m' (b.block + BitVec.ofNat 64 i) = m (l.image + BitVec.ofNat 64 i)
  zeros : ∀ i, l.imageSize.toNat ≤ i → i < l.blockSize.toNat → m' (b.block + BitVec.ofNat 64 i) = 0#8
  self : load64 m' b.threadPointer = b.threadPointer
  fiber : load64 m' (b.threadPointer + 8#64) = 0#64
  frame : ∀ x, Outside b.block l.blockSize.toNat x → Outside b.threadPointer 16 x → m' x = m x

theorem blockInit_tcb {m : Mem} {block tp : Addr} (htp : tp.toNat + 16 ≤ 2 ^ 64) :
    load64 (blockInit l m block tp) tp = tp ∧ load64 (blockInit l m block tp) (tp + 8#64) = 0#64 := by
  have hlen : tp.toNat + 8 * [tp, 0#64].length ≤ 2 ^ 64 := htp
  constructor
  · have h := load64_storeWords (i := 0) (blockFill l m block) hlen (by simp)
    rw [Nat.mul_zero, BitVec.add_zero] at h
    exact h
  · exact load64_storeWords (i := 1) (blockFill l m block) hlen (by simp)

theorem blockInit_outside {m : Mem} {block tp x : Addr} (htp : tp.toNat + 16 ≤ 2 ^ 64)
    (hx : Outside tp 16 x) :
    blockInit l m block tp x = blockFill l m block x := storeWords_outside _ [tp, 0#64] htp hx

theorem memset_outside {m : Mem} {dst x : Addr} {v : CInt} {n : BitVec 64}
    (hd : dst.toNat + n.toNat ≤ 2 ^ 64)
    (hx : Outside dst n.toNat x) : (String.memset m dst v n).1 x = m x := fillUp_outside m _ hd hx

/-- The image over zeros, when no byte of it is overwritten. -/
theorem blockFill_at {m : Mem} {block : Addr} (hblock : block.toNat + l.blockSize.toNat ≤ 2 ^ 64)
    (himage : ∀ i < l.imageSize.toNat,
      Outside block l.blockSize.toNat (l.image + BitVec.ofNat 64 i)) {i : ℕ}
    (hi : i < l.blockSize.toNat) : blockFill l m block (block + BitVec.ofNat 64 i) =
      if i < l.imageSize.toNat then m (l.image + BitVec.ofNat 64 i) else 0#8 := by
  have hsizes := l.sizes
  have hne : l.blockSize ≠ 0#64 := by
    intro h0
    rw [h0] at hi
    exact absurd hi (Nat.not_lt_zero i)
  have hzero : (String.memset m block 0#32 l.blockSize).1 (block + BitVec.ofNat 64 i) = 0#8 :=
    fillUp_at m _ hi
  simp only [blockFill, hne, ne_eq, not_false_eq_true, if_true]
  by_cases hempty : l.imageSize = 0#64
  · rw [if_neg (not_not.mpr hempty), if_neg (by rw [hempty]; exact Nat.not_lt_zero i)]
    exact hzero
  · rw [if_pos hempty]
    simp only [String.memcpy]
    rw [copyUp_of_outside _ (by omega) fun j hj => (himage j hj).imp id fun h => by omega]
    split_ifs with hlt
    · rw [moved_at _ _ _ hlt (by omega)]
      exact memset_outside hblock (himage i hlt)
    · have hbi : (block + BitVec.ofNat 64 i).toNat = block.toNat + i := toNat_add_of_fits (by omega)
      rw [moved_of_outside _ (by omega) (.inr (by omega))]
      exact hzero

theorem blockFill_outside {m : Mem} {block x : Addr} (hblock : block.toNat + l.blockSize.toNat ≤ 2 ^ 64)
    (hx : Outside block l.blockSize.toNat x) : blockFill l m block x = m x := by
  have hsizes := l.sizes
  simp only [blockFill, String.memcpy]
  split_ifs with hb hi
  · rw [copyUp_outside _ (by omega) (hx.imp id fun h => by omega)]
    exact memset_outside hblock hx
  · exact memset_outside hblock hx
  · rfl

theorem blockInit_holds {m : Mem} {b : Block} (hblock : b.block.toNat + l.blockSize.toNat ≤ 2 ^ 64)
    (htp : b.threadPointer.toNat + 16 ≤ 2 ^ 64)
    (hapart : Separate b.block l.blockSize.toNat b.threadPointer 16)
    (himage : ∀ i < l.imageSize.toNat,
      Outside b.block l.blockSize.toNat (l.image + BitVec.ofNat 64 i)) :
    Holds b l m (blockInit l m b.block b.threadPointer) := by
  have hsizes := l.sizes
  obtain ⟨hself, hfiber⟩ := blockInit_tcb (l := l) (m := m) htp
  refine ⟨fun i hi => ?_, fun i hlow hi => ?_, hself, hfiber, fun x hx hxtp => ?_⟩
  · rw [blockInit_outside htp (hapart.outside (by omega) hblock),
      blockFill_at hblock himage (by omega), if_pos hi]
  · rw [blockInit_outside htp (hapart.outside hi hblock), blockFill_at hblock himage hi,
      if_neg (by omega)]
  · rw [blockInit_outside htp hxtp, blockFill_outside hblock hx]

/-! ### The whole function -/

/-- A created block lies in its mapping as the ABI wants it and holds the image, zeros
and the TCB. The creation fails exactly without a layout, on a sum beyond `2 ^ 64 - 1`,
or when the kernel refuses the mapping; then it has written nothing and maps nothing.
The check on the rounded address never fires. -/
theorem block_geometry_and_contents (arch : Arch) (layout : Option Layout) (result : Long) (p : Process)
    (hkernel : ∀ l pl, layout = some l → plan arch l = some pl → syscallFailed result = false →
      Process.Placed result pl.mappingLength ∧
        ∀ i < l.imageSize.toNat, Outside result pl.mappingLength.toNat (l.image + BitVec.ofNat 64 i)) :
    (∀ b, (blockCreate arch layout result p).1 = some b → ∃ l, layout = some l ∧ Fits b arch l ∧
      Holds b l p.memory (blockCreate arch layout result p).2.memory ∧
      (blockCreate arch layout result p).2.mappings = insert ⟨b.mapping, b.mappingLength⟩ p.mappings) ∧
    ((blockCreate arch layout result p).1 = none ↔
      layout = none ∨ (∃ l, layout = some l ∧ ∃ x ∈ sizeSums l arch, 2 ^ 64 ≤ x) ∨
        (∃ l, layout = some l ∧ ∀ x ∈ sizeSums l arch, x < 2 ^ 64) ∧ syscallFailed result = true) ∧
    ((blockCreate arch layout result p).1 = none → (blockCreate arch layout result p).2 = p) ∧
    (∀ l pl, layout = some l → plan arch l = some pl → syscallFailed result = false →
      ckdAdd result (pl.baseAlignment - 1#64) ≠ none) := by
  cases layout with
  | none => exact ⟨nofun, ⟨fun _ => .inl rfl, fun _ => rfl⟩, fun _ => rfl, nofun⟩
  | some l =>
    rcases plan_cases arch l with ⟨pl, hp, hf, hsums⟩ | ⟨hp, x, hx, hover⟩
    · have hsum_ok : ¬ ∃ x ∈ sizeSums l arch, 2 ^ 64 ≤ x := by
        rintro ⟨x, hx, hover⟩
        have := hsums x hx
        omega
      cases hfail : syscallFailed result with
      | true =>
        have hcreate : blockCreate arch (some l) result p = (none, p) := by
          simp only [blockCreate, hp, hfail, Process.mmap, if_true]
        rw [hcreate]
        exact ⟨nofun, ⟨fun _ => .inr (.inr ⟨⟨l, rfl, hsums⟩, rfl⟩), fun _ => rfl⟩, fun _ => rfl, nofun⟩
      | false =>
        obtain ⟨hplaced, himage⟩ := hkernel l pl rfl hp hfail
        obtain ⟨b, hcreate, hmapping, hlength, hfits⟩ := blockCreate_mapped (p := p) hp hf hfail hplaced
        rw [hcreate]
        refine ⟨fun b' hb' => ?_, ?_, nofun, fun l' pl' hl' hp' _ => ?_⟩
        · cases hb'
          have hend := hplaced.2
          obtain ⟨hb₁, hb₂⟩ := hfits.block_inside
          obtain ⟨ht₁, ht₂⟩ := hfits.tcb_inside
          rw [hmapping] at hb₁ ht₁
          rw [hmapping, hlength] at hb₂ ht₂
          refine ⟨l, rfl, hfits, blockInit_holds (by omega) (by omega) hfits.apart fun i hi => ?_,
            by rw [hmapping, hlength]⟩
          rcases himage i hi with h | h
          · exact .inl (by omega)
          · exact .inr (by omega)
        · refine ⟨nofun, ?_⟩
          rintro (h | ⟨l', hl', hover⟩ | ⟨-, h⟩)
          · cases h
          · cases hl'
            exact absurd hover hsum_ok
          · cases h
        · cases hl'
          rw [hp] at hp'
          cases hp'
          have hpred : (pl.baseAlignment - 1#64).toNat = baseAlign l - 1 := by
            rw [toNat_pred (by rw [hf.base, baseAlign]; omega), hf.base]
          have hsum := rounded_fits hf hplaced
          rw [Ne, ckdAdd_eq_none, hpred]
          omega
    · have hcreate : blockCreate arch (some l) result p = (none, p) := by simp only [blockCreate, hp]
      rw [hcreate]
      refine ⟨nofun, ⟨fun _ => .inr (.inl ⟨l, rfl, x, hx, hover⟩), fun _ => rfl⟩, fun _ => rfl, fun l' pl' hl' hp' => ?_⟩
      cases hl'
      rw [hp] at hp'
      cases hp'

/-- Eight bytes of image and eight of zeros, aligned to 64. -/
def sampleLayout : Layout := ⟨0x1000#64, 8#64, 16#64, 64#64, by decide, 6, by decide, by decide⟩

/-- On both machines a page at `0x10000` holds the sample block. -/
theorem block_geometry_and_contents_sample :
    (∃ b, (blockCreate .aarch64 (some sampleLayout) 0x10000#64 ⟨fun _ => 7#8, ∅⟩).1 = some b ∧
      Fits b .aarch64 sampleLayout) ∧
    (∃ b, (blockCreate .x8664 (some sampleLayout) 0x10000#64 ⟨fun _ => 7#8, ∅⟩).1 = some b ∧
      Fits b .x8664 sampleLayout) := by
  have hall : ∀ arch, ∃ b,
      (blockCreate arch (some sampleLayout) 0x10000#64 ⟨fun _ => 7#8, ∅⟩).1 = some b ∧
      Fits b arch sampleLayout := by
    intro arch
    have hsome :
        (blockCreate arch (some sampleLayout) 0x10000#64 ⟨fun _ => 7#8, ∅⟩).1.isSome = true := by
      cases arch <;> decide +kernel
    have hlength : (plan arch sampleLayout).all (fun pl => pl.mappingLength.toNat ≤ 4096) = true := by
      cases arch <;> decide +kernel
    obtain ⟨b, hb⟩ := Option.isSome_iff_exists.mp hsome
    have hkernel : ∀ l pl, some sampleLayout = some l → plan arch l = some pl →
        syscallFailed 0x10000#64 = false →
        Process.Placed 0x10000#64 pl.mappingLength ∧
          ∀ i < l.imageSize.toNat,
          Outside 0x10000#64 pl.mappingLength.toNat (l.image + BitVec.ofNat 64 i) := by
      intro l pl hl hp _
      cases hl
      have hle : pl.mappingLength.toNat ≤ 4096 := by
        rw [hp] at hlength
        simpa using hlength
      refine ⟨⟨by decide, by simp; omega⟩, fun i hi => .inl ?_⟩
      have hi' : i < 8 := hi
      rw [toNat_add_of_fits (by simp [sampleLayout]; omega)]
      simp [sampleLayout]
      omega
    obtain ⟨l, hl, hfits, -⟩ :=
      (block_geometry_and_contents arch (some sampleLayout) 0x10000#64 ⟨fun _ => 7#8, ∅⟩ hkernel).1 b hb
    cases hl
    exact ⟨b, hb, hfits⟩
  exact ⟨hall .aarch64, hall .x8664⟩

end ThreadLocal

end Libuc
