import Libuc.Image.Basic
import Libuc.Lib.Touch

/-! Records and requests as values. The contents of a record are what its bytes say, the
two halves of its last word apart; each store of the sources changes one entry, and a
store elsewhere none. -/

namespace Libuc

open Lib

variable {arch : Arch} {m m' : Mem} {a b fiber request : Addr} {n : ℕ}

/-! ### Words -/

theorem load64_keeps (h : Keeps a 8 m m') (ha : a.toNat + 8 ≤ 2 ^ 64) : load64 m' a = load64 m a := by
  rw [load64, load64, h.block ha]

theorem load32_keeps (h : Keeps a 4 m m') (ha : a.toNat + 4 ≤ 2 ^ 64) : load32 m' a = load32 m a := by
  rw [load32, load32, h.block ha]

theorem touches_store64 (m : Mem) (v : BitVec 64) (ha : a.toNat + 8 ≤ 2 ^ 64) :
    Touches a 8 m (store64 m a v) :=
  touches_store m _ ha

theorem touches_store32 (m : Mem) (v : U32) (ha : a.toNat + 4 ≤ 2 ^ 64) :
    Touches a 4 m (store32 m a v) :=
  touches_store m _ ha

theorem touches_storeWords (m : Mem) (ws : List (BitVec 64)) (ha : a.toNat + 8 * ws.length ≤ 2 ^ 64) :
    Touches a (8 * ws.length) m (storeWords m a ws) :=
  fun _ hx => storeWords_outside m ws ha hx

@[simp] theorem load32_store32 (m : Mem) (a : Addr) (v : U32) : load32 (store32 m a v) a = v := by
  have hv : v.toNat < 256 ^ 4 := lt_of_lt_of_eq v.isLt (by norm_num)
  rw [load32, store32, block_store_self m _ (by norm_num), field_setField _ (by norm_num) hv,
    BitVec.ofNat_toNat, BitVec.setWidth_eq]

theorem storeBytes_keeps (m : Mem) {writes : List (Addr × Byte)} (h : ∀ x ∈ writes, Outside a n x.1) :
    Keeps a n m (storeBytes m writes) := by
  induction writes generalizing m with
  | nil => exact Keeps.refl a n m
  | cons x rest ih =>
    obtain ⟨c, v⟩ := x
    have hc : Outside a n c := h (c, v) List.mem_cons_self
    refine Keeps.trans (fun y hy => ?_)
      (ih (Function.update m c v) fun z hz => h z (List.mem_cons_of_mem _ hz))
    refine Function.update_of_ne ?_ _ _
    rintro rfl
    exact hy hc

namespace FiberRecord

/-! ### Records -/

structure Contents where
  stackPointer : Addr
  words : Field → BitVec 64
  status : CInt
  life : U32

/-- The contents of the record at `fiber`; its last word is read as its two halves. -/
def contents (arch : Arch) (m : Mem) (fiber : Addr) : Contents where
  stackPointer := FiberRecord.stackPointer arch m fiber
  words := fun field => if field = .statusLife then 0#64 else get arch m fiber field
  status := FiberRecord.status arch m fiber
  life := FiberRecord.life arch m fiber

def stackPointerIndex : Arch → ℕ
  | .aarch64 => 12
  | .x8664 => 6

theorem stackPointer_eq (arch : Arch) (m : Mem) (fiber : Addr) :
    FiberRecord.stackPointer arch m fiber =
      load64 m (fiber + BitVec.ofNat 64 (8 * stackPointerIndex arch)) := by
  cases arch <;> rfl

theorem stackPointerIndex_lt (arch : Arch) : stackPointerIndex arch < contextWords arch := by
  cases arch <;> decide

theorem Field.index_injective {field field' : Field} (h : field.index = field'.index) :
    field = field' := by
  cases field <;> cases field' <;> first | rfl | cases h

theorem stackPointer_toNat (hfits : fiber.toNat + FiberRecord.size arch ≤ 2 ^ 64) :
    (fiber + BitVec.ofNat 64 (8 * stackPointerIndex arch)).toNat =
      fiber.toNat + 8 * stackPointerIndex arch := by
  have hlt := stackPointerIndex_lt arch
  unfold FiberRecord.size at hfits
  exact toNat_add_of_fits (by omega)

theorem life_toNat (hfits : fiber.toNat + FiberRecord.size arch ≤ 2 ^ 64) :
    (fieldAt arch fiber .statusLife + 4#64).toNat = fiber.toNat + 8 * (contextWords arch + 11) + 4 := by
  have hat : (fieldAt arch fiber .statusLife).toNat = fiber.toNat + 8 * (contextWords arch + 11) :=
    fieldAt_toNat hfits .statusLife
  unfold FiberRecord.size at hfits
  rw [← hat]
  exact toNat_add_of_fits (i := 4) (by omega)

/-! A store into one part of the record leaves the other parts. -/

theorem stackPointer_touched (hfits : fiber.toNat + FiberRecord.size arch ≤ 2 ^ 64)
    (h : Touches a n m m') (ha : fiber.toNat + 8 * contextWords arch ≤ a.toNat) :
    FiberRecord.stackPointer arch m' fiber = FiberRecord.stackPointer arch m fiber := by
  have hlt := stackPointerIndex_lt arch
  have hsp := stackPointer_toNat hfits
  unfold FiberRecord.size at hfits
  rw [stackPointer_eq, stackPointer_eq]
  exact load64_keeps (h.keeps (.inl (by omega))) (by omega)

theorem get_touched (hfits : fiber.toNat + FiberRecord.size arch ≤ 2 ^ 64) (h : Touches a n m m')
    {field : Field} (ha : fiber.toNat + 8 * (contextWords arch + field.index) + 8 ≤ a.toNat ∨
      a.toNat + n ≤ fiber.toNat + 8 * (contextWords arch + field.index)) :
    get arch m' fiber field = get arch m fiber field := by
  have hlt := field.index_lt
  have hat := fieldAt_toNat hfits field
  unfold FiberRecord.size at hfits
  refine load64_keeps (h.keeps ?_) (by omega)
  unfold Separate
  omega

theorem status_touched (hfits : fiber.toNat + FiberRecord.size arch ≤ 2 ^ 64) (h : Touches a n m m')
    (ha : fiber.toNat + 8 * (contextWords arch + 11) + 4 ≤ a.toNat ∨
      a.toNat + n ≤ fiber.toNat + 8 * (contextWords arch + 11)) :
    FiberRecord.status arch m' fiber = FiberRecord.status arch m fiber := by
  have hat : (fieldAt arch fiber .statusLife).toNat = fiber.toNat + 8 * (contextWords arch + 11) :=
    fieldAt_toNat hfits .statusLife
  unfold FiberRecord.size at hfits
  refine load32_keeps (h.keeps ?_) (by omega)
  unfold Separate
  omega

theorem life_touched (hfits : fiber.toNat + FiberRecord.size arch ≤ 2 ^ 64) (h : Touches a n m m')
    (ha : fiber.toNat + FiberRecord.size arch ≤ a.toNat ∨
      a.toNat + n ≤ fiber.toNat + 8 * (contextWords arch + 11) + 4) :
    FiberRecord.life arch m' fiber = FiberRecord.life arch m fiber := by
  have hat := life_toNat hfits
  unfold FiberRecord.size at hfits ha
  refine load32_keeps (h.keeps ?_) (by omega)
  unfold Separate
  omega

theorem contents_words {field : Field} (hf : field ≠ .statusLife) :
    (contents arch m fiber).words field = get arch m fiber field := if_neg hf

theorem contents_ext {c : Contents} (hstack : FiberRecord.stackPointer arch m fiber = c.stackPointer)
    (hwords : ∀ field, field ≠ .statusLife → get arch m fiber field = c.words field)
    (hlast : c.words .statusLife = 0#64) (hstatus : FiberRecord.status arch m fiber = c.status)
    (hlife : FiberRecord.life arch m fiber = c.life) :
    contents arch m fiber = c := by
  have hw : (contents arch m fiber).words = c.words := by
    funext field
    by_cases hf : field = .statusLife
    · rw [hf, hlast]
      rfl
    · rw [contents_words hf, hwords field hf]
  obtain ⟨stack, words, status, life⟩ := c
  rw [show words = (contents arch m fiber).words from hw.symm, ← show _ = stack from hstack,
    ← show _ = status from hstatus, ← show _ = life from hlife]
  rfl

theorem contents_keeps (hfits : fiber.toNat + FiberRecord.size arch ≤ 2 ^ 64)
    (h : Keeps fiber (FiberRecord.size arch) m m') :
    contents arch m' fiber = contents arch m fiber := by
  have hlt := stackPointerIndex_lt arch
  have hsp := stackPointer_toNat hfits
  have hlife := life_toNat hfits
  have hlast : (fieldAt arch fiber .statusLife).toNat = fiber.toNat + 8 * (contextWords arch + 11) :=
    fieldAt_toNat hfits .statusLife
  have hsize : FiberRecord.size arch = 8 * contextWords arch + 96 := rfl
  refine contents_ext ?_ (fun field hf => ?_) rfl ?_ ?_
  · rw [stackPointer_eq, load64_keeps (h.sub (by omega) (by omega)) (by omega)]
    exact (stackPointer_eq arch m fiber).symm
  · have hat := fieldAt_toNat hfits field
    have hbound := field.index_lt
    rw [contents_words hf]
    exact load64_keeps (h.sub (by omega) (by omega)) (by omega)
  · exact load32_keeps (h.sub (by omega) (by omega)) (by omega)
  · exact load32_keeps (h.sub (by omega) (by omega)) (by omega)

theorem contents_set (hfits : fiber.toNat + FiberRecord.size arch ≤ 2 ^ 64) {field : Field}
    (hf : field ≠ .statusLife) (v : BitVec 64) : contents arch (set arch m fiber field v) fiber =
      { contents arch m fiber with words := Function.update (contents arch m fiber).words field v } := by
  have hat := fieldAt_toNat hfits field
  have hindex := field.index_lt
  have hne : field.index ≠ 11 := fun he => hf (Field.index_injective he)
  have hsize : FiberRecord.size arch = 8 * contextWords arch + 96 := rfl
  have htouch : Touches (fieldAt arch fiber field) 8 m (set arch m fiber field v) :=
    touches_store64 m v (by omega)
  refine contents_ext ?_ (fun field' hf' => ?_) ?_ ?_ ?_
  · exact stackPointer_touched hfits htouch (by omega)
  · show _ = Function.update (contents arch m fiber).words field v field'
    by_cases he : field' = field
    · rw [he, Function.update_self]
      exact load64_store64 m _ v
    · have hindex' : field'.index ≠ field.index := fun hi => he (Field.index_injective hi)
      rw [Function.update_of_ne he, contents_words hf']
      exact get_touched hfits htouch (by omega)
  · show Function.update (contents arch m fiber).words field v .statusLife = _
    rw [Function.update_of_ne (Ne.symm hf)]
    rfl
  · exact status_touched hfits htouch (by omega)
  · exact life_touched hfits htouch (by omega)

/-! The stores stay in the record. -/

theorem touches_set (hfits : fiber.toNat + FiberRecord.size arch ≤ 2 ^ 64) (field : Field)
    (v : BitVec 64) :
    Touches fiber (FiberRecord.size arch) m (set arch m fiber field v) := by
  have hat := fieldAt_toNat hfits field
  have hindex := field.index_lt
  have hsize : FiberRecord.size arch = 8 * contextWords arch + 96 := rfl
  exact (touches_store64 m v (by omega)).mono (by omega) (by omega)

theorem touches_setStatus (hfits : fiber.toNat + FiberRecord.size arch ≤ 2 ^ 64) (v : CInt) :
    Touches fiber (FiberRecord.size arch) m (setStatus arch m fiber v) := by
  have hat : (fieldAt arch fiber .statusLife).toNat = fiber.toNat + 8 * (contextWords arch + 11) :=
    fieldAt_toNat hfits .statusLife
  have hsize : FiberRecord.size arch = 8 * contextWords arch + 96 := rfl
  exact (touches_store32 m v (by omega)).mono (by omega) (by omega)

theorem touches_setLife (hfits : fiber.toNat + FiberRecord.size arch ≤ 2 ^ 64) (v : U32) :
    Touches fiber (FiberRecord.size arch) m (setLife arch m fiber v) := by
  have hat := life_toNat hfits
  have hsize : FiberRecord.size arch = 8 * contextWords arch + 96 := rfl
  exact (touches_store32 m v (by omega)).mono (by omega) (by omega)

theorem touches_context (hfits : fiber.toNat + FiberRecord.size arch ≤ 2 ^ 64) {ws : List (BitVec 64)}
    (hlen : ws.length = contextWords arch) :
    Touches fiber (FiberRecord.size arch) m (storeWords m fiber ws) := by
  have hsize : FiberRecord.size arch = 8 * contextWords arch + 96 := rfl
  exact (touches_storeWords m ws (by omega)).mono le_rfl (by omega)

theorem contents_setStatus (hfits : fiber.toNat + FiberRecord.size arch ≤ 2 ^ 64) (v : CInt) :
    contents arch (setStatus arch m fiber v) fiber = { contents arch m fiber with status := v } := by
  have hat : (fieldAt arch fiber .statusLife).toNat = fiber.toNat + 8 * (contextWords arch + 11) :=
    fieldAt_toNat hfits .statusLife
  have hsize : FiberRecord.size arch = 8 * contextWords arch + 96 := rfl
  have htouch : Touches (fieldAt arch fiber .statusLife) 4 m (setStatus arch m fiber v) :=
    touches_store32 m v (by omega)
  refine contents_ext ?_ (fun field hf => ?_) rfl ?_ ?_
  · exact stackPointer_touched hfits htouch (by omega)
  · have hindex : field.index ≠ 11 := fun hi => hf (Field.index_injective hi)
    have hbound := field.index_lt
    rw [contents_words hf]
    exact get_touched hfits htouch (by omega)
  · exact load32_store32 m _ v
  · exact life_touched hfits htouch (by omega)

theorem contents_setLife (hfits : fiber.toNat + FiberRecord.size arch ≤ 2 ^ 64) (v : U32) :
    contents arch (setLife arch m fiber v) fiber = { contents arch m fiber with life := v } := by
  have hat := life_toNat hfits
  have hsize : FiberRecord.size arch = 8 * contextWords arch + 96 := rfl
  have htouch : Touches (fieldAt arch fiber .statusLife + 4#64) 4 m (setLife arch m fiber v) :=
    touches_store32 m v (by omega)
  refine contents_ext ?_ (fun field hf => ?_) rfl ?_ ?_
  · exact stackPointer_touched hfits htouch (by omega)
  · have hindex : field.index ≠ 11 := fun hi => hf (Field.index_injective hi)
    have hbound := field.index_lt
    rw [contents_words hf]
    exact get_touched hfits htouch (by omega)
  · exact status_touched hfits htouch (by omega)
  · exact load32_store32 m _ v

theorem contents_context (hfits : fiber.toNat + FiberRecord.size arch ≤ 2 ^ 64) {ws : List (BitVec 64)}
    (hlen : ws.length = contextWords arch) : contents arch (storeWords m fiber ws) fiber =
      { contents arch m fiber with stackPointer := ws.getD (stackPointerIndex arch) 0#64 } := by
  have hlt := stackPointerIndex_lt arch
  have hsize : FiberRecord.size arch = 8 * contextWords arch + 96 := rfl
  have hroom : fiber.toNat + 8 * ws.length ≤ 2 ^ 64 := by omega
  have htouch : Touches fiber (8 * ws.length) m (storeWords m fiber ws) := touches_storeWords m ws hroom
  refine contents_ext ?_ (fun field hf => ?_) rfl ?_ ?_
  · have hi : stackPointerIndex arch < ws.length := by omega
    rw [stackPointer_eq, load64_storeWords m hroom hi]
    simp only [List.getD_eq_getElem?_getD, List.getElem?_eq_getElem hi, Option.getD_some]
  · rw [contents_words hf]
    exact get_touched hfits htouch (by omega)
  · exact status_touched hfits htouch (by omega)
  · exact life_touched hfits htouch (by omega)

end FiberRecord

end Libuc
