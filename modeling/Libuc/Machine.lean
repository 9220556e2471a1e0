import Libuc.Lib.ByteOrder
import Libuc.Lib.Region

/-! The machine words the sources are written in, the system call convention, and words in
byte-addressed memory. Addresses and C's `long` are 64 bits wide, `int` and `uint32_t` are
32; arithmetic on them wraps. A signed reading is `BitVec.toInt`. Memory holds words
least significant byte first, and structures as consecutive words. -/

namespace Libuc

open Lib

abbrev Byte := BitVec 8

abbrev U32 := BitVec 32

abbrev Addr := BitVec 64

/-- C's `int`. -/
abbrev CInt := BitVec 32

/-- C's `long`. -/
abbrev Long := BitVec 64

abbrev Mem := Addr → Byte

/-- The conversion from `int` to `long`. -/
def toLong (x : CInt) : Long := x.signExtend 64

/-- The conversion from `long` to `int`. -/
def toInt (x : Long) : CInt := x.setWidth 32

/-- A status passed through a `long` comes back unchanged. -/
@[simp] theorem toInt_toLong (x : CInt) : toInt (toLong x) = x := by
  apply BitVec.eq_of_getLsbD_eq
  intro i hi
  simp only [toInt, toLong, BitVec.getLsbD_setWidth, BitVec.getLsbD_signExtend]
  have h64 : i < 64 := by omega
  simp [hi, h64]

/-- `__libuc_syscall_failed`. -/
def syscallFailed (result : Long) : Bool := result.toInt < 0 && -4095 ≤ result.toInt

/-! ### Words in memory -/

def load64 (m : Mem) (a : Addr) : BitVec 64 := BitVec.ofNat 64 (field (block m a 8) 0 8)

def load32 (m : Mem) (a : Addr) : U32 := BitVec.ofNat 32 (field (block m a 4) 0 4)

def store64 (m : Mem) (a : Addr) (v : BitVec 64) : Mem :=
  store m a (setField (fun _ : Fin 8 => 0#8) 0 8 v.toNat)

/-- Assign consecutive words, as the assignment of a structure does. -/
def storeWords (m : Mem) (a : Addr) : List (BitVec 64) → Mem
  | [] => m
  | v :: vs => storeWords (store64 m a v) (a + 8#64) vs

variable {m m' : Mem} {a x : Addr} {v : BitVec 64} {vs : List (BitVec 64)}

theorem load64_congr (h : ∀ i < 8, m' (a + BitVec.ofNat 64 i) = m (a + BitVec.ofNat 64 i)) :
    load64 m' a = load64 m a := by
  rw [load64, load64, block_congr h]

@[simp] theorem load64_store64 (m : Mem) (a : Addr) (v : BitVec 64) : load64 (store64 m a v) a = v := by
  have hv : v.toNat < 256 ^ 8 := lt_of_lt_of_eq v.isLt (by norm_num)
  rw [load64, store64, block_store_self m _ (by norm_num), field_setField _ (by norm_num) hv,
    BitVec.ofNat_toNat, BitVec.setWidth_eq]

theorem store64_outside (m : Mem) (v : BitVec 64) (ha : a.toNat + 8 ≤ 2 ^ 64) (hx : Outside a 8 x) :
    store64 m a v x = m x := store_outside m _ ha hx

theorem storeWords_outside (m : Mem) (vs : List (BitVec 64)) (ha : a.toNat + 8 * vs.length ≤ 2 ^ 64)
    (hx : Outside a (8 * vs.length) x) : storeWords m a vs x = m x := by
  induction vs generalizing m a with
  | nil => rfl
  | cons v vs ih =>
    rw [List.length_cons] at ha hx
    have hhead : store64 m a v x = m x := store64_outside m v (by omega) (hx.imp id fun h => by omega)
    simp only [storeWords]
    cases vs with
    | nil =>
      simp only [storeWords]
      exact hhead
    | cons u us =>
      rw [List.length_cons] at ha hx
      have hnext : (a + 8#64).toNat = a.toNat + 8 := toNat_add_of_fits (i := 8) (by omega)
      refine (ih (store64 m a v) ?_ ?_).trans hhead
      · rw [List.length_cons]
        omega
      · rw [List.length_cons]
        exact hx.imp (fun h => by omega) fun h => by omega

theorem load64_storeWords (m : Mem) {i : ℕ} (ha : a.toNat + 8 * vs.length ≤ 2 ^ 64)
    (hi : i < vs.length) :
    load64 (storeWords m a vs) (a + BitVec.ofNat 64 (8 * i)) = vs[i] := by
  induction vs generalizing m a i with
  | nil => simp at hi
  | cons v vs ih =>
    rw [List.length_cons] at ha hi
    simp only [storeWords]
    cases i with
    | zero =>
      rw [Nat.mul_zero, BitVec.add_zero, List.getElem_cons_zero]
      refine (load64_congr fun j hj => ?_).trans (load64_store64 m a v)
      cases vs with
      | nil => simp only [storeWords]
      | cons u us =>
        rw [List.length_cons] at ha
        have hnext : (a + 8#64).toNat = a.toNat + 8 := toNat_add_of_fits (i := 8) (by omega)
        have haj : (a + BitVec.ofNat 64 j).toNat = a.toNat + j := toNat_add_of_fits (by omega)
        have hfits : (a + 8#64).toNat + 8 * (u :: us).length ≤ 2 ^ 64 := by
          rw [List.length_cons]
          omega
        exact storeWords_outside _ (u :: us) hfits (.inl (by omega))
    | succ i =>
      have hnext : (a + 8#64).toNat = a.toNat + 8 := toNat_add_of_fits (i := 8) (by omega)
      have hindex : 8 * (i + 1) = 8 + 8 * i := by omega
      rw [hindex, BitVec.ofNat_add, ← add_assoc, List.getElem_cons_succ]
      exact ih (store64 m a v) (by omega) (by omega)

theorem load64_storeWords_separate (m : Mem) (vs : List (BitVec 64)) {b : Addr}
    (ha : a.toNat + 8 ≤ 2 ^ 64)
    (hb : b.toNat + 8 * vs.length ≤ 2 ^ 64) (h : Separate a 8 b (8 * vs.length)) :
    load64 (storeWords m b vs) a = load64 m a :=
  load64_congr fun _ hi => storeWords_outside m vs hb (h.outside hi ha)

theorem load64_store64_separate (m : Mem) {b : Addr} (v : BitVec 64) (ha : a.toNat + 8 ≤ 2 ^ 64)
    (hb : b.toNat + 8 ≤ 2 ^ 64) (h : Separate a 8 b 8) : load64 (store64 m b v) a = load64 m a :=
  load64_congr fun _ hi => store64_outside m v hb (h.outside hi ha)

/-- The words from `a` on are `ws`. -/
def HoldsWords (m : Mem) (a : Addr) (ws : List (BitVec 64)) : Prop :=
  ∀ i, (h : i < ws.length) → load64 m (a + BitVec.ofNat 64 (8 * i)) = ws[i]

theorem holdsWords_storeWords (m : Mem) {ws : List (BitVec 64)} (h : a.toNat + 8 * ws.length ≤ 2 ^ 64) :
    HoldsWords (storeWords m a ws) a ws := fun _ hi => load64_storeWords m h hi

theorem HoldsWords.congr {ws : List (BitVec 64)} (h : HoldsWords m a ws)
    (hfits : a.toNat + 8 * ws.length ≤ 2 ^ 64)
    (hsame : ∀ x : Addr, a.toNat ≤ x.toNat → x.toNat < a.toNat + 8 * ws.length → m' x = m x) :
    HoldsWords m' a ws := by
  intro i hi
  have hat : (a + BitVec.ofNat 64 (8 * i)).toNat = a.toNat + 8 * i := toNat_add_of_fits (by omega)
  refine (load64_congr fun j hj => ?_).trans (h i hi)
  have hx : (a + BitVec.ofNat 64 (8 * i) + BitVec.ofNat 64 j).toNat =
      (a + BitVec.ofNat 64 (8 * i)).toNat + j :=
    toNat_add_of_fits (by omega)
  exact hsame _ (by omega) (by omega)

theorem holdsWords_append {ws : List (BitVec 64)} :
    HoldsWords m a (vs ++ ws) ↔ HoldsWords m a vs ∧
    HoldsWords m (a + BitVec.ofNat 64 (8 * vs.length)) ws := by
  have hshift : ∀ j, a + BitVec.ofNat 64 (8 * vs.length) + BitVec.ofNat 64 (8 * j) =
      a + BitVec.ofNat 64 (8 * (vs.length + j)) := by
    intro j
    rw [Nat.mul_add, BitVec.ofNat_add, add_assoc]
  constructor
  · intro h
    refine ⟨fun i hi => ?_, fun j hj => ?_⟩
    · rw [h i (by rw [List.length_append]; omega), List.getElem_append_left hi]
    · rw [hshift, h (vs.length + j) (by rw [List.length_append]; omega),
        List.getElem_append_right (by omega)]
      simp only [Nat.add_sub_cancel_left]
  · rintro ⟨hv, hw⟩ i hi
    rw [List.length_append] at hi
    by_cases hlt : i < vs.length
    · rw [hv i hlt, List.getElem_append_left hlt]
    · have hsum : vs.length + (i - vs.length) = i := by omega
      have hj := hw (i - vs.length) (by omega)
      rw [hshift, hsum] at hj
      rw [hj, List.getElem_append_right (by omega)]

theorem holdsWords_cons : HoldsWords m a (v :: vs) ↔ load64 m a = v ∧ HoldsWords m (a + 8#64) vs := by
  have hone : HoldsWords m a [v] ↔ load64 m a = v := by
    constructor
    · intro h
      have h0 := h 0 (by simp)
      rwa [Nat.mul_zero, BitVec.add_zero] at h0
    · rintro h i hi
      have hi0 : i = 0 := by simpa using hi
      subst hi0
      rwa [Nat.mul_zero, BitVec.add_zero]
  rw [← List.singleton_append, holdsWords_append, hone]
  rfl

theorem load32_eq_setWidth (m : Mem) (a : Addr) : load32 m a = (load64 m a).setWidth 32 := by
  have hbyte : ∀ i < 4, byteAt (block m a 4) i = byteAt (block m a 8) i := by
    intro i hi
    have h8 : i < 8 := by omega
    simp only [byteAt, hi, h8, ↓reduceDIte, block]
  have hlow : field (block m a 4) 0 4 + 2 ^ 32 * field (block m a 8) 4 4 = field (block m a 8) 0 8 := by
    simp only [field, hbyte 0 (by norm_num), hbyte (0 + 1) (by norm_num),
      hbyte (0 + 1 + 1) (by norm_num), hbyte (0 + 1 + 1 + 1) (by norm_num)]
    ring
  rw [load32, load64, ← hlow, ← BitVec.toNat_inj, BitVec.toNat_setWidth, BitVec.toNat_ofNat,
    BitVec.toNat_ofNat, Nat.mod_mod_of_dvd _ (by norm_num), Nat.add_mul_mod_self_left]

/-- The checked sum of `<stdckdint.h>`, absent when it overflows. -/
def ckdAdd (x y : BitVec 64) : Option (BitVec 64) :=
  if x.toNat + y.toNat < 2 ^ 64 then some (x + y) else none

def ckdMul (x y : BitVec 64) : Option (BitVec 64) :=
  if x.toNat * y.toNat < 2 ^ 64 then some (x * y) else none

theorem ckdAdd_eq_some {x y z : BitVec 64} : ckdAdd x y = some z ↔ z.toNat = x.toNat + y.toNat := by
  unfold ckdAdd
  split_ifs with h
  · rw [Option.some.injEq, ← BitVec.toNat_inj, BitVec.toNat_add, Nat.mod_eq_of_lt h, eq_comm]
  · refine ⟨nofun, fun he => absurd ?_ h⟩
    rw [← he]
    exact z.isLt

theorem ckdAdd_eq_none {x y : BitVec 64} : ckdAdd x y = none ↔ 2 ^ 64 ≤ x.toNat + y.toNat := by
  unfold ckdAdd
  split_ifs with h
  · exact ⟨nofun, fun h' => by omega⟩
  · exact ⟨fun _ => by omega, fun _ => rfl⟩

theorem ckdMul_eq_some {x y z : BitVec 64} : ckdMul x y = some z ↔ z.toNat = x.toNat * y.toNat := by
  unfold ckdMul
  split_ifs with h
  · rw [Option.some.injEq, ← BitVec.toNat_inj, BitVec.toNat_mul, Nat.mod_eq_of_lt h, eq_comm]
  · refine ⟨nofun, fun he => absurd ?_ h⟩
    rw [← he]
    exact z.isLt

end Libuc
