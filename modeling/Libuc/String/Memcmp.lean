import Libuc.String.Basic

/-! `memcmp` scans blocks of 64 bytes, then 64-bit scalars, then bytes. A block that
differs is handed to the scalar loop as it is; a scalar that differs decides by its
bytes swapped, since lexicographic order is the numeric order of the big-endian
reading. The scan keeps the loads it makes, to say where they lie. What `memcpy` has
placed compares equal to its source. -/

namespace Libuc.String

open Lib

structure Load where
  lhs : Addr
  rhs : Addr
  length : ℕ

structure Scan where
  result : CInt
  loads : List Load

def Scan.after (load : Load) (scan : Scan) : Scan := ⟨scan.result, load :: scan.loads⟩

/-- The `scalar` that `__builtin_memcpy` reads at `a`, least significant byte first. -/
def scalarAt (m : Mem) (a : Addr) : BitVec 64 := BitVec.ofNat 64 (field (Lib.block m a 8) 0 8)

/-- The `block` at `a`: eight scalars. -/
def blockAt (m : Mem) (a : Addr) (lane : Fin 8) : BitVec 64 :=
  scalarAt m (a + BitVec.ofNat 64 (8 * lane))

/-- `__builtin_reduce_or`. -/
def reduceOr (v : Fin 8 → BitVec 64) : BitVec 64 := (List.ofFn v).foldr (· ||| ·) 0#64

/-- `__builtin_bswapg` on a scalar: the bytes in the opposite order. -/
def bswap (x : BitVec 64) : BitVec 64 :=
  BitVec.ofNat 64 (bigEndian (List.ofFn fun i : Fin 8 => x.extractLsb' (8 * i) 8))

/-- The `for` loop over the bytes that are left, from index `i` on. -/
def byteLoop (m : Mem) (l r : Addr) (i : ℕ) : ℕ → Scan
  | 0 => ⟨0#32, []⟩
  | n + 1 =>
    let a := m (l + BitVec.ofNat 64 i)
    let b := m (r + BitVec.ofNat 64 i)
    Scan.after ⟨l + BitVec.ofNat 64 i, r + BitVec.ofNat 64 i, 1⟩
      (if a ≠ b then ⟨if a < b then -1#32 else 1#32, []⟩ else byteLoop m l r (i + 1) n)

/-- `while (n >= sizeof(scalar))`. -/
def scalarLoop (m : Mem) (l r : Addr) (n : ℕ) : Scan :=
  if 8 ≤ n then
    let a := scalarAt m l
    let b := scalarAt m r
    Scan.after ⟨l, r, 8⟩
      (if a ≠ b then ⟨if bswap a < bswap b then -1#32 else 1#32, []⟩
        else scalarLoop m (l + 8#64) (r + 8#64) (n - 8))
  else byteLoop m l r 0 n

/-- `while (n >= sizeof(block))`; the `break` skips the decrement. -/
def blockLoop (m : Mem) (l r : Addr) (n : ℕ) : Scan :=
  if 64 ≤ n then
    Scan.after ⟨l, r, 64⟩
      (if reduceOr (fun lane => blockAt m l lane ^^^ blockAt m r lane) ≠ 0#64 then scalarLoop m l r n
        else blockLoop m (l + 64#64) (r + 64#64) (n - 64))
  else scalarLoop m l r n

def memcmp (m : Mem) (lhs rhs : Addr) (n : BitVec 64) : Scan := blockLoop m lhs rhs n.toNat

variable {m : Mem} {l r : Addr}

/-! ### Byte strings in memory -/

/-- The `n` bytes at `a`. -/
def bytes (m : Mem) (a : Addr) (n : ℕ) : List Byte :=
  (List.range n).map fun i => m (a + BitVec.ofNat 64 i)

@[simp] theorem bytes_length (m : Mem) (a : Addr) (n : ℕ) : (bytes m a n).length = n := by simp [bytes]

theorem bytes_add (m : Mem) (a : Addr) (k n : ℕ) :
    bytes m a (k + n) = bytes m a k ++ bytes m (a + BitVec.ofNat 64 k) n := by
  simp only [bytes, List.range_add, List.map_append, List.map_map, Function.comp_def,
    BitVec.ofNat_add, add_assoc]

theorem bytes_succ (m : Mem) (a : Addr) (n : ℕ) : bytes m a (n + 1) = m a :: bytes m (a + 1#64) n := by
  rw [add_comm n 1, bytes_add]
  simp [bytes]

theorem bytes_eq_iff {n : ℕ} : bytes m l n = bytes m r n ↔
    ∀ i < n, m (l + BitVec.ofNat 64 i) = m (r + BitVec.ofNat 64 i) := by
  simp [bytes]

/-- The bytes of a scalar, least significant first, are the bytes it was read from. -/
theorem scalarAt_bytes (m : Mem) (a : Addr) :
    (List.ofFn fun i : Fin 8 => (scalarAt m a).extractLsb' (8 * i) 8) = bytes m a 8 := by
  refine List.ext_getElem (by simp) fun i hi _ => ?_
  have hi8 : i < 8 := by simpa using hi
  have hbyte : (m (a + BitVec.ofNat 64 i)).toNat = byteAt (Lib.block m a 8) (0 + i) := by
    simp [byteAt, hi8, Lib.block]
  rw [List.getElem_ofFn]
  apply BitVec.eq_of_toNat_eq
  simp only [bytes, List.getElem_map, List.getElem_range, BitVec.extractLsb'_toNat, scalarAt,
    BitVec.toNat_ofNat, Nat.shiftRight_eq_div_pow]
  rw [hbyte, ← field_div (Lib.block m a 8) hi8]
  have hlt : field (Lib.block m a 8) 0 8 < 2 ^ 64 := lt_of_lt_of_eq (field_lt _ 0 8) (by norm_num)
  rw [Nat.mod_eq_of_lt hlt, pow_mul]
  norm_num

theorem bswap_scalarAt (m : Mem) (a : Addr) :
    (bswap (scalarAt m a)).toNat = bigEndian (bytes m a 8) := by
  rw [bswap, scalarAt_bytes, BitVec.toNat_ofNat, Nat.mod_eq_of_lt]
  have h := bigEndian_lt (bytes m a 8)
  rw [bytes_length] at h
  exact lt_of_lt_of_eq h (by norm_num)

theorem scalarAt_eq_iff : scalarAt m l = scalarAt m r ↔ bytes m l 8 = bytes m r 8 := by
  constructor
  · intro h
    rw [← scalarAt_bytes, ← scalarAt_bytes, h]
  · intro h
    have hblock : Lib.block m l 8 = Lib.block m r 8 := by
      funext j
      exact bytes_eq_iff.mp h j j.isLt
    rw [scalarAt, scalarAt, hblock]

theorem reduceOr_eq_zero {v : Fin 8 → BitVec 64} : reduceOr v = 0#64 ↔ ∀ lane, v lane = 0#64 := by
  have hor : ∀ xs : List (BitVec 64), xs.foldr (· ||| ·) 0#64 = 0#64 ↔ ∀ x ∈ xs, x = 0#64 := by
    intro xs
    induction xs with
    | nil => simp
    | cons x xs ih => simp [BitVec.or_eq_zero_iff, ih]
  rw [reduceOr, hor]
  exact List.forall_mem_ofFn_iff

theorem blocks_eq_iff :
    reduceOr (fun lane => blockAt m l lane ^^^ blockAt m r lane) = 0#64 ↔
    bytes m l 64 = bytes m r 64 := by
  simp only [reduceOr_eq_zero, BitVec.xor_eq_zero_iff, blockAt, scalarAt_eq_iff, bytes_eq_iff]
  constructor
  · intro h i hi
    have := h ⟨i / 8, by omega⟩ (i % 8) (Nat.mod_lt _ (by norm_num))
    simpa only [add_assoc, ← BitVec.ofNat_add, Nat.div_add_mod] using this
  · intro h lane j hj
    simp only [add_assoc, ← BitVec.ofNat_add]
    exact h _ (by omega)

/-! ### The loops -/

def sign : Ordering → CInt
  | .lt => -1#32
  | .eq => 0#32
  | .gt => 1#32

/-- The load lies within the first `n` bytes of both arguments. -/
def Load.Within (l r : Addr) (n : ℕ) (load : Load) : Prop :=
  ∃ o, o + load.length ≤ n ∧ load.lhs = l + BitVec.ofNat 64 o ∧ load.rhs = r + BitVec.ofNat 64 o

theorem Load.Within.shift {k n : ℕ} {load : Load}
    (h : load.Within (l + BitVec.ofNat 64 k) (r + BitVec.ofNat 64 k) (n - k)) (hk : k ≤ n) :
    load.Within l r n := by
  obtain ⟨o, ho, hl, hr⟩ := h
  refine ⟨k + o, by omega, ?_, ?_⟩
  · rw [hl, add_assoc, ← BitVec.ofNat_add]
  · rw [hr, add_assoc, ← BitVec.ofNat_add]

theorem Load.within_start {k n : ℕ} (hk : k ≤ n) : Load.Within l r n ⟨l, r, k⟩ := by
  refine ⟨0, ?_, by simp, by simp⟩
  rw [zero_add]
  exact hk

/-- A scan compares the first `n` bytes, and reads nothing else. -/
structure Scan.Compares (scan : Scan) (m : Mem) (l r : Addr) (n : ℕ) : Prop where
  result : scan.result = sign (firstDifference (bytes m l n) (bytes m r n))
  loads : ∀ load ∈ scan.loads, load.Within l r n

theorem Scan.Compares.step {scan : Scan} {k n : ℕ} (hk : k ≤ n) (heq : bytes m l k = bytes m r k)
    (h : scan.Compares m (l + BitVec.ofNat 64 k) (r + BitVec.ofNat 64 k) (n - k)) :
    (Scan.after ⟨l, r, k⟩ scan).Compares m l r n := by
  have hn : n = k + (n - k) := by omega
  constructor
  · rw [hn, bytes_add, bytes_add, heq, firstDifference_append_self]
    exact h.result
  · intro load hl
    rcases List.mem_cons.mp hl with rfl | hl
    · exact Load.within_start hk
    · exact (h.loads load hl).shift hk

theorem Scan.compares_of_ne {k n : ℕ} (hk : k ≤ n) (hne : bytes m l k ≠ bytes m r k) {result : CInt}
    (hresult : result = sign (firstDifference (bytes m l k) (bytes m r k))) :
    (Scan.after ⟨l, r, k⟩ ⟨result, []⟩).Compares m l r n := by
  have hn : n = k + (n - k) := by omega
  constructor
  · rw [hn, bytes_add, bytes_add, firstDifference_append_of_ne (by simp) hne]
    exact hresult
  · intro load hl
    rw [List.mem_singleton.mp hl]
    exact Load.within_start hk

theorem byteLoop_compares (m : Mem) (l r : Addr) (i n : ℕ) :
    (byteLoop m l r i n).Compares m (l + BitVec.ofNat 64 i) (r + BitVec.ofNat 64 i) n := by
  induction n generalizing i with
  | zero => exact ⟨rfl, by simp [byteLoop]⟩
  | succ n ih =>
    have hone : ∀ a : Addr, bytes m a 1 = [m a] := by simp [bytes]
    simp only [byteLoop]
    split_ifs with hne hlt
    · refine Scan.compares_of_ne (by omega) (by simpa [hone] using hne) ?_
      simp only [hone, firstDifference, hne, if_false]
      rw [Nat.compare_eq_lt.mpr (BitVec.lt_def.mp hlt)]
      rfl
    · refine Scan.compares_of_ne (by omega) (by simpa [hone] using hne) ?_
      have hgt : (m (r + BitVec.ofNat 64 i)).toNat < (m (l + BitVec.ofNat 64 i)).toNat := by
        have hnt : (m (l + BitVec.ofNat 64 i)).toNat ≠ (m (r + BitVec.ofNat 64 i)).toNat :=
          fun h => hne (BitVec.eq_of_toNat_eq h)
        rw [BitVec.lt_def] at hlt
        omega
      simp only [hone, firstDifference, hne, if_false]
      rw [Nat.compare_eq_gt.mpr hgt]
      rfl
    · refine Scan.Compares.step (by omega) ?_ ?_
      · simpa [hone] using hne
      · have h := ih (i + 1)
        rw [BitVec.ofNat_add, ← add_assoc, ← add_assoc] at h
        exact h

theorem scalarLoop_compares (m : Mem) (l r : Addr) (n : ℕ) : (scalarLoop m l r n).Compares m l r n := by
  fun_induction scalarLoop m l r n with
  | case1 l r n hn a b ih =>
    split_ifs with hne hlt
    · refine Scan.compares_of_ne hn (scalarAt_eq_iff.not.mp hne) ?_
      rw [BitVec.lt_def, bswap_scalarAt, bswap_scalarAt] at hlt
      rw [firstDifference_eq_compare (by simp), Nat.compare_eq_lt.mpr hlt]
      rfl
    · have hbytes := scalarAt_eq_iff.not.mp hne
      refine Scan.compares_of_ne hn hbytes ?_
      rw [BitVec.lt_def, bswap_scalarAt, bswap_scalarAt] at hlt
      have hnumbers : bigEndian (bytes m l 8) ≠ bigEndian (bytes m r 8) := by
        intro h
        rw [← Nat.compare_eq_eq, ← firstDifference_eq_compare (by simp),
          firstDifference_eq_eq (by simp)] at h
        exact hbytes h
      rw [firstDifference_eq_compare (by simp), Nat.compare_eq_gt.mpr (by omega)]
      rfl
    · exact Scan.Compares.step hn (scalarAt_eq_iff.mp (not_not.mp hne)) ih
  | case2 l r n hn =>
    have h := byteLoop_compares m l r 0 n
    simpa using h

theorem blockLoop_compares (m : Mem) (l r : Addr) (n : ℕ) : (blockLoop m l r n).Compares m l r n := by
  fun_induction blockLoop m l r n with
  | case1 l r n hn ih =>
    split_ifs with hne
    · -- the scalar loop starts again at the block that differs
      have h := scalarLoop_compares m l r n
      refine ⟨h.result, ?_⟩
      intro load hl
      rcases List.mem_cons.mp hl with rfl | hl
      · exact Load.within_start hn
      · exact h.loads load hl
    · exact Scan.Compares.step hn (blocks_eq_iff.mp (not_not.mp hne)) ih
  | case2 l r n hn => exact scalarLoop_compares m l r n

/-! ### The whole function -/

theorem sign_eq_zero {o : Ordering} : sign o = 0#32 ↔ o = .eq := by
  cases o <;> decide

theorem firstDifference_bytes {n i : ℕ} (hi : i < n)
    (hbefore : ∀ j < i, m (l + BitVec.ofNat 64 j) = m (r + BitVec.ofNat 64 j)) :
    (m (l + BitVec.ofNat 64 i) < m (r + BitVec.ofNat 64 i) →
      firstDifference (bytes m l n) (bytes m r n) = .lt) ∧
      (m (r + BitVec.ofNat 64 i) < m (l + BitVec.ofNat 64 i) →
        firstDifference (bytes m l n) (bytes m r n) = .gt) := by
  have hn : n = i + (n - i - 1 + 1) := by omega
  rw [hn, bytes_add m l, bytes_add m r, bytes_eq_iff.mpr hbefore, firstDifference_append_self,
    bytes_succ, bytes_succ]
  constructor
  · intro h
    simp only [firstDifference, BitVec.ne_of_lt h, if_false]
    exact Nat.compare_eq_lt.mpr (BitVec.lt_def.mp h)
  · intro h
    simp only [firstDifference, (BitVec.ne_of_lt h).symm, if_false]
    exact Nat.compare_eq_gt.mpr (BitVec.lt_def.mp h)

theorem memcmp_eq_zero {n : BitVec 64} :
    (memcmp m l r n).result = 0#32 ↔ ∀ i < n.toNat,
    m (l + BitVec.ofNat 64 i) = m (r + BitVec.ofNat 64 i) := by
  have hr : (memcmp m l r n).result = sign (firstDifference (bytes m l n.toNat) (bytes m r n.toNat)) :=
    (blockLoop_compares m l r n.toNat).result
  rw [hr, sign_eq_zero, firstDifference_eq_eq (by simp), bytes_eq_iff]

/-- `memcmp` is the lexicographic order of bytes: zero exactly for equal ranges,
otherwise decided by the first byte that differs, read as unsigned. Every load lies in
the first `n` bytes of its argument, and only these bytes matter. -/
theorem memcmp_lexicographic (m : Mem) (l r : Addr) (n : BitVec 64) :
    ((memcmp m l r n).result = 0#32 ↔ ∀ i < n.toNat,
      m (l + BitVec.ofNat 64 i) = m (r + BitVec.ofNat 64 i)) ∧
    (∀ i < n.toNat, (∀ j < i, m (l + BitVec.ofNat 64 j) = m (r + BitVec.ofNat 64 j)) →
      (m (l + BitVec.ofNat 64 i) < m (r + BitVec.ofNat 64 i) → (memcmp m l r n).result = -1#32) ∧
      (m (r + BitVec.ofNat 64 i) < m (l + BitVec.ofNat 64 i) → (memcmp m l r n).result = 1#32)) ∧
    (∀ load ∈ (memcmp m l r n).loads, load.Within l r n.toNat) ∧
    (∀ m' : Mem, (∀ i < n.toNat, m' (l + BitVec.ofNat 64 i) = m (l + BitVec.ofNat 64 i) ∧
      m' (r + BitVec.ofNat 64 i) = m (r + BitVec.ofNat 64 i)) →
      (memcmp m' l r n).result = (memcmp m l r n).result) := by
  have hc := blockLoop_compares m l r n.toNat
  have hr : (memcmp m l r n).result =
      sign (firstDifference (bytes m l n.toNat) (bytes m r n.toNat)) := hc.result
  refine ⟨memcmp_eq_zero, ?_, hc.loads, ?_⟩
  · intro i hi hbefore
    obtain ⟨hlt, hgt⟩ := firstDifference_bytes hi hbefore
    rw [hr]
    exact ⟨fun h => by rw [hlt h]; rfl, fun h => by rw [hgt h]; rfl⟩
  · intro m' hsame
    have hc' : (memcmp m' l r n).result =
        sign (firstDifference (bytes m' l n.toNat) (bytes m' r n.toNat)) :=
      (blockLoop_compares m' l r n.toNat).result
    have hl : bytes m' l n.toNat = bytes m l n.toNat := by
      simp only [bytes, List.map_inj_left, List.mem_range]
      exact fun i hi => (hsame i hi).1
    have hrr : bytes m' r n.toNat = bytes m r n.toNat := by
      simp only [bytes, List.map_inj_left, List.mem_range]
      exact fun i hi => (hsame i hi).2
    rw [hc', hr, hl, hrr]

/-! ### Copies -/

/-- On ranges that do not meet `memcpy` does what `memmove` does: the destination compares
equal to the source, and every other byte, the source among them, is unchanged. -/
theorem memcpy_eq_memmove (m : Mem) (dst src n : BitVec 64) (hd : dst.toNat + n.toNat ≤ 2 ^ 64)
    (hs : src.toNat + n.toNat ≤ 2 ^ 64) (apart : Separate dst n.toNat src n.toNat) :
    memcpy m dst src n = memmove m dst src n ∧ (memcpy m dst src n).2 = dst ∧
      (∀ i < n.toNat, (memcpy m dst src n).1 (dst + BitVec.ofNat 64 i) = m (src + BitVec.ofNat 64 i)) ∧
      (∀ x, Outside dst n.toNat x → (memcpy m dst src n).1 x = m x) ∧
      (memcmp (memcpy m dst src n).1 dst src n).result = 0#32 := by
  have hsource : ∀ i < n.toNat, Outside dst n.toNat (src + BitVec.ofNat 64 i) := by
    intro i hi
    have he : (src + BitVec.ofNat 64 i).toNat = src.toNat + i := toNat_add_of_fits (by omega)
    rcases apart with h | h
    · exact .inr (by omega)
    · exact .inl (by omega)
  have hmoved : memcpy m dst src n = (moved m dst src n.toNat, dst) := by
    rw [memcpy, copyUp_of_outside m hd hsource]
  have hplaced : ∀ i < n.toNat, moved m dst src n.toNat (dst + BitVec.ofNat 64 i) =
      m (src + BitVec.ofNat 64 i) :=
    fun i hi => moved_at m dst src hi (by omega)
  have hkept : ∀ x, Outside dst n.toNat x → moved m dst src n.toNat x = m x :=
    fun x hx => moved_of_outside m hd hx
  rw [hmoved]
  exact ⟨(memmove_eq_moved m hd hs).symm, rfl, hplaced, hkept,
    memcmp_eq_zero.mpr fun i hi => (hplaced i hi).trans (hkept _ (hsource i hi)).symm⟩

/-- Four bytes are copied past themselves. -/
theorem memcpy_eq_memmove_apart :
    (memcpy (fun x => x.setWidth 8) 8#64 4#64 4#64).1 (8#64 + BitVec.ofNat 64 3) = 7#8 ∧
      (memcmp (memcpy (fun x => x.setWidth 8) 8#64 4#64 4#64).1 8#64 4#64 4#64).result = 0#32 := by
  obtain ⟨-, -, hplaced, -, hequal⟩ :=
    memcpy_eq_memmove (fun x => x.setWidth 8) 8#64 4#64 4#64 (by decide) (by decide) (.inr (by decide))
  exact ⟨hplaced 3 (by decide), hequal⟩

end Libuc.String
