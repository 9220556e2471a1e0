import Libuc.Machine

/-! The thread-local image of the executable, found through the auxiliary vector and
the program headers. `__libuc_thread_local_layout` decodes it once and keeps it in a
static; only a layout that passed every check can be kept. The program header table
is read from memory; the auxiliary vector is the list of its entries. -/

namespace Libuc

open Lib

/-- `struct __libuc_thread_local_layout`, as the decoder accepts it. A null image is
address zero. -/
structure Layout where
  image : Addr
  imageSize : BitVec 64
  blockSize : BitVec 64
  alignment : BitVec 64
  sizes : imageSize.toNat ≤ blockSize.toNat
  power : ∃ k < 64, alignment.toNat = 2 ^ k

namespace ThreadLocal

/-! ### The auxiliary vector -/

structure AuxvEntry where
  type : BitVec 64
  value : BitVec 64

def atNull : BitVec 64 := 0#64

def atPhdr : BitVec 64 := 3#64

def atPhent : BitVec 64 := 4#64

def atPhnum : BitVec 64 := 5#64

/-- `__libuc_auxv_get`: the first entry of this type before `AT_NULL`. -/
def auxvGet (type : BitVec 64) : List AuxvEntry → Option (BitVec 64)
  | [] => none
  | entry :: rest =>
    if entry.type = atNull then none
    else if entry.type = type then some entry.value
    else auxvGet type rest

/-! ### The program headers -/

/-- The fields of `Elf64_Phdr` that are read. -/
structure Phdr where
  pType : U32
  pVaddr : BitVec 64
  pFilesz : BitVec 64
  pMemsz : BitVec 64
  pAlign : BitVec 64

/-- The header at `a`. -/
def phdr (m : Mem) (a : Addr) : Phdr :=
  ⟨load32 m a, load64 m (a + 16#64), load64 m (a + 32#64), load64 m (a + 40#64), load64 m (a + 48#64)⟩

/-- `PT_TLS`. -/
def ptTls : U32 := 7#32

/-- `&headers[index]`; a header takes 56 bytes. -/
def headerAt (headers : Addr) (index : ℕ) : Addr := headers + BitVec.ofNat 64 (56 * index)

/-- The scan for `PT_TLS` over the headers from `index` on; absent when a second one
is found. -/
def findSegment (m : Mem) (headers : Addr) (segment : Option Addr) (index : ℕ) :
    ℕ → Option (Option Addr)
  | 0 => some segment
  | n + 1 =>
    let header := headerAt headers index
    if (phdr m header).pType ≠ ptTls then findSegment m headers segment (index + 1) n
    else if segment ≠ none then none
    else findSegment m headers (some header) (index + 1) n

/-- The layout reported without a `PT_TLS` header. -/
def noLayout : Layout := ⟨0#64, 0#64, 0#64, 1#64, le_refl _, 0, by decide, by decide⟩

/-- The checks on the one `PT_TLS` header, and the layout it describes. -/
def segmentLayout (segment : Phdr) : Option Layout :=
  if hsize : segment.pFilesz.toNat ≤ segment.pMemsz.toNat then
    if ckdAdd segment.pVaddr segment.pMemsz = none then none
    else
      let alignment := if segment.pAlign = 0#64 then 1#64 else segment.pAlign
      if hpower : popcount alignment = 1 then
        some {
          image := if segment.pFilesz = 0#64 then 0#64 else segment.pVaddr
          imageSize := segment.pFilesz
          blockSize := segment.pMemsz
          alignment := alignment
          sizes := hsize
          power := popcount_eq_one.mp hpower }
      else none
  else none

/-- What `__libuc_thread_local_layout` finds when nothing is cached. -/
def decodeLayout (m : Mem) (auxv : List AuxvEntry) : Option Layout := do
  let address ← auxvGet atPhdr auxv
  let entrySize ← auxvGet atPhent auxv
  let entryCount ← auxvGet atPhnum auxv
  if address = 0#64 ∨ address % 8#64 ≠ 0#64 ∨ entrySize ≠ 56#64 ∨ entryCount = 0#64 then none else
  let tableSize ← ckdMul entryCount 56#64
  let _tableEnd ← ckdAdd address tableSize
  let segment ← findSegment m address none 0 entryCount.toNat
  match segment with
  | none => some noLayout
  | some header => segmentLayout (phdr m header)

/-- `__libuc_thread_local_layout`: what it returns, and the static `layout` afterwards,
with the `process_layout` it points to. -/
def layout (m : Mem) (auxv : List AuxvEntry) (cached : Option Layout) : Option Layout × Option Layout :=
  match cached with
  | some l => (some l, some l)
  | none => (decodeLayout m auxv, decodeLayout m auxv)

/-- Calls one after the other, each with the memory and auxiliary vector it finds. -/
def layouts (cached : Option Layout) : List (Mem × List AuxvEntry) → List (Option Layout)
  | [] => []
  | (m, auxv) :: calls => (layout m auxv cached).1 :: layouts (layout m auxv cached).2 calls

/-! ### What is accepted -/

/-- The value of the first entry of this type, if it comes before `AT_NULL`. -/
def Entry (auxv : List AuxvEntry) (type value : BitVec 64) : Prop :=
  ∃ before after, auxv = before ++ ⟨type, value⟩ :: after ∧ ∀ e ∈ before,
  e.type ≠ atNull ∧ e.type ≠ type

/-- The `i`-th header of the table describes a thread-local image. -/
def IsTls (m : Mem) (address : Addr) (i : ℕ) : Prop := (phdr m (headerAt address i)).pType = ptTls

instance (m : Mem) (address : Addr) (i : ℕ) : Decidable (IsTls m address i) :=
  inferInstanceAs (Decidable (_ = _))

/-- A header that describes an image which fits, at an alignment there is. -/
structure Phdr.Valid (h : Phdr) : Prop where
  sizes : h.pFilesz.toNat ≤ h.pMemsz.toNat
  fits : h.pVaddr.toNat + h.pMemsz.toNat < 2 ^ 64
  aligned : h.pAlign = 0#64 ∨ ∃ k, h.pAlign.toNat = 2 ^ k

/-- A table of `count` headers at `address` that lies in the address space and has at
most one thread-local image, a valid one. -/
structure ValidTable (m : Mem) (address count : BitVec 64) : Prop where
  address_ne : address ≠ 0#64
  aligned : 8 ∣ address.toNat
  count_ne : count ≠ 0#64
  fits : address.toNat + 56 * count.toNat < 2 ^ 64
  unique : ∀ i < count.toNat, ∀ j < count.toNat, IsTls m address i → IsTls m address j → i = j
  valid : ∀ i < count.toNat, IsTls m address i → (phdr m (headerAt address i)).Valid

def ValidImage (m : Mem) (auxv : List AuxvEntry) : Prop :=
  ∃ address count, Entry auxv atPhdr address ∧ Entry auxv atPhent 56#64 ∧ Entry auxv atPhnum count ∧
    ValidTable m address count

def Phdr.Describes (h : Phdr) (l : Layout) : Prop :=
  l.image = (if h.pFilesz = 0#64 then 0#64 else h.pVaddr) ∧ l.imageSize = h.pFilesz ∧
  l.blockSize = h.pMemsz ∧
    l.alignment.toNat = max h.pAlign.toNat 1

theorem Phdr.Describes.unique {h : Phdr} {l l' : Layout} (hl : h.Describes l)
    (hl' : h.Describes l') : l = l' := by
  obtain ⟨i, s, b, a, _, _⟩ := l
  obtain ⟨i', s', b', a', _, _⟩ := l'
  obtain ⟨h1, h2, h3, h4⟩ := hl
  obtain ⟨h1', h2', h3', h4'⟩ := hl'
  have ha : a = a' := BitVec.eq_of_toNat_eq (h4.trans h4'.symm)
  cases h1.trans h1'.symm
  cases h2.trans h2'.symm
  cases h3.trans h3'.symm
  cases ha
  rfl

variable {m : Mem} {auxv : List AuxvEntry} {headers : Addr}

theorem auxvGet_eq_some {type value : BitVec 64} (hne : type ≠ atNull) :
    auxvGet type auxv = some value ↔ Entry auxv type value := by
  induction auxv with
  | nil => simp [auxvGet, Entry]
  | cons e auxv ih =>
    have hskip : e.type ≠ type →
        (Entry (e :: auxv) type value ↔ e.type ≠ atNull ∧ Entry auxv type value) := by
      intro he
      constructor
      · rintro ⟨before, after, hsplit, hbefore⟩
        cases before with
        | nil =>
          cases hsplit
          exact absurd rfl he
        | cons e' before =>
          cases hsplit
          exact ⟨(hbefore e (by simp)).1, before, after, rfl, fun x hx => hbefore x (by simp [hx])⟩
      · rintro ⟨hnull, before, after, rfl, hbefore⟩
        refine ⟨e :: before, after, rfl, fun x hx => ?_⟩
        rcases List.mem_cons.mp hx with rfl | hx
        · exact ⟨hnull, he⟩
        · exact hbefore x hx
    unfold auxvGet
    by_cases hnull : e.type = atNull
    · have he : e.type ≠ type := fun h => hne (h.symm.trans hnull)
      rw [if_pos hnull, hskip he]
      exact ⟨nofun, fun h => absurd hnull h.1⟩
    rw [if_neg hnull]
    by_cases he : e.type = type
    · rw [if_pos he, Option.some.injEq]
      constructor
      · intro hv
        exact ⟨[], auxv, by rw [← he, ← hv]; rfl, nofun⟩
      · rintro ⟨before, after, hsplit, hbefore⟩
        cases before with
        | nil =>
          cases hsplit
          rfl
        | cons e' before =>
          cases hsplit
          exact absurd he (hbefore e (by simp)).2
    · rw [if_neg he, ih, hskip he]
      exact ⟨fun h => ⟨hnull, h⟩, fun h => h.2⟩

/-! ### The scan -/

/-- Once a segment has been found, any other one ends the scan. -/
theorem findSegment_found (segment : Addr) (index n : ℕ) :
    (∀ i < n, ¬ IsTls m headers (index + i)) ∧
    findSegment m headers (some segment) index n = some (some segment) ∨
      (∃ i < n, IsTls m headers (index + i)) ∧ findSegment m headers (some segment) index n = none := by
  induction n generalizing index with
  | zero => exact .inl ⟨nofun, rfl⟩
  | succ n ih =>
    by_cases ht : IsTls m headers index
    · exact .inr ⟨⟨0, by omega, ht⟩,
        by simp [findSegment, show (phdr m (headerAt headers index)).pType = ptTls from ht]⟩
    · have hstep : findSegment m headers (some segment) index (n + 1) =
          findSegment m headers (some segment) (index + 1) n := if_pos ht
      rw [hstep]
      rcases ih (index + 1) with ⟨hnone, hr⟩ | ⟨⟨i, hi, hti⟩, hr⟩
      · refine .inl ⟨fun i hi => ?_, hr⟩
        cases i with
        | zero => exact ht
        | succ i => exact (show index + 1 + i = index + (i + 1) by omega) ▸ hnone i (by omega)
      · exact .inr ⟨⟨i + 1, by omega, (show index + 1 + i = index + (i + 1) by omega) ▸ hti⟩, hr⟩

/-- The scan finds no segment, the only one, or more than one. -/
theorem findSegment_cases (m : Mem) (headers : Addr) (index n : ℕ) :
    (∀ i < n, ¬ IsTls m headers (index + i)) ∧ findSegment m headers none index n = some none ∨
    (∃ i < n, IsTls m headers (index + i) ∧ (∀ j < n, IsTls m headers (index + j) → j = i) ∧
      findSegment m headers none index n = some (some (headerAt headers (index + i)))) ∨
    (∃ i < n, ∃ j < n, i ≠ j ∧ IsTls m headers (index + i) ∧ IsTls m headers (index + j)) ∧
      findSegment m headers none index n = none := by
  induction n generalizing index with
  | zero => exact .inl ⟨nofun, rfl⟩
  | succ n ih =>
    have hshift : ∀ i, index + 1 + i = index + (i + 1) := fun i => by omega
    by_cases ht : IsTls m headers index
    · have hstep : findSegment m headers none index (n + 1) =
          findSegment m headers (some (headerAt headers index)) (index + 1) n :=
        (if_neg (not_not.mpr ht)).trans (if_neg (not_not.mpr rfl))
      rw [hstep]
      rcases findSegment_found (headerAt headers index) (index + 1) n with ⟨hnone, hr⟩ |
        ⟨⟨i, hi, hti⟩, hr⟩
      · refine .inr (.inl ⟨0, by omega, ht, fun j hj htj => ?_, hr⟩)
        cases j with
        | zero => rfl
        | succ j => exact absurd htj (hshift j ▸ hnone j (by omega))
      · exact .inr (.inr ⟨⟨0, by omega, i + 1, by omega, by omega, ht, hshift i ▸ hti⟩, hr⟩)
    · have hstep : findSegment m headers none index (n + 1) =
          findSegment m headers none (index + 1) n := if_pos ht
      rw [hstep]
      rcases ih (index + 1) with ⟨hnone, hr⟩ | ⟨i, hi, hti, hu, hr⟩ |
        ⟨⟨i, hi, j, hj, hij, hti, htj⟩, hr⟩
      · refine .inl ⟨fun i hi => ?_, hr⟩
        cases i with
        | zero => exact ht
        | succ i => exact hshift i ▸ hnone i (by omega)
      · refine .inr (.inl ⟨i + 1, by omega, hshift i ▸ hti, fun j hj htj => ?_, hshift i ▸ hr⟩)
        cases j with
        | zero => exact absurd htj ht
        | succ j => rw [hu j (by omega) ((hshift j).symm ▸ htj)]
      · exact .inr
          (.inr ⟨⟨i + 1, by omega, j + 1, by omega, by omega, hshift i ▸ hti, hshift j ▸ htj⟩, hr⟩)

/-! ### The decoder -/

theorem alignment_toNat (a : BitVec 64) : (if a = 0#64 then 1#64 else a).toNat = max a.toNat 1 := by
  split_ifs with h
  · rw [h]
    rfl
  · have hpos : a.toNat ≠ 0 := fun h0 => h (eq_zero_iff_toNat.mpr h0)
    omega

/-- The test of the alignment passes for zero and for the powers of two. -/
theorem popcount_alignment (a : BitVec 64) :
    popcount (if a = 0#64 then 1#64 else a) = 1 ↔ a = 0#64 ∨ ∃ k, a.toNat = 2 ^ k := by
  rw [popcount_eq_one]
  split_ifs with h
  · exact ⟨fun _ => .inl h, fun _ => ⟨0, by norm_num, rfl⟩⟩
  · constructor
    · rintro ⟨k, -, hk⟩
      exact .inr ⟨k, hk⟩
    · rintro (h0 | ⟨k, hk⟩)
      · exact absurd h0 h
      · have hlt := a.isLt
        rw [hk] at hlt
        exact ⟨k, (Nat.pow_lt_pow_iff_right (by norm_num)).mp hlt, hk⟩

/-- A header is accepted exactly if it is valid, with the layout it describes. -/
theorem segmentLayout_eq_some {h : Phdr} {l : Layout} :
    segmentLayout h = some l ↔ h.Valid ∧ h.Describes l := by
  constructor
  · intro hl
    unfold segmentLayout at hl
    by_cases hsize : h.pFilesz.toNat ≤ h.pMemsz.toNat
    swap
    · rw [dif_neg hsize] at hl
      cases hl
    rw [dif_pos hsize] at hl
    by_cases hfits : ckdAdd h.pVaddr h.pMemsz = none
    · rw [if_pos hfits] at hl
      cases hl
    rw [if_neg hfits] at hl
    by_cases hpower : popcount (if h.pAlign = 0#64 then 1#64 else h.pAlign) = 1
    swap
    · rw [dif_neg hpower] at hl
      cases hl
    rw [dif_pos hpower] at hl
    cases hl
    refine ⟨⟨hsize, ?_, (popcount_alignment _).mp hpower⟩, rfl, rfl, rfl, alignment_toNat _⟩
    rw [ckdAdd_eq_none] at hfits
    omega
  · rintro ⟨hvalid, hdescribes⟩
    have hfits : ckdAdd h.pVaddr h.pMemsz ≠ none := by
      rw [Ne, ckdAdd_eq_none]
      have := hvalid.fits
      omega
    have hpower := (popcount_alignment h.pAlign).mpr hvalid.aligned
    unfold segmentLayout
    rw [dif_pos hvalid.sizes, if_neg hfits, dif_pos hpower, Option.some.injEq]
    exact Phdr.Describes.unique ⟨rfl, rfl, rfl, alignment_toNat _⟩ hdescribes

/-- Without a thread-local image, or with the one valid image of the table. -/
inductive Decodes (m : Mem) (address count : BitVec 64) (l : Layout) : Prop
  | absent (none : ∀ i < count.toNat, ¬ IsTls m address i) (eq : l = noLayout)
  | image {i : ℕ} (hi : i < count.toNat) (tls : IsTls m address i)
      (unique : ∀ j < count.toNat, IsTls m address j → j = i)
      (valid : (phdr m (headerAt address i)).Valid)
      (describes : (phdr m (headerAt address i)).Describes l)

/-- The end of the decoder: the scan, and the checks on what it found. -/
theorem scan_eq_some {address count : BitVec 64} {l : Layout} :
    (findSegment m address none 0 count.toNat).bind (fun segment => match segment with
      | none => some noLayout
      | some header => segmentLayout (phdr m header)) = some l ↔ Decodes m address count l := by
  have hcases := findSegment_cases m address 0 count.toNat
  simp only [Nat.zero_add] at hcases
  rcases hcases with ⟨hnone, hr⟩ | ⟨i, hi, hti, hu, hr⟩ | ⟨⟨i, hi, j, hj, hij, hti, htj⟩, hr⟩
  · rw [hr, Option.bind_some, Option.some.injEq]
    constructor
    · intro h
      exact .absent hnone h.symm
    · rintro (⟨-, h⟩ | ⟨hi, hti, -, -, -⟩)
      · exact h.symm
      · exact absurd hti (hnone _ hi)
  · rw [hr, Option.bind_some, segmentLayout_eq_some]
    constructor
    · rintro ⟨hv, hd⟩
      exact .image hi hti hu hv hd
    · rintro (⟨hnone, -⟩ | ⟨hj, htj, -, hv, hd⟩)
      · exact absurd hti (hnone i hi)
      · cases hu _ hj htj
        exact ⟨hv, hd⟩
  · rw [hr, Option.bind_none]
    refine ⟨nofun, ?_⟩
    rintro (⟨hnone, -⟩ | ⟨-, -, hu, -, -⟩)
    · exact absurd hti (hnone i hi)
    · exact absurd ((hu i hi hti).trans (hu j hj htj).symm) hij

/-- The checks on the table before it is read. -/
theorem table_checks {address count : BitVec 64} :
    (address ≠ 0#64 ∧ 8 ∣ address.toNat ∧ count ≠ 0#64 ∧ address.toNat + 56 * count.toNat < 2 ^ 64) ↔
      (¬ (address = 0#64 ∨ address % 8#64 ≠ 0#64 ∨ count = 0#64)) ∧
        ∃ size last, ckdMul count 56#64 = some size ∧ ckdAdd address size = some last := by
  have hmod : address % 8#64 = 0#64 ↔ 8 ∣ address.toNat := by
    rw [eq_zero_iff_toNat, BitVec.toNat_umod, Nat.dvd_iff_mod_eq_zero]
    rfl
  simp only [not_or, not_not, hmod, ckdMul_eq_some, ckdAdd_eq_some]
  have h56 : (56#64).toNat = 56 := rfl
  rw [h56]
  constructor
  · rintro ⟨h1, h2, h3, h4⟩
    refine ⟨⟨h1, h2, h3⟩, BitVec.ofNat 64 (count.toNat * 56),
      BitVec.ofNat 64 (address.toNat + count.toNat * 56), ?_, ?_⟩
    · rw [BitVec.toNat_ofNat, Nat.mod_eq_of_lt (by omega)]
    · rw [BitVec.toNat_ofNat, BitVec.toNat_ofNat, Nat.mod_eq_of_lt (by omega),
        Nat.mod_eq_of_lt (by omega)]
  · rintro ⟨⟨h1, h2, h3⟩, size, last, h4, h5⟩
    have hlast := last.isLt
    exact ⟨h1, h2, h3, by omega⟩

/-- The decoder returns a layout exactly for a valid image, and then its layout. -/
theorem decodeLayout_eq_some {l : Layout} :
    decodeLayout m auxv = some l ↔ ∃ address count, Entry auxv atPhdr address ∧
    Entry auxv atPhent 56#64 ∧
      Entry auxv atPhnum count ∧ (address ≠ 0#64 ∧ 8 ∣ address.toNat ∧ count ≠ 0#64 ∧
        address.toNat + 56 * count.toNat < 2 ^ 64) ∧ Decodes m address count l := by
  have htests : ∀ {address entrySize count : BitVec 64},
      ¬ (address = 0#64 ∨ address % 8#64 ≠ 0#64 ∨ entrySize ≠ 56#64 ∨ count = 0#64) ↔
        entrySize = 56#64 ∧ ¬ (address = 0#64 ∨ address % 8#64 ≠ 0#64 ∨ count = 0#64) := by
    intro address entrySize count
    tauto
  constructor
  · intro h
    simp only [decodeLayout, bind, Option.bind_eq_some_iff] at h
    obtain ⟨address, h1, entrySize, h2, count, h3, h⟩ := h
    split_ifs at h with hc
    obtain ⟨rfl, hc'⟩ := htests.mp hc
    obtain ⟨size, hsize, h⟩ := Option.bind_eq_some_iff.mp h
    obtain ⟨last, hlast, h⟩ := Option.bind_eq_some_iff.mp h
    refine ⟨address, count, (auxvGet_eq_some (by decide)).mp h1, (auxvGet_eq_some (by decide)).mp h2,
      (auxvGet_eq_some (by decide)).mp h3, table_checks.mpr ⟨hc', size, last, hsize, hlast⟩,
      scan_eq_some.mp ?_⟩
    exact h
  · rintro ⟨address, count, h1, h2, h3, htable, hd⟩
    obtain ⟨hc, size, last, hsize, hlast⟩ := table_checks.mp htable
    rw [← auxvGet_eq_some (by decide)] at h1 h2 h3
    simp only [decodeLayout, bind, h1, h2, h3, Option.bind_some]
    rw [if_neg (htests.mpr ⟨rfl, hc⟩)]
    simp only [hsize, hlast, Option.bind_some]
    exact scan_eq_some.mpr hd

theorem decodeLayout_ne_none : decodeLayout m auxv ≠ none ↔ ValidImage m auxv := by
  rw [Option.ne_none_iff_exists']
  constructor
  · rintro ⟨l, hl⟩
    obtain ⟨address, count, h1, h2, h3, ⟨ha, hdvd, hcount, hfits⟩, hd⟩ := decodeLayout_eq_some.mp hl
    refine ⟨address, count, h1, h2, h3, ha, hdvd, hcount, hfits, ?_, ?_⟩
    · intro i hi j hj hti htj
      cases hd with
      | absent none eq => exact absurd hti (none i hi)
      | image _ _ unique _ _ => exact (unique i hi hti).trans (unique j hj htj).symm
    · intro i hi hti
      cases hd with
      | absent none eq => exact absurd hti (none i hi)
      | image _ _ unique valid _ => exact unique i hi hti ▸ valid
  · rintro ⟨address, count, h1, h2, h3, ht⟩
    have htable := And.intro ht.address_ne (And.intro ht.aligned (And.intro ht.count_ne ht.fits))
    by_cases htls : ∃ i < count.toNat, IsTls m address i
    · obtain ⟨i, hi, hti⟩ := htls
      have hv := ht.valid i hi hti
      have hfits : ckdAdd (phdr m (headerAt address i)).pVaddr
          (phdr m (headerAt address i)).pMemsz ≠ none := by
        rw [Ne, ckdAdd_eq_none]
        have := hv.fits
        omega
      obtain ⟨l, hl⟩ : ∃ l, segmentLayout (phdr m (headerAt address i)) = some l := by
        unfold segmentLayout
        rw [dif_pos hv.sizes, if_neg hfits, dif_pos ((popcount_alignment _).mpr hv.aligned)]
        exact ⟨_, rfl⟩
      exact ⟨l, decodeLayout_eq_some.mpr ⟨address, count, h1, h2, h3, htable,
        .image hi hti (fun j hj htj => ht.unique j hj i hi htj hti) hv (segmentLayout_eq_some.mp hl).2⟩⟩
    · refine ⟨noLayout, decodeLayout_eq_some.mpr ⟨address, count, h1, h2, h3, htable, .absent ?_ rfl⟩⟩
      intro i hi hti
      exact htls ⟨i, hi, hti⟩

theorem Entry.unique {type v v' : BitVec 64} (hne : type ≠ atNull) (h : Entry auxv type v)
    (h' : Entry auxv type v') :
    v = v' := by
  rw [← auxvGet_eq_some hne] at h h'
  exact Option.some.inj (h.symm.trans h')

theorem layouts_cached (l : Layout) (calls : List (Mem × List AuxvEntry)) :
    ∀ r ∈ layouts (some l) calls, r = some l := by
  induction calls with
  | nil => simp [layouts]
  | cons call calls ih =>
    intro r hr
    rcases List.mem_cons.mp hr with rfl | hr
    · rfl
    · exact ih r hr

/-- With nothing cached the decoder returns a layout exactly for a valid image. It then
reports the defaults without a `PT_TLS` header and the fields of that header otherwise,
wherever it stands; the image is null when it has no bytes and `p_vaddr` when it has. A
rejected call caches nothing, and every call after an accepted one returns the same
layout. -/
theorem layout_accepts_valid_image (m : Mem) (auxv : List AuxvEntry) :
    ((layout m auxv none).1 ≠ none ↔ ValidImage m auxv) ∧
    (∀ l address count, (layout m auxv none).1 = some l → Entry auxv atPhdr address →
      Entry auxv atPhnum count →
      ((∀ i < count.toNat, ¬ IsTls m address i) →
        l.image = 0#64 ∧ l.imageSize = 0#64 ∧ l.blockSize = 0#64 ∧ l.alignment = 1#64) ∧
      (∀ i < count.toNat, IsTls m address i → (phdr m (headerAt address i)).Describes l)) ∧
    ((layout m auxv none).1 = none → (layout m auxv none).2 = none) ∧
    (∀ l, (layout m auxv none).1 = some l → ∀ calls, ∀ r ∈ layouts (layout m auxv none).2 calls,
      r = some l) := by
  refine ⟨decodeLayout_ne_none, fun l address count hl h1 h3 => ?_, id, fun l hl calls r hr => ?_⟩
  · obtain ⟨address', count', h1', -, h3', -, hd⟩ := decodeLayout_eq_some.mp hl
    cases h1.unique (by decide) h1'
    cases h3.unique (by decide) h3'
    cases hd with
    | absent none eq =>
      exact ⟨fun _ => by rw [eq]; exact ⟨rfl, rfl, rfl, rfl⟩, fun i hi hti => absurd hti (none i hi)⟩
    | image hi tls unique valid describes =>
      exact ⟨fun hnone => absurd tls (hnone _ hi), fun j hj htj => unique j hj htj ▸ describes⟩
  · have hcached : (layout m auxv none).2 = some l := hl
    rw [hcached] at hr
    exact layouts_cached l calls r hr

/-- A table of one header: an image of eight bytes at address zero. -/
def imageAtZero : Mem := storeWords (fun _ => 0#8) 0x1000#64 [7#64, 0#64, 0#64, 0#64, 8#64, 8#64, 8#64]

/-- The image is reported null although it has bytes, when `p_vaddr` is zero. -/
theorem image_null_with_bytes :
    ¬ ∀ (m : Mem) (auxv : List AuxvEntry) (l : Layout) (address count : BitVec 64) (i : ℕ),
      (layout m auxv none).1 = some l → Entry auxv atPhdr address → Entry auxv atPhnum count →
      i < count.toNat →
      IsTls m address i → (l.image = 0#64 ↔ (phdr m (headerAt address i)).pFilesz = 0#64) := by
  intro h
  have hsome : ((layout imageAtZero [⟨3#64, 0x1000#64⟩, ⟨4#64, 56#64⟩,
      ⟨5#64, 1#64⟩] none).1.map Layout.image) = some 0#64 := by
    decide +kernel
  obtain ⟨l, hl, himage⟩ := Option.map_eq_some_iff.mp hsome
  have hiff := h imageAtZero _ l 0x1000#64 1#64 0 hl ⟨[], _, rfl, nofun⟩
    ⟨[⟨3#64, 0x1000#64⟩, ⟨4#64, 56#64⟩], [], rfl, by decide⟩ (by decide) (by decide +kernel)
  exact absurd (hiff.mp himage) (by decide +kernel)

end ThreadLocal

end Libuc
