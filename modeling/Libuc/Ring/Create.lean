import Libuc.Process
import Libuc.Ring.Basic

/-! The creation of a ring. Three things are acquired one after the other: the ring
descriptor, the mapping that the two queues share, and the mapping of the SQE array. The
kernel's answers are inputs, the parameters it writes among them, and so is what the new
mappings hold. Failure gives the mappings back. Nothing closes the descriptor: the source
has no call that could. -/

namespace Libuc

open Lib

structure Task extends Process where
  descriptors : Finset CInt

/-- The fields of `struct io_cqring_offsets` that are read. -/
structure CqOffsets where
  head : U32
  tail : U32
  ringMask : U32
  cqes : U32

/-- The fields of `struct io_uring_params` that are written or read. -/
structure Params where
  flags : U32
  features : U32
  sqEntries : U32
  cqEntries : U32
  cqOff : CqOffsets

/-- `struct __libuc_ring`. -/
structure RingRecord where
  ringMapping : Addr
  ringMappingLength : BitVec 64
  sqes : Addr
  sqesMappingLength : BitVec 64
  cqHead : Addr
  cqTail : Addr
  cqes : Addr
  descriptor : CInt
  sqEntries : U32
  cqEntries : U32
  cqMask : U32
  batchCount : U32

/-- What the kernel answers to the three calls; the parameters come back with the first. -/
structure RingAnswers where
  setup : U32 → Params → Long × Params
  ringMapping : Long
  sqesMapping : Long

namespace RingCreate

/-- `SINGLE_ISSUER`, `DEFER_TASKRUN`, `NO_SQARRAY`, `SQ_REWIND` and `SUBMIT_ALL`. -/
def setupFlags : U32 := 0x1000#32 ||| 0x2000#32 ||| 0x10000#32 ||| 0x100000#32 ||| 0x80#32

/-- `IORING_FEAT_SINGLE_MMAP`. -/
def featSingleMmap : U32 := 1#32

/-- The parameters passed to `io_uring_setup`. -/
def asked : Params := ⟨setupFlags, 0#32, 0#32, 0#32, ⟨0#32, 0#32, 0#32, 0#32⟩⟩

/-- `ring_at`. -/
def ringAt (base : Addr) (offset : U32) : Addr := base + offset.setWidth 64

theorem ringAt_zero (base : Addr) : ringAt base 0#32 = base := by
  rw [ringAt, BitVec.setWidth_zero, BitVec.add_zero]

/-- `io_uring_setup`, answered by `result`. -/
def opened (t : Task) (result : Long) : Task :=
  if syscallFailed result then t else { t with descriptors := insert (toInt result) t.descriptors }

def mapped (t : Task) (length : BitVec 64) (result : Long) : Task :=
  { t with toProcess := t.mmap length result }

def unmapped (t : Task) (address : Addr) (length : BitVec 64) : Task :=
  { t with toProcess := (t.munmap address length).2 }

/-- `__libuc_ring_create`: what it returns, `*ring` and the process afterwards. -/
def create (k : RingAnswers) (ring : RingRecord) (entries : U32) (t : Task) :
    Bool × RingRecord × Task :=
  let descriptor := (k.setup entries asked).1
  let params := (k.setup entries asked).2
  let t := opened t descriptor
  if syscallFailed descriptor then (false, ring, t)
  else if params.features &&& featSingleMmap = 0#32 then (false, ring, t)
  else
    match (ckdMul (params.cqEntries.setWidth 64) 16#64).bind
      (ckdAdd (params.cqOff.cqes.setWidth 64)) with
    | none => (false, ring, t)
    | some ringLength =>
      match ckdMul (params.sqEntries.setWidth 64) 64#64 with
      | none => (false, ring, t)
      | some sqesLength =>
        let t := mapped t ringLength k.ringMapping
        if syscallFailed k.ringMapping then (false, ring, t)
        else
          let t := mapped t sqesLength k.sqesMapping
          if syscallFailed k.sqesMapping then (false, ring, unmapped t k.ringMapping ringLength)
          else
            let cqMask := load32 t.memory (ringAt k.ringMapping params.cqOff.ringMask)
            if cqMask ≠ params.cqEntries - 1#32 then
              (false, ring, unmapped (unmapped t k.ringMapping ringLength) k.sqesMapping sqesLength)
            else
              (true,
                { ringMapping := k.ringMapping
                  ringMappingLength := ringLength
                  sqes := ringAt k.sqesMapping 0#32
                  sqesMappingLength := sqesLength
                  cqHead := ringAt k.ringMapping params.cqOff.head
                  cqTail := ringAt k.ringMapping params.cqOff.tail
                  cqes := ringAt k.ringMapping params.cqOff.cqes
                  descriptor := toInt descriptor
                  sqEntries := params.sqEntries
                  cqEntries := params.cqEntries
                  cqMask := cqMask
                  batchCount := 0#32 }, t)

/-! ### The two lengths -/

def ringLength (params : Params) : BitVec 64 :=
  params.cqOff.cqes.setWidth 64 + params.cqEntries.setWidth 64 * 16#64

def sqesLength (params : Params) : BitVec 64 := params.sqEntries.setWidth 64 * 64#64

theorem setWidth_mul_toNat (x : U32) {n : ℕ} (hn : n < 2 ^ 31) :
    (x.setWidth 64 * BitVec.ofNat 64 n).toNat = x.toNat * n := by
  have hx := x.isLt
  have hprod : x.toNat * n < 2 ^ 32 * 2 ^ 31 := Nat.mul_lt_mul'' hx hn
  rw [BitVec.toNat_mul, BitVec.toNat_setWidth, BitVec.toNat_ofNat,
    Nat.mod_eq_of_lt (a := x.toNat) (by omega),
    Nat.mod_eq_of_lt (a := n) (by omega), Nat.mod_eq_of_lt (by omega)]

/-- The sizes are 32 bits wide, so neither computation can wrap. -/
theorem ringLength_toNat (params : Params) :
    (ringLength params).toNat = params.cqOff.cqes.toNat + 16 * params.cqEntries.toNat := by
  have hoff := params.cqOff.cqes.isLt
  have hentries := params.cqEntries.isLt
  rw [ringLength, BitVec.toNat_add, setWidth_mul_toNat _ (by norm_num), BitVec.toNat_setWidth,
    Nat.mod_eq_of_lt (a := params.cqOff.cqes.toNat) (by omega),
    Nat.mod_eq_of_lt (by omega), Nat.mul_comm]

theorem sqesLength_toNat (params : Params) :
    (sqesLength params).toNat = 64 * params.sqEntries.toNat := by
  rw [sqesLength, setWidth_mul_toNat _ (by norm_num), Nat.mul_comm]

theorem ringLength_checked (params : Params) :
    (ckdMul (params.cqEntries.setWidth 64) 16#64).bind (ckdAdd (params.cqOff.cqes.setWidth 64)) =
      some (ringLength params) := by
  have hoff := params.cqOff.cqes.isLt
  have hentries := params.cqEntries.isLt
  have hmul := setWidth_mul_toNat params.cqEntries (n := 16) (by norm_num)
  have hcqes : ckdMul (params.cqEntries.setWidth 64) 16#64 =
      some (params.cqEntries.setWidth 64 * 16#64) := by
    rw [ckdMul_eq_some, hmul, BitVec.toNat_setWidth, Nat.mod_eq_of_lt (by omega)]
    rfl
  rw [hcqes, Option.bind_some, ckdAdd_eq_some, ringLength_toNat, hmul, BitVec.toNat_setWidth,
    Nat.mod_eq_of_lt (by omega), Nat.mul_comm]

theorem sqesLength_checked (params : Params) :
    ckdMul (params.sqEntries.setWidth 64) 64#64 = some (sqesLength params) := by
  have hentries := params.sqEntries.isLt
  rw [ckdMul_eq_some, sqesLength, setWidth_mul_toNat _ (by norm_num), BitVec.toNat_setWidth,
    Nat.mod_eq_of_lt (by omega)]
  rfl

/-! ### All or nothing -/

/-- What a call that returns true leaves behind. -/
structure Built (ring : RingRecord) (t : Task) : Prop where
  ring_mapped : ⟨ring.ringMapping, ring.ringMappingLength⟩ ∈ t.mappings
  sqes_mapped : ⟨ring.sqes, ring.sqesMappingLength⟩ ∈ t.mappings
  descriptor_held : ring.descriptor ∈ t.descriptors
  sqe_slot : ∀ i < ring.sqEntries.toNat,
    (ring.sqes + BitVec.ofNat 64 (64 * i)).toNat = ring.sqes.toNat + 64 * i ∧
    ring.sqes.toNat + 64 * (i + 1) ≤ ring.sqes.toNat + ring.sqesMappingLength.toNat
  cqes_within : ring.ringMapping.toNat ≤ ring.cqes.toNat
  cqes_end : ring.cqes.toNat + 16 * ring.cqEntries.toNat =
    ring.ringMapping.toNat + ring.ringMappingLength.toNat
  mappings_end : ring.ringMapping.toNat + ring.ringMappingLength.toNat ≤ 2 ^ 64 ∧
    ring.sqes.toNat + ring.sqesMappingLength.toNat ≤ 2 ^ 64
  batchCount : ring.batchCount = 0#32
  cqMask : ring.cqMask = ring.cqEntries - 1#32

/-- The call builds a ring of the sizes the kernel chose, or leaves no trace. -/
def AllOrNothing (k : RingAnswers) (ring : RingRecord) (entries : U32) (t : Task) : Prop :=
  ((create k ring entries t).1 = true ∧
    Built (create k ring entries t).2.1 (create k ring entries t).2.2 ∧
    (create k ring entries t).2.1.sqEntries = (k.setup entries asked).2.sqEntries ∧
    (create k ring entries t).2.1.cqEntries = (k.setup entries asked).2.cqEntries) ∨
  ((create k ring entries t).1 = false ∧ (create k ring entries t).2.1 = ring ∧
    (create k ring entries t).2.2.mappings = t.mappings ∧
    (create k ring entries t).2.2.descriptors = t.descriptors)

/-- What the kernel may answer to an `mmap` of `length` bytes: an error, always so for an
empty mapping, or a free place below the end of the address space. -/
def MapAnswers (p : Process) (length : BitVec 64) (result : Long) : Prop :=
  p.Answers length result ∧
    (syscallFailed result = false → 0 < length.toNat ∧ result.toNat + length.toNat < 2 ^ 64)

/-- What the kernel may answer to the calls that are made: an error or a descriptor that
was not open, then an error or a mapping. -/
structure Answered (k : RingAnswers) (entries : U32) (t : Task) : Prop where
  descriptor : syscallFailed (k.setup entries asked).1 = false →
    toInt (k.setup entries asked).1 ∉ t.descriptors
  ring : syscallFailed (k.setup entries asked).1 = false →
    MapAnswers t.toProcess (ringLength (k.setup entries asked).2) k.ringMapping
  sqes : syscallFailed (k.setup entries asked).1 = false → syscallFailed k.ringMapping = false →
    MapAnswers (t.mmap (ringLength (k.setup entries asked).2) k.ringMapping)
      (sqesLength (k.setup entries asked).2)
      k.sqesMapping

/-- Nothing after `io_uring_setup` goes wrong: the kernel has the one-mapping layout, both
mappings are made, and the mask word agrees with the size. -/
structure Completes (k : RingAnswers) (params : Params) (m : Mem) : Prop where
  single : params.features &&& featSingleMmap ≠ 0#32
  ring : syscallFailed k.ringMapping = false
  sqes : syscallFailed k.sqesMapping = false
  mask : load32 m (ringAt k.ringMapping params.cqOff.ringMask) = params.cqEntries - 1#32

variable {k : RingAnswers} {ring : RingRecord} {entries : U32} {t : Task}

theorem create_setup_failed (h : syscallFailed (k.setup entries asked).1 = true) :
    create k ring entries t = (false, ring, t) := by
  simp only [create, opened, h, if_true]

/-- Once the descriptor is open, with both lengths as computed. -/
theorem create_opened (h : syscallFailed (k.setup entries asked).1 = false) :
    create k ring entries t =
      let params := (k.setup entries asked).2
      let t := { t with descriptors := insert (toInt (k.setup entries asked).1) t.descriptors }
      if params.features &&& featSingleMmap = 0#32 then (false, ring, t)
      else if syscallFailed k.ringMapping then (false, ring, mapped t (ringLength params) k.ringMapping)
      else
        let t := mapped (mapped t (ringLength params) k.ringMapping) (sqesLength params) k.sqesMapping
        if syscallFailed k.sqesMapping then (false, ring, unmapped t k.ringMapping (ringLength params))
        else if load32 t.memory (ringAt k.ringMapping params.cqOff.ringMask) ≠
          params.cqEntries - 1#32 then
          (false, ring, unmapped (unmapped t k.ringMapping (ringLength params)) k.sqesMapping
            (sqesLength params))
        else
          (true,
            ⟨k.ringMapping, ringLength params, ringAt k.sqesMapping 0#32, sqesLength params,
              ringAt k.ringMapping params.cqOff.head, ringAt k.ringMapping params.cqOff.tail,
              ringAt k.ringMapping params.cqOff.cqes, toInt (k.setup entries asked).1,
              params.sqEntries, params.cqEntries,
              load32 t.memory (ringAt k.ringMapping params.cqOff.ringMask), 0#32⟩, t) := by
  simp only [create, opened, h, Bool.false_eq_true, if_false, ringLength_checked, sqesLength_checked]

/-- A mapping just made is new, and giving it back undoes it. -/
theorem MapAnswers.fresh {p : Process} {length : BitVec 64} {result : Long}
    (h : MapAnswers p length result)
    (hok : syscallFailed result = false) : ⟨result, length⟩ ∉ p.mappings := by
  obtain ⟨hanswers, hroom⟩ := h
  obtain ⟨-, hapart⟩ := hanswers.resolve_left (by rw [hok]; decide)
  exact Process.not_mem_of_separate (hroom hok).1 hapart

theorem mapped_of_ok (t : Task) (length : BitVec 64) {result : Long}
    (hok : syscallFailed result = false) :
    mapped t length result = { t with mappings := insert ⟨result, length⟩ t.mappings } := by
  simp only [mapped, Process.mmap, hok, Bool.false_eq_true, if_false]

theorem mapped_of_failed (t : Task) (length : BitVec 64) {result : Long}
    (hfail : syscallFailed result = true) :
    mapped t length result = t := by
  simp only [mapped, Process.mmap, hfail, if_true]

/-- Unmapping one of two mappings leaves the other. -/
theorem unmapped_insert (t : Task) {address : Addr} {length : BitVec 64} {rest : Finset Mapping}
    (h : ⟨address, length⟩ ∉ rest) (ht : t.mappings = insert ⟨address, length⟩ rest) :
    unmapped t address length = { t with mappings := rest } := by
  obtain ⟨⟨memory, mappings⟩, descriptors⟩ := t
  simp only at ht
  subst ht
  simp only [unmapped, Process.munmap_live memory h]

/-- A failure after the descriptor is open leaves `*ring` and the mappings as they were,
and the descriptor open. -/
theorem create_failed (h : Answered k entries t) (hok : syscallFailed (k.setup entries asked).1 = false)
    (hfails : ¬Completes k (k.setup entries asked).2 t.memory) :
    create k ring entries t =
      (false, ring,
        { t with descriptors := insert (toInt (k.setup entries asked).1) t.descriptors }) := by
  rw [create_opened hok]
  simp only
  split_ifs with hsingle hring hsqes hmask
  · rfl
  · rw [mapped_of_failed _ _ hring]
  · have hring' : syscallFailed k.ringMapping = false := Bool.eq_false_iff.mpr hring
    have hfresh := (h.ring hok).fresh hring'
    rw [mapped_of_failed _ _ hsqes, mapped_of_ok _ _ hring', unmapped_insert _ hfresh rfl]
  · have hring' : syscallFailed k.ringMapping = false := Bool.eq_false_iff.mpr hring
    have hsqes' : syscallFailed k.sqesMapping = false := Bool.eq_false_iff.mpr hsqes
    have hfresh := (h.ring hok).fresh hring'
    have hfresh' := (h.sqes hok hring').fresh hsqes'
    simp only [Process.mmap, hring', Bool.false_eq_true, if_false, Finset.mem_insert, not_or] at hfresh'
    have hout : (⟨k.ringMapping, ringLength (k.setup entries asked).2⟩ : Mapping) ∉
        insert ⟨k.sqesMapping, sqesLength (k.setup entries asked).2⟩ t.mappings := by
      rw [Finset.mem_insert, not_or]
      exact ⟨Ne.symm hfresh'.1, hfresh⟩
    rw [mapped_of_ok _ _ hring', mapped_of_ok _ _ hsqes',
      unmapped_insert _ hout (Finset.insert_comm _ _ _),
      unmapped_insert _ hfresh'.2 rfl]
  · refine absurd ⟨hsingle, Bool.eq_false_iff.mpr hring, Bool.eq_false_iff.mpr hsqes, ?_⟩ hfails
    rw [mapped_of_ok _ _ (Bool.eq_false_iff.mpr hring),
      mapped_of_ok _ _ (Bool.eq_false_iff.mpr hsqes)] at hmask
    exact not_ne_iff.mp hmask

def record (k : RingAnswers) (descriptor : Long) (params : Params) : RingRecord where
  ringMapping := k.ringMapping
  ringMappingLength := ringLength params
  sqes := k.sqesMapping
  sqesMappingLength := sqesLength params
  cqHead := ringAt k.ringMapping params.cqOff.head
  cqTail := ringAt k.ringMapping params.cqOff.tail
  cqes := ringAt k.ringMapping params.cqOff.cqes
  descriptor := toInt descriptor
  sqEntries := params.sqEntries
  cqEntries := params.cqEntries
  cqMask := params.cqEntries - 1#32
  batchCount := 0#32

theorem create_completed (hok : syscallFailed (k.setup entries asked).1 = false)
    (hc : Completes k (k.setup entries asked).2 t.memory) :
    create k ring entries t =
      (true, record k (k.setup entries asked).1 (k.setup entries asked).2,
        ⟨⟨t.memory, insert ⟨k.sqesMapping, sqesLength (k.setup entries asked).2⟩
          (insert ⟨k.ringMapping, ringLength (k.setup entries asked).2⟩ t.mappings)⟩,
          insert (toInt (k.setup entries asked).1) t.descriptors⟩) := by
  obtain ⟨hsingle, hring, hsqes, hmask⟩ := hc
  rw [create_opened hok]
  simp only [hsingle, hring, hsqes, mapped_of_ok _ _ hring, mapped_of_ok _ _ hsqes, hmask,
    if_false, ne_eq, not_true_eq_false, Bool.false_eq_true, record, ringAt_zero]

/-- A call that returns true writes nothing but `*ring`, and keeps every mapping. -/
theorem create_true (h : Answered k entries t) (htrue : (create k ring entries t).1 = true) :
    (create k ring entries t).2.2.memory = t.memory ∧
    t.mappings ⊆ (create k ring entries t).2.2.mappings := by
  cases hok : syscallFailed (k.setup entries asked).1 with
  | true =>
    rw [create_setup_failed hok] at htrue
    exact absurd htrue Bool.false_ne_true
  | false =>
    by_cases hc : Completes k (k.setup entries asked).2 t.memory
    · rw [create_completed hok hc]
      exact ⟨rfl, (Finset.subset_insert _ _).trans (Finset.subset_insert _ _)⟩
    · rw [create_failed h hok hc] at htrue
      exact absurd htrue Bool.false_ne_true

theorem record_built {descriptor : Long} {params : Params} {t : Task}
    (hring : k.ringMapping.toNat + (ringLength params).toNat < 2 ^ 64)
    (hsqes : k.sqesMapping.toNat + (sqesLength params).toNat < 2 ^ 64)
    (hmapped : ⟨k.ringMapping, ringLength params⟩ ∈ t.mappings)
    (hmapped' : ⟨k.sqesMapping, sqesLength params⟩ ∈ t.mappings)
    (hheld : toInt descriptor ∈ t.descriptors) :
    Built (record k descriptor params) t := by
  have hlength := ringLength_toNat params
  have hlength' := sqesLength_toNat params
  have hcqes : (ringAt k.ringMapping params.cqOff.cqes).toNat =
      k.ringMapping.toNat + params.cqOff.cqes.toNat := by
    have hoff := params.cqOff.cqes.isLt
    rw [ringAt, BitVec.toNat_add, BitVec.toNat_setWidth,
      Nat.mod_eq_of_lt (a := params.cqOff.cqes.toNat) (by omega),
      Nat.mod_eq_of_lt (by omega)]
  refine ⟨hmapped, hmapped', hheld, ?_, ?_, ?_, ⟨hring.le, hsqes.le⟩, rfl, rfl⟩
  · intro i hi
    simp only [record] at hi ⊢
    exact ⟨toNat_add_of_fits (by omega), by omega⟩
  · simp only [record, hcqes]
    omega
  · simp only [record, hcqes]
    omega

/-- Creation is all or nothing exactly when nothing fails once the descriptor is open.
Every later failure gives back what was mapped and leaves `*ring` alone, but none of them
closes the descriptor. -/
theorem create_all_or_nothing_iff (k : RingAnswers) (ring : RingRecord) (entries : U32) (t : Task)
    (h : Answered k entries t) :
    AllOrNothing k ring entries t ↔
      syscallFailed (k.setup entries asked).1 = true ∨
      Completes k (k.setup entries asked).2 t.memory := by
  cases hok : syscallFailed (k.setup entries asked).1 with
  | true =>
    refine ⟨fun _ => .inl rfl, fun _ => .inr ?_⟩
    rw [create_setup_failed hok]
    exact ⟨rfl, rfl, rfl, rfl⟩
  | false =>
    by_cases hc : Completes k (k.setup entries asked).2 t.memory
    · refine ⟨fun _ => .inr hc, fun _ => .inl ?_⟩
      rw [create_completed hok hc]
      have hring := ((h.ring hok).2 hc.ring).2
      have hsqes := ((h.sqes hok hc.ring).2 hc.sqes).2
      refine ⟨rfl, record_built hring hsqes ?_ ?_ ?_, rfl, rfl⟩
      · exact Finset.mem_insert_of_mem (Finset.mem_insert_self _ _)
      · exact Finset.mem_insert_self _ _
      · exact Finset.mem_insert_self _ _
    · refine ⟨fun hall => ?_, fun hcond => absurd (hcond.resolve_left (by decide)) hc⟩
      unfold AllOrNothing at hall
      rw [create_failed h hok hc] at hall
      obtain ⟨htrue, -⟩ | ⟨-, -, -, hdescriptors⟩ := hall
      · exact absurd htrue Bool.false_ne_true
      -- the descriptor is among those held afterwards and was not before
      · exact absurd (hdescriptors ▸ Finset.mem_insert_self _ _) (h.descriptor hok)

/-- Parameters as the kernel returns them: twice as many CQEs as SQEs, after a header of
64 bytes. -/
def sampleParams (entries flags : U32) : Params :=
  ⟨flags, 0x3fff#32, entries, entries + entries, ⟨8#32, 12#32, 20#32, 64#32⟩⟩

/-- A kernel that opens descriptor 3 and answers the two mappings as given. -/
def sampleAnswers (ringMapping sqesMapping : Long) : RingAnswers :=
  ⟨fun entries params => (3#64, sampleParams entries params.flags), ringMapping, sqesMapping⟩

/-- A process with the three standard descriptors and the mask word of the ring at
`0x7f0000000014`. -/
def sampleTask : Task :=
  ⟨⟨fun a => if a = 0x7f0000000014#64 then 127#8 else 0#8, ∅⟩, {0#32, 1#32, 2#32}⟩

def sampleRecord : RingRecord :=
  ⟨0#64, 0#64, 0#64, 0#64, 0#64, 0#64, 0#64, 0#32, 0#32, 0#32, 0#32, 0#32⟩

/-- A kernel that opens the ring and has no memory to map it. -/
theorem sampleAnswers_failing :
    syscallFailed ((sampleAnswers (BitVec.ofInt 64 (-12)) 0#64).setup 64#32 asked).1 = false ∧
      Answered (sampleAnswers (BitVec.ofInt 64 (-12)) 0#64) 64#32 sampleTask ∧
      ¬Completes (sampleAnswers (BitVec.ofInt 64 (-12)) 0#64)
        ((sampleAnswers (BitVec.ofInt 64 (-12)) 0#64).setup 64#32 asked).2 sampleTask.memory := by
  have hfail : syscallFailed (sampleAnswers (BitVec.ofInt 64 (-12)) 0#64).ringMapping = true := by
    decide
  refine ⟨by decide,
    ⟨fun _ => by decide, fun _ => ⟨.inl hfail, fun h => ?_⟩, fun _ h => ?_⟩, fun h => ?_⟩
  · exact absurd (hfail.symm.trans h) (by decide)
  · exact absurd (hfail.symm.trans h) (by decide)
  · exact absurd (hfail.symm.trans h.ring) (by decide)

/-- When the ring cannot be mapped for want of memory, descriptor 3 stays open. -/
theorem descriptor_leaks_when_mmap_fails :
    Answered (sampleAnswers (BitVec.ofInt 64 (-12)) 0#64) 64#32 sampleTask ∧
      (create (sampleAnswers (BitVec.ofInt 64 (-12)) 0#64) sampleRecord 64#32 sampleTask).1 = false ∧
      3#32 ∉ sampleTask.descriptors ∧
      3#32 ∈ (create (sampleAnswers (BitVec.ofInt 64 (-12)) 0#64) sampleRecord 64#32
        sampleTask).2.2.descriptors ∧
      ¬AllOrNothing (sampleAnswers (BitVec.ofInt 64 (-12)) 0#64) sampleRecord 64#32 sampleTask := by
  obtain ⟨hok, hanswered, hfails⟩ := sampleAnswers_failing
  have hcreate : create _ sampleRecord 64#32 sampleTask = _ := create_failed hanswered hok hfails
  have hnew : 3#32 ∉ sampleTask.descriptors := by decide
  have hopen : 3#32 ∈ insert (toInt 3#64) sampleTask.descriptors := by decide
  refine ⟨hanswered, ?_, hnew, ?_, fun hall => ?_⟩
  · rw [hcreate]
  · rw [hcreate]
    exact hopen
  · unfold AllOrNothing at hall
    rw [hcreate] at hall
    obtain ⟨htrue, -⟩ | ⟨-, -, -, hdescriptors⟩ := hall
    · exact absurd htrue (by decide)
    · exact hnew (hdescriptors ▸ hopen)

/-- Two mappings and a mask word of 127: the ring is built. Without the first mapping it is
not all or nothing. -/
theorem create_all_or_nothing_sample :
    Answered (sampleAnswers 0x7f0000000000#64 0x7f0000001000#64) 64#32 sampleTask ∧
      AllOrNothing (sampleAnswers 0x7f0000000000#64 0x7f0000001000#64) sampleRecord 64#32 sampleTask ∧
      ¬AllOrNothing (sampleAnswers (BitVec.ofInt 64 (-12)) 0#64) sampleRecord 64#32 sampleTask := by
  have hanswered : Answered (sampleAnswers 0x7f0000000000#64 0x7f0000001000#64) 64#32 sampleTask := by
    refine ⟨fun _ => by decide, fun _ => ⟨.inr ⟨?_, ?_⟩, fun _ => by decide⟩,
      fun _ _ => ⟨.inr ⟨?_, ?_⟩, fun _ => by decide⟩⟩
    · exact ⟨by decide, by decide⟩
    · exact fun m hm => absurd hm (Finset.notMem_empty m)
    · exact ⟨by decide, by decide⟩
    · intro m hm
      have hring : m = ⟨0x7f0000000000#64, ringLength (sampleParams 64#32 setupFlags)⟩ :=
        Finset.mem_singleton.mp hm
      subst hring
      exact .inl (by decide)
  obtain ⟨hok, hanswered', hfails⟩ := sampleAnswers_failing
  refine ⟨hanswered, (create_all_or_nothing_iff _ sampleRecord 64#32 sampleTask hanswered).mpr
    (.inr ⟨?_, ?_, ?_, ?_⟩),
    fun hall => ?_⟩
  · decide
  · decide
  · decide
  · decide
  · rcases (create_all_or_nothing_iff _ sampleRecord 64#32 sampleTask hanswered').mp hall with hfailed | hcompletes
    · exact absurd (hok.symm.trans hfailed) (by decide)
    · exact hfails hcompletes

/-! ### The ring that the calls on it work with -/

/-- The CQE in slot `i`. -/
def cqeAt (r : RingRecord) (m : Mem) (i : ℕ) : Cqe :=
  let a := r.cqes + BitVec.ofNat 64 (16 * i)
  ⟨load64 m a, load32 m (a + 8#64), load32 m (a + 12#64)⟩

/-- A record that was built, once the kernel has rounded the completion queue to a power
of two. -/
def Built.geometry {r : RingRecord} {t : Task} (h : Built r t) {shift : ℕ}
    (hshift : r.cqEntries.toNat = 2 ^ shift) :
    Geometry where
  sqes := r.sqes
  sqEntries := r.sqEntries
  cqEntries := r.cqEntries
  cqMask := r.cqMask
  cqShift := shift
  sqes_fit := by
    have hend := h.mappings_end.2
    by_cases hzero : r.sqEntries.toNat = 0
    · rw [hzero]
      exact r.sqes.isLt.le
    · have hlast := (h.sqe_slot (r.sqEntries.toNat - 1) (by omega)).2
      omega
  cqMask_eq := h.cqMask
  cqEntries_eq := hshift

/-- What the record points to in memory `m`. -/
def view (r : RingRecord) (g : Geometry) (m : Mem) : Ring :=
  { g with
    batchCount := r.batchCount
    memory := m
    cqHead := load32 m r.cqHead
    cqTail := load32 m r.cqTail
    cqes := cqeAt r m }

/-- A new ring is one that the submission and completion queues start from. -/
theorem Built.view_created {r : RingRecord} {t : Task} (h : Built r t) {shift : ℕ}
    (hshift : r.cqEntries.toNat = 2 ^ shift)
    (hcounters : load32 t.memory r.cqTail = load32 t.memory r.cqHead) :
    view r (h.geometry hshift) t.memory =
      Ring.created (h.geometry hshift) t.memory (load32 t.memory r.cqHead) (cqeAt r t.memory) := by
  simp only [view, Ring.created, hcounters, h.batchCount]

end RingCreate

end Libuc
