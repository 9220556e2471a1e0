import Libuc.Machine
import Mathlib.Data.Finset.Basic

/-! The process as its allocations see it: one flat memory and the set of mappings it
holds. Where the kernel places a mapping, or that it refuses one, is an input of the
call; a live mapping can always be given back. What a new mapping holds is left open. -/

namespace Libuc

inductive Arch where
  | aarch64
  | x8664
  deriving DecidableEq

/-- A mapping, with the length it was asked for. -/
@[ext] structure Mapping where
  base : Addr
  length : BitVec 64
  deriving DecidableEq

structure Process where
  memory : Mem
  mappings : Finset Mapping

namespace Process

/-- `mmap` of anonymous memory, answered by `result`. -/
def mmap (p : Process) (length : BitVec 64) (result : Long) : Process :=
  if syscallFailed result then p else { p with mappings := insert ⟨result, length⟩ p.mappings }

/-- `munmap`: the result, and the process afterwards. -/
def munmap (p : Process) (address : Addr) (length : BitVec 64) : Long × Process :=
  if ⟨address, length⟩ ∈ p.mappings then
  (0#64, { p with mappings := p.mappings.erase ⟨address, length⟩ })
  else (BitVec.ofInt 64 (-22), p)

theorem munmap_live (memory : Mem) {address : Addr} {length : BitVec 64} {rest : Finset Mapping}
    (h : ⟨address, length⟩ ∉ rest) :
    munmap ⟨memory, insert ⟨address, length⟩ rest⟩ address length = (0#64, ⟨memory, rest⟩) := by
  simp only [munmap, Finset.mem_insert_self, if_true, Finset.erase_insert h]

/-- Where the kernel puts a mapping: on a page, and not across the end of the address
space. -/
def Placed (result : Long) (length : BitVec 64) : Prop :=
  4096 ∣ result.toNat ∧ result.toNat + length.toNat ≤ 2 ^ 64

/-- What the kernel may answer to an `mmap`: an error, or an address on a page, in the
address space and apart from every mapping there is. -/
def Answers (p : Process) (length : BitVec 64) (result : Long) : Prop :=
  syscallFailed result = true ∨
    (Placed result length ∧ ∀ m ∈ p.mappings, Lib.Separate m.base m.length.toNat result length.toNat)

instance (result : Long) (length : BitVec 64) : Decidable (Placed result length) :=
  inferInstanceAs (Decidable (_ ∧ _))

instance (p : Process) (length : BitVec 64) (result : Long) : Decidable (p.Answers length result) :=
  inferInstanceAs (Decidable (_ ∨ _))

theorem not_mem_of_separate {mappings : Finset Mapping} {new : Mapping} (hpos : 0 < new.length.toNat)
    (h : ∀ m ∈ mappings, Lib.Separate m.base m.length.toNat new.base new.length.toNat) :
    new ∉ mappings := by
  intro hmem
  rcases h new hmem with h | h <;> omega

end Process

end Libuc
