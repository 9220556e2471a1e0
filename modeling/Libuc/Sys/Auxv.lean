import Libuc.ThreadLocal.Layout

/-! The auxiliary vector in memory. It has no length: `__libuc_auxv_get` goes on until it
meets `AT_NULL`, so each walk takes a bound on its rounds and is absent when the bound is
too small. A walk also lists the addresses of the words it reads. -/

namespace Libuc.Auxv

open ThreadLocal

/-- `__libuc_auxv_get` from `entry` on: the value stored, none when it returns false, and
what it reads. -/
def get (m : Mem) (type : BitVec 64) : ℕ → Addr → Option (Option (BitVec 64) × List Addr)
  | 0, _ => none
  | fuel + 1, entry =>
    if load64 m entry = atNull then some (none, [entry])
    else if load64 m entry = type then some (some (load64 m (entry + 8#64)), [entry, entry + 8#64])
    else (get m type fuel (entry + 16#64)).map fun r => (r.1, entry :: r.2)

/-- `ENOENT`. -/
def enoent : CInt := 2#32

/-- `getauxval`: its value, and `errno` afterwards. -/
def getauxval (m : Mem) (auxiliaryVector : Addr) (type : BitVec 64) (errno : CInt) (fuel : ℕ) :
    Option (BitVec 64 × CInt) :=
  (get m type fuel auxiliaryVector).map fun r =>
    match r.1 with
    | none => (0#64, enoent)
    | some value => (value, errno)

/-- The entries before `AT_NULL`, as the decoder of the thread-local layout takes them. -/
def entries (m : Mem) : ℕ → Addr → Option (List AuxvEntry)
  | 0, _ => none
  | fuel + 1, entry =>
    if load64 m entry = atNull then some []
    else (entries m fuel (entry + 16#64)).map fun rest =>
      ⟨load64 m entry, load64 m (entry + 8#64)⟩ :: rest

/-- The vector as the kernel lays it out, without the value of `AT_NULL`. -/
def words (aux : List AuxvEntry) : List (BitVec 64) :=
  aux.flatMap (fun e => [e.type, e.value]) ++ [atNull]

def first (aux : List AuxvEntry) (type : BitVec 64) : Option (BitVec 64) :=
  (aux.find? fun e => e.type = type).map AuxvEntry.value

/-- Every address in the list is that of one of the `n` words from `a` on. -/
def Within (a : Addr) (n : ℕ) (reads : List Addr) : Prop :=
  ∀ r ∈ reads, ∃ i < n, r = a + BitVec.ofNat 64 (8 * i)

variable {m : Mem} {a : Addr} {aux : List AuxvEntry} {n : ℕ} {reads : List Addr}

/-- Words of a part are words of the whole. -/
theorem Within.of_part {k : ℕ} (h : Within (a + BitVec.ofNat 64 (8 * k)) n reads) {total : ℕ}
    (hn : k + n ≤ total) :
    Within a total reads := by
  intro r hr
  obtain ⟨i, hi, rfl⟩ := h r hr
  refine ⟨k + i, by omega, ?_⟩
  rw [Nat.mul_add, BitVec.ofNat_add, add_assoc]

theorem words_cons (e : AuxvEntry) (aux : List AuxvEntry) :
    words (e :: aux) = e.type :: e.value :: words aux := rfl

theorem words_length (aux : List AuxvEntry) : (words aux).length = 2 * aux.length + 1 := by
  induction aux with
  | nil => rfl
  | cons e aux ih =>
    rw [words_cons, List.length_cons, List.length_cons, ih, List.length_cons]
    omega

theorem holdsWords_words_cons {e : AuxvEntry} (h : HoldsWords m a (words (e :: aux))) :
    load64 m a = e.type ∧ load64 m (a + 8#64) = e.value ∧ HoldsWords m (a + 16#64) (words aux) := by
  rw [words_cons, holdsWords_cons, holdsWords_cons, add_assoc] at h
  exact h

theorem first_cons (e : AuxvEntry) (aux : List AuxvEntry) (type : BitVec 64) :
    first (e :: aux) type = if e.type = type then some e.value else first aux type := by
  unfold first
  rw [List.find?_cons]
  by_cases h : e.type = type <;> simp [h]

/-- The walk finds the first pair of the type it looks for, and reads no word past the
vector. -/
theorem get_eq_first (type : BitVec 64) {fuel : ℕ} (h : HoldsWords m a (words aux))
    (hnull : ∀ e ∈ aux, e.type ≠ atNull) (hfuel : aux.length < fuel) :
    ∃ reads, get m type fuel a = some (first aux type, reads) ∧ Within a (words aux).length reads := by
  induction aux generalizing a fuel with
  | nil =>
    obtain ⟨fuel, rfl⟩ := Nat.exists_eq_add_of_lt hfuel
    have hend : load64 m a = atNull := (holdsWords_cons.mp h).1
    refine ⟨[a], by simp [get, hend, first], fun r hr => ⟨0, by decide, ?_⟩⟩
    rw [List.mem_singleton.mp hr, Nat.mul_zero, BitVec.add_zero]
  | cons e aux ih =>
    rw [List.length_cons] at hfuel
    obtain ⟨fuel, rfl⟩ : ∃ n, fuel = n + 1 := ⟨fuel - 1, by omega⟩
    obtain ⟨htype, hvalue, hrest⟩ := holdsWords_words_cons h
    have hne : load64 m a ≠ atNull := by
      rw [htype]
      exact hnull e List.mem_cons_self
    have hself : a = a + BitVec.ofNat 64 (8 * 0) := by rw [Nat.mul_zero, BitVec.add_zero]
    have hlength : (words (e :: aux)).length = 2 + (words aux).length := by
      rw [words_cons, List.length_cons, List.length_cons]
      omega
    rw [first_cons, get, if_neg hne, htype, hvalue]
    by_cases hfound : e.type = type
    · refine ⟨[a, a + 8#64], by rw [if_pos hfound, if_pos hfound], ?_⟩
      intro r hr
      rcases List.mem_cons.mp hr with rfl | hr
      · exact ⟨0, by omega, hself⟩
      · exact ⟨1, by omega, List.mem_singleton.mp hr⟩
    · obtain ⟨reads, hget, hwithin⟩ :=
        ih hrest (fun e he => hnull e (List.mem_cons_of_mem _ he)) (by omega : aux.length < fuel)
      refine ⟨a :: reads, by rw [if_neg hfound, if_neg hfound, hget, Option.map_some], ?_⟩
      intro r hr
      rcases List.mem_cons.mp hr with rfl | hr
      · exact ⟨0, by omega, hself⟩
      · exact Within.of_part (k := 2) hwithin (by omega) r hr

/-- The list form of the vector is the pairs it was laid out from. -/
theorem entries_eq {fuel : ℕ} (h : HoldsWords m a (words aux)) (hnull : ∀ e ∈ aux, e.type ≠ atNull)
    (hfuel : aux.length < fuel) : entries m fuel a = some aux := by
  induction aux generalizing a fuel with
  | nil =>
    obtain ⟨fuel, rfl⟩ := Nat.exists_eq_add_of_lt hfuel
    have hend : load64 m a = atNull := (holdsWords_cons.mp h).1
    simp [entries, hend]
  | cons e aux ih =>
    rw [List.length_cons] at hfuel
    obtain ⟨fuel, rfl⟩ : ∃ n, fuel = n + 1 := ⟨fuel - 1, by omega⟩
    obtain ⟨htype, hvalue, hrest⟩ := holdsWords_words_cons h
    have hne : load64 m a ≠ atNull := by
      rw [htype]
      exact hnull e List.mem_cons_self
    rw [entries, if_neg hne, ih hrest (fun e he => hnull e (List.mem_cons_of_mem _ he)) (by omega),
      htype, hvalue]
    rfl

/-- The walk over memory and the one over the list of entries agree. -/
theorem get_eq_auxvGet (type : BitVec 64) {fuel : ℕ} (h : HoldsWords m a (words aux))
    (hnull : ∀ e ∈ aux, e.type ≠ atNull)
    (hfuel : aux.length < fuel) : (get m type fuel a).map Prod.fst = some (auxvGet type aux) := by
  have hlist : auxvGet type aux = first aux type := by
    clear h hfuel
    induction aux with
    | nil => rfl
    | cons e aux ih =>
      rw [first_cons, auxvGet, if_neg (hnull e List.mem_cons_self),
        ih fun e he => hnull e (List.mem_cons_of_mem _ he)]
  obtain ⟨reads, hget, -⟩ := get_eq_first type h hnull hfuel
  rw [hget, hlist]
  rfl

/-- `getauxval` reports the first pair, and `ENOENT` exactly when there is none. -/
theorem getauxval_eq_first (type : BitVec 64) (errno : CInt) {fuel : ℕ} (h : HoldsWords m a (words aux))
    (hnull : ∀ e ∈ aux, e.type ≠ atNull) (hfuel : aux.length < fuel) :
    getauxval m a type errno fuel =
      some (match first aux type with | none => (0#64, enoent) | some value => (value, errno)) := by
  obtain ⟨reads, hget, -⟩ := get_eq_first type h hnull hfuel
  rw [getauxval, hget]
  rfl

theorem first_eq_none {type : BitVec 64} : first aux type = none ↔ ∀ e ∈ aux, e.type ≠ type := by
  simp [first]

end Libuc.Auxv
