import Libuc.Fiber.Spawn
import Libuc.Lib.Runs

/-! Who holds which mapping. A ghost list beside the process names the fibers that have
been created and not destroyed, with the two mappings each was given; whatever order
they are created and destroyed in, and whatever is written meanwhile, the process holds
these mappings and those it began with, each once. -/

namespace Libuc

open Lib ThreadLocal FiberRecord

structure Population where
  process : Process
  live : List Holding

def held (live : List Holding) : List Mapping := live.flatMap fun h => [h.stack, h.block]

/-- A creation, a destruction, or anything that writes no live record's account of its
mappings. -/
inductive Population.Step (arch : Arch) (code : Code) : Population → Population → Prop
  | created {w : Population} {layout : Option Layout} {stackLength : BitVec 64} {entry argument : Addr}
      {stackAnswer blockAnswer : Long} {fiber : Addr}
      (hkernel : SpawnAnswers arch layout stackLength w.process stackAnswer blockAnswer)
      (hsome : (fiberSpawn arch code layout stackLength entry argument stackAnswer blockAnswer w.process).1 = some fiber) :
      Population.Step arch code w
        ⟨(fiberSpawn arch code layout stackLength entry argument stackAnswer blockAnswer w.process).2,
          Holding.read arch
            (fiberSpawn arch code layout stackLength entry argument stackAnswer blockAnswer w.process).2.memory
            fiber :: w.live⟩
  | refused {w : Population} {layout : Option Layout} {stackLength : BitVec 64} {entry argument : Addr}
      {stackAnswer blockAnswer : Long}
      (hkernel : SpawnAnswers arch layout stackLength w.process stackAnswer blockAnswer)
      (hnone : (fiberSpawn arch code layout stackLength entry argument stackAnswer blockAnswer w.process).1 = none) :
      Population.Step arch code w
        ⟨(fiberSpawn arch code layout stackLength entry argument stackAnswer blockAnswer w.process).2, w.live⟩
  | destroyed {p : Process} {before after : List Holding} {h : Holding} :
      Population.Step arch code ⟨p, before ++ h :: after⟩ ⟨(fiberDestroy arch h.fiber p).2,
        before ++ after⟩
  | wrote {w : Population} {m : Mem}
      (hkept : ∀ h ∈ w.live, Holding.read arch m h.fiber = Holding.read arch w.process.memory h.fiber) :
      Population.Step arch code w ⟨{ w.process with memory := m }, w.live⟩

structure Accounts (arch : Arch) (initial : Finset Mapping) (w : Population) : Prop where
  mappings : w.process.mappings = initial ∪ (held w.live).toFinset
  distinct : (held w.live).Nodup
  own : ∀ m ∈ held w.live, m ∉ initial
  recorded : ∀ h ∈ w.live, Holding.read arch w.process.memory h.fiber = h
  inside : ∀ h ∈ w.live, Inside arch h.fiber h.stack ∧
    h.stack.base.toNat + h.stack.length.toNat ≤ 2 ^ 64

variable {arch : Arch} {code : Code} {initial : Finset Mapping} {w w' : Population}
  {h : Holding} {p : Process}

theorem held_cons (h : Holding) (live : List Holding) :
    held (h :: live) = h.stack :: h.block :: held live := rfl

theorem stack_mem_held {live : List Holding} (hmem : h ∈ live) : h.stack ∈ held live :=
  List.mem_flatMap.mpr ⟨h, hmem, by simp⟩

theorem block_mem_held {live : List Holding} (hmem : h ∈ live) : h.block ∈ held live :=
  List.mem_flatMap.mpr ⟨h, hmem, by simp⟩

theorem Accounts.mem_mappings (ha : Accounts arch initial w) {m : Mapping} (hm : m ∈ held w.live) :
    m ∈ w.process.mappings := by
  rw [ha.mappings]
  exact Finset.mem_union_right _ (List.mem_toFinset.mpr hm)

theorem Accounts.perm {live live' : List Holding} (ha : Accounts arch initial ⟨p, live⟩)
    (hperm : live.Perm live') :
    Accounts arch initial ⟨p, live'⟩ := by
  have hheld : (held live).Perm (held live') := hperm.flatMap_right _
  refine ⟨?_, hheld.nodup_iff.mp ha.distinct, fun m hm => ha.own m (hheld.mem_iff.mpr hm),
    fun h hh => ha.recorded h (hperm.mem_iff.mpr hh), fun h hh => ha.inside h (hperm.mem_iff.mpr hh)⟩
  rw [ha.mappings, List.toFinset_eq_of_perm _ _ hheld]

/-- A record that lies in an undisturbed mapping says what it said. -/
theorem Accounts.read_undisturbed (ha : Accounts arch initial w) (hu : w.process.Undisturbed p)
    (hmem : h ∈ w.live) :
    Holding.read arch p.memory h.fiber = h := by
  obtain ⟨⟨hlow, hhigh⟩, hend⟩ := ha.inside h hmem
  have hmapped := ha.mem_mappings (stack_mem_held hmem)
  have hget : ∀ field, get arch p.memory h.fiber field = get arch w.process.memory h.fiber field :=
    get_congr (hhigh.trans hend) fun x h₁ h₂ => hu h.stack hmapped x (by omega) (by omega)
  have hread : Holding.read arch p.memory h.fiber = Holding.read arch w.process.memory h.fiber := by
    simp only [Holding.read, hget]
  exact hread.trans (ha.recorded h hmem)

theorem Accounts.created {entry argument : Addr} (ha : Accounts arch initial w)
    (hc : Created arch entry argument h w.process p) (hu : w.process.Undisturbed p) :
    Accounts arch initial ⟨p, h :: w.live⟩ := by
  obtain ⟨hstack, hblock⟩ := hc.fresh
  rw [Finset.mem_insert, not_or] at hblock
  obtain ⟨hne, hblock⟩ := hblock
  rw [ha.mappings, Finset.mem_union, not_or, List.mem_toFinset] at hstack hblock
  refine ⟨?_, ?_, ?_, ?_, ?_⟩
  · rw [hc.mappings, ha.mappings, held_cons, List.toFinset_cons, List.toFinset_cons,
      Finset.union_insert, Finset.union_insert, Finset.insert_comm]
  · rw [held_cons]
    refine List.nodup_cons.mpr ⟨?_, List.nodup_cons.mpr ⟨hblock.2, ha.distinct⟩⟩
    rw [List.mem_cons, not_or]
    exact ⟨fun he => hne he.symm, hstack.2⟩
  · rw [held_cons, List.forall_mem_cons, List.forall_mem_cons]
    exact ⟨hstack.1, hblock.1, ha.own⟩
  · exact List.forall_mem_cons.mpr ⟨hc.recorded, fun g hg => ha.read_undisturbed hu hg⟩
  · exact List.forall_mem_cons.mpr ⟨⟨hc.inside, hc.ends⟩, ha.inside⟩

/-- The two mappings of a fiber, apart from all the others. -/
theorem Accounts.split {live : List Holding} (ha : Accounts arch initial ⟨p, h :: live⟩) :
    p.mappings = insert h.block (insert h.stack (initial ∪ (held live).toFinset)) ∧
      h.stack ∉ initial ∪ (held live).toFinset ∧
      h.block ∉ insert h.stack (initial ∪ (held live).toFinset) := by
  have hmappings := ha.mappings
  have hd := ha.distinct
  have hown := ha.own
  rw [held_cons] at hmappings hd hown
  rw [List.nodup_cons, List.nodup_cons, List.mem_cons, not_or] at hd
  rw [List.forall_mem_cons, List.forall_mem_cons] at hown
  obtain ⟨⟨hne, hstack⟩, hblock, -⟩ := hd
  refine ⟨?_, ?_, ?_⟩
  · rw [hmappings, List.toFinset_cons, List.toFinset_cons, Finset.union_insert, Finset.union_insert,
      Finset.insert_comm]
  · rw [Finset.mem_union, not_or, List.mem_toFinset]
    exact ⟨hown.1, hstack⟩
  · rw [Finset.mem_insert, not_or, Finset.mem_union, not_or, List.mem_toFinset]
    exact ⟨fun he => hne he.symm, hown.2.1, hblock⟩

/-- A destruction reads both mappings out of the record, which is still mapped when its
stack is read, and gives them back. -/
theorem Accounts.fiberDestroy_eq {live : List Holding} (ha : Accounts arch initial ⟨p, h :: live⟩) :
    fiberDestroy arch h.fiber p = (true, ⟨p.memory, initial ∪ (held live).toFinset⟩) ∧
      (blockDestroy ⟨h.block.base, h.block.length, get arch p.memory h.fiber .block,
        get arch p.memory h.fiber .threadPointer⟩ p).2.mappings =
          insert h.stack (initial ∪ (held live).toFinset) := by
  obtain ⟨hmappings, hstack, hblock⟩ := ha.split
  have hgive : p.munmap h.block.base h.block.length =
      (0#64, ⟨p.memory, insert h.stack (initial ∪ (held live).toFinset)⟩) := by
    have hp : p = ⟨p.memory, insert h.block (insert h.stack (initial ∪ (held live).toFinset))⟩ := by
      rw [← hmappings]
    rw [hp]
    exact Process.munmap_live _ hblock
  have hgive' := Process.munmap_live p.memory hstack
  have hread := ha.recorded h List.mem_cons_self
  simp only [Holding.read, Holding.ext_iff, Mapping.ext_iff, true_and] at hread
  obtain ⟨⟨hs₁, hs₂⟩, hb₁, hb₂⟩ := hread
  have hzero : syscallFailed 0#64 = false := by decide
  constructor
  · simp only [fiberDestroy, blockDestroy, hb₁, hb₂, hgive, hs₁, hs₂, hgive', hzero, Bool.not_false,
      Bool.and_self]
  · simp only [blockDestroy, hgive]

theorem Accounts.destroyed {before after : List Holding}
    (ha : Accounts arch initial ⟨p, before ++ h :: after⟩) :
    Accounts arch initial ⟨(fiberDestroy arch h.fiber p).2, before ++ after⟩ := by
  have ha' := ha.perm List.perm_middle
  have hsub : ∀ m ∈ held (before ++ after), m ∈ held (h :: (before ++ after)) :=
    fun m hm => List.mem_cons_of_mem _ (List.mem_cons_of_mem _ hm)
  have hd := ha'.distinct
  rw [held_cons, List.nodup_cons, List.nodup_cons] at hd
  rw [ha'.fiberDestroy_eq.1]
  exact ⟨rfl, hd.2.2, fun m hm => ha'.own m (hsub m hm),
    fun g hg => ha'.recorded g (List.mem_cons_of_mem _ hg),
    fun g hg => ha'.inside g (List.mem_cons_of_mem _ hg)⟩

theorem Accounts.step (ha : Accounts arch initial w) (hs : Population.Step arch code w w') :
    Accounts arch initial w' := by
  cases hs with
  | created hkernel hsome =>
    obtain ⟨hcases, hu⟩ := fiberSpawn_cases arch code _ _ _ _ _ _ w.process hkernel
    rcases hcases with ⟨hnone, -⟩ | ⟨g, hg, -, hc⟩
    · rw [hsome] at hnone
      cases hnone
    · rw [hsome, Option.some.injEq] at hg
      rw [hg, hc.recorded]
      exact ha.created hc hu
  | refused hkernel hnone =>
    obtain ⟨hcases, hu⟩ := fiberSpawn_cases arch code _ _ _ _ _ _ w.process hkernel
    rcases hcases with ⟨-, hsame⟩ | ⟨g, hg, -⟩
    · exact ⟨hsame.trans ha.mappings, ha.distinct, ha.own,
        fun g hg => ha.read_undisturbed hu hg, ha.inside⟩
    · rw [hnone] at hg
      cases hg
  | destroyed => exact ha.destroyed
  | wrote hkept =>
    exact ⟨ha.mappings, ha.distinct, ha.own,
      fun g hg => (hkept g hg).trans (ha.recorded g hg), ha.inside⟩

/-- However many fibers come and go, every mapping is accounted for. -/
theorem accounts_run (hstart : w.live = [])
    (hrun : Relation.ReflTransGen (Population.Step arch code) w w') :
    Accounts arch w.process.mappings w' := by
  refine keeps_run (fun _ _ ha hs => ha.step hs) ?_ hrun
  exact ⟨by simp [hstart, held], by simp [hstart, held], by simp [hstart, held],
    by simp [hstart], by simp [hstart]⟩

/-- The destruction of one fiber among others: exactly its two mappings go, the record
being mapped until it has been read, and the others keep theirs. -/
structure Destroys (arch : Arch) (p : Process) (h : Holding) (others : List Holding) : Prop where
  succeeds : (fiberDestroy arch h.fiber p).1 = true
  memory : (fiberDestroy arch h.fiber p).2.memory = p.memory
  two : h.stack ∈ p.mappings ∧ h.block ∈ p.mappings ∧ h.stack ≠ h.block
  mappings : (fiberDestroy arch h.fiber p).2.mappings = (p.mappings.erase h.block).erase h.stack
  readable : Inside arch h.fiber h.stack ∧ h.stack ∈ (blockDestroy ⟨h.block.base, h.block.length,
    get arch p.memory h.fiber .block, get arch p.memory h.fiber .threadPointer⟩ p).2.mappings
  others : ∀ g ∈ others, Inside arch g.fiber g.stack ∧ Holding.read arch p.memory g.fiber = g ∧
    g.stack ∈ (fiberDestroy arch h.fiber p).2.mappings ∧
    g.block ∈ (fiberDestroy arch h.fiber p).2.mappings

theorem Accounts.destroys {before after : List Holding}
    (ha : Accounts arch initial ⟨p, before ++ h :: after⟩) :
    Destroys arch p h (before ++ after) := by
  have ha' := ha.perm List.perm_middle
  have hrest := ha.destroyed
  obtain ⟨heq, hreleased⟩ := ha'.fiberDestroy_eq
  obtain ⟨hmappings, hstack, hblock⟩ := ha'.split
  have hne : h.stack ≠ h.block := fun he => hblock (he ▸ Finset.mem_insert_self _ _)
  refine ⟨by rw [heq], by rw [heq], ⟨?_, ?_, hne⟩, ?_, ⟨(ha'.inside h List.mem_cons_self).1, ?_⟩,
    fun g hg => ?_⟩
  · exact ha'.mem_mappings (stack_mem_held List.mem_cons_self)
  · exact ha'.mem_mappings (block_mem_held List.mem_cons_self)
  · rw [heq, hmappings, Finset.erase_insert hblock, Finset.erase_insert hstack]
  · rw [hreleased]
    exact Finset.mem_insert_self _ _
  · exact ⟨(hrest.inside g hg).1, ha'.recorded g (List.mem_cons_of_mem _ hg),
      hrest.mem_mappings (stack_mem_held hg), hrest.mem_mappings (block_mem_held hg)⟩

/-- Creation is all or nothing, and destruction undoes it: of whatever fibers there are,
in any order. -/
theorem spawn_all_or_nothing_and_destroy (arch : Arch) (code : Code) :
    (∀ layout stackLength entry argument stackAnswer blockAnswer p,
      SpawnAnswers arch layout stackLength p stackAnswer blockAnswer →
      (((fiberSpawn arch code layout stackLength entry argument stackAnswer blockAnswer p).1 = none ∧
        (fiberSpawn arch code layout stackLength entry argument stackAnswer blockAnswer p).2.mappings = p.mappings) ∨
      ∃ g : Holding,
        (fiberSpawn arch code layout stackLength entry argument stackAnswer blockAnswer p).1 =
          some g.fiber ∧
        g.stack = ⟨stackAnswer, stackLength⟩ ∧
        Created arch entry argument g p
          (fiberSpawn arch code layout stackLength entry argument stackAnswer blockAnswer p).2) ∧
      p.Undisturbed
        (fiberSpawn arch code layout stackLength entry argument stackAnswer blockAnswer p).2) ∧
    (∀ layout (stackLength : BitVec 64) entry argument stackAnswer blockAnswer p,
      stackLength.toNat ≤ FiberRecord.size arch →
      fiberSpawn arch code layout stackLength entry argument stackAnswer blockAnswer p = (none, p)) ∧
    (∀ w w' : Population, w.live = [] → Relation.ReflTransGen (Population.Step arch code) w w' →
      (∀ before h after, w'.live = before ++ h :: after →
        Destroys arch w'.process h (before ++ after)) ∧
      (w'.live = [] → w'.process.mappings = w.process.mappings)) := by
  refine ⟨fun layout stackLength entry argument stackAnswer blockAnswer p hkernel =>
    fiberSpawn_cases arch code layout stackLength entry argument stackAnswer blockAnswer p hkernel,
    ?_, ?_⟩
  · intro layout stackLength entry argument stackAnswer blockAnswer p hshort
    simp only [fiberSpawn, hshort, if_true]
  · intro w w' hstart hrun
    have ha := accounts_run hstart hrun
    obtain ⟨p, live⟩ := w'
    constructor
    · rintro before h after rfl
      exact ha.destroys
    · rintro rfl
      simpa [held] using ha.mappings

abbrev sampleSpawn (arch : Arch) (stackAnswer blockAnswer : Long) (p : Process) :
    Option Addr × Process :=
  fiberSpawn arch sampleCode (some sampleLayout) 65536#64 7#64 9#64 stackAnswer blockAnswer p

abbrev samplePair (arch : Arch) : Process :=
  (sampleSpawn arch 0x300000#64 0x400000#64
    (sampleSpawn arch 0x100000#64 0x200000#64 ⟨fun _ => 0#8, ∅⟩).2).2

/-- On both machines either of two fibers can be destroyed beside the other. -/
theorem spawn_all_or_nothing_and_destroy_sample :
    (∃ first second : Holding, first.stack.base = 0x100000#64 ∧ second.stack.base = 0x300000#64 ∧
      Destroys .aarch64 (samplePair .aarch64) first [second] ∧
      Destroys .aarch64 (samplePair .aarch64) second [first]) ∧
    ∃ first second : Holding, first.stack.base = 0x100000#64 ∧ second.stack.base = 0x300000#64 ∧
      Destroys .x8664 (samplePair .x8664) first [second] ∧
      Destroys .x8664 (samplePair .x8664) second [first] := by
  have hall : ∀ arch, ∃ first second : Holding, first.stack.base = 0x100000#64 ∧
      second.stack.base = 0x300000#64 ∧
      Destroys arch (samplePair arch) first [second] ∧
      Destroys arch (samplePair arch) second [first] := by
    intro arch
    obtain ⟨-, -, hrun⟩ := spawn_all_or_nothing_and_destroy arch sampleCode
    have hfirst : (sampleSpawn arch 0x100000#64 0x200000#64 ⟨fun _ => 0#8, ∅⟩).1.isSome = true ∧
        SpawnAnswers arch (some sampleLayout) 65536#64 ⟨fun _ => 0#8, ∅⟩ 0x100000#64 0x200000#64 := by
      cases arch <;> decide +kernel
    have hsecond : (sampleSpawn arch 0x300000#64 0x400000#64
          (sampleSpawn arch 0x100000#64 0x200000#64 ⟨fun _ => 0#8, ∅⟩).2).1.isSome = true ∧
        SpawnAnswers arch (some sampleLayout) 65536#64
          (sampleSpawn arch 0x100000#64 0x200000#64 ⟨fun _ => 0#8, ∅⟩).2
          0x300000#64 0x400000#64 := by
      cases arch <;> decide +kernel
    have hbases : ((sampleSpawn arch 0x100000#64 0x200000#64 ⟨fun _ => 0#8, ∅⟩).1.map fun fiber =>
          (Holding.read arch (sampleSpawn arch 0x100000#64 0x200000#64
            ⟨fun _ => 0#8, ∅⟩).2.memory fiber).stack.base) =
            some 0x100000#64 ∧
        ((sampleSpawn arch 0x300000#64 0x400000#64
          (sampleSpawn arch 0x100000#64 0x200000#64 ⟨fun _ => 0#8, ∅⟩).2).1.map
          fun fiber => (Holding.read arch (samplePair arch).memory fiber).stack.base) =
            some 0x300000#64 := by
      cases arch <;> decide +kernel
    obtain ⟨first, hfiber⟩ := Option.isSome_iff_exists.mp hfirst.1
    obtain ⟨second, hfiber'⟩ := Option.isSome_iff_exists.mp hsecond.1
    rw [hfiber, hfiber', Option.map_some, Option.map_some, Option.some.injEq,
      Option.some.injEq] at hbases
    have hpair := (Relation.ReflTransGen.single
      (Population.Step.created (w := ⟨⟨fun _ => 0#8, ∅⟩, []⟩) hfirst.2 hfiber)).tail
        (.created hsecond.2 hfiber')
    obtain ⟨hdestroys, -⟩ := hrun _ _ rfl hpair
    exact ⟨_, _, hbases.1, hbases.2, hdestroys [_] _ [] rfl, hdestroys [] _ [_] rfl⟩
  exact ⟨hall .aarch64, hall .x8664⟩

end Libuc
