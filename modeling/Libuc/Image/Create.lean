import Libuc.Image.Operations
import Libuc.Scheduler.Dispatch

/-! Creation and destruction on the image. A new fiber is seated in two mappings that
meet no others, and what was mapped before is not written to; a destruction reads the two
mappings out of the record and gives them back, and leaves every other fiber seated. -/

namespace Libuc

open Lib ThreadLocal FiberRecord

variable {pf : Platform} {initial mappings : Finset Mapping} {live : List Holding} {h g : Holding}
  {fb : Fiber} {m m' : Mem}
  {w : Image} {s : Scheduler.State} {p p' : Process} {frames : Addr → Option Addr}
    {F : Addr → Option Fiber}
  {R : Addr → Option Request}

/-! ### Accounts -/

theorem live_nodup (hd : (held live).Nodup) : live.Nodup := by
  obtain ⟨-, hpair⟩ := List.nodup_flatMap.mp hd
  refine hpair.imp fun hdisjoint => ?_
  rintro rfl
  exact hdisjoint List.mem_cons_self List.mem_cons_self

theorem Owns.accounts (ho : Owns initial p.mappings live) (hs : Seats pf p.memory live frames F R) :
    Accounts pf.arch initial ⟨p, live⟩ := by
  refine ⟨ho.account, ho.distinct, ho.own, fun h hh => ?_, fun h hh => ?_⟩
  · obtain ⟨fb, -, hseated⟩ := hs.seated h hh
    exact (holding_read _ _ _).trans hseated.holding
  · obtain ⟨fb, -, hseated⟩ := hs.seated h hh
    exact ⟨hseated.inside, hseated.ends⟩

theorem Accounts.owns {arch : Arch} (ha : Accounts arch initial ⟨p, live⟩)
    (hapart : ∀ m ∈ p.mappings, ∀ m' ∈ p.mappings, m ≠ m' →
      Separate m.base m.length.toNat m'.base m'.length.toNat) :
    Owns initial p.mappings live := ⟨ha.mappings, ha.distinct, ha.own, hapart⟩

/-! ### Destruction -/

theorem Seats.perm_others (hs : Seats pf m live frames F R) (hd : (held live).Nodup) (hh : h ∈ live) :
    live.Perm (h :: live.filter fun g => g.fiber ≠ h.fiber) := by
  classical
  have herase : live.erase h = live.filter fun g => g.fiber ≠ h.fiber := by
    rw [(live_nodup hd).erase_eq_filter]
    refine List.filter_congr fun g hg => ?_
    by_cases hgh : g = h
    · simp [hgh]
    · have hfiber : g.fiber ≠ h.fiber := fun he => hgh (hs.eq_of_fiber hg hh he)
      simp [hgh, hfiber]
  rw [← herase]
  exact List.perm_cons_erase hh

theorem Seats.destroy (hs : Seats pf m live frames F R) (hh : h ∈ live) (hf : F h.fiber = some fb) :
    Seats pf m (live.filter fun g => g.fiber ≠ h.fiber) frames (Function.update F h.fiber none)
      (Scheduler.dropFrame R fb.frame) := by
  have hkept : ∀ a fa, Function.update F h.fiber none a = some fa → a ≠ h.fiber ∧ F a = some fa := by
    intro a fa ha
    have hne : a ≠ h.fiber := by
      rintro rfl
      rw [Function.update_self] at ha
      cases ha
    rw [Function.update_of_ne hne] at ha
    exact ⟨hne, ha⟩
  refine ⟨fun a fa ha => hs.frames a fa (hkept a fa ha).2, fun a fa ha => ?_, fun g hg => ?_,
    fun r q hq => ?_⟩
  · obtain ⟨hne, ha'⟩ := hkept a fa ha
    obtain ⟨g, hg, rfl⟩ := hs.mapped a fa ha'
    exact ⟨g, List.mem_filter.mpr ⟨hg, by simpa using hne⟩, rfl⟩
  · obtain ⟨hg, hne⟩ := List.mem_filter.mp hg
    have hne : g.fiber ≠ h.fiber := by simpa using hne
    obtain ⟨fg, hfg, hseated⟩ := hs.seated g hg
    refine ⟨fg, by rw [Function.update_of_ne hne, hfg], hseated.requests_congr fun r hr => ?_⟩
    obtain ⟨q, hq, hown, -⟩ := hseated.request r hr
    rw [hq, Scheduler.Memory.dropFrame_eq_some]
    refine ⟨hq, fun hr' => hne ?_⟩
    obtain ⟨q', hq', hown', -⟩ := (hs.seated_of hh hf).request r hr'
    rw [hq] at hq'
    cases hq'
    exact Option.some.inj (hown.symm.trans hown')
  · obtain ⟨hq, hne⟩ := Scheduler.Memory.dropFrame_eq_some.mp hq
    obtain ⟨a, fa, hqa, hfa, hra⟩ := hs.owner r q hq
    refine ⟨a, fa, hqa, (Function.update_of_ne ?_ _ _).trans hfa, hra⟩
    rintro rfl
    rw [hf] at hfa
    cases hfa
    exact hne hra

/-- `__libuc_fiber_destroy`, which never fails on a live fiber. -/
theorem Represents.reclaim (hr : Represents pf initial w s) (a : Addr) (site : Scheduler.Trap) :
    Tracks pf initial (w.reclaim pf a site) (s.reclaim a true site) := by
  cases hf : s.fibers a with
  | none =>
    have hfault : s.reclaim a true site = .error .fault := by
      simp [Scheduler.State.reclaim, Scheduler.State.destroy, Scheduler.State.fiber, hf,
        bind, Except.bind]
    rw [hfault]
    exact .excuse rfl
  | some fb =>
    obtain ⟨h, hh, rfl, -⟩ := hr.seat hf
    have hperm := hr.seats.perm_others hr.owns.distinct hh
    have haccounts :
        Accounts pf.arch initial ⟨w.process, h :: w.live.filter fun g => g.fiber ≠ h.fiber⟩ :=
      (hr.owns.accounts (p := w.process) hr.seats).perm hperm
    have hrest : Accounts pf.arch initial
        ⟨(fiberDestroy pf.arch h.fiber w.process).2,
          [] ++ w.live.filter fun g => g.fiber ≠ h.fiber⟩ := haccounts.destroyed
    have hdestroy := haccounts.fiberDestroy_eq.1
    rw [List.nil_append, hdestroy] at hrest
    have hseats := hr.seats.destroy hh hf
    have howns := hrest.owns fun x hx y hy => by
      refine hr.owns.apart x ?_ y ?_
      · rw [haccounts.split.1]
        exact Finset.mem_insert_of_mem (Finset.mem_insert_of_mem hx)
      · rw [haccounts.split.1]
        exact Finset.mem_insert_of_mem (Finset.mem_insert_of_mem hy)
    rw [Scheduler.State.reclaim_of_some hf, if_pos rfl]
    unfold Image.reclaim
    extract_lets r
    have hrun : r = (true, ⟨w.process.memory,
        initial ∪ (held (w.live.filter fun g => g.fiber ≠ h.fiber)).toFinset⟩) := hdestroy
    rw [hrun, if_pos rfl]
    refine .ok (Represents.record ?_ _)
    exact { hr with
      owns := howns
      seats := hseats }

/-! ### Creation -/

/-- The kernel's answers to a creation: no mapping is at null, and the fibers it lets a
process map are limited. -/
structure Image.Maps (pf : Platform) (k : Scheduler.Kernel) (w : Image) (argument : SpawnRequest)
    (stackAnswer blockAnswer : Long) : Prop where
  answers : SpawnAnswers pf.arch pf.layout argument.stackLength w.process stackAnswer blockAnswer
  nonnull : stackAnswer ≠ 0#64 ∧ blockAnswer ≠ 0#64
  limit : syscallFailed stackAnswer = false → w.live.length < k.mapLimit

/-- A creation gives a fiber two mappings apart from all others, and seats it there. -/
structure Settles (pf : Platform) (argument : SpawnRequest) (h : Holding) (p p' : Process) : Prop where
  created : Created pf.arch argument.entry argument.argument h p p'
  stackApart : ∀ m ∈ p.mappings, Separate m.base m.length.toNat h.stack.base h.stack.length.toNat
  blockApart : ∀ m ∈ insert h.stack p.mappings,
    Separate m.base m.length.toNat h.block.base h.block.length.toNat
  seated : ∀ R, Seated pf p'.memory R h (Fiber.spawned argument)

theorem settles_of_placed {l : Layout} {b : Block} {stack block : Mapping} {argument : SpawnRequest}
    (hlayout : pf.layout = some l) (hlong : FiberRecord.size pf.arch < stack.length.toNat)
    (hplaced : Process.Placed stack.base stack.length)
    (hstack : ∀ m ∈ p.mappings, Separate m.base m.length.toNat stack.base stack.length.toNat)
    (hplaced' : Process.Placed block.base block.length)
    (hblock : ∀ m ∈ insert stack p.mappings,
      Separate m.base m.length.toNat block.base block.length.toNat)
    (hmapping : b.mapping = block.base) (hlength : b.mappingLength = block.length)
    (hf : Fits b pf.arch l) (hpos : stack.base ≠ 0#64) (hpos' : block.base ≠ 0#64) :
    Settles pf argument ⟨recordAt pf.arch stack, stack, block⟩ p
      ⟨recordFinish pf.arch pf.code (blockInit l (storeWords p.memory (recordAt pf.arch stack)
        (recordWords pf.arch argument.entry argument.argument stack)) b.block b.threadPointer)
          (recordAt pf.arch stack) b,
        insert block (insert stack p.mappings)⟩ := by
  have hcreated :=
    fiberSpawn_created pf.code argument.entry argument.argument block hlong hplaced hstack hplaced' hblock
    hmapping hlength hf
  have hapart : Separate stack.base stack.length.toNat block.base block.length.toNat :=
    hblock stack (Finset.mem_insert_self _ _)
  have hin := hcreated.inside
  have hend := hplaced.2
  have hend' := hplaced'.2
  have hfits : (recordAt pf.arch stack).toNat + FiberRecord.size pf.arch ≤ 2 ^ 64 := hin.2.trans hend
  have htcb := hf.tcb_inside
  rw [hmapping, hlength] at htcb
  have hbase : 0 < stack.base.toNat := Nat.pos_of_ne_zero fun h0 => hpos (eq_zero_iff_toNat.mpr h0)
  have hbase' : 0 < block.base.toNat := Nat.pos_of_ne_zero fun h0 => hpos' (eq_zero_iff_toNat.mpr h0)
  have hrecord :
      Separate (recordAt pf.arch stack) (FiberRecord.size pf.arch) block.base block.length.toNat :=
    hapart.sub hin.1 hin.2
  have htp : (b.threadPointer + 8#64).toNat = b.threadPointer.toNat + 8 :=
    toNat_add_of_fits (i := 8) (by omega)
  have hword : Separate (recordAt pf.arch stack) (FiberRecord.size pf.arch)
      (b.threadPointer + 8#64) 8 :=
    (hrecord.symm.sub (by omega) (by omega)).symm
  -- the block is written into its own mapping, which leaves the record alone
  have hget : ∀ field, get pf.arch (blockInit l (storeWords p.memory (recordAt pf.arch stack)
      (recordWords pf.arch argument.entry argument.argument stack)) b.block b.threadPointer)
        (recordAt pf.arch stack) field =
        fieldWord argument.entry argument.argument stack ⟨0#64, 0#64, 0#64, 0#64⟩ field := by
    intro field
    refine (get_congr hfits (fun x hlow hhigh => blockInit_frame hf ?_ ?_) field).trans
      (recordInit_get hfits field)
    · rw [hmapping, hlength]
      exact hend'
    · rw [hmapping, hlength]
      exact hrecord.cell hlow hhigh
  obtain ⟨hfields, -⟩ := recordFinish_get pf.code hfits (by omega) hword hget
  refine ⟨hcreated, hstack, hblock, fun R => ?_⟩
  generalize recordFinish pf.arch pf.code (blockInit l (storeWords p.memory (recordAt pf.arch stack)
      (recordWords pf.arch argument.entry argument.argument stack)) b.block b.threadPointer)
        (recordAt pf.arch stack) b = m
    at hcreated hfields
  have htop : stack.base.toNat ≤ (FiberRecord.stackPointer pf.arch m (recordAt pf.arch stack)).toNat :=
    hcreated.stackTop.2.1
  have hpointer : get pf.arch m (recordAt pf.arch stack) .threadPointer = b.threadPointer :=
    hfields .threadPointer
  have hblockWords : (contents pf.arch m (recordAt pf.arch stack)).block = b := by
    simp only [Contents.block, contents_words (show Field.mapping ≠ .statusLife by decide),
      contents_words (show Field.mappingLength ≠ .statusLife by decide),
      contents_words (show Field.block ≠ .statusLife by decide),
      contents_words (show Field.threadPointer ≠ .statusLife by decide), hfields, fieldWord]
  have hstatus : FiberRecord.status pf.arch m (recordAt pf.arch stack) = 0#32 := by
    have hzero : get pf.arch m (recordAt pf.arch stack) .statusLife = 0#64 := hfields .statusLife
    rw [FiberRecord.status, load32_eq_setWidth]
    exact (congrArg (BitVec.setWidth 32) hzero).trans (by decide)
  refine ⟨hin, hend, hbase, ?_, ⟨?_, ?_, ?_, ?_, ?_, hstatus, hcreated.live⟩, ⟨l, hlayout, ?_⟩,
    hend', hapart, ?_, ?_, ?_⟩
  · exact (holding_read _ _ _).symm.trans hcreated.recorded
  · refine ⟨fun h0 => ?_, fun h0 => by cases h0⟩
    have hzero : (FiberRecord.stackPointer pf.arch m (recordAt pf.arch stack)).toNat = 0 :=
      eq_zero_iff_toNat.mp h0
    omega
  · exact (contents_words (by decide)).trans (hfields .entry)
  · exact (contents_words (by decide)).trans (hfields .argument)
  · rw [contents_words (by decide), hfields .readyNext]
    exact points_none
  · rw [contents_words (by decide), hfields .joiner]
    exact points_none
  · rw [hblockWords]
    exact hf
  · show get pf.arch m (recordAt pf.arch stack) .threadPointer ≠ 0#64
    rw [hpointer]
    intro h0
    have hzero : b.threadPointer.toNat = 0 := eq_zero_iff_toNat.mp h0
    omega
  · exact hcreated.tcb
  · intro r hframe
    cases hframe

variable {k : Scheduler.Kernel} {argument : SpawnRequest} {stackAnswer blockAnswer : Long}

/-- `__libuc_fiber_spawn` returns null, or settles a fiber. -/
theorem fiberSpawn_settles (hk : w.Maps pf k argument stackAnswer blockAnswer) {a : Addr}
    (hsome : (fiberSpawn pf.arch pf.code pf.layout argument.stackLength argument.entry argument.argument stackAnswer blockAnswer
      w.process).1 = some a) :
    w.live.length < k.mapLimit ∧ ∃ h : Holding, h.fiber = a ∧ Settles pf argument h w.process
      (fiberSpawn pf.arch pf.code pf.layout argument.stackLength argument.entry argument.argument stackAnswer blockAnswer
        w.process).2 := by
  have hlong : FiberRecord.size pf.arch < argument.stackLength.toNat := by
    by_contra hshort
    simp only [fiberSpawn, Nat.le_of_not_lt hshort, if_true] at hsome
    cases hsome
  have hok : syscallFailed stackAnswer = false := by
    cases hfail : syscallFailed stackAnswer with
    | false => rfl
    | true =>
      simp only [fiberSpawn, Nat.not_le.mpr hlong, if_false, hfail, if_true] at hsome
      cases hsome
  have hmmap : w.process.mmap argument.stackLength stackAnswer =
      ⟨w.process.memory, insert ⟨stackAnswer, argument.stackLength⟩ w.process.mappings⟩ := by
    simp only [Process.mmap, hok, Bool.false_eq_true, if_false]
  obtain ⟨hplaced, hstack⟩ := hk.answers.1.resolve_left (by rw [hok]; decide)
  have hanswer : ∀ l pl, pf.layout = some l → plan pf.arch l = some pl →
      syscallFailed blockAnswer = false →
      Process.Placed blockAnswer pl.mappingLength ∧
      ∀ m ∈ insert ⟨stackAnswer, argument.stackLength⟩ w.process.mappings,
        Separate m.base m.length.toNat blockAnswer pl.mappingLength.toNat := by
    intro l pl hl hp hok'
    have hblock := (hk.answers.2 l pl hl hp).resolve_left (by rw [hok']; decide)
    rw [hmmap] at hblock
    exact hblock
  rw [fiberSpawn_mapped pf.code pf.layout argument.entry argument.argument blockAnswer hlong hok] at hsome ⊢
  rcases blockCreate_cases pf.arch pf.layout blockAnswer _
    (fun l pl hl hp hok' => (hanswer l pl hl hp hok').1) with
    ⟨l, pl, b, hl, hp, hok', hcreate, hmapping, hlength, hf⟩ | hcreate
  · rw [hcreate] at hsome ⊢
    obtain ⟨hplaced', hblock⟩ := hanswer l pl hl hp hok'
    exact ⟨hk.limit hok, _, Option.some.inj hsome, settles_of_placed hl hlong hplaced
      hstack hplaced' hblock hmapping hlength hf hk.nonnull.1 hk.nonnull.2⟩
  · rw [hcreate] at hsome
    cases hsome

theorem Seats.undisturbed (hs : Seats pf p.memory live frames F R) (ho : Owns initial p.mappings live)
    (hu : p.Undisturbed p') : Seats pf p'.memory live frames F R := by
  refine ⟨hs.frames, hs.mapped, fun h hh => ?_, hs.owner⟩
  obtain ⟨fb, hf, hseated⟩ := hs.seated h hh
  have hstack := ho.mem (stack_mem_held hh)
  have hblock := ho.mem (block_mem_held hh)
  refine ⟨fb, hf, hseated.keeps fun range hrange => ?_⟩
  intro x hx
  unfold Outside at hx
  rcases hseated.guarded_inside range hrange (by omega) with ⟨hlow, hhigh⟩ | ⟨hlow, hhigh⟩
  · exact hu _ hstack x (by omega) (by omega)
  · exact hu _ hblock x (by omega) (by omega)

/-- A fiber in new mappings is none of those there are. -/
theorem Settles.fresh (hn : Settles pf argument h p p') (hs : Seats pf m live frames F R)
    (ho : Owns initial p.mappings live) :
    F h.fiber = none := by
  cases hf : F h.fiber with
  | none => rfl
  | some fb =>
    obtain ⟨g, hg, he, hseated⟩ := hs.seat hf
    have hapart := hn.stackApart g.stack (ho.mem (stack_mem_held hg))
    obtain ⟨hg₁, hg₂⟩ := hseated.inside
    obtain ⟨hh₁, hh₂⟩ := hn.created.inside
    rw [he] at hg₁ hg₂
    have hsize : 0 < FiberRecord.size pf.arch := by simp [FiberRecord.size]
    rcases hapart with hapart | hapart <;> omega

theorem Seats.create (hs : Seats pf p.memory live frames F R) (ho : Owns initial p.mappings live)
    (hn : Settles pf argument h p p') (hu : p.Undisturbed p') :
    Seats pf p'.memory (h :: live) (Function.update frames h.fiber none)
      (Function.update F h.fiber (some (Fiber.spawned argument))) R := by
  have hfresh := hn.fresh hs ho
  have hs' := hs.undisturbed ho hu
  have hne : ∀ a fa, F a = some fa → a ≠ h.fiber := by
    rintro a fa ha rfl
    rw [hfresh] at ha
    cases ha
  refine ⟨fun a fa ha => ?_, fun a fa ha => ?_, fun g hg => ?_, fun r q hq => ?_⟩
  · by_cases he : a = h.fiber
    · subst he
      rw [Function.update_self] at ha
      cases ha
      exact Function.update_self _ _ _
    · rw [Function.update_of_ne he] at ha
      exact (Function.update_of_ne he _ _).trans (hs'.frames a fa ha)
  · by_cases he : a = h.fiber
    · exact ⟨h, List.mem_cons_self, he.symm⟩
    · rw [Function.update_of_ne he] at ha
      obtain ⟨g, hg, hga⟩ := hs'.mapped a fa ha
      exact ⟨g, List.mem_cons_of_mem _ hg, hga⟩
  · rcases List.mem_cons.mp hg with rfl | hg
    · exact ⟨_, Function.update_self _ _ _, hn.seated R⟩
    · obtain ⟨fg, hfg, hseated⟩ := hs'.seated g hg
      exact ⟨fg, (Function.update_of_ne (hne _ _ hfg) _ _).trans hfg, hseated⟩
  · obtain ⟨a, fa, hqa, hfa, hra⟩ := hs'.owner r q hq
    exact ⟨a, fa, hqa, (Function.update_of_ne (hne _ _ hfa) _ _).trans hfa, hra⟩

def Process.Apart (mappings : Finset Mapping) : Prop :=
  ∀ m ∈ mappings, ∀ m' ∈ mappings, m ≠ m' → Separate m.base m.length.toNat m'.base m'.length.toNat

theorem Process.Apart.insert {mappings : Finset Mapping} {new : Mapping} (h : Process.Apart mappings)
    (hnew : ∀ m ∈ mappings, Separate m.base m.length.toNat new.base new.length.toNat) :
    Process.Apart (insert new mappings) := by
  intro x hx y hy hne
  rw [Finset.mem_insert] at hx hy
  rcases hx with rfl | hx <;> rcases hy with rfl | hy
  · exact absurd rfl hne
  · exact (hnew y hy).symm
  · exact hnew x hx
  · exact h x hx y hy hne

theorem Owns.create (ho : Owns initial p.mappings live) (hs : Seats pf p.memory live frames F R)
    (hn : Settles pf argument h p p') (hu : p.Undisturbed p') :
    Owns initial p'.mappings (h :: live) := by
  have hmappings := hn.created.mappings
  refine ((ho.accounts hs).created hn.created hu).owns ?_
  rw [hmappings]
  exact ((show Process.Apart p.mappings from ho.apart).insert hn.stackApart).insert hn.blockApart

/-- The records that are mapped are the live ones. -/
theorem Seats.ncard_mapped (hs : Seats pf m live frames s.fibers R) : s.mapped.ncard ≤ live.length := by
  have hsub : s.mapped ⊆ ((live.map Holding.fiber).toFinset : Finset Addr) := by
    intro a ha
    obtain ⟨fb, hf⟩ := Option.isSome_iff_exists.mp ha
    obtain ⟨h, hh, rfl⟩ := hs.mapped a fb hf
    exact List.mem_toFinset.mpr (List.mem_map_of_mem hh)
  calc s.mapped.ncard ≤ ((live.map Holding.fiber).toFinset : Set Addr).ncard := Set.ncard_le_ncard hsub
    _ = (live.map Holding.fiber).toFinset.card := Set.ncard_coe_finset _
    _ ≤ (live.map Holding.fiber).length := List.toFinset_card_le _
    _ = live.length := List.length_map _

/-- `__libuc_fiber_spawn` on the image and on the records; a new record is where none
was. -/
theorem Represents.spawn (hr : Represents pf initial w s)
    (hk : w.Maps pf k argument stackAnswer blockAnswer) :
    Represents pf initial (w.spawn pf argument stackAnswer blockAnswer).2
        (s.spawn argument (w.spawn pf argument stackAnswer blockAnswer).1) ∧
      ∀ a, (w.spawn pf argument stackAnswer blockAnswer).1 = some a → Scheduler.Fresh k s a := by
  obtain ⟨hcases, hu⟩ :=
    fiberSpawn_cases pf.arch pf.code pf.layout argument.stackLength argument.entry argument.argument
    stackAnswer blockAnswer w.process hk.answers
  unfold Image.spawn
  extract_lets r
  have hkept : r.1 = none → r.2.mappings = w.process.mappings := by
    intro hnone
    rcases hcases with ⟨-, hsame⟩ | ⟨g, hg, -⟩
    · exact hsame
    · rw [show r.1 = some g.fiber from hg] at hnone
      cases hnone
  have hsettles : ∀ a, r.1 = some a → w.live.length < k.mapLimit ∧ ∃ h, h.fiber = a ∧
      Settles pf argument h w.process r.2 :=
    fun a ha => fiberSpawn_settles hk ha
  change w.process.Undisturbed r.2 at hu
  clear_value r
  obtain ⟨result, p'⟩ := r
  cases result with
  | none =>
    have hsame : p'.mappings = w.process.mappings := hkept rfl
    refine ⟨?_, fun a ha => by cases ha⟩
    exact { hr with
      owns := by
        have ho := hr.owns
        rw [← hsame] at ho
        exact ho
      seats := Seats.undisturbed (p := w.process) hr.seats hr.owns hu }
  | some a =>
    obtain ⟨hlimit, h, rfl, hn⟩ := hsettles a rfl
    have hread : Holding.read pf.arch p'.memory h.fiber = h := hn.created.recorded
    have hfresh := hn.fresh hr.seats hr.owns
    have hseats := Seats.create (p := w.process) hr.seats hr.owns hn hu
    have howns := Owns.create (p := w.process) hr.owns hr.seats hn hu
    have hne : h.fiber ≠ 0#64 := (hn.seated s.requests).fiber_ne_zero
    constructor
    · simp only [Option.elim_some, hread]
      exact { hr with
        owns := howns
        seats := hseats }
    · intro a ha
      cases ha
      exact ⟨hne, hfresh, lt_of_le_of_lt hr.seats.ncard_mapped hlimit⟩

end Libuc
