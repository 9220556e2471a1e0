import Libuc.Image.Guarantees
import Libuc.Start

/-! From the initial stack to the reactor. What `__libuc_start` hands over is an image that
a run reaches from the mappings of the process before it had a fiber: a launch of the root,
and one store into the startup frame. Everything that holds of reached images holds from
there on. -/

namespace Libuc

open Lib ThreadLocal FiberRecord

/-! ### Words as bytes -/

def bytesAt (a : Addr) (v : BitVec 64) : List (Addr × Byte) :=
  (List.finRange 8).map fun i : Fin 8 =>
  (a + BitVec.ofNat 64 i, setField (fun _ : Fin 8 => 0#8) 0 8 v.toNat i)

variable {m : Mem} {a b x : Addr} {u v : BitVec 64}

theorem storeBytes_of_notMem {writes : List (Addr × Byte)} (h : x ∉ writes.map Prod.fst) :
    storeBytes m writes x = m x := by
  induction writes generalizing m with
  | nil => rfl
  | cons write rest ih =>
    obtain ⟨c, b⟩ := write
    rw [List.map_cons, List.mem_cons, not_or] at h
    exact (ih h.2).trans (Function.update_of_ne h.1 _ _)

/-- Of bytes stored at different places each is there afterwards. -/
theorem storeBytes_of_mem {writes : List (Addr × Byte)} {b : Byte}
    (hd : (writes.map Prod.fst).Nodup) (h : (x, b) ∈ writes) :
    storeBytes m writes x = b := by
  induction writes generalizing m with
  | nil => cases h
  | cons write rest ih =>
    rw [List.map_cons, List.nodup_cons] at hd
    rcases List.mem_cons.mp h with rfl | h
    · exact (storeBytes_of_notMem hd.1).trans (Function.update_self _ _ _)
    · exact ih hd.2 h

theorem storeBytes_bytesAt (m : Mem) (a : Addr) (v : BitVec 64) :
    storeBytes m (bytesAt a v) = store64 m a v := by
  have hplaces : (bytesAt a v).map Prod.fst = (List.finRange 8).map fun i : Fin 8 =>
      a + BitVec.ofNat 64 i := by
    rw [bytesAt, List.map_map]
    rfl
  funext x
  by_cases hx : (x - a).toNat < 8
  · have hmem : (x, setField (fun _ : Fin 8 => 0#8) 0 8 v.toNat ⟨(x - a).toNat, hx⟩) ∈ bytesAt a v := by
      refine List.mem_map.mpr ⟨⟨(x - a).toNat, hx⟩, List.mem_finRange _, ?_⟩
      rw [add_ofNat_sub_toNat]
    rw [storeBytes_of_mem ?_ hmem]
    · simp only [store64, store, hx, ↓reduceDIte]
    · rw [hplaces]
      refine (List.nodup_finRange 8).map fun i j hij => ?_
      have hat := congrArg BitVec.toNat (add_left_cancel hij)
      rw [BitVec.toNat_ofNat, BitVec.toNat_ofNat] at hat
      omega
  · rw [storeBytes_of_notMem]
    · simp only [store64, store, hx, ↓reduceDIte]
    · rw [hplaces, List.mem_map]
      rintro ⟨i, -, rfl⟩
      refine hx ?_
      rw [toNat_add_sub_self a (by omega)]
      exact i.isLt

/-- Two words that do not meet are stored in either order. -/
theorem store64_comm (m : Mem) (ha : a.toNat + 8 ≤ 2 ^ 64) (hb : b.toNat + 8 ≤ 2 ^ 64)
    (h : Separate a 8 b 8) :
    store64 (store64 m a v) b u = store64 (store64 m b u) a v := by
  funext x
  have hone : 8 ≤ (x - a).toNat ∨ 8 ≤ (x - b).toNat := by
    by_cases hx : Outside a 8 x
    · exact .inl (le_sub_of_outside ha hx)
    · refine .inr (le_sub_of_outside hb ?_)
      unfold Outside at hx
      exact h.cell (by omega) (by omega)
  rcases hone with hx | hx
  · simp only [store64, store, Nat.not_lt.mpr hx, ↓reduceDIte]
  · simp only [store64, store, Nat.not_lt.mpr hx, ↓reduceDIte]

/-! ### The ring -/

namespace RingCreate

variable {k : RingAnswers} {ring : RingRecord} {entries : U32} {t : Task}

/-- A ring that is created is built, in two mappings apart from all others. -/
theorem create_built (h : Answered k entries t) (htrue : (create k ring entries t).1 = true) :
    Built (create k ring entries t).2.1 (create k ring entries t).2.2 ∧
      (Process.Apart t.mappings → Process.Apart (create k ring entries t).2.2.mappings) := by
  cases hok : syscallFailed (k.setup entries asked).1 with
  | true =>
    rw [create_setup_failed hok] at htrue
    exact absurd htrue Bool.false_ne_true
  | false =>
    by_cases hc : Completes k (k.setup entries asked).2 t.memory
    · obtain ⟨hring, hringEnd⟩ := h.ring hok
      obtain ⟨hsqes, hsqesEnd⟩ := h.sqes hok hc.ring
      have hmmap : (t.mmap (ringLength (k.setup entries asked).2) k.ringMapping).mappings =
          insert ⟨k.ringMapping, ringLength (k.setup entries asked).2⟩ t.mappings := by
        simp only [Process.mmap, hc.ring, Bool.false_eq_true, if_false]
      rw [create_completed hok hc]
      refine ⟨record_built (hringEnd hc.ring).2 (hsqesEnd hc.sqes).2 ?_ ?_ ?_, fun hapart => ?_⟩
      · exact Finset.mem_insert_of_mem (Finset.mem_insert_self _ _)
      · exact Finset.mem_insert_self _ _
      · exact Finset.mem_insert_self _ _
      · obtain ⟨-, hringApart⟩ := hring.resolve_left (by rw [hc.ring]; decide)
        obtain ⟨-, hsqesApart⟩ := hsqes.resolve_left (by rw [hc.sqes]; decide)
        rw [hmmap] at hsqesApart
        exact (hapart.insert hringApart).insert hsqesApart
    · rw [create_failed h hok hc] at htrue
      exact absurd htrue Bool.false_ne_true

end RingCreate

variable {pf : Platform} {kernel : Scheduler.Kernel} {initial : Finset Mapping} {w : Image}
  {s : Scheduler.State} {range : Mapping}

/-- What the process had mapped before its first fiber may be written to at any time. -/
theorem Represents.spares_initial (hr : Represents pf initial w s) (hrange : range ∈ initial)
    {writes : List (Addr × Byte)} (hin : ∀ x ∈ writes, range.base.toNat ≤ x.1.toNat ∧
      x.1.toNat < range.base.toNat + range.length.toNat) :
    Permitted pf kernel w (.store writes) := by
  intro g hg part hpart x hx
  have hmapped : range ∈ w.process.mappings := by
    rw [hr.owns.account]
    exact Finset.mem_union_left _ hrange
  have hapart : ∀ y ∈ [g.stack, g.block],
      Separate range.base range.length.toNat y.base y.length.toNat := by
    intro y hy
    have hheld : y ∈ held w.live := List.mem_flatMap.mpr ⟨g, hg, hy⟩
    refine hr.owns.apart range hmapped y (hr.owns.mem hheld) ?_
    rintro rfl
    exact hr.owns.own _ hheld hrange
  obtain ⟨fb, hf, hseated⟩ := hr.seats.seated g hg
  rw [hr.seats.frames g.fiber fb hf] at hpart
  obtain ⟨hlow, hhigh⟩ := hin x hx
  by_cases hempty : part.2 = 0
  · rw [hempty]
    unfold Outside
    omega
  · rcases hseated.guarded_inside part hpart hempty with ⟨hbase, hend⟩ | ⟨hbase, hend⟩
    · have hout := (hapart g.stack (by simp)).cell hlow hhigh
      unfold Outside at hout ⊢
      omega
    · have hout := (hapart g.block (by simp)).cell hlow hhigh
      unfold Outside at hout ⊢
      omega

/-! ### The handover -/

/-- The image in which `__libuc_start` calls `__libuc_scheduler_run`: the root has been
created and its address filled in, and it is enqueued on a scheduler just made. -/
def Boot.reactor (pf : Platform) (b : Boot) (ring : Ring) : Image :=
  ({ Image.become b.task.toProcess ring with live := [Holding.read pf.arch b.task.memory b.root] }.record
    (.launch b.root)).enqueue pf b.root

/-- The machine and the program of a startup; `here` is for the reactor to choose. -/
def Boot.platform (arch : Arch) (code : StartCode) (here : Addr) (b : Boot) : Platform :=
  ⟨arch, code.toCode, some b.layout, here⟩

namespace Start

variable {arch : Arch} {code : StartCode} {k : StartAnswers} {frame argv envp auxv : Addr}
  {argumentCount : BitVec 64} {aux : List AuxvEntry} {t : Task} {b : Boot}

def spawnRoot (arch : Arch) (code : StartCode) (k : StartAnswers) (frame : Addr) (l : Layout)
    (p : Process) :
    Option Addr × Process :=
  fiberSpawn arch code.toCode (some l) rootStackLength code.rootEntry frame k.stack k.block p

def rootRequest (code : StartCode) (frame : Addr) : SpawnRequest :=
  ⟨rootStackLength, code.rootEntry, frame⟩

structure Booted (arch : Arch) (code : StartCode) (k : StartAnswers) (frame : Addr)
    (aux : List AuxvEntry) (t : Task) (p : Process) (b : Boot) : Prop where
  layout : (ThreadLocal.layout t.memory aux none).1 = some b.layout
  created : (RingCreate.create k.ring clearedRing ringEntries t).1 = true
  ring : (RingCreate.create k.ring clearedRing ringEntries t).2.1 = b.ring
  root : (spawnRoot arch code k frame b.layout p).1 = some b.root
  process : b.task.toProcess = { (spawnRoot arch code k frame b.layout p).2 with
    memory := store64 (spawnRoot arch code k frame b.layout p).2.memory (frame + 16#64) b.root }

theorem boot_booted (h : boot arch code k frame argv envp argumentCount auxv aux t = .running b) :
    Booted arch code k frame aux t (rootProcess k frame argv envp argumentCount t) b := by
  unfold boot at h
  split at h
  · exact absurd h nofun
  rename_i l hl
  split at h
  · exact absurd h nofun
  rename_i ring t' hcreate
  simp only at h
  split at h
  · exact absurd h nofun
  rename_i root p' hspawn
  simp only [Outcome.running.injEq] at h
  subst h
  have hroot : spawnRoot arch code k frame l (rootProcess k frame argv envp argumentCount t) =
      (some root, p') := by
    rw [spawnRoot, rootProcess, hcreate]
    exact hspawn
  exact ⟨hl, by rw [hcreate], by rw [hcreate], by rw [hroot], by rw [hroot]⟩

/-- The store into the frame leaves what the root's record says it holds. -/
theorem Booted.holding {p : Process} (hb : Booted arch code k frame aux t p b)
    (hfits : b.root.toNat + FiberRecord.size arch ≤ 2 ^ 64)
    (hframe : (frame + 16#64).toNat + 8 ≤ 2 ^ 64)
    (hapart : Separate b.root (FiberRecord.size arch) (frame + 16#64) 8) :
    Holding.read arch b.task.memory b.root =
      Holding.read arch (spawnRoot arch code k frame b.layout p).2.memory b.root := by
  have hget : ∀ field, get arch (store64 (spawnRoot arch code k frame b.layout p).2.memory
      (frame + 16#64) b.root) b.root field =
      get arch (spawnRoot arch code k frame b.layout p).2.memory b.root field :=
    get_congr hfits fun x hlow hhigh => store64_outside _ b.root hframe (hapart.cell hlow hhigh)
  simp only [hb.process, Holding.read, hget]

/-- A launch, and one store into the frame: startup has done what a run of the process
does. -/
theorem Booted.handed {p : Process} (hb : Booted arch code k frame aux t p b)
    (here : Addr) (ring : Ring) (hfits : b.root.toNat + FiberRecord.size arch ≤ 2 ^ 64)
    (hframe : (frame + 16#64).toNat + 8 ≤ 2 ^ 64)
    (hapart : Separate b.root (FiberRecord.size arch) (frame + 16#64) 8) :
    ∃ w, (Image.become p ring).next (b.platform arch code here)
      (.launch (rootRequest code frame) k.stack k.block) = some w ∧
      w.next (b.platform arch code here) (.store (bytesAt (frame + 16#64) b.root)) =
        some (b.reactor (b.platform arch code here) ring) := by
  have hread := hb.holding hfits hframe hapart
  obtain ⟨-, -, -, hroot, hprocess⟩ := hb
  have hspawn : (Image.become p ring).spawn (b.platform arch code here)
      (rootRequest code frame) k.stack k.block =
      (some b.root, { Image.become p ring with
        process := (spawnRoot arch code k frame b.layout p).2
        live := [Holding.read arch (spawnRoot arch code k frame b.layout p).2.memory b.root] }) := by
    have hfst : (fiberSpawn arch code.toCode
        (some b.layout) rootStackLength code.rootEntry frame k.stack k.block p).1 =
        some b.root := hroot
    simp only [Image.spawn, Boot.platform, rootRequest, Image.become, hfst, Option.elim_some, spawnRoot]
    refine congrArg (Prod.mk _) ?_
    congr 1
    funext x
    exact (Function.update_apply _ _ _ _).trans (ite_self _)
  have hnext := fieldAt_toNat hfits .readyNext
  have hindex := FiberRecord.Field.index_lt .readyNext
  have hsize : FiberRecord.size arch = 8 * contextWords arch + 96 := rfl
  have hsep : Separate (fieldAt arch b.root .readyNext) 8 (frame + 16#64) 8 :=
    hapart.sub (by omega) (by omega)
  -- the store and the enqueue's write of `ready_next` do not meet
  have hcomm := store64_comm (u := b.root) (v := 0#64)
      (spawnRoot arch code k frame b.layout p).2.memory (by omega) hframe hsep
  have hready : (Image.become p ring).control.ready = true := rfl
  refine ⟨_, by rw [Image.next, if_pos hready, hspawn], ?_⟩
  simp only [hprocess] at hread
  simp only [Image.next, storeBytes_bytesAt, Option.elim_some, Boot.reactor, hprocess]
  simp only [Image.enqueue, Image.write, Image.record, Image.memory, Image.become, FiberRecord.set,
    if_true, Boot.platform, hcomm, hread]

/-- The root lies in the stack the kernel mapped for it, away from all that was mapped
before. -/
theorem Booted.root_created {p : Process} (hb : Booted arch code k frame aux t p b)
    (hanswers : SpawnAnswers arch (some b.layout) rootStackLength p k.stack k.block) :
    ∃ g : Holding, g.fiber = b.root ∧ g.stack = ⟨k.stack, rootStackLength⟩ ∧
      Created arch code.rootEntry frame g p (spawnRoot arch code k frame b.layout p).2 ∧
      ∀ m ∈ p.mappings, Separate m.base m.length.toNat g.stack.base g.stack.length.toNat := by
  obtain ⟨hcase, -⟩ := fiberSpawn_cases arch code.toCode
    (some b.layout) rootStackLength code.rootEntry frame k.stack k.block p
    hanswers
  have hroot := hb.root
  unfold spawnRoot at hroot ⊢
  have hmapped : syscallFailed k.stack = false := fiberSpawn_some_mapped hroot
  obtain ⟨-, hapart⟩ := hanswers.1.resolve_left (by rw [hmapped]; decide)
  rw [hroot] at hcase
  obtain ⟨hnone, -⟩ | ⟨g, hg, hstack, hcreated⟩ := hcase
  · exact absurd hnone nofun
  · refine ⟨g, (Option.some.inj hg).symm, hstack, hcreated, fun m hm => ?_⟩
    rw [hstack]
    exact hapart m hm

/-- The enqueue writes into the root's record only, and there one link. -/
theorem reactor_memory (pf : Platform) (b : Boot) (ring : Ring)
    (hfits : b.root.toNat + FiberRecord.size pf.arch ≤ 2 ^ 64) :
    Touches b.root (FiberRecord.size pf.arch) b.task.memory (b.reactor pf ring).memory ∧
      ∀ field, field ≠ .readyNext → field ≠ .statusLife →
        get pf.arch (b.reactor pf ring).memory b.root field =
          get pf.arch b.task.memory b.root field := by
  have hmemory : (b.reactor pf ring).memory =
      FiberRecord.set pf.arch b.task.memory b.root .readyNext 0#64 := by
    simp only [Boot.reactor, Image.enqueue, Image.record, Image.write, Image.memory,
      Image.become, if_true]
  rw [hmemory]
  refine ⟨touches_set hfits .readyNext 0#64, fun field hne hlast => ?_⟩
  rw [← contents_words hlast, contents_set hfits (by decide), ← contents_words hlast]
  exact Function.update_of_ne hne _ _

def withRing (k : StartAnswers) (t : Task) : Task :=
  (RingCreate.create k.ring clearedRing ringEntries t).2.2

/-- The reactor is handed the root alone, its arguments in the startup frame and the
initial stack as the kernel left it. -/
structure HandsOver (arch : Arch) (code : StartCode) (k : StartAnswers) (frame a : Addr)
    (args env : List Addr) (aux : List AuxvEntry) (root : Addr) (w : Image) : Prop where
  ready : w.readyHead = root ∧ w.readyTail = root ∧ w.readyCount = 1#32
  live : ∃ h, w.live = [h] ∧ h.fiber = root ∧ h.stack = ⟨k.stack, rootStackLength⟩
  entry : get arch w.memory root .entry = code.rootEntry
  argument : get arch w.memory root .argument = frame
  arguments : HoldsWords w.memory frame
    (rootArguments (a + 8#64) (envpAt a args) root (toInt (BitVec.ofNat 64 args.length)))
  stack : HoldsWords w.memory a (stackWords args env aux)

variable {a : Addr} {args env : List Addr} {fuel shift : ℕ} {reads : List Addr}

/-- From an encoded stack to the reactor: what startup hands over is an image that a run of
the process reaches, on the ring that was created and from the mappings there were before
the root. -/
theorem startup_reaches_reactor (kernel : Scheduler.Kernel) (here : Addr)
    (henc : Encodes t.memory a args env aux)
    (hplaced : StackPlaced t frame a (stackWords args env aux).length)
    (hfuel : (stackWords args env aux).length ≤ fuel)
    (hanswered : Answered arch k aux t) (hnonnull : k.stack ≠ 0#64 ∧ k.block ≠ 0#64)
    (hapart : Process.Apart t.mappings) (hlimit : 0 < kernel.mapLimit)
    (hstart : start arch code k frame a fuel t = some (.running b, reads))
    (hshift : b.ring.cqEntries.toNat = 2 ^ shift)
    (hcounters : load32 t.memory b.ring.cqTail = load32 t.memory b.ring.cqHead) :
    ∃ built : RingCreate.Built b.ring (withRing k t),
      Image.Reachable (b.platform arch code here) kernel (withRing k t).mappings
        (b.reactor (b.platform arch code here)
          (RingCreate.view b.ring (built.geometry hshift) t.memory)) ∧
      HandsOver arch code k frame a args env aux b.root
        (b.reactor (b.platform arch code here)
          (RingCreate.view b.ring (built.geometry hshift) t.memory)) := by
  obtain ⟨reads', hwalk, -⟩ := start_walk arch code k frame henc hfuel
  rw [hwalk, Option.some.injEq, Prod.mk.injEq] at hstart
  have hready := boot_running hplaced hanswered hstart.1
  have hb := boot_booted hstart.1
  obtain ⟨hbuilt, hringApart⟩ := RingCreate.create_built hanswered.ring hb.created
  obtain ⟨hmemory, hmappings⟩ := RingCreate.create_true hanswered.ring hb.created
  rw [hb.ring] at hbuilt
  change RingCreate.Built b.ring (withRing k t) at hbuilt
  change (withRing k t).memory = t.memory at hmemory
  obtain ⟨s, hs, hlow, hbelow, hhigh, hend⟩ := hplaced
  have hs' : s ∈ (withRing k t).mappings := hmappings hs
  have hanswers := hanswered.root b.layout
    (rootProcess k frame (a + 8#64) (envpAt a args) (BitVec.ofNat 64 args.length) t).memory hb.layout
  obtain ⟨g, hg, hstack, hcreated, hgapart⟩ := hb.root_created hanswers
  obtain ⟨hin, hin'⟩ := hcreated.inside
  have hends := hcreated.ends
  have hfits : b.root.toNat + FiberRecord.size arch ≤ 2 ^ 64 := by
    rw [← hg]
    omega
  have hrecord : Separate b.root (FiberRecord.size arch) s.base s.length.toNat := by
    rw [← hg]
    exact (hgapart s hs').symm.sub hin hin'
  have hframe : (frame + 16#64).toNat = frame.toNat + 16 := toNat_add_of_fits (i := 16) (by omega)
  have hview : RingCreate.view b.ring (hbuilt.geometry hshift) t.memory =
      Ring.created (hbuilt.geometry hshift)
      (withRing k t).memory (load32 (withRing k t).memory b.ring.cqHead)
        (RingCreate.cqeAt b.ring (withRing k t).memory) := by
    rw [← hmemory] at hcounters ⊢
    exact hbuilt.view_created hshift hcounters
  have hslot : Separate b.root (FiberRecord.size arch) (frame + 16#64) 8 :=
    (hrecord.symm.sub (by omega) (by omega)).symm
  obtain ⟨w, hlaunch, hstore⟩ :=
    hb.handed here (RingCreate.view b.ring (hbuilt.geometry hshift) t.memory) hfits
    (by omega) hslot
  have hreach : Image.Reachable (b.platform arch code here) kernel (withRing k t).mappings w := by
    rw [hview] at hlaunch
    refine ⟨hringApart hapart, (rootProcess k frame (a + 8#64) (envpAt a args)
      (BitVec.ofNat 64 args.length) t).memory, _, _, _, _,
      .single ⟨.launch (rootRequest code frame) k.stack k.block, ?_, hlaunch⟩⟩
    exact ⟨hanswers, hnonnull, fun _ => hlimit⟩
  refine ⟨hbuilt, ⟨hreach.apart, ?_⟩, ?_⟩
  · obtain ⟨memory, geometry, ringMemory, counter, cqes, hrun⟩ := hreach.run
    obtain ⟨σ, hσ⟩ := hreach.embodied
    refine ⟨memory, geometry, ringMemory, counter, cqes, hrun.tail ⟨_, ?_, hstore⟩⟩
    refine hσ.represents.spares_initial hs' fun x hx => ?_
    obtain ⟨i, -, rfl⟩ := List.mem_map.mp hx
    have hat : (frame + 16#64 + BitVec.ofNat 64 i).toNat = (frame + 16#64).toNat + i :=
      toNat_add_of_fits (by omega)
    simp only
    omega
  · obtain ⟨htouch, hfield⟩ := reactor_memory (b.platform arch code here) b
      (RingCreate.view b.ring (hbuilt.geometry hshift) t.memory) hfits
    change Touches b.root (FiberRecord.size arch) _ _ at htouch
    have hkept : ∀ x : Addr, s.base.toNat ≤ x.toNat → x.toNat < s.base.toNat + s.length.toNat →
        (b.reactor (b.platform arch code here)
          (RingCreate.view b.ring (hbuilt.geometry hshift) t.memory)).memory x =
          b.task.memory x := fun x hx hx' => htouch x (hrecord.symm.cell hx hx')
    have hlength : (rootArguments (a + 8#64) (envpAt a args) b.root
        (toInt (BitVec.ofNat 64 args.length))).length = 4 := rfl
    have harguments : HoldsWords b.task.memory frame
        (rootArguments (a + 8#64) (envpAt a args) b.root (toInt (BitVec.ofNat 64 args.length))) :=
          hready.arguments
    have hholding : Holding.read arch b.task.memory b.root = g := by
      rw [hb.holding hfits (by omega) hslot, ← hg]
      exact hcreated.recorded
    refine ⟨⟨rfl, rfl, rfl⟩, ⟨g, congrArg (fun h => [h]) hholding, hg, hstack⟩, ?_, ?_, ?_, ?_⟩
    · exact (hfield .entry (by decide) (by decide)).trans hready.entry
    · exact (hfield .argument (by decide) (by decide)).trans hready.argument
    · exact harguments.congr (by omega) fun x hx hx' => hkept x (by omega) (by omega)
    · refine henc.words.congr (by omega) fun x hx hx' => ?_
      exact (hkept x (by omega) (by omega)).trans (hready.stack x hx hx')

/-- The process of the sample starts its root on a ring of 2048 completions. -/
theorem startup_reaches_reactor_sample :
    ∃ (b : Boot) (reads : List Addr) (hshift : b.ring.cqEntries.toNat = 2 ^ 11)
      (built : RingCreate.Built b.ring (withRing sampleAnswers sampleTask)),
      start .x8664 sampleCode sampleAnswers 0x7ffff0000400#64 0x7ffff0000800#64 12 sampleTask =
        some (.running b, reads) ∧
        Image.Reachable (b.platform .x8664 sampleCode 0x7ffe0000#64) Scheduler.Sample.kernel
          (withRing sampleAnswers sampleTask).mappings
          (b.reactor (b.platform .x8664 sampleCode 0x7ffe0000#64)
            (RingCreate.view b.ring (built.geometry hshift) sampleTask.memory)) ∧
        HandsOver .x8664 sampleCode sampleAnswers 0x7ffff0000400#64 0x7ffff0000800#64
          [0x7ffff0001000#64] [0x7ffff0002000#64] sampleAux b.root
          (b.reactor (b.platform .x8664 sampleCode 0x7ffe0000#64)
            (RingCreate.view b.ring (built.geometry hshift) sampleTask.memory)) := by
  have henc : Encodes sampleTask.memory 0x7ffff0000800#64 [0x7ffff0001000#64]
      [0x7ffff0002000#64] sampleAux :=
    ⟨by decide, by simp, by decide, holdsWords_storeWords _ (by decide)⟩
  have hplaced : StackPlaced sampleTask 0x7ffff0000400#64 0x7ffff0000800#64 sampleWords.length :=
    ⟨_, Finset.mem_singleton_self _, by decide, by decide, by decide, by decide⟩
  have hapart : Process.Apart sampleTask.mappings := by
    intro x hx y hy hne
    rw [Finset.mem_singleton.mp hx, Finset.mem_singleton.mp hy] at hne
    exact absurd rfl hne
  obtain ⟨reads, hwalk, -⟩ := start_walk .x8664 sampleCode sampleAnswers 0x7ffff0000400#64 henc
    (by decide : sampleWords.length ≤ 12)
  obtain ⟨b, hboot⟩ : ∃ b, boot .x8664 sampleCode sampleAnswers 0x7ffff0000400#64
      (0x7ffff0000800#64 + BitVec.ofNat 64 (8 * 1))
      (envpAt 0x7ffff0000800#64 [0x7ffff0001000#64]) (BitVec.ofNat 64 1)
      (auxvAt 0x7ffff0000800#64 [0x7ffff0001000#64] [0x7ffff0002000#64]) sampleAux sampleTask =
        .running b :=
    boot_of_succeeds ⟨sample_layout, sample_create.1, by decide +kernel⟩
  have hring : b.ring =
      RingCreate.record sampleAnswers.ring (sampleAnswers.ring.setup ringEntries RingCreate.asked).1
      (sampleAnswers.ring.setup ringEntries RingCreate.asked).2 := by
    rw [← (boot_booted hboot).ring, RingCreate.create_completed (by decide) sample_ring_completes]
  have hstart :
      start .x8664 sampleCode sampleAnswers 0x7ffff0000400#64 0x7ffff0000800#64 12 sampleTask =
      some (.running b, reads) := by
    rw [hwalk]
    exact congrArg (fun outcome => some (outcome, reads)) hboot
  have hshift : b.ring.cqEntries.toNat = 2 ^ 11 := by
    rw [hring]
    decide
  have hcounters : load32 sampleTask.memory b.ring.cqTail = load32 sampleTask.memory b.ring.cqHead := by
    rw [hring]
    decide
  obtain ⟨built, hreach, hover⟩ :=
    startup_reaches_reactor Scheduler.Sample.kernel 0x7ffe0000#64 henc hplaced
    (by decide) (sample_answered .x8664) ⟨by decide, by decide⟩ hapart
      (by decide) hstart hshift hcounters
  exact ⟨b, reads, hshift, built, hstart, hreach, hover⟩

end Start

end Libuc
