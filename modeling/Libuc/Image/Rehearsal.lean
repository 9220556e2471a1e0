import Libuc.Image.Run
import Libuc.Scheduler.Rehearsal

/-! Running the process. What fibers and kernel may do next can be decided, so that a
list of occasions is made into a run by evaluation. -/

namespace Libuc

open Lib ThreadLocal FiberRecord

variable {pf : Platform} {k : Scheduler.Kernel} {initial : Finset Mapping} {w w' : Image}
  {h : Holding} {v : Visit}

/-! ### Checks -/

instance (argument : SpawnRequest) (stackAnswer blockAnswer : Long) :
    Decidable (w.Maps pf k argument stackAnswer blockAnswer) :=
  decidable_of_iff
    (SpawnAnswers pf.arch pf.layout argument.stackLength w.process stackAnswer blockAnswer ∧
      (stackAnswer ≠ 0#64 ∧ blockAnswer ≠ 0#64) ∧
      (syscallFailed stackAnswer = false → w.live.length < k.mapLimit))
    ⟨fun h => ⟨h.1, h.2.1, h.2.2⟩, fun h => ⟨h.answers, h.nonnull, h.limit⟩⟩

instance (fiber threadPointer own : Addr) :
    (call : Suspension) → Decidable (call.Finds fiber threadPointer own)
  | .returned _ => inferInstanceAs (Decidable True)
  | .processExit self _ => inferInstanceAs (Decidable (self = fiber))
  | .yield | .exit _ | .await _ | .start _ _ | .join _ | .detach _ =>
    inferInstanceAs (Decidable (threadPointer = own))

instance (call : Suspension) (frame : Addr) : Decidable (call.Fits h frame) :=
  decidable_of_iff (h.stack.base.toNat ≤ frame.toNat ∧ frame.toNat + 32 ≤ h.fiber.toNat ∧
      (RequestRecord.extent call.kind ≠ 0 → h.stack.base.toNat ≤ call.argument.toNat ∧
        call.argument.toNat + RequestRecord.extent call.kind ≤ h.fiber.toNat ∧
        Separate frame 32 call.argument (RequestRecord.extent call.kind)))
    ⟨fun hf => ⟨hf.1, hf.2.1, hf.2.2⟩, fun hf => ⟨hf.low, hf.high, hf.argument⟩⟩

/-- These writes keep away from all that the reactor relies on. -/
def Image.spares (pf : Platform) (w : Image) (writes : List (Addr × Byte)) : Bool :=
  w.live.all fun g => (guarded pf.arch w.memory g (w.frames g.fiber)).all fun range =>
    writes.all fun x => decide (Outside range.1 range.2 x.1)

theorem Image.spares_iff {writes : List (Addr × Byte)} : w.spares pf writes = true ↔
    ∀ g ∈ w.live, ∀ range ∈ guarded pf.arch w.memory g (w.frames g.fiber), ∀ x ∈ writes,
    Outside range.1 range.2 x.1 := by
  simp only [Image.spares, List.all_eq_true, decide_eq_true_eq]

instance : Decidable (Proper pf w h v) :=
  decidable_of_iff (w.spares pf v.writes = true ∧
      v.suspension.Finds h.fiber v.threadPointer (get pf.arch w.memory h.fiber .threadPointer) ∧
      v.suspension.Fits h v.frame ∧ v.saved.length = contextWords pf.arch ∧
      v.saved.getD (stackPointerIndex pf.arch) 0#64 ≠ 0#64)
    ⟨fun hp => ⟨Image.spares_iff.mp hp.1, hp.2.1, hp.2.2.1, hp.2.2.2.1, hp.2.2.2.2⟩,
      fun hp => ⟨Image.spares_iff.mpr hp.stores, hp.finds, hp.fits, hp.saved, hp.stackPointer⟩⟩

def Suspension.targets : Suspension → List Addr
  | .join target | .detach target => [target]
  | _ => []

theorem Suspension.mem_targets (call : Suspension) (a : Addr) :
    a ∈ call.targets ↔ call = .join a ∨ call = .detach a := by
  cases call <;> simp [Suspension.targets, eq_comm]

/-- The fiber that takes the next turn, and the image when it is switched to. -/
def Image.ahead (pf : Platform) (w : Image) : Option (Addr × Image) := (w.dequeue pf).toOption

def Suspension.starts : Suspension → Option SpawnRequest
  | .start spawn _ => some spawn
  | _ => none

theorem Image.mem_ahead {x : Addr × Image} : x ∈ w.ahead pf ↔ w.dequeue pf = .ok x := by
  unfold Image.ahead
  cases w.dequeue pf <;> simp [Except.toOption]

instance : Decidable (Lawful pf k w v) :=
  decidable_of_iff
    ((∀ x ∈ w.ahead pf, ∀ h ∈ w.live, h.fiber = x.1 → Proper pf (x.2.switchIn pf h.fiber) h v) ∧
      (∀ spawn ∈ v.suspension.starts, w.Maps pf k spawn v.stackAnswer v.blockAnswer) ∧
      (v.suspension.targets.all fun a => w.live.any fun g => g.fiber = a) = true) <| by
    have htargets : (v.suspension.targets.all fun a => w.live.any fun g => g.fiber = a) = true ↔
        ∀ a ∈ v.suspension.targets, ∃ g ∈ w.live, g.fiber = a := by simp
    rw [htargets]
    constructor
    · rintro ⟨hproper, hmaps, htarget⟩
      refine ⟨fun h hh w₁ hd => hproper (h.fiber, w₁) (Image.mem_ahead.mpr hd) h hh rfl,
        fun spawn at' hs => ?_, fun a ha => ?_⟩
      · exact hmaps spawn (by rw [hs]; rfl)
      · exact htarget a ((v.suspension.mem_targets a).mpr ha)
    · rintro ⟨hproper, hmaps, htarget⟩
      refine ⟨fun x hx h hh he => ?_, fun spawn hs => ?_,
        fun a ha => htarget a ((v.suspension.mem_targets a).mp ha)⟩
      · obtain ⟨fiber, w₁⟩ := x
        cases he
        exact hproper h hh w₁ (Image.mem_ahead.mp hx)
      · cases hc : v.suspension with
        | start spawn' at' =>
          rw [hc] at hs
          cases hs
          exact hmaps spawn at' hc
        | _ =>
          rw [hc] at hs
          cases hs

instance (n : ℕ) (result : Long) : Decidable (Ring.Answers n result) :=
  inferInstanceAs (Decidable (_ ∨ _))

instance : (o : Occasion) → Decidable (Permitted pf k w o)
  | .launch argument stackAnswer blockAnswer =>
      inferInstanceAs (Decidable (w.Maps pf k argument stackAnswer blockAnswer))
  | .run | .tick | .post _ _ _ => inferInstanceAs (Decidable True)
  | .turn v => inferInstanceAs (Decidable (Lawful pf k w v))
  | .enter result => inferInstanceAs (Decidable (Ring.Answers w.ring.batchCount.toNat result))
  | .store _ => decidable_of_iff _ Image.spares_iff

/-! ### Rehearsals -/

def Image.permits (pf : Platform) (k : Scheduler.Kernel) (w : Image) (o : Occasion) : Bool :=
  decide (Permitted pf k w o)

/-- A process with nothing mapped is run on these occasions. -/
theorem Image.rehearse_reachable {memory : Mem} {g : Geometry} {ringMemory : Mem} {counter : U32}
    {cqes : ℕ → Cqe} {occasions : List Occasion} (h : rehearse (Image.next pf) (Image.permits pf k)
      (Image.become ⟨memory, ∅⟩ (Ring.created g ringMemory counter cqes))
      occasions = some w) : Image.Reachable pf k ∅ w := by
  refine ⟨by simp, memory, g, ringMemory, counter, cqes, rehearse_run (P := fun _ => True) ?_ trivial h⟩
  exact fun w o w' _ hp hn => ⟨⟨o, of_decide_eq_true hp, hn⟩, trivial⟩

/-! ### A program to rehearse with -/

namespace Image.Sample

def platform : Platform := ⟨.aarch64, sampleCode, some sampleLayout, 0x7ffe0000#64⟩

def image : Image :=
  Image.become ⟨fun _ => 0#8, ∅⟩ (Ring.created .small (fun _ => 0#8) 0#32 (fun _ => ⟨0#64, 0#32, 0#32⟩))

/-- The records at the top of two stacks of 64 KiB. -/
def parent : Addr := 0x10fef8#64

def child : Addr := 0x30fef8#64

def spawnRequest : SpawnRequest := ⟨0x10000#64, 0x400000#64, 0#64⟩

/-- A turn of the fiber with these mappings; its calls keep their requests at one place. -/
def visit (stack block : Addr) (writes : List (Addr × Byte)) (call : Suspension) : Occasion :=
  .turn ⟨writes, block, call, stack + 0x1000#64, List.replicate 21 stack, 0x300000#64, 0x400000#64⟩

/-- A parent starts a child, stores a byte and blocks in a join; the child awaits a
no-op. -/
def opening : List Occasion :=
  [.launch spawnRequest 0x100000#64 0x200000#64, .run, .tick,
    visit 0x100000#64 0x200000#64 [] (.start spawnRequest 0x102000#64), .tick, .tick,
    visit 0x100000#64 0x200000#64 [(0x103000#64, 1#8)] (.join child),
    visit 0x300000#64 0x400000#64 [] (.await 0x302000#64)]

/-- The operation completes with 7, the child ends with 5, the parent with 0. -/
def closing : List Occasion :=
  [.tick, .enter 1#64, .post 0 7#32 0#32, .store [(0x103000#64, 2#8)], .tick, .tick, .tick,
    visit 0x300000#64 0x400000#64 [] (.exit 5#32), .tick, .tick,
    visit 0x100000#64 0x200000#64 [] (.returned 0#32), .tick, .tick]

def after (occasions : List Occasion) : Image :=
  (rehearse (Image.next platform)
    (Image.permits platform Scheduler.Sample.kernel) image occasions).getD image

theorem reachable {occasions : List Occasion}
    (h : (rehearse (Image.next platform)
      (Image.permits platform Scheduler.Sample.kernel) image occasions).isSome = true) :
    Image.Reachable platform Scheduler.Sample.kernel ∅ (after occasions) := by
  obtain ⟨w, hw⟩ := Option.isSome_iff_exists.mp h
  rw [after, hw]
  exact Image.rehearse_reachable hw

theorem reachable_opening : Image.Reachable platform Scheduler.Sample.kernel ∅ (after opening) :=
  reachable (by decide +kernel)

/-- The parent has started the child, and both are ready. -/
theorem reachable_started :
    Image.Reachable platform Scheduler.Sample.kernel ∅ (after (opening.take 4)) :=
  reachable (by decide +kernel)

theorem reachable_closing :
    Image.Reachable platform Scheduler.Sample.kernel ∅ (after (opening ++ closing)) :=
  reachable (by decide +kernel)

theorem control_closing : (after (opening ++ closing)).control = .drained :=
  Scheduler.Control.eq_of_same (by decide +kernel)

end Image.Sample

end Libuc
