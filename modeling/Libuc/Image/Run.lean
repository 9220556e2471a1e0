import Libuc.Image.Serve
import Libuc.Scheduler.Simulation
import Libuc.Lib.Runs

/-! Whole runs of the process. Under the contract of fibers and kernel each step of the
image is a step of the scheduler, or none: the bytes of every process that is reached
stand for a state that the scheduler reaches. -/

namespace Libuc

open Lib ThreadLocal FiberRecord

variable {pf : Platform} {initial : Finset Mapping} {k : Scheduler.Kernel} {w w' : Image}
  {s s' : Scheduler.State} {h : Holding} {fb : Fiber} {a r : Addr} {v : Visit} {turns : U32}

/-! ### A turn -/

/-- What a creation returns does not depend on what is in memory. -/
theorem blockCreate_fst (arch : Arch) (layout : Option Layout) (result : Long) (p p' : Process) :
    (blockCreate arch layout result p).1 = (blockCreate arch layout result p').1 := by
  cases layout with
  | none => rfl
  | some l =>
    cases hp : plan arch l with
    | none => simp only [blockCreate, hp]
    | some pl =>
      simp only [blockCreate, hp]
      split_ifs
      · rfl
      · cases ckdAdd result (pl.baseAlignment - 1#64) <;> rfl

theorem fiberSpawn_fst (arch : Arch) (code : Code) (layout : Option Layout) (stackLength : BitVec 64)
    (entry argument : Addr) (stackAnswer blockAnswer : Long) (p p' : Process) :
    (fiberSpawn arch code layout stackLength entry argument stackAnswer blockAnswer p).1 =
      (fiberSpawn arch code layout stackLength entry argument stackAnswer blockAnswer p').1 := by
  unfold fiberSpawn
  split_ifs
  · rfl
  · rfl
  · extract_lets q top fiber q₁ q' q₁'
    have hfst := blockCreate_fst arch layout blockAnswer q₁ q₁'
    generalize blockCreate arch layout blockAnswer q₁ = made at hfst ⊢
    generalize blockCreate arch layout blockAnswer q₁' = made' at hfst ⊢
    obtain ⟨block, q₂⟩ := made
    obtain ⟨block', q₂'⟩ := made'
    change block = block' at hfst
    subst hfst
    cases block <;> rfl

def Image.turn (pf : Platform) (w : Image) (v : Visit) : Scheduler.Turn where
  call := match w.dequeue pf with
    | .ok (fiber, w₁) => v.suspension.call (storeBytes (w₁.switchIn pf fiber).memory v.writes)
    | .error _ => .yield
  frame := v.frame
  spawned := match v.suspension with
    | .start spawn _ => (w.spawn pf spawn v.stackAnswer v.blockAnswer).1
    | _ => none
  unmapped := true

/-- A turn as the runtime may expect it: the fiber keeps to its own, the kernel answers
a creation, and a handle that is joined or detached is of a fiber that has not been
destroyed. -/
structure Lawful (pf : Platform) (k : Scheduler.Kernel) (w : Image) (v : Visit) : Prop where
  proper : ∀ h ∈ w.live, ∀ w₁, w.dequeue pf = .ok (h.fiber, w₁) → Proper pf (w₁.switchIn pf h.fiber) h v
  maps : ∀ spawn at', v.suspension = .start spawn at' → w.Maps pf k spawn v.stackAnswer v.blockAnswer
  target : ∀ a, v.suspension = .join a ∨ v.suspension = .detach a → ∃ g ∈ w.live, g.fiber = a

/-- A join or a detach is made through its own call. -/
theorem Visit.targets (v : Visit) {u : Addr} (h : (w.turn pf v).call = .join u ∨
    (w.turn pf v).call = .detach u) :
    v.suspension = .join u ∨ v.suspension = .detach u := by
  unfold Image.turn at h
  generalize w.dequeue pf = dequeued at h
  cases dequeued with
  | error e => simp at h
  | ok x => cases hs : v.suspension <;> simp [hs, Suspension.call] at h ⊢ <;> exact h

theorem Image.Maps.congr {argument : SpawnRequest} {stackAnswer blockAnswer : Long}
    (hk : w.Maps pf k argument stackAnswer blockAnswer) (hm : w'.process.mappings = w.process.mappings)
    (hl : w'.live = w.live) : w'.Maps pf k argument stackAnswer blockAnswer := by
  obtain ⟨⟨hstack, hblock⟩, hnonnull, hlimit⟩ := hk
  have hmmap : (w'.process.mmap argument.stackLength stackAnswer).mappings =
      (w.process.mmap argument.stackLength stackAnswer).mappings := by
    unfold Process.mmap
    split_ifs
    · exact hm
    · exact congrArg (insert _) hm
  refine ⟨⟨?_, fun l pl hpl hp => ?_⟩, hnonnull, by rwa [hl]⟩
  · unfold Process.Answers at hstack ⊢
    rwa [hm]
  · have hanswer := hblock l pl hpl hp
    unfold Process.Answers at hanswer ⊢
    rwa [hmmap]

theorem Image.dequeue_live {fiber : Addr} (h : w.dequeue pf = .ok (fiber, w')) :
    w'.live = w.live ∧ w'.process.mappings = w.process.mappings := by
  simp only [Image.dequeue] at h
  split_ifs at h
  · cases h
    exact ⟨rfl, rfl⟩
  · cases h
    exact ⟨rfl, rfl⟩

theorem Image.dequeue_of_head (h : w.readyHead ≠ 0#64) :
    ∃ w₁, w.dequeue pf = .ok (w.readyHead, w₁) := by
  unfold Image.dequeue
  exact ⟨_, if_neg h⟩

/-- One round of the sweep. -/
theorem Represents.dispatch (hr : Represents pf initial w s) (hv : Lawful pf k w v) (turns : U32) :
    Tracks pf initial (w.dispatch pf turns v) (s.dispatch turns (w.turn pf v)) := by
  unfold Image.dispatch Scheduler.State.dispatch
  have hdequeue := hr.dequeue
  cases hd : w.dequeue pf with
  | error e =>
    rw [hd] at hdequeue
    exact hdequeue.stop rfl
  | ok x =>
    obtain ⟨fiber, w₁⟩ := x
    rw [hd] at hdequeue
    refine hdequeue.next fun y _ hy => ?_
    obtain ⟨fiber', s₁⟩ := y
    obtain ⟨he, -, h₁⟩ := hy
    cases he
    obtain ⟨hlive, hmappings⟩ := Image.dequeue_live hd
    have hcall : (w.turn pf v).call =
        v.suspension.call (storeBytes (w₁.switchIn pf fiber).memory v.writes) := by
      simp only [Image.turn, hd]
    simp only [hcall, show (w.turn pf v).frame = v.frame from rfl]
    cases hf : s₁.fibers fiber with
    | none =>
      have hfault : ∀ call, s₁.resume fiber call v.frame = .error .fault := by
        intro call
        simp [Scheduler.State.resume, Scheduler.State.fiber, hf, bind, Except.bind]
      rw [hfault]
      exact .excuse rfl
    | some fb =>
      obtain ⟨h, hh, rfl, -⟩ := h₁.seat hf
      have hproper := hv.proper h (by rwa [← hlive]) w₁ hd
      refine (h₁.resume hh hproper).bind fun w₂ s₂ h₂ => ?_
      obtain ⟨hr₂, hlive₂, hmappings₂, hq₂⟩ := h₂
      refine hr₂.serve (k := k) turns h.fiber rfl rfl fun q argument hq hask => ?_
      rw [hq₂] at hq
      cases hq
      obtain ⟨at', hstart⟩ : ∃ at', v.suspension = .start argument at' := by
        cases hs : v.suspension <;> rw [hs] at hask <;> simp [Suspension.call, Call.ask] at hask
        exact ⟨_, by rw [hask]⟩
      refine ⟨(hv.maps argument at' hstart).congr (hmappings₂.trans hmappings) (hlive₂.trans hlive), ?_⟩
      simp only [Image.turn, hstart]
      exact fiberSpawn_fst _ _ _ _ _ _ _ _ _ _

/-! ### The loop -/

theorem Represents.testLoop (hr : Represents pf initial w s) :
    Represents pf initial w.testLoop s.testLoop := by
  have hsum : w.parkedCount + w.readyCount = s.parkedCount + s.readyCount := by
    rw [hr.parkedCount, hr.readyCount]
  have hjoining := hr.joiningCount
  unfold Image.testLoop Scheduler.State.testLoop
  by_cases hz : s.parkedCount + s.readyCount ≠ 0#32
  · rw [if_pos hz, if_pos (by rwa [hsum])]
    exact { hr with control := congrArg Scheduler.Control.sweep hr.readyCount }
  rw [if_neg hz, if_neg (by rwa [hsum])]
  by_cases hj : s.joiningCount ≠ 0#32
  · rw [if_pos hj, if_pos (by rwa [hjoining])]
    exact hr.setControl _
  · rw [if_neg hj, if_neg (by rwa [hjoining])]
    exact hr.setControl _

theorem Represents.boundary (hr : Represents pf initial w s) :
    Represents pf initial w.boundary s.boundary := by
  have hparked := hr.parkedCount
  have hready := hr.readyCount
  unfold Image.boundary Scheduler.State.boundary
  by_cases hp : s.parkedCount = 0#32
  · rw [if_pos hp, if_pos (by rwa [hparked])]
    exact hr.setControl _
  · rw [if_neg hp, if_neg (by rwa [hparked])]
    exact { hr with control := congrArg (fun n => Scheduler.Control.submit (if n = 0#32 then 1#32 else 0#32)) hready }

theorem Represents.setRing (hr : Represents pf initial w s) (ring : Ring) :
    Represents pf initial { w with ring := ring } { s with ring := ring } :=
  { hr with ring := rfl }

/-- One round of the reap loop. -/
theorem Represents.reapOne (hr : Represents pf initial w s) :
    Tracks pf initial (w.reapOne pf) s.reapOne := by
  unfold Image.reapOne Scheduler.State.reapOne
  rw [hr.ring]
  rcases s.ring.reap with ⟨completion, ring⟩
  cases completion with
  | none => exact .ok ((hr.setRing ring).setControl .test)
  | some completion =>
    refine .ite Iff.rfl (fun _ => .error _) fun _ => ?_
    extract_lets w₁ answered w₂ woken w₃ s₁
    have h₁ : Represents pf initial w₁ s₁ := hr.setRing ring
    refine (h₁.setResult completion.userData (toLong completion.res)).next fun s₂ _ h₂ => ?_
    change Represents pf initial w₂ s₂ at h₂
    refine follows_request fun q hq => ?_
    rw [(h₂.shows_request hq).fiber]
    have h₃ : Represents pf initial w₃ { s₂ with parkedCount := s₂.parkedCount - 1#32 } :=
      { h₂ with parkedCount := congrArg (· - 1#32) h₂.parkedCount }
    exact (h₃.record (.reap completion)).enqueue woken

theorem Represents.take (hr : Represents pf initial w s) (minComplete : U32) (result : Long) :
    Represents pf initial (w.take minComplete result) (s.take minComplete result) := by
  unfold Image.take Scheduler.State.take
  extract_lets call call'
  have hcall : call = call' := congrArg (fun ring : Ring => ring.enter minComplete result) hr.ring
  rw [hcall]
  have htaken : Represents pf initial
      { w with
        held := w.held ++ Scheduler.State.numbered w.taken call'.taken
        taken := w.taken + call'.taken.length }
      { s with
        held := s.held ++ Scheduler.State.numbered s.taken call'.taken
        taken := s.taken + call'.taken.length } :=
    { hr with
      operations := by rw [hr.operations, hr.taken]
      taken := by rw [hr.taken] }
  exact htaken.record _

theorem Represents.complete (hr : Represents pf initial w s) (number : ℕ) (res : CInt) (flags : U32)
    (hw : w.complete number res flags = some w') :
    ∃ s', s.complete number res flags = some s' ∧ Represents pf initial w' s' := by
  have hheld := hr.operations
  unfold Image.complete at hw
  unfold Scheduler.State.complete
  cases hfind : w.held.find? (fun op => op.number = number) with
  | none =>
    rw [hfind] at hw
    cases hw
  | some op =>
    rw [hfind] at hw
    cases hw
    rw [hheld] at hfind
    rw [hfind]
    refine ⟨_, rfl, ?_⟩
    have hposted : Represents pf initial
        { w with
          held := w.held.eraseP (fun op => op.number = number)
          ring := w.ring.post ⟨op.sqe.userData, res, flags⟩ }
        { s with
          held := s.held.eraseP (fun op => op.number = number)
          ring := s.ring.post ⟨op.sqe.userData, res, flags⟩ } :=
      { hr with
        operations := congrArg (List.eraseP (fun op : Scheduler.Operation => op.number = number)) hheld
        ring := congrArg (fun ring : Ring => ring.post _) hr.ring }
    exact hposted.record _

/-! ### Steps -/

/-- What fibers and kernel may do next. The kernel may store into memory at any time, but
not into what the runtime keeps. -/
def Permitted (pf : Platform) (k : Scheduler.Kernel) (w : Image) : Occasion → Prop
  | .launch argument stackAnswer blockAnswer => w.Maps pf k argument stackAnswer blockAnswer
  | .run => True
  | .tick => True
  | .turn v => Lawful pf k w v
  | .enter result => Ring.Answers w.ring.batchCount.toNat result
  | .post _ _ _ => True
  | .store writes =>
    ∀ g ∈ w.live, ∀ range ∈ guarded pf.arch w.memory g (w.frames g.fiber), ∀ x ∈ writes,
      Outside range.1 range.2 x.1

/-- The scheduler's input in a step of the process, if it takes one: not when a launch is
refused, nor when the kernel stores. -/
def Occasion.input (pf : Platform) (w : Image) : Occasion → Option Scheduler.Input
  | .launch argument stackAnswer blockAnswer =>
    (w.spawn pf argument stackAnswer blockAnswer).1.map fun fiber => .launch fiber argument
  | .run => some .run
  | .tick => some .tick
  | .turn v => some (.turn (w.turn pf v))
  | .enter result => some (.enter result)
  | .post number res flags => some (.post number res flags)
  | .store _ => none

theorem Tracks.settle {x : Except Scheduler.Stop Image} {y : Except Scheduler.Stop Scheduler.State}
    (h : Tracks pf initial x y)
    (hr : Represents pf initial w s) (hy : (s.settle y).control ≠ .stopped .fault) :
    Represents pf initial (w.settle x) (s.settle y) := by
  cases y with
  | ok s' =>
    obtain ⟨w', rfl, hw'⟩ := h.1 s' rfl
    exact hw'
  | error stop =>
    rcases h.2 stop rfl with hstop | rfl
    · exact absurd (congrArg Scheduler.Control.stopped hstop) hy
    · exact hr.setControl _

/-- A step that does not concern the scheduler. -/
theorem Represents.silent {o : Occasion} (hr : Represents pf initial w s) (hp : Permitted pf k w o)
    (hn : w.next pf o = some w') (hi : o.input pf w = none) : Represents pf initial w' s := by
  cases o with
  | launch argument stackAnswer blockAnswer =>
    simp only [Occasion.input, Option.map_eq_none_iff] at hi
    simp only [Image.next, hi, Option.elim_none] at hn
    split_ifs at hn
    cases hn
    have hspawn := (hr.spawn hp).1
    rw [hi] at hspawn
    exact hspawn
  | store writes =>
    cases hn
    exact { hr with seats := hr.seats.store hp }
  | _ => cases hi

/-- A step of the process is a step of the scheduler, as long as the latter follows no
pointer to nothing. -/
theorem Represents.step {o : Occasion} {i : Scheduler.Input} (hr : Represents pf initial w s)
    (hp : Permitted pf k w o) (hn : w.next pf o = some w') (hi : o.input pf w = some i) :
    ∃ s', Scheduler.step s i = some s' ∧
    (s'.control ≠ .stopped .fault → Represents pf initial w' s') := by
  have hcontrol := hr.control
  cases o with
  | launch argument stackAnswer blockAnswer =>
    simp only [Occasion.input, Option.map_eq_some_iff] at hi
    obtain ⟨fiber, hfiber, rfl⟩ := hi
    simp only [Image.next, hfiber, Option.elim_some] at hn
    split_ifs at hn with hready
    cases hn
    rw [hcontrol] at hready
    refine ⟨_, by rw [Scheduler.step, if_pos hready], fun hc => ?_⟩
    have hspawn := (hr.spawn hp).1
    rw [hfiber] at hspawn
    exact (((hspawn.setControl .idle).record (.launch fiber)).enqueue fiber).settle hr hc
  | run =>
    cases hi
    simp only [Image.next] at hn
    split_ifs at hn with hready
    cases hn
    rw [hcontrol] at hready
    exact ⟨_, by rw [Scheduler.step, if_pos hready], fun _ => hr.setControl .test⟩
  | tick =>
    cases hi
    simp only [Image.next] at hn
    cases hc : w.control with
    | test =>
      rw [hc] at hn
      cases hn
      exact ⟨s.testLoop, by simp only [Scheduler.step, ← hcontrol, hc], fun _ => hr.testLoop⟩
    | sweep turns =>
      simp only [hc] at hn
      split_ifs at hn with hz
      cases hn
      exact ⟨s.boundary, by simp only [Scheduler.step, ← hcontrol, hc, hz, if_true],
        fun _ => hr.boundary⟩
    | reap =>
      rw [hc] at hn
      cases hn
      exact ⟨s.settle s.reapOne, by simp only [Scheduler.step, ← hcontrol, hc],
        fun hf => hr.reapOne.settle hr hf⟩
    | _ =>
      rw [hc] at hn
      cases hn
  | turn v =>
    cases hi
    simp only [Image.next] at hn
    cases hc : w.control with
    | sweep turns =>
      simp only [hc] at hn
      split_ifs at hn with hz
      cases hn
      refine ⟨s.settle (s.dispatch turns (w.turn pf v)), ?_,
        fun hf => (hr.dispatch hp turns).settle hr hf⟩
      simp only [Scheduler.step, ← hcontrol, hc, hz, if_false]
    | _ =>
      rw [hc] at hn
      cases hn
  | enter result =>
    cases hi
    have hpass : w.ring.submitPass result = s.ring.submitPass result :=
      congrArg (fun ring : Ring => ring.submitPass result) hr.ring
    simp only [Image.next, hpass] at hn
    cases hc : w.control with
    | flush turns fiber request =>
      simp only [hc] at hn
      have htake := hr.take 0#32 result
      cases hs : s.ring.submitPass result with
      | again ring =>
        rw [hs] at hn
        cases hn
        exact ⟨_, by simp only [Scheduler.step, ← hcontrol, hc, hs], fun _ => htake.setRing ring⟩
      | done value ring =>
        rw [hs] at hn
        cases hn
        exact ⟨_, by simp only [Scheduler.step, ← hcontrol, hc, hs],
          fun hf => ((htake.setRing ring).parkFlushed turns fiber request value).settle hr hf⟩
    | submit minComplete =>
      simp only [hc] at hn
      have htake := hr.take minComplete result
      cases hs : s.ring.submitPass result with
      | again ring =>
        rw [hs] at hn
        cases hn
        exact ⟨_, by simp only [Scheduler.step, ← hcontrol, hc, hs], fun _ => htake.setRing ring⟩
      | done value ring =>
        rw [hs] at hn
        cases hn
        refine ⟨s.settle (if syscallFailed value then .error (.trap .submitFailed)
          else .ok { s.take minComplete result with ring := ring, control := .reap }),
          by simp only [Scheduler.step, ← hcontrol, hc, hs], fun hf => ?_⟩
        exact Tracks.settle (.ite Iff.rfl (fun _ => .error _) fun _ =>
          .ok ((htake.setRing ring).setControl .reap)) hr hf
    | _ =>
      rw [hc] at hn
      cases hn
  | post number res flags =>
    cases hi
    simp only [Image.next] at hn
    split_ifs at hn with hrunning
    rw [hcontrol] at hrunning
    obtain ⟨s', hs', hw'⟩ := hr.complete number res flags hn
    exact ⟨s', by rw [Scheduler.step, if_pos hrunning, hs'], fun _ => hw'⟩
  | store writes => cases hi

/-! ### Runs -/

/-- The deaths left to a process that keeps the contract: no pointer is followed to
nothing, and every mapping can be given back. -/
def Scheduler.Control.clean : Control → Bool
  | .stopped .fault => false
  | .stopped (.trap .exitDetached) | .stopped (.trap .exitJoined) => false
  | .stopped (.trap .joinReclaim) | .stopped (.trap .detachReclaim) => false
  | _ => true

theorem Scheduler.Control.ne_fault_of_clean {c : Control} (h : c.clean = true) :
    c ≠ .stopped .fault := by
  rintro rfl
  cases h

/-- Only a join or a detach of a fiber that is gone follows a pointer to nothing. -/
theorem Scheduler.Good.clean {i : Input} (hg : Good k s) (allowed : Allowed k s i)
    (hs : Scheduler.step s i = some s') (hunmapped : ∀ x, i = .turn x → x.unmapped = true)
    (htarget : ∀ x u, i = .turn x → x.call = .join u ∨ x.call = .detach u → s.fibers u ≠ none)
    (hc : s.control.clean = true) : s'.control.clean = true := by
  have hmapped : ∀ u, s.fibers u ≠ none → (replay s.log).tasks u ≠ none :=
    fun u hu ht => hu ((hg.refines.memory.mapped u).mpr ht)
  cases hg.stepped allowed hs with
  | turn input c hturns head task allowed served =>
    obtain ⟨es, -, -, hends⟩ | ⟨_, _, _, _, _, _, hends⟩ | ⟨_, _, hends⟩ :=
      served.ok_cases hg.refines.inv task
    all_goals
      rw [hends.control]
      rfl
  | turnDies input c hturns head task allowed served ends =>
    rw [ends.control]
    have hun := hunmapped _ input
    cases served with
    | joinFault call hne hu => exact absurd hu (hmapped _ (htarget _ _ input (.inl call)))
    | detachFault call hu => exact absurd hu (hmapped _ (htarget _ _ input (.inr call)))
    | exitDetachedTrap call hd hu =>
      rw [hun] at hu
      cases hu
    | exitJoinedTrap call hd hj hu =>
      rw [hun] at hu
      cases hu
    | joinZombieTrap call hne ht hz hu =>
      rw [hun] at hu
      cases hu
    | detachZombieTrap call hne ht hz hu =>
      rw [hun] at hu
      cases hu
    | parkRefused call h => rfl
    | joinRefused call h => rfl
    | detachRefused call h => rfl
  | flushDies input c h ends =>
    rw [ends.control]
    rcases h with ⟨rfl, -⟩ | ⟨rfl, -⟩ <;> rfl
  | post input c fibers geometry ends =>
    rw [ends.control]
    exact hc
  | _ =>
    rename_i ends
    rw [ends.control]
    rfl

/-- The fiber at the head of the ready list takes its turn. -/
theorem Represents.dequeued (hr : Represents pf initial w s) (hg : Scheduler.Good k s)
    (hc : s.control = .sweep turns) (hz : turns ≠ 0#32) :
    ∃ h ∈ w.live, s.readyHead = some h.fiber ∧ ∃ w₁, w.dequeue pf = .ok (h.fiber, w₁) := by
  have hstand := hg.standing
  rw [hc] at hstand
  have hpos : 0 < turns.toNat := Nat.pos_of_ne_zero fun h0 => hz (eq_zero_iff_toNat.mpr h0)
  obtain ⟨f, rest, hready⟩ := List.exists_cons_of_length_pos (lt_of_lt_of_le hpos hstand.2)
  have hhead : s.readyHead = some f := by
    rw [hg.refines.queue.linked.head_eq, hready]
    rfl
  obtain ⟨t, ht⟩ := hg.refines.inv.mapped f (by simp [Scheduler.Board.placed, hready])
  obtain ⟨fb, hf⟩ := hg.refines.memory.exists_fiber ht
  obtain ⟨h, hh, rfl, hs⟩ := hr.seat hf
  have hword : w.readyHead = h.fiber := by
    have hpoints := hr.head
    rw [hhead] at hpoints
    exact hpoints.of_some
  have hne : w.readyHead ≠ 0#64 := by
    rw [hword]
    exact hs.fiber_ne_zero
  obtain ⟨w₁, hd⟩ : ∃ w₁, w.dequeue pf = .ok (w.readyHead, w₁) := Image.dequeue_of_head hne
  rw [hword] at hd
  exact ⟨h, hh, hhead, w₁, hd⟩

/-- The contract of the process is that of the scheduler. -/
theorem Represents.allowed {o : Occasion} {i : Scheduler.Input} (hr : Represents pf initial w s)
    (hg : Scheduler.Good k s)
    (hp : Permitted pf k w o) (hn : w.next pf o = some w') (hi : o.input pf w = some i) :
    Scheduler.Allowed k s i := by
  cases o with
  | launch argument stackAnswer blockAnswer =>
    simp only [Occasion.input, Option.map_eq_some_iff] at hi
    obtain ⟨fiber, hfiber, rfl⟩ := hi
    exact (hr.spawn hp).2 fiber hfiber
  | turn v =>
    cases hi
    have hcontrol := hr.control
    cases hc : w.control with
    | sweep turns =>
      simp only [Image.next, hc] at hn
      split_ifs at hn with hz
      rw [hcontrol] at hc
      obtain ⟨h, hh, hhead, w₁, hd⟩ := hr.dequeued hg hc hz
      have hfits := (hp.proper h hh w₁ hd).fits
      refine ⟨fun q hq => ?_, fun a ha => ?_, fun _ => rfl⟩
      · obtain ⟨b, fb, hqb, hf, hframe⟩ := hr.seats.owner v.frame q hq
        obtain ⟨g, hgl, rfl, hs⟩ := hr.seat hf
        obtain ⟨-, -, -, -, hlodged⟩ := hs.request v.frame hframe
        obtain ⟨fh, -, hseated⟩ := hr.seats.seated h hh
        by_cases hgh : g = h
        · rw [hqb, hhead, hgh]
        · have hapart := hr.owns.separate hgl hh hgh (x := g.stack) (y := h.stack) (by simp) (by simp)
          have h₁ := hlodged.low
          have h₂ := hlodged.high
          have h₃ := hfits.low
          have h₄ := hfits.high
          have h₅ := hs.inside.2
          have h₆ := hseated.inside.2
          rcases hapart with hapart | hapart <;> omega
      · simp only [Image.turn] at ha
        cases hv : v.suspension with
        | start spawn at' =>
          rw [hv] at ha
          exact (hr.spawn (hp.maps spawn at' hv)).2 a ha
        | _ =>
          rw [hv] at ha
          cases ha
    | _ =>
      simp only [Image.next, hc] at hn
      cases hn
  | enter result =>
    cases hi
    have hanswers : Ring.Answers w.ring.batchCount.toNat result := hp
    rw [hr.ring] at hanswers
    exact hanswers
  | run => cases hi; trivial
  | tick => cases hi; trivial
  | post number res flags => cases hi; trivial
  | store writes => cases hi

/-- A process about to run, its reactor just made on a ring that has been created. -/
def Image.become (p : Process) (ring : Ring) : Image where
  process := p
  ring := ring
  readyHead := 0#64
  readyTail := 0#64
  readyCount := 0#32
  parkedCount := 0#32
  joiningCount := 0#32
  frames := fun _ => none
  live := []
  held := []
  taken := 0
  control := .idle
  log := []

def Image.Step (pf : Platform) (k : Scheduler.Kernel) (w w' : Image) : Prop :=
  ∃ o, Permitted pf k w o ∧ w.next pf o = some w'

structure Image.Reachable (pf : Platform) (k : Scheduler.Kernel) (initial : Finset Mapping)
    (w : Image) : Prop where
  apart : ∀ m ∈ initial, ∀ m' ∈ initial, m ≠ m' → Separate m.base m.length.toNat m'.base m'.length.toNat
  run : ∃ (memory : Mem) (g : Geometry) (ringMemory : Mem) (counter : U32) (cqes : ℕ → Cqe),
    Relation.ReflTransGen (Image.Step pf k)
      (Image.become ⟨memory, initial⟩ (Ring.created g ringMemory counter cqes)) w

/-- What the bytes of a process stand for. -/
structure Embodies (pf : Platform) (k : Scheduler.Kernel) (initial : Finset Mapping) (w : Image)
    (s : Scheduler.State) : Prop where
  represents : Represents pf initial w s
  reachable : Scheduler.Reachable k s
  clean : s.control.clean = true

theorem Represents.become {memory : Mem} (hapart : ∀ m ∈ initial, ∀ m' ∈ initial, m ≠ m' →
    Separate m.base m.length.toNat m'.base m'.length.toNat) (ring : Ring) :
    Represents pf initial (Image.become ⟨memory, initial⟩ ring) (Scheduler.become ring) where
  ring := rfl
  head := points_none
  tail := points_none
  readyCount := rfl
  parkedCount := rfl
  joiningCount := rfl
  operations := rfl
  taken := rfl
  control := rfl
  log := rfl
  owns := ⟨by simp [Image.become, held], by simp [Image.become, held],
    by simp [Image.become, held], hapart⟩
  seats := ⟨by simp [Scheduler.become], by simp [Scheduler.become], by simp [Image.become],
    by simp [Scheduler.become]⟩

/-- One step: the scheduler takes it, or stays. -/
theorem Embodies.next (hst : Embodies pf k initial w s) (hw : Image.Step pf k w w') :
    ∃ s', (s' = s ∨ Scheduler.Step k s s') ∧ Embodies pf k initial w' s' := by
  obtain ⟨o, hp, hn⟩ := hw
  obtain ⟨hr, hreach, hclean⟩ := hst
  cases hi : o.input pf w with
  | none => exact ⟨s, .inl rfl, hr.silent hp hn hi, hreach, hclean⟩
  | some i =>
    have hg := hreach.good
    have hallowed := hr.allowed hg hp hn hi
    obtain ⟨s', hs', hw'⟩ := hr.step hp hn hi
    have hturn : ∀ x, i = .turn x → ∃ v, o = .turn v ∧ x = w.turn pf v := by
      rintro x rfl
      cases o with
      | turn v =>
        cases hi
        exact ⟨v, rfl, rfl⟩
      | launch argument stackAnswer blockAnswer =>
        simp only [Occasion.input, Option.map_eq_some_iff] at hi
        obtain ⟨fiber, -, hx⟩ := hi
        cases hx
      | _ => cases hi
    have hclean' : s'.control.clean = true := by
      refine hg.clean hallowed hs' (fun x hx => ?_) (fun x u hx hcall hnone => ?_) hclean
      · obtain ⟨v, -, rfl⟩ := hturn x hx
        rfl
      · obtain ⟨v, rfl, rfl⟩ := hturn x hx
        obtain ⟨g, hgl, rfl⟩ := hp.target u (v.targets hcall)
        obtain ⟨fg, hfg, -⟩ := hr.seats.seated g hgl
        rw [hnone] at hfg
        cases hfg
    exact ⟨s', .inr ⟨i, hallowed, hs'⟩, hw' (Scheduler.Control.ne_fault_of_clean hclean'),
      hreach.tail ⟨i, hallowed, hs'⟩, hclean'⟩

/-- Every process that is reached stands for a state that the scheduler reaches. -/
theorem Image.Reachable.embodied (h : Image.Reachable pf k initial w) :
    ∃ s, Embodies pf k initial w s := by
  obtain ⟨hapart, memory, g, ringMemory, counter, cqes, hrun⟩ := h
  refine keeps_run (P := fun w => ∃ s, Embodies pf k initial w s) ?_
    ⟨_, Represents.become hapart _, ⟨g, ringMemory, counter, cqes, .refl⟩, rfl⟩ hrun
  rintro w w' ⟨s, hst⟩ hw
  obtain ⟨s', -, hst'⟩ := hst.next hw
  exact ⟨s', hst'⟩

end Libuc
