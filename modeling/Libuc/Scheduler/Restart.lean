import Libuc.Scheduler.Basic

/-! Nothing reads the log, and the numbers of operations only tell them apart: a
run with a past does what it would do without one. This is what makes a drained
scheduler as good as a new one. -/

namespace Libuc.Scheduler

/-- The event when `n` SQEs had been taken before. -/
def Event.later (n : ℕ) : Event → Event
  | .post number cqe => .post (n + number) cqe
  | e => e

/-- The operation when `n` SQEs had been taken before. -/
def Operation.later (n : ℕ) (op : Operation) : Operation := { op with number := n + op.number }

/-- The input when `n` SQEs had been taken before. -/
def Input.later (n : ℕ) : Input → Input
  | .post number res flags => .post (n + number) res flags
  | i => i

theorem bind_map_congr {ε α β γ δ : Type} {x : Except ε α} {y : Except ε β} {p : α → β} {q : γ → δ}
    {g : α → Except ε γ} {g' : β → Except ε δ} (hx : y = x.map p) (hg : ∀ a, g' (p a) = (g a).map q) :
    (y >>= g') = (x >>= g).map q := by
  subst hx
  cases x with
  | error e => rfl
  | ok a => exact hg a

namespace State

variable {past : List Event} {n : ℕ} {s : State}

/-- The same state with a past in which `n` SQEs were taken. -/
def later (past : List Event) (n : ℕ) (s : State) : State :=
  { s with
    held := s.held.map (Operation.later n)
    taken := n + s.taken
    log := past ++ s.log.map (Event.later n) }

theorem record_later (s : State) (e : Event) :
    (s.later past n).record (e.later n) = (s.record e).later past n := by
  simp [record, later]

theorem fiber_later (a : Addr) : (s.later past n).fiber a = (s.fiber a).map id := by
  show s.fiber a = _
  cases s.fiber a <;> rfl

theorem request_later (r : Addr) : (s.later past n).request r = (s.request r).map id := by
  show s.request r = _
  cases s.request r <;> rfl

theorem modifyFiber_later (a : Addr) (g : Fiber → Fiber) :
    (s.later past n).modifyFiber a g = (s.modifyFiber a g).map (later past n) :=
  bind_map_congr (fiber_later a) fun _ => rfl

theorem setResult_later (r : Addr) (v : Long) :
    (s.later past n).setResult r v = (s.setResult r v).map (later past n) :=
  bind_map_congr (request_later r) fun _ => rfl

theorem enqueue_later (f : Addr) : (s.later past n).enqueue f = (s.enqueue f).map (later past n) := by
  refine bind_map_congr
    (modifyFiber_later (s := { s with readyCount := s.readyCount + 1#32 }) f _) fun s => ?_
  have htail : (s.later past n).readyTail = s.readyTail := rfl
  simp only [htail]
  cases s.readyTail with
  | none =>
    exact congrArg Except.ok
      (record_later { s with readyHead := some f, readyTail := some f } (.enqueue f))
  | some tail =>
    refine bind_map_congr (modifyFiber_later tail _) fun s => ?_
    exact congrArg Except.ok (record_later { s with readyTail := some f } (.enqueue f))

theorem dequeue_later :
    (s.later past n).dequeue = s.dequeue.map (fun p => (p.1, p.2.later past n)) := by
  have hhead : (s.later past n).readyHead = s.readyHead := rfl
  simp only [dequeue, hhead]
  cases s.readyHead with
  | none => rfl
  | some f =>
    refine bind_map_congr (fiber_later f) fun fb => ?_
    refine bind_map_congr (p := later past n) ?_ fun s => rfl
    by_cases hz : fb.readyNext = none
    · simp only [id, hz, if_true]
      exact modifyFiber_later (s := { s with
        readyHead := none, readyTail := none, readyCount := s.readyCount - 1#32 }) f _
    · simp only [id, hz, if_false]
      exact modifyFiber_later (s := { s with
        readyHead := fb.readyNext, readyCount := s.readyCount - 1#32 }) f _

theorem resume_later (f : Addr) (call : Call) (frame : Addr) :
    (s.later past n).resume f call frame = (s.resume f call frame).map (later past n) := by
  refine bind_map_congr (fiber_later f) fun fb => ?_
  simp only [id]
  split_ifs with hz
  · rfl
  · exact congrArg Except.ok (record_later { s with
      fibers := Function.update s.fibers f (some (fb.suspend call frame))
      requests := Function.update (dropFrame s.requests fb.frame) frame
        (some { ask := call.ask, result := 0#64, fiber := some f }) }
      (.resume f ((fb.frame.bind s.requests).bind Request.answer) call))

theorem destroy_later (f : Addr) (unmapped : Bool) :
    (s.later past n).destroy f unmapped =
      (s.destroy f unmapped).map (fun p => (p.1, p.2.later past n)) := by
  refine bind_map_congr (fiber_later f) fun fb => ?_
  cases unmapped with
  | false => rfl
  | true =>
    refine congrArg (fun s => Except.ok (true, s)) (record_later { s with
      fibers := Function.update s.fibers f none, requests := dropFrame s.requests fb.frame }
        (.destroy f))

theorem reclaim_later (f : Addr) (unmapped : Bool) (site : Trap) :
    (s.later past n).reclaim f unmapped site = (s.reclaim f unmapped site).map (later past n) := by
  refine bind_map_congr (destroy_later f unmapped) fun p => ?_
  obtain ⟨ok, s⟩ := p
  cases ok <;> rfl

theorem park_later (turns : U32) (f r : Addr) (sqe : Sqe) :
    (s.later past n).park turns f r sqe = (s.park turns f r sqe).map (later past n) := by
  have hring : (s.later past n).ring = s.ring := rfl
  have hparked : (s.later past n).parkedCount = s.parkedCount := rfl
  simp only [park, hring, hparked]
  split_ifs with hz
  · rfl
  · cases s.ring.appendSqe with
    | none => rfl
    | some slot =>
      exact congrArg (fun s : State => Except.ok { s with control := .sweep (turns - 1#32) })
        (record_later { s with
        ring := slot.2.writeSqe slot.1 (sqe.setUserData r), parkedCount := s.parkedCount + 1#32 }
          (.stage f))

theorem parkFlushed_later (turns : U32) (f r : Addr) (result : Long) :
    (s.later past n).parkFlushed turns f r result =
      (s.parkFlushed turns f r result).map (later past n) := by
  simp only [parkFlushed]
  split_ifs with hz
  · rfl
  · refine bind_map_congr (request_later r) fun q => ?_
    have hring : (s.later past n).ring = s.ring := rfl
    simp only [id, hring]
    cases q.ask with
    | await sqe =>
      cases s.ring.appendSqe with
      | none => rfl
      | some slot =>
        exact congrArg (fun s : State => Except.ok { s with control := .sweep (turns - 1#32) })
          (record_later { s with
          ring := slot.2.writeSqe slot.1 (sqe.setUserData r), parkedCount := s.parkedCount + 1#32 }
            (.stage f))
    | _ => rfl

theorem serveExit_later (f : Addr) (x : Turn) :
    (s.later past n).serveExit f x = (s.serveExit f x).map (later past n) := by
  refine bind_map_congr (fiber_later f) fun fb => ?_
  simp only [id]
  split_ifs with hz
  · exact reclaim_later f x.unmapped .exitDetached
  · cases fb.joiner with
    | none => rfl
    | some j =>
      refine bind_map_congr
        (setResult_later (s := { s with joiningCount := s.joiningCount - 1#32 }) j _) fun s => ?_
      refine bind_map_congr (reclaim_later f x.unmapped .exitJoined) fun s => ?_
      refine bind_map_congr (request_later j) fun q => ?_
      simp only [id]
      cases q.fiber with
      | none => rfl
      | some woken => exact enqueue_later woken

theorem serveSpawn_later (f : Addr) (argument : SpawnRequest) (x : Turn) :
    (s.later past n).serveSpawn f argument x = (s.serveSpawn f argument x).map (later past n) := by
  have hspawn : (s.later past n).spawn argument x.spawned =
      (s.spawn argument x.spawned).later past n := by
    cases x.spawned <;> rfl
  simp only [serveSpawn, hspawn]
  refine bind_map_congr (setResult_later x.frame _) fun s => ?_
  rw [show (s.later past n).record (.spawn f x.spawned) =
    (s.record (.spawn f x.spawned)).later past n from
    record_later s (.spawn f x.spawned)]
  refine bind_map_congr (enqueue_later f) fun s => ?_
  cases x.spawned with
  | none => rfl
  | some c => exact enqueue_later c

theorem serveJoin_later (f u : Addr) (x : Turn) :
    (s.later past n).serveJoin f u x = (s.serveJoin f u x).map (later past n) := by
  simp only [serveJoin]
  split_ifs with hself
  · rfl
  · refine bind_map_congr (fiber_later u) fun fu => ?_
    simp only [id]
    split_ifs with hr hx
    · rfl
    · refine bind_map_congr (setResult_later x.frame _) fun s => ?_
      refine bind_map_congr (reclaim_later u x.unmapped .joinReclaim) fun s => ?_
      exact enqueue_later f
    · refine bind_map_congr (modifyFiber_later u _) fun s => ?_
      exact congrArg Except.ok
        (record_later { s with joiningCount := s.joiningCount + 1#32 } (.block f u))

theorem serveDetach_later (f u : Addr) (x : Turn) :
    (s.later past n).serveDetach f u x = (s.serveDetach f u x).map (later past n) := by
  refine bind_map_congr (fiber_later u) fun fu => ?_
  simp only [id]
  split_ifs with hr hx
  · rfl
  · refine bind_map_congr (reclaim_later u x.unmapped .detachReclaim) fun s => ?_
    exact enqueue_later f
  · refine bind_map_congr (modifyFiber_later u _) fun s => ?_
    refine bind_map_congr (p := later past n)
      (congrArg Except.ok (record_later s (.detach u))) fun s => ?_
    exact enqueue_later f

theorem map_control_later {x y : Except Stop State} (h : y = x.map (later past n)) (c : Control) :
    (fun s : State => { s with control := c }) <$> y =
      ((fun s : State => { s with control := c }) <$> x).map (later past n) := by
  subst h
  cases x <;> rfl

theorem serve_later (turns : U32) (f : Addr) (x : Turn) :
    (s.later past n).serve turns f x = (s.serve turns f x).map (later past n) := by
  refine bind_map_congr (request_later x.frame) fun q => ?_
  simp only [id]
  cases q.ask with
  | yield => exact map_control_later (enqueue_later f) _
  | exit => exact map_control_later (serveExit_later f x) _
  | await sqe => exact park_later turns f x.frame sqe
  | spawn argument => exact map_control_later (serveSpawn_later f argument x) _
  | join u => exact map_control_later (serveJoin_later f u x) _
  | detach u => exact map_control_later (serveDetach_later f u x) _
  | processExit status => rfl

theorem dispatch_later (turns : U32) (x : Turn) :
    (s.later past n).dispatch turns x = (s.dispatch turns x).map (later past n) := by
  refine bind_map_congr dequeue_later fun p => ?_
  refine bind_map_congr (resume_later p.1 x.call x.frame) fun s => ?_
  exact serve_later turns p.1 x

theorem testLoop_later : (s.later past n).testLoop = s.testLoop.later past n := by
  have hparked : (s.later past n).parkedCount = s.parkedCount := rfl
  have hready : (s.later past n).readyCount = s.readyCount := rfl
  have hjoining : (s.later past n).joiningCount = s.joiningCount := rfl
  simp only [testLoop, hparked, hready, hjoining]
  split_ifs <;> rfl

theorem boundary_later : (s.later past n).boundary = s.boundary.later past n := by
  have hparked : (s.later past n).parkedCount = s.parkedCount := rfl
  have hready : (s.later past n).readyCount = s.readyCount := rfl
  simp only [boundary, hparked, hready]
  split_ifs <;> rfl

theorem reapOne_later : (s.later past n).reapOne = s.reapOne.map (later past n) := by
  have hring : (s.later past n).ring = s.ring := rfl
  simp only [reapOne, hring]
  obtain ⟨found, ring⟩ := s.ring.reap
  cases found with
  | none => rfl
  | some cqe =>
    simp only
    split_ifs with hz
    · rfl
    · refine bind_map_congr (setResult_later (s := { s with ring := ring }) cqe.userData _) fun s => ?_
      refine bind_map_congr (request_later cqe.userData) fun q => ?_
      simp only [id]
      cases q.fiber with
      | none => rfl
      | some woken =>
        rw [show ({ s.later past n with parkedCount := (s.later past n).parkedCount - 1#32 } : State).record (.reap cqe) =
          (({ s with parkedCount := s.parkedCount - 1#32 } : State).record
            (.reap cqe)).later past n from
          record_later { s with parkedCount := s.parkedCount - 1#32 } (.reap cqe)]
        exact enqueue_later woken

theorem numbered_later (m : ℕ) (sqes : List Sqe) :
    numbered (n + m) sqes = (numbered m sqes).map (Operation.later n) := by
  induction sqes generalizing m with
  | nil => rfl
  | cons sqe sqes ih =>
    simp only [numbered, List.map_cons, ← ih (m + 1)]
    rfl

theorem take_later (minComplete : U32) (result : Long) :
    (s.later past n).take minComplete result = (s.take minComplete result).later past n := by
  have hring : (s.later past n).ring = s.ring := rfl
  simp only [take, hring]
  rw [← record_later]
  simp only [later, List.map_append, ← numbered_later, Nat.add_assoc, Event.later]

theorem complete_later (number : ℕ) (res : CInt) (flags : U32) :
    (s.later past n).complete (n + number) res flags =
      (s.complete number res flags).map (later past n) := by
  have hheld : (s.later past n).held = s.held.map (Operation.later n) := rfl
  have hpred : (fun op : Operation => decide (op.number = n + number)) ∘ Operation.later n =
      fun op => decide (op.number = number) := by
    funext op
    simp [Operation.later]
  simp only [complete, hheld, List.find?_map, hpred]
  cases s.held.find? (fun op => decide (op.number = number)) with
  | none => rfl
  | some op =>
    simp only [Option.map_some]
    refine congrArg some ?_
    rw [← record_later]
    simp only [later, List.eraseP_map, hpred, Event.later]
    rfl

theorem settle_later {x y : Except Stop State} (h : y = x.map (later past n)) :
    (s.later past n).settle y = (s.settle x).later past n := by
  subst h
  cases x <;> rfl

end State

open State in
/-- No step reads the log or the numbers. -/
theorem step_later (past : List Event) (n : ℕ) (s : State) (i : Input) :
    step (s.later past n) (i.later n) = (step s i).map (State.later past n) := by
  have hcontrol : (s.later past n).control = s.control := rfl
  cases i with
  | launch f spawn =>
    simp only [step, Input.later, hcontrol]
    split_ifs with hc
    · refine congrArg some (settle_later ?_)
      rw [show ((({ s.later past n with control := .idle } : State).spawn spawn (some f)).record
        (.launch f)) =
        ((({ s with control := .idle } : State).spawn spawn (some f)).record
          (.launch f)).later past n from
        record_later (({ s with control := .idle } : State).spawn spawn (some f)) (.launch f)]
      exact enqueue_later f
    · rfl
  | run =>
    simp only [step, Input.later, hcontrol]
    split_ifs <;> rfl
  | tick =>
    simp only [step, Input.later, hcontrol]
    cases s.control with
    | test => exact congrArg some testLoop_later
    | sweep turns =>
      simp only
      split_ifs
      · exact congrArg some boundary_later
      · rfl
    | reap => exact congrArg some (settle_later reapOne_later)
    | _ => rfl
  | turn x =>
    simp only [step, Input.later, hcontrol]
    cases s.control with
    | sweep turns =>
      simp only
      split_ifs
      · rfl
      · exact congrArg some (settle_later (dispatch_later turns x))
    | _ => rfl
  | enter result =>
    have hring : (s.later past n).ring = s.ring := rfl
    simp only [step, Input.later, hcontrol, hring, take_later]
    cases s.control with
    | flush turns f r =>
      simp only
      cases s.ring.submitPass result with
      | again ring => rfl
      | done value ring =>
        exact congrArg some (settle_later
          (parkFlushed_later (s := { s.take 0#32 result with ring := ring }) turns f r value))
    | submit m =>
      simp only
      cases s.ring.submitPass result with
      | again ring => rfl
      | done value ring =>
        refine congrArg some (settle_later ?_)
        split_ifs <;> rfl
    | _ => rfl
  | post number res flags =>
    simp only [step, Input.later, hcontrol]
    split_ifs
    · exact complete_later number res flags
    · rfl

def run (s : State) (inputs : List Input) : Option State := inputs.foldlM step s

theorem run_later (past : List Event) (n : ℕ) (s : State) (inputs : List Input) :
    run (s.later past n) (inputs.map (Input.later n)) = (run s inputs).map (State.later past n) := by
  induction inputs generalizing s with
  | nil => rfl
  | cons i inputs ih =>
    simp only [run, List.map_cons, List.foldlM_cons, step_later]
    cases step s i with
    | none => rfl
    | some s' => exact ih s'

/-- Outside the loop it makes no difference whether there has been a run. -/
theorem step_drained {s : State} (hc : s.control = .drained) (i : Input) :
    step s i = step { s with control := .idle } i := by
  cases i <;> simp [step, hc, Control.ready, Control.running, State.settle]

end Libuc.Scheduler
