import Libuc.Fiber.Basic
import Mathlib.Data.Set.Card

/-! The reactor of `scheduler.c` as a state machine. The state is the scheduler,
the fiber records and requests it can reach, the kernel's side of the ring, and
the point of `__libuc_scheduler_run` that control has reached. One step is one
turn of a fiber, one `io_uring_enter`, one reap, one test of the loop, or one
completion posted by the kernel. What fibers ask for, where memory is mapped and
how the kernel answers are inputs; `Allowed` says what the kernel guarantees
about them. A pointer to unmapped memory is not followed: the machine faults. -/

namespace Libuc.Scheduler

/-- The `__builtin_trap` sites of `scheduler.c`. -/
inductive Trap where
  | parkRefused | flushFailed | appendFailed
  | exitDetached | exitJoined | joinRefused | joinReclaim | detachRefused | detachReclaim
  | submitFailed | completionFlags | joinCycle
  deriving DecidableEq

inductive Stop where
  | trap (site : Trap)
  | fault
  deriving DecidableEq

/-- Where control stands. `sweep` is the head of the `for` loop with the turns
left, `flush` the submit loop inside `park` with the fiber and request it parks,
`submit` the one at the iteration boundary; `drained` is the final `return 0`,
`exited` the `PROCESS_EXIT` return. -/
inductive Control where
  | idle
  | test
  | sweep (turns : U32)
  | flush (turns : U32) (fiber request : Addr)
  | submit (minComplete : U32)
  | reap
  | drained
  | exited (status : CInt)
  | stopped (stop : Stop)

/-- What the reactor and the kernel have done so far, one entry a call. -/
inductive Event where
  | launch (fiber : Addr)
  | enqueue (fiber : Addr)
  | resume (fiber : Addr) (answer : Option Long) (call : Call)
  | spawn (parent : Addr) (result : Option Addr)
  | block (joiner target : Addr)
  | detach (target : Addr)
  | destroy (fiber : Addr)
  | stage (fiber : Addr)
  | enter (call : Ring.Enter)
  | post (number : ℕ) (cqe : Cqe)
  | reap (cqe : Cqe)
  deriving BEq, ReflBEq, LawfulBEq

/-- An operation the kernel holds, numbered in the order the SQEs were taken. -/
structure Operation where
  number : ℕ
  sqe : Sqe

/-- `struct __libuc_scheduler`, the memory it works on, and the kernel. The log
is read by nothing. -/
structure State where
  ring : Ring
  readyHead : Option Addr
  readyTail : Option Addr
  readyCount : U32
  parkedCount : U32
  joiningCount : U32
  fibers : Addr → Option Fiber
  requests : Addr → Option Request
  held : List Operation
  taken : ℕ
  control : Control
  log : List Event

/-- `__libuc_scheduler_become`, on a ring that has been created. -/
def become (ring : Ring) : State where
  ring := ring
  readyHead := none
  readyTail := none
  readyCount := 0#32
  parkedCount := 0#32
  joiningCount := 0#32
  fibers := fun _ => none
  requests := fun _ => none
  held := []
  taken := 0
  control := .idle
  log := []

/-- The environment's part in one turn: what the fiber asks for and where its
request is, what a spawn returns, and whether an unmap succeeds. -/
structure Turn where
  call : Call
  frame : Addr
  spawned : Option Addr
  unmapped : Bool

/-- The requests left when the frame at `r`, if any, is gone. -/
def dropFrame (requests : Addr → Option Request) : Option Addr → Addr → Option Request
  | some r => Function.update requests r none
  | none => requests

namespace State

/-! ### Memory -/

def fiber (s : State) (a : Addr) : Except Stop Fiber :=
  match s.fibers a with
  | some fb => .ok fb
  | none => .error .fault

def request (s : State) (r : Addr) : Except Stop Request :=
  match s.requests r with
  | some q => .ok q
  | none => .error .fault

def modifyFiber (s : State) (a : Addr) (f : Fiber → Fiber) : Except Stop State := do
  let fb ← s.fiber a
  pure { s with fibers := Function.update s.fibers a (some (f fb)) }

/-- The assignment `request->result = value`. -/
def setResult (s : State) (r : Addr) (value : Long) : Except Stop State := do
  let q ← s.request r
  pure { s with requests := Function.update s.requests r (some { q with result := value }) }

def record (s : State) (e : Event) : State := { s with log := s.log ++ [e] }

/-! ### The ready list -/

/-- `__libuc_scheduler_enqueue`. -/
def enqueue (s : State) (fiber : Addr) : Except Stop State := do
  let s := { s with readyCount := s.readyCount + 1#32 }
  let s ← s.modifyFiber fiber fun fb => { fb with readyNext := none }
  let s ← match s.readyTail with
    | none => pure { s with readyHead := some fiber }
    | some tail => s.modifyFiber tail fun fb => { fb with readyNext := some fiber }
  pure ({ s with readyTail := some fiber }.record (.enqueue fiber))

/-- The opening of the sweep's body: the first ready fiber leaves the list. -/
def dequeue (s : State) : Except Stop (Addr × State) :=
  match s.readyHead with
  | none => .error .fault
  | some fiber => do
    let fb ← s.fiber fiber
    let s := { s with readyHead := fb.readyNext, readyCount := s.readyCount - 1#32 }
    let s := if s.readyHead = none then { s with readyTail := none } else s
    let s ← s.modifyFiber fiber fun fb => { fb with readyNext := none }
    pure (fiber, s)

/-! ### Fibers -/

/-- `__libuc_fiber_resume` with the fiber's own side of the switch. The call it
was suspended in returns, which ends that call's frame; the fiber runs on to
`call`, whose request is at `frame` on its stack. A zeroed context cannot be
switched to. -/
def resume (s : State) (fiber : Addr) (call : Call) (frame : Addr) : Except Stop State := do
  let fb ← s.fiber fiber
  if fb.context = .zeroed then .error .fault else
  let answer := (fb.frame.bind s.requests).bind Request.answer
  let requests := dropFrame s.requests fb.frame
  pure ({ s with
    fibers := Function.update s.fibers fiber (some (fb.suspend call frame))
    requests := Function.update requests frame
      (some { ask := call.ask, result := 0#64, fiber := some fiber }) }.record
        (.resume fiber answer call))

/-- `__libuc_fiber_spawn`, where the kernel's mapping decides the result. -/
def spawn (s : State) (argument : SpawnRequest) (result : Option Addr) : State :=
  match result with
  | none => s
  | some fiber => { s with fibers := Function.update s.fibers fiber (some (Fiber.spawned argument)) }

/-- `__libuc_fiber_destroy`. The record, and whatever is on the fiber's stack,
goes with the mapping. -/
def destroy (s : State) (fiber : Addr) (unmapped : Bool) : Except Stop (Bool × State) := do
  let fb ← s.fiber fiber
  if unmapped then
    pure (true, { s with
      fibers := Function.update s.fibers fiber none
      requests := dropFrame s.requests fb.frame }.record (.destroy fiber))
  else pure (false, s)

/-- A destroy that has to succeed. -/
def reclaim (s : State) (fiber : Addr) (unmapped : Bool) (site : Trap) : Except Stop State := do
  let (ok, s) ← s.destroy fiber unmapped
  if ok then pure s else .error (.trap site)

/-! ### Parking -/

/-- The end of `park`, once a slot has been found: the SQE is copied, with the
request's address as its cookie. -/
def fill (s : State) (fiber request : Addr) (await : Sqe) (slot : Addr) (ring : Ring) : State :=
  { s with
    ring := ring.writeSqe slot (await.setUserData request)
    parkedCount := s.parkedCount + 1#32 }.record (.stage fiber)

/-- `park` up to the flush it may need; `turns` is where the sweep goes on. -/
def park (s : State) (turns : U32) (fiber request : Addr) (await : Sqe) : Except Stop State :=
  if await.flags ≠ 0#8 ∨ s.parkedCount = s.ring.cqEntries then .error (.trap .parkRefused)
  else
    match s.ring.appendSqe with
    | some (slot, ring) =>
      .ok { s.fill fiber request await slot ring with control := .sweep (turns - 1#32) }
    | none => .ok { s with control := .flush turns fiber request }

/-- `park` after its flush has returned. -/
def parkFlushed (s : State) (turns : U32) (fiber request : Addr) (result : Long) :
    Except Stop State := do
  if syscallFailed result then .error (.trap .flushFailed) else
  let q ← s.request request
  match q.ask with
  | .await await =>
    match s.ring.appendSqe with
    | some (slot, ring) =>
      pure { s.fill fiber request await slot ring with control := .sweep (turns - 1#32) }
    | none => .error (.trap .appendFailed)
  | _ => .error .fault

/-! ### Requests -/

/-- `case __LIBUC_FIBER_REQUEST_EXIT`. -/
def serveExit (s : State) (fiber : Addr) (t : Turn) : Except Stop State := do
  let fb ← s.fiber fiber
  if fb.life = .detached then s.reclaim fiber t.unmapped .exitDetached else
  match fb.joiner with
  | none => pure s
  | some joiner => do
    let s := { s with joiningCount := s.joiningCount - 1#32 }
    let s ← s.setResult joiner (toLong fb.status)
    let s ← s.reclaim fiber t.unmapped .exitJoined
    let q ← s.request joiner
    match q.fiber with
    | none => .error .fault
    | some woken => s.enqueue woken

/-- `case __LIBUC_FIBER_REQUEST_SPAWN`. -/
def serveSpawn (s : State) (fiber : Addr) (argument : SpawnRequest) (t : Turn) : Except Stop State := do
  let s := s.spawn argument t.spawned
  let s ← s.setResult t.frame (t.spawned.getD 0#64)
  let s := s.record (.spawn fiber t.spawned)
  let s ← s.enqueue fiber
  match t.spawned with
  | none => pure s
  | some spawned => s.enqueue spawned

/-- `case __LIBUC_FIBER_REQUEST_JOIN`. -/
def serveJoin (s : State) (fiber target : Addr) (t : Turn) : Except Stop State := do
  if target = fiber then .error (.trap .joinRefused) else
  let tb ← s.fiber target
  if tb.joiner ≠ none ∨ tb.life = .detached then .error (.trap .joinRefused) else
  if tb.life = .exited then
    let s ← s.setResult t.frame (toLong tb.status)
    let s ← s.reclaim target t.unmapped .joinReclaim
    s.enqueue fiber
  else
    let s ← s.modifyFiber target fun tb => { tb with joiner := some t.frame }
    pure ({ s with joiningCount := s.joiningCount + 1#32 }.record (.block fiber target))

/-- `case __LIBUC_FIBER_REQUEST_DETACH`. -/
def serveDetach (s : State) (fiber target : Addr) (t : Turn) : Except Stop State := do
  let tb ← s.fiber target
  if tb.joiner ≠ none ∨ tb.life = .detached then .error (.trap .detachRefused) else
  let s ← if tb.life = .exited then s.reclaim target t.unmapped .detachReclaim
    else do
      let s ← s.modifyFiber target fun tb => { tb with life := .detached }
      pure (s.record (.detach target))
  s.enqueue fiber

/-- The `switch`, with the `turns--` that follows each `break`. -/
def serve (s : State) (turns : U32) (fiber : Addr) (t : Turn) : Except Stop State := do
  let request ← s.request t.frame
  let resumeSweep := fun s : State => { s with control := .sweep (turns - 1#32) }
  match request.ask with
  | .yield => resumeSweep <$> s.enqueue fiber
  | .exit => resumeSweep <$> s.serveExit fiber t
  | .await await => s.park turns fiber t.frame await
  | .spawn argument => resumeSweep <$> s.serveSpawn fiber argument t
  | .join target => resumeSweep <$> s.serveJoin fiber target t
  | .detach target => resumeSweep <$> s.serveDetach fiber target t
  | .processExit status => pure { s with control := .exited (toInt status) }

/-- One round of the sweep. -/
def dispatch (s : State) (turns : U32) (t : Turn) : Except Stop State := do
  let (fiber, s) ← s.dequeue
  let s ← s.resume fiber t.call t.frame
  s.serve turns fiber t

/-! ### The loop -/

/-- `while (parked_count + ready_count != 0)`, and what follows the loop. -/
def testLoop (s : State) : State :=
  if s.parkedCount + s.readyCount ≠ 0#32 then { s with control := .sweep s.readyCount }
  else if s.joiningCount ≠ 0#32 then { s with control := .stopped (.trap .joinCycle) }
  else { s with control := .drained }

/-- The sweep is over: go round again, or enter the kernel. -/
def boundary (s : State) : State :=
  if s.parkedCount = 0#32 then { s with control := .test }
  else { s with control := .submit (if s.readyCount = 0#32 then 1#32 else 0#32) }

/-- `IORING_CQE_F_MORE | IORING_CQE_F_NOTIF | IORING_CQE_F_SKIP`. -/
def streamFlags : U32 := 2#32 ||| 8#32 ||| 32#32

/-- One round of the reap loop. -/
def reapOne (s : State) : Except Stop State :=
  match s.ring.reap with
  | (none, ring) => .ok { s with ring := ring, control := .test }
  | (some completion, ring) =>
    if completion.flags &&& streamFlags ≠ 0#32 then .error (.trap .completionFlags)
    else do
      let s := { s with ring := ring }
      let s ← s.setResult completion.userData (toLong completion.res)
      let q ← s.request completion.userData
      match q.fiber with
      | none => .error .fault
      | some woken =>
        let s := { s with parkedCount := s.parkedCount - 1#32 }
        (s.record (.reap completion)).enqueue woken

/-! ### The kernel -/

def numbered (n : ℕ) : List Sqe → List Operation
  | [] => []
  | sqe :: sqes => ⟨n, sqe⟩ :: numbered (n + 1) sqes

/-- `io_uring_enter` takes the SQEs its result counts. -/
def take (s : State) (minComplete : U32) (result : Long) : State :=
  let call := s.ring.enter minComplete result
  { s with
    held := s.held ++ numbered s.taken call.taken
    taken := s.taken + call.taken.length }.record (.enter call)

/-- The kernel completes the operation with this number. -/
def complete (s : State) (number : ℕ) (res : CInt) (flags : U32) : Option State :=
  match s.held.find? (fun op => op.number = number) with
  | none => none
  | some op =>
    let cqe : Cqe := ⟨op.sqe.userData, res, flags⟩
    some ({ s with
      held := s.held.eraseP (fun op => op.number = number)
      ring := s.ring.post cqe }.record (.post number cqe))

/-! ### Steps -/

/-- A death leaves the state as it was before the step. -/
def settle (s : State) : Except Stop State → State
  | .ok next => next
  | .error stop => { s with control := .stopped stop }

end State

open State

/-- What the environment decides. `launch` is control code outside the loop:
`__libuc_fiber_spawn` and `__libuc_scheduler_enqueue` before a run. -/
inductive Input where
  | launch (fiber : Addr) (spawn : SpawnRequest)
  | run
  | tick
  | turn (t : Turn)
  | enter (result : Long)
  | post (number : ℕ) (res : CInt) (flags : U32)

/-- Control is inside `__libuc_scheduler_run`. -/
def Control.running : Control → Bool
  | .test | .sweep _ | .flush _ _ _ | .submit _ | .reap => true
  | _ => false

/-- Control is outside the loop and the reactor can be run. -/
def Control.ready : Control → Bool
  | .idle | .drained => true
  | _ => false

/-- One step; absent when the input does not fit where control stands. -/
def step (s : State) : Input → Option State
  | .launch fiber spawn =>
    if s.control.ready then
      some (s.settle (({ s with control := .idle }.spawn spawn (some fiber)).record (.launch fiber)
        |>.enqueue fiber))
    else none
  | .run => if s.control.ready then some { s with control := .test } else none
  | .tick =>
    match s.control with
    | .test => some s.testLoop
    | .sweep turns => if turns = 0#32 then some s.boundary else none
    | .reap => some (s.settle s.reapOne)
    | _ => none
  | .turn t =>
    match s.control with
    | .sweep turns => if turns = 0#32 then none else some (s.settle (s.dispatch turns t))
    | _ => none
  | .enter result =>
    match s.control with
    | .flush turns fiber request =>
      match s.ring.submitPass result with
      | .again ring => some { s.take 0#32 result with ring := ring }
      | .done value ring =>
        some (s.settle ({ s.take 0#32 result with ring := ring }.parkFlushed turns fiber request value))
    | .submit minComplete =>
      match s.ring.submitPass result with
      | .again ring => some { s.take minComplete result with ring := ring }
      | .done value ring =>
        some (s.settle (if syscallFailed value then .error (.trap .submitFailed)
          else .ok { s.take minComplete result with ring := ring, control := .reap }))
    | _ => none
  | .post number res flags =>
    if s.control.running then s.complete number res flags else none

def State.mapped (s : State) : Set Addr := {a | (s.fibers a).isSome}

/-- The kernel's side of the bargain. `mapLimit` bounds the fibers that are mapped at
once: the counters of the reactor are `uint32_t` and exact for fewer than `2 ^ 32`.
`unmaps` says whether unmapping a live mapping is known to succeed. -/
structure Kernel where
  mapLimit : ℕ
  mapLimit_lt : mapLimit < 2 ^ 32
  unmaps : Bool

/-- A new mapping is not null, not already mapped, and within the limit. -/
def Fresh (k : Kernel) (s : State) (a : Addr) : Prop :=
  a ≠ 0#64 ∧ s.fibers a = none ∧ s.mapped.ncard < k.mapLimit

/-- What the environment may do. A request lies on its own fiber's stack, so
never where another fiber's request is. The kernel posts when it likes: nothing
here keeps it from posting into a full queue. -/
def Allowed (k : Kernel) (s : State) : Input → Prop
  | .launch fiber _ => Fresh k s fiber
  | .run => True
  | .tick => True
  | .turn t =>
    (∀ q, s.requests t.frame = some q → q.fiber = s.readyHead) ∧
      (∀ a, t.spawned = some a → Fresh k s a) ∧ (k.unmaps = true → t.unmapped = true)
  | .enter result => Ring.Answers s.ring.batchCount.toNat result
  | .post _ _ _ => True

inductive Step (k : Kernel) (s s' : State) : Prop
  | mk (i : Input) (allowed : Allowed k s i) (h : step s i = some s')

/-- Any run from a new scheduler on a created ring, whatever its programs do. -/
def Reachable (k : Kernel) (s : State) : Prop :=
  ∃ (g : Geometry) (memory : Mem) (counter : U32) (cqes : ℕ → Cqe),
    Relation.ReflTransGen (Step k) (become (Ring.created g memory counter cqes)) s

end Libuc.Scheduler
