import Libuc.Fiber.Holdings
import Libuc.Scheduler.Basic

/-! The reactor on the bytes of the process. The records and requests are where the
sources put them: a record at the top of its fiber's stack mapping, a request on the
frame of the call that is suspended, `return_to` and the pointer in the TCB included;
every access is a load or a store of one of their words. `__libuc_fiber_spawn` and
`__libuc_fiber_destroy` map and unmap. The scheduler's own record and the ring are on
the stack of `__libuc_start` and in mappings no fiber has, and stay apart from this
memory. What a fiber does between two suspensions is a list of bytes it stores. -/

namespace Libuc

open Lib ThreadLocal FiberRecord

/-! ### Words -/

def store32 (m : Mem) (a : Addr) (v : U32) : Mem :=
  store m a (setField (fun _ : Fin 4 => 0#8) 0 4 v.toNat)

def storeBytes (m : Mem) : List (Addr × Byte) → Mem
  | [] => m
  | (a, b) :: rest => storeBytes (Function.update m a b) rest

namespace FiberRecord

def set (arch : Arch) (m : Mem) (fiber : Addr) (field : Field) (v : BitVec 64) : Mem :=
  store64 m (fieldAt arch fiber field) v

/-- `fiber->status`. -/
def status (arch : Arch) (m : Mem) (fiber : Addr) : CInt := load32 m (fieldAt arch fiber .statusLife)

def setStatus (arch : Arch) (m : Mem) (fiber : Addr) (v : CInt) : Mem :=
  store32 m (fieldAt arch fiber .statusLife) v

def setLife (arch : Arch) (m : Mem) (fiber : Addr) (v : U32) : Mem :=
  store32 m (fieldAt arch fiber .statusLife + 4#64) v

end FiberRecord

/-- The numbers of `enum __libuc_fiber_life`. -/
def Life.word : Life → U32
  | .live => 0#32
  | .detached => 1#32
  | .exited => 2#32

/-! ### Requests -/

namespace RequestRecord

/-- `struct __libuc_fiber_request`: four words. -/
def kind (m : Mem) (request : Addr) : BitVec 64 := load64 m request

/-- The union of `argument`, `target` and `status`. -/
def argument (m : Mem) (request : Addr) : BitVec 64 := load64 m (request + 8#64)

def result (m : Mem) (request : Addr) : BitVec 64 := load64 m (request + 16#64)

def setResult (m : Mem) (request : Addr) (v : Long) : Mem := store64 m (request + 16#64) v

def fiber (m : Mem) (request : Addr) : Addr := load64 m (request + 24#64)

def setFiber (m : Mem) (request : Addr) (v : Addr) : Mem := store64 m (request + 24#64) v

/-- The `struct __libuc_fiber_spawn_request` at `a`. -/
def spawnAt (m : Mem) (a : Addr) : SpawnRequest :=
  ⟨load64 m a, load64 m (a + 8#64), load64 m (a + 16#64)⟩

end RequestRecord

/-- The calls of `fiber.c` that suspend, with the pointers they are given. `returned` is
the exit that `run_fiber` makes; `start` keeps its spawn request on the frame. -/
inductive Suspension where
  | yield
  | exit (status : CInt)
  | returned (status : CInt)
  | await (sqe : Addr)
  | start (spawn : SpawnRequest) (spawnAt : Addr)
  | join (target : Addr)
  | detach (target : Addr)
  | processExit (fiber : Addr) (status : CInt)

/-- `__libuc_fiber_current`, with this thread pointer installed. -/
def fiberCurrent (m : Mem) (threadPointer : Addr) : Addr :=
  if threadPointer = 0#64 then 0#64 else load64 m (threadPointer + 8#64)

namespace Suspension

/-- The numbers of `enum __libuc_fiber_request_kind`. -/
def kind : Suspension → BitVec 64
  | .yield => 1#64
  | .exit _ | .returned _ => 2#64
  | .await _ => 3#64
  | .start _ _ => 4#64
  | .join _ => 5#64
  | .detach _ => 6#64
  | .processExit _ _ => 7#64

def argument : Suspension → BitVec 64
  | .await sqe => sqe
  | .start _ spawnAt => spawnAt
  | .join target => target
  | .detach target => target
  | .processExit _ status => toLong status
  | _ => 0#64

/-- The fiber that the call suspends: found by the thread pointer, except where the source
passes the record. -/
def self (m : Mem) (fiber threadPointer : Addr) : Suspension → Addr
  | .returned _ => fiber
  | .processExit fiber _ => fiber
  | _ => fiberCurrent m threadPointer

/-- What the call stores before it switches. -/
def perform (arch : Arch) (m : Mem) (self frame : Addr) (call : Suspension) : Mem :=
  let m := match call with
    | .exit status => setStatus arch m self status
    | .returned status => setStatus arch m self status
    | .start spawn spawnAt => storeWords m spawnAt [spawn.stackLength, spawn.entry, spawn.argument]
    | _ => m
  storeWords m frame [call.kind, call.argument, 0#64, 0#64]

/-- What the call asks for, read out of memory where it passes a pointer. -/
def call (m : Mem) : Suspension → Call
  | .yield => .yield
  | .exit status => .exit status
  | .returned status => .exit status
  | .await sqe => .await (block m sqe 64)
  | .start spawn _ => .start spawn
  | .join target => .join target
  | .detach target => .detach target
  | .processExit _ status => .processExit status

end Suspension

/-! ### The image -/

open Scheduler

/-- What is fixed for the life of the process: the machine, the two entry points, the
thread-local layout, and the context on the frame of the reactor's
`__libuc_fiber_resume`. -/
structure Platform where
  arch : Arch
  code : Code
  layout : Option Layout
  here : Addr

/-- The process with its reactor. `frames` says where the call a fiber is suspended in
keeps its request, which the fiber's own saved registers know. `live` and the log are read
by nothing: the fibers that have been created and not destroyed, and what was done. -/
structure Image where
  process : Process
  ring : Ring
  readyHead : Addr
  readyTail : Addr
  readyCount : U32
  parkedCount : U32
  joiningCount : U32
  frames : Addr → Option Addr
  live : List Holding
  held : List Operation
  taken : ℕ
  control : Control
  log : List Event

/-- What the environment decides in one turn: the bytes the fiber stores, the thread
pointer it leaves installed, the call it makes with the address of that call's request,
the registers the switch saves, and the kernel's answers to a creation. -/
structure Visit where
  writes : List (Addr × Byte)
  threadPointer : Addr
  suspension : Suspension
  frame : Addr
  saved : List (BitVec 64)
  stackAnswer : Long
  blockAnswer : Long

namespace Image

variable (pf : Platform)

def memory (w : Image) : Mem := w.process.memory

def write (w : Image) (m : Mem) : Image := { w with process := { w.process with memory := m } }

def record (w : Image) (e : Event) : Image := { w with log := w.log ++ [e] }

/-! ### The ready list -/

/-- `__libuc_scheduler_enqueue`. -/
def enqueue (w : Image) (fiber : Addr) : Image :=
  let w := { w with readyCount := w.readyCount + 1#32 }
  let w := w.write (set pf.arch w.memory fiber .readyNext 0#64)
  let w := if w.readyTail = 0#64 then { w with readyHead := fiber }
    else w.write (set pf.arch w.memory w.readyTail .readyNext fiber)
  { w with readyTail := fiber }.record (.enqueue fiber)

/-- The opening of the sweep's body. Nothing is mapped at null. -/
def dequeue (w : Image) : Except Stop (Addr × Image) :=
  let fiber := w.readyHead
  if fiber = 0#64 then .error .fault
  else
    let w := { w with readyHead := get pf.arch w.memory fiber .readyNext, readyCount := w.readyCount - 1#32 }
    let w := if w.readyHead = 0#64 then { w with readyTail := 0#64 } else w
    .ok (fiber, w.write (set pf.arch w.memory fiber .readyNext 0#64))

/-! ### Fibers -/

/-- What the call that the fiber is suspended in returns to it. -/
def answer (w : Image) (fiber : Addr) : Option Long :=
  (w.frames fiber).bind fun r =>
    let kind := RequestRecord.kind w.memory r
    if kind = 3#64 ∨ kind = 4#64 ∨ kind = 5#64 then some (RequestRecord.result w.memory r) else none

/-- The fiber's side of the switch: its own stores, the call it makes, and the context
saved. A call whose record does not lead back to this resume leaves it for good. -/
def runFiber (m : Mem) (fiber : Addr) (v : Visit) : Except Stop Mem :=
  let m := storeBytes m v.writes
  let self := v.suspension.self m fiber v.threadPointer
  let m := v.suspension.perform pf.arch m self v.frame
  if get pf.arch m self .returnTo ≠ pf.here then .error .fault else .ok (storeWords m self v.saved)

/-- What `__libuc_fiber_resume` does to the record of a fiber that has exited. -/
def closeExit (arch : Arch) (m : Mem) (fiber : Addr) : Mem :=
  let m := storeWords m fiber (List.replicate (contextWords arch) 0#64)
  if life arch m fiber = Life.live.word then setLife arch m fiber Life.exited.word else m

/-- `__libuc_fiber_resume` after the switch. -/
def finishResume (arch : Arch) (m : Mem) (fiber request : Addr) : Mem :=
  let m := if RequestRecord.kind m request = 2#64 then closeExit arch m fiber else m
  let m := set arch m fiber .returnTo 0#64
  RequestRecord.setFiber m request fiber

/-- `__libuc_fiber_resume`. A zeroed context has no stack to switch to; a null request
traps. -/
def resume (w : Image) (fiber : Addr) (v : Visit) : Except Stop Image := do
  let answer := w.answer fiber
  let m := set pf.arch w.memory fiber .returnTo pf.here
  if stackPointer pf.arch m fiber = 0#64 then .error .fault else
  let called := v.suspension.call (storeBytes m v.writes)
  let m ← runFiber pf m fiber v
  if v.frame = 0#64 then .error .fault else
  let w := w.write (finishResume pf.arch m fiber v.frame)
  pure ({ w with frames := Function.update w.frames fiber (some v.frame) }.record
    (.resume fiber answer called))

/-- `__libuc_fiber_spawn`. -/
def spawn (w : Image) (argument : SpawnRequest) (stackAnswer blockAnswer : Long) :
    Option Addr × Image :=
  let r := fiberSpawn pf.arch pf.code pf.layout argument.stackLength argument.entry argument.argument stackAnswer
    blockAnswer w.process
  (r.1, { w with
    process := r.2
    live := r.1.elim w.live fun fiber => Holding.read pf.arch r.2.memory fiber :: w.live
    frames := r.1.elim w.frames fun fiber => Function.update w.frames fiber none })

/-- `__libuc_fiber_destroy`, where it has to succeed. -/
def reclaim (w : Image) (fiber : Addr) (site : Trap) : Except Stop Image :=
  let r := fiberDestroy pf.arch fiber w.process
  if r.1 then
    .ok ({ w with
      process := r.2
      live := w.live.filter fun h => h.fiber ≠ fiber }.record (.destroy fiber))
  else .error (.trap site)

/-! ### Parking -/

/-- The end of `park`. -/
def fill (w : Image) (fiber request slot : Addr) (ring : Ring) : Image :=
  let await : Sqe := block w.memory (RequestRecord.argument w.memory request) 64
  { w with
    ring := ring.writeSqe slot (await.setUserData request)
    parkedCount := w.parkedCount + 1#32 }.record (.stage fiber)

/-- `park` up to the flush it may need. -/
def park (w : Image) (turns : U32) (fiber request : Addr) : Except Stop Image :=
  let await : Sqe := block w.memory (RequestRecord.argument w.memory request) 64
  if await.flags ≠ 0#8 ∨ w.parkedCount = w.ring.cqEntries then .error (.trap .parkRefused)
  else
    match w.ring.appendSqe with
    | some (slot, ring) => .ok { w.fill fiber request slot ring with control := .sweep (turns - 1#32) }
    | none => .ok { w with control := .flush turns fiber request }

/-- `park` after its flush has returned. -/
def parkFlushed (w : Image) (turns : U32) (fiber request : Addr) (result : Long) : Except Stop Image :=
  if syscallFailed result then .error (.trap .flushFailed)
  else
    match w.ring.appendSqe with
    | some (slot, ring) => .ok { w.fill fiber request slot ring with control := .sweep (turns - 1#32) }
    | none => .error (.trap .appendFailed)

/-! ### Requests -/

/-- `case __LIBUC_FIBER_REQUEST_EXIT`. -/
def serveExit (w : Image) (fiber : Addr) : Except Stop Image :=
  if life pf.arch w.memory fiber = Life.detached.word then w.reclaim pf fiber .exitDetached
  else
    let joiner := get pf.arch w.memory fiber .joiner
    if joiner = 0#64 then .ok w
    else do
      let w := { w with joiningCount := w.joiningCount - 1#32 }
      let w := w.write
          (RequestRecord.setResult w.memory joiner (toLong (status pf.arch w.memory fiber)))
      let w ← w.reclaim pf fiber .exitJoined
      pure (w.enqueue pf (RequestRecord.fiber w.memory joiner))

/-- `case __LIBUC_FIBER_REQUEST_SPAWN`. -/
def serveSpawn (w : Image) (fiber request : Addr) (stackAnswer blockAnswer : Long) : Image :=
  let argument := RequestRecord.spawnAt w.memory (RequestRecord.argument w.memory request)
  let r := w.spawn pf argument stackAnswer blockAnswer
  let w := r.2
  let w := w.write (RequestRecord.setResult w.memory request (r.1.getD 0#64))
  let w := w.record (.spawn fiber r.1)
  let w := w.enqueue pf fiber
  r.1.elim w fun spawned => w.enqueue pf spawned

/-- `case __LIBUC_FIBER_REQUEST_JOIN`. -/
def serveJoin (w : Image) (fiber request : Addr) : Except Stop Image :=
  let target := RequestRecord.argument w.memory request
  if target = fiber ∨ get pf.arch w.memory target .joiner ≠ 0#64 ∨
    life pf.arch w.memory target = Life.detached.word then
    .error (.trap .joinRefused)
  else if life pf.arch w.memory target = Life.exited.word then do
    let w := w.write
        (RequestRecord.setResult w.memory request (toLong (status pf.arch w.memory target)))
    let w ← w.reclaim pf target .joinReclaim
    pure (w.enqueue pf fiber)
  else
    let w := w.write (set pf.arch w.memory target .joiner request)
    .ok ({ w with joiningCount := w.joiningCount + 1#32 }.record (.block fiber target))

/-- `case __LIBUC_FIBER_REQUEST_DETACH`. -/
def serveDetach (w : Image) (fiber request : Addr) : Except Stop Image :=
  let target := RequestRecord.argument w.memory request
  if get pf.arch w.memory target .joiner ≠ 0#64 ∨ life pf.arch w.memory target = Life.detached.word then
    .error (.trap .detachRefused)
  else do
    let w ← if life pf.arch w.memory target = Life.exited.word then w.reclaim pf target .detachReclaim
      else pure ((w.write (setLife pf.arch w.memory target Life.detached.word)).record (.detach target))
    pure (w.enqueue pf fiber)

/-- The `switch`, with the `turns--` that follows each `break`; it has no default. -/
def serve (w : Image) (turns : U32) (fiber : Addr) (v : Visit) : Except Stop Image :=
  let request := v.frame
  let resumeSweep := fun w : Image => { w with control := .sweep (turns - 1#32) }
  match (RequestRecord.kind w.memory request).toNat with
  | 1 => .ok (resumeSweep (w.enqueue pf fiber))
  | 2 => resumeSweep <$> w.serveExit pf fiber
  | 3 => w.park turns fiber request
  | 4 => .ok (resumeSweep (w.serveSpawn pf fiber request v.stackAnswer v.blockAnswer))
  | 5 => resumeSweep <$> w.serveJoin pf fiber request
  | 6 => resumeSweep <$> w.serveDetach pf fiber request
  | 7 => .ok { w with control := .exited (toInt (RequestRecord.argument w.memory request)) }
  | _ => .ok (resumeSweep w)

/-- One round of the sweep. -/
def dispatch (w : Image) (turns : U32) (v : Visit) : Except Stop Image := do
  let (fiber, w) ← w.dequeue pf
  let w ← w.resume pf fiber v
  w.serve pf turns fiber v

/-! ### The loop -/

/-- `while (parked_count + ready_count != 0)`, and what follows the loop. -/
def testLoop (w : Image) : Image :=
  if w.parkedCount + w.readyCount ≠ 0#32 then { w with control := .sweep w.readyCount }
  else if w.joiningCount ≠ 0#32 then { w with control := .stopped (.trap .joinCycle) }
  else { w with control := .drained }

def boundary (w : Image) : Image :=
  if w.parkedCount = 0#32 then { w with control := .test }
  else { w with control := .submit (if w.readyCount = 0#32 then 1#32 else 0#32) }

/-- One round of the reap loop. -/
def reapOne (w : Image) : Except Stop Image :=
  match w.ring.reap with
  | (none, ring) => .ok { w with ring := ring, control := .test }
  | (some completion, ring) =>
    if completion.flags &&& State.streamFlags ≠ 0#32 then .error (.trap .completionFlags)
    else
      let w := { w with ring := ring }
      let answered := completion.userData
      let w := w.write (RequestRecord.setResult w.memory answered (toLong completion.res))
      let woken := RequestRecord.fiber w.memory answered
      let w := { w with parkedCount := w.parkedCount - 1#32 }
      .ok ((w.record (.reap completion)).enqueue pf woken)

/-- `io_uring_enter` takes the SQEs its result counts. -/
def take (w : Image) (minComplete : U32) (result : Long) : Image :=
  let call := w.ring.enter minComplete result
  { w with
    held := w.held ++ State.numbered w.taken call.taken
    taken := w.taken + call.taken.length }.record (.enter call)

/-- The kernel completes the operation with this number. -/
def complete (w : Image) (number : ℕ) (res : CInt) (flags : U32) : Option Image :=
  (w.held.find? (fun op => op.number = number)).map fun op =>
    { w with
      held := w.held.eraseP (fun op => op.number = number)
      ring := w.ring.post ⟨op.sqe.userData, res, flags⟩ }.record
        (.post number ⟨op.sqe.userData, res, flags⟩)

/-- A death leaves the image as it was before the step. -/
def settle (w : Image) : Except Stop Image → Image
  | .ok next => next
  | .error stop => { w with control := .stopped stop }

end Image

/-! ### Steps -/

/-- What happens next. `launch` is control code outside the loop, which has given up when a
creation fails; `store` is a write into user memory by the kernel. -/
inductive Occasion where
  | launch (argument : SpawnRequest) (stackAnswer blockAnswer : Long)
  | run
  | tick
  | turn (v : Visit)
  | enter (result : Long)
  | post (number : ℕ) (res : CInt) (flags : U32)
  | store (writes : List (Addr × Byte))

namespace Image

variable (pf : Platform)

def next (w : Image) : Occasion → Option Image
  | .launch argument stackAnswer blockAnswer =>
    if w.control.ready then
      let r := w.spawn pf argument stackAnswer blockAnswer
      some (r.1.elim r.2 fun fiber =>
        ({ r.2 with control := .idle }.record (.launch fiber)).enqueue pf fiber)
    else none
  | .run => if w.control.ready then some { w with control := .test } else none
  | .tick =>
    match w.control with
    | .test => some w.testLoop
    | .sweep turns => if turns = 0#32 then some w.boundary else none
    | .reap => some (w.settle (w.reapOne pf))
    | _ => none
  | .turn v =>
    match w.control with
    | .sweep turns => if turns = 0#32 then none else some (w.settle (w.dispatch pf turns v))
    | _ => none
  | .enter result =>
    match w.control with
    | .flush turns fiber request =>
      match w.ring.submitPass result with
      | .again ring => some { w.take 0#32 result with ring := ring }
      | .done value ring =>
        some (w.settle ({ w.take 0#32 result with ring := ring }.parkFlushed turns fiber request value))
    | .submit minComplete =>
      match w.ring.submitPass result with
      | .again ring => some { w.take minComplete result with ring := ring }
      | .done value ring =>
        some (w.settle (if syscallFailed value then .error (.trap .submitFailed)
          else .ok { w.take minComplete result with ring := ring, control := .reap }))
    | _ => none
  | .post number res flags => if w.control.running then w.complete number res flags else none
  | .store writes => some (w.write (storeBytes w.memory writes))

end Image

end Libuc
