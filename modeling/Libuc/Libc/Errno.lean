import Libuc.Libc.Calls
import Libuc.Scheduler.Await

/-! Fibers that make libc calls, over the reactor. `errno` is a word of the thread-local
block whose thread pointer is installed; `__libuc_fiber_resume` installs the fiber's own for
the time the fiber runs. A call that suspends leaves its frame on the fiber's stack, and its
`errno` is written only when the fiber has been resumed with the result. Between two
suspensions a fiber may assign `errno` and make calls that are refused; it leaves its own
thread pointer installed. -/

namespace Libuc.Libc

open Scheduler

/-- What a fiber does between two suspensions, up to the one it stops in. -/
inductive Act where
  | assign (value : CInt)
  | libc (call : LibcCall)
  | other (call : Call)

/-- A libc call that has suspended: the call, and, for the record, `errno` and the log at
that time. -/
structure Frame where
  call : LibcCall
  errno : CInt
  pre : List Event

/-- A libc call that has returned: `errno` when it was made and when it returned, and, if
it was not refused, the log before the turn that made it and since that turn. -/
structure Return where
  fiber : Addr
  call : LibcCall
  before : CInt
  value : Long
  after : CInt
  history : Option (List Event × List Event)

/-- The reactor, the installed thread pointer, the thread pointer in each fiber's record,
the word `errno` of each block, the libc call each fiber is suspended in, and the calls that
have returned, which nothing reads. -/
structure World where
  scheduler : State
  threadPointer : Addr
  blocks : Addr → Addr
  errno : Addr → CInt
  frames : Addr → Option Frame
  returns : List Return

namespace World

/-- The `errno` of a fiber. -/
def errnoOf (w : World) (f : Addr) : CInt := w.errno (w.blocks f)

/-- An assignment to `errno`, through the installed thread pointer. -/
def setErrno (w : World) (value : CInt) : World :=
  { w with errno := Function.update w.errno w.threadPointer value }

/-- `request.result`, as `__libuc_fiber_await` returns it. -/
def result (w : World) (f : Addr) : Option Long :=
  ((w.scheduler.fibers f).bind fun fb => fb.frame.bind w.scheduler.requests).bind Request.answer

/-- The end of a libc call, after the fiber has been switched back in. -/
def finish (w : World) (f : Addr) : World :=
  match w.frames f, w.result f with
  | some p, some res =>
    let (value, errno) := errnoResult res (w.errno w.threadPointer)
    { w.setErrno errno with
      frames := Function.update w.frames f none
      returns := w.returns ++ [⟨f, p.call, p.errno, p.call.convert value, errno,
        some (p.pre, w.scheduler.log.drop (p.pre.length + 1))⟩] }
  | _, _ => w

def refuse (w : World) (f : Addr) (call : LibcCall) : World :=
  { w.setErrno einval with
    returns := w.returns ++ [⟨f, call, w.errno w.threadPointer, minusOne, einval, none⟩] }

/-- The fiber's own code, up to the call it suspends in. -/
def perform (w : World) (f : Addr) : List Act → World × Option (Call × Option LibcCall)
  | [] => (w, none)
  | .assign value :: acts => (w.setErrno value).perform f acts
  | .libc call :: acts =>
    match call.submission with
    | none => (w.refuse f call).perform f acts
    | some sqe => (w, some (.await sqe, some call))
  | .other call :: _ => (w, some (call, none))

/-- A new fiber gets a block, with `errno` zero. -/
def place (w : World) (fiber threadPointer : Addr) : World :=
  { w with
    blocks := Function.update w.blocks fiber threadPointer
    errno := Function.update w.errno threadPointer 0#32 }

/-- The block of the fiber that a `start` request creates. -/
def placeSpawned (w : World) (call : Call) (spawned : Option (Addr × Addr)) : World :=
  match call, spawned with
  | .start _, some (fiber, threadPointer) => w.place fiber threadPointer
  | _, _ => w

/-- One turn of the first ready fiber, inside `__libuc_fiber_resume`. -/
def turn (w : World) (acts : List Act) (frame : Addr) (spawned : Option (Addr × Addr))
    (unmapped : Bool) : Option World := do
  let f ← w.scheduler.readyHead
  let caller := w.threadPointer
  let (ran, stop) := ({ w with threadPointer := w.blocks f }.finish f).perform f acts
  let (call, libc) ← stop
  let s ← step w.scheduler (.turn ⟨call, frame, spawned.map Prod.fst, unmapped⟩)
  some ({ ran with
    scheduler := s
    threadPointer := caller
    frames := Function.update ran.frames f (libc.map fun c => ⟨c, ran.errno ran.threadPointer, w.scheduler.log⟩)
    }.placeSpawned call spawned)

end World

/-- What happens next: a turn, a fiber made outside the loop, or anything else the reactor
and the kernel do. -/
inductive Move where
  | turn (acts : List Act) (frame : Addr) (spawned : Option (Addr × Addr)) (unmapped : Bool)
  | launch (fiber : Addr) (spawn : SpawnRequest) (threadPointer : Addr)
  | reactor (input : Input)

def next (w : World) : Move → Option World
  | .turn acts frame spawned unmapped => w.turn acts frame spawned unmapped
  | .launch fiber spawn threadPointer =>
    (step w.scheduler (.launch fiber spawn)).map fun s =>
    { w with scheduler := s }.place fiber threadPointer
  | .reactor (.turn _) => none
  | .reactor (.launch _ _) => none
  | .reactor input => (step w.scheduler input).map fun s => { w with scheduler := s }

/-- A new block lies apart from the block of every fiber there is. -/
def Apart (w : World) (threadPointer : Addr) : Prop :=
  ∀ g ∈ w.scheduler.mapped, w.blocks g ≠ threadPointer

def Permitted (k : Kernel) (w : World) : Move → Prop
  | .turn _ frame spawned unmapped =>
    (∀ call, Allowed k w.scheduler (.turn ⟨call, frame, spawned.map Prod.fst, unmapped⟩)) ∧
      ∀ c threadPointer, spawned = some (c, threadPointer) → Apart w threadPointer
  | .launch fiber spawn threadPointer =>
    Allowed k w.scheduler (.launch fiber spawn) ∧ Apart w threadPointer
  | .reactor input => Allowed k w.scheduler input

def Next (k : Kernel) (w w' : World) : Prop := ∃ i, Permitted k w i ∧ next w i = some w'

structure Initial (w : World) : Prop where
  scheduler : ∃ g memory counter cqes, w.scheduler = become (Ring.created g memory counter cqes)
  frames : ∀ f, w.frames f = none
  returns : w.returns = []

def runs (w : World) : Move → Option Addr
  | .turn _ _ _ _ => w.scheduler.readyHead
  | _ => none

end Libuc.Libc
