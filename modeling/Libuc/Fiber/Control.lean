import Libuc.Fiber.Basic

/-! Resuming and suspending, with the thread pointer. The switch is taken as an ideal
transfer: a context holds the code that is to run when it is switched to, and a switch
saves one and runs another. Contexts are named by their addresses, a fiber's own being
at the start of its record and a resume's on the resumer's frame. The log says what was
called and what came back, newest first. -/

namespace Libuc.Control

/-- Whose code runs: the outermost control code, or a fiber. -/
inductive Party where
  | control
  | fiber (fiber : Addr)
  deriving DecidableEq

/-- What is left to do when a context is switched to. `call` is the place of the call in
the log. -/
inductive Continuation where
  | entry (fiber : Addr)
  | resume (caller : Party) (fiber callerThreadPointer : Addr) (call : ℕ)
  | suspend (fiber request : Addr) (call : ℕ)
  | trap

/-- The part of `struct __libuc_fiber` that `fiber.c` uses here; null is zero. -/
structure Record where
  threadPointer : Addr
  returnTo : Addr
  status : CInt
  life : Life

inductive Event where
  | created (fiber : Addr)
  | resume (caller : Party) (fiber threadPointer : Addr)
  | entered (fiber : Addr)
  | suspend (fiber request : Addr) (call : Call)
  | returned (caller : Party) (fiber request : Addr) (call : ℕ)
  | continued (fiber request : Addr) (call : ℕ) (answer : Option Long)

structure State where
  threadPointer : Addr
  running : Party
  records : Addr → Option Record
  tcb : Addr → Addr
  contexts : Addr → Option Continuation
  requests : Addr → Request
  log : List Event

/-! ### The functions -/

/-- `__libuc_fiber_current`. -/
def fiberCurrent (s : State) : Addr := if s.threadPointer = 0#64 then 0#64 else s.tcb s.threadPointer

def setRecord (s : State) (fiber : Addr) (record : Record) : State :=
  { s with records := Function.update s.records fiber (some record) }

/-- The rest of `__libuc_fiber_resume`, once it is switched back to with `token`. -/
def finishResume (s : State) (caller : Party) (fiber callerThreadPointer : Addr) (call : ℕ)
    (token : Addr) : Option State := do
  let s := { s with threadPointer := callerThreadPointer }
  if token = 0#64 then none
  else
    let record ← s.records fiber
    let s := match (s.requests token).ask with
      | .exit =>
        let s := { s with contexts := Function.update s.contexts fiber none }
        setRecord s fiber { record with life := if record.life = .live then .exited else record.life }
      | _ => s
    let record ← s.records fiber
    let s := setRecord s fiber { record with returnTo := 0#64 }
    let request := { s.requests token with fiber := some fiber }
    some { s with
      requests := Function.update s.requests token request
      running := caller
      log := .returned caller fiber token call :: s.log }

/-- Run what a context holds. The entry and a suspended call go on in fiber code, the
call with its answer. -/
def continueWith (s : State) (token : Addr) : Continuation → Option State
  | .entry fiber => some { s with running := .fiber fiber, log := .entered fiber :: s.log }
  | .resume caller fiber callerThreadPointer call =>
    finishResume s caller fiber callerThreadPointer call token
  | .suspend fiber request call =>
    let answer := (s.requests request).answer
    some { s with running := .fiber fiber, log := .continued fiber request call answer :: s.log }
  | .trap => none

/-- `fiber_switch`, as an ideal transfer: it faults if nothing is saved at `restore`. -/
def fiberSwitch (s : State) (save : Addr) (here : Continuation) (restore token : Addr) :
    Option State := do
  let s := { s with contexts := Function.update s.contexts save (some here) }
  continueWith s token (← s.contexts restore)

/-- `__libuc_fiber_resume`, with the address of its local context. -/
def fiberResume (s : State) (fiber here : Addr) : Option State := do
  let record ← s.records fiber
  let s := setRecord s fiber { record with returnTo := here }
  let callerThreadPointer := s.threadPointer
  let call := s.log.length
  let s := { s with
    threadPointer := record.threadPointer
    log := .resume s.running fiber callerThreadPointer :: s.log }
  fiberSwitch s here (.resume s.running fiber callerThreadPointer call) fiber 0#64

/-- What every suspension does once it knows its fiber: put the request on the frame and
switch to the pending resume. -/
def switchOut (s : State) (fiber : Addr) (call : Call) (request : Addr) (here : Continuation) :
    Option State := do
  let record ← s.records fiber
  let s := { s with
    requests := Function.update s.requests request ⟨call.ask, 0#64, none⟩
    log := .suspend fiber request call :: s.log }
  fiberSwitch s fiber here record.returnTo request

def suspendCurrent (s : State) (call : Call) (request : Addr) : Option State :=
  switchOut s (fiberCurrent s) call request (.suspend (fiberCurrent s) request s.log.length)

/-- `__libuc_fiber_yield`. -/
def fiberYield (s : State) (request : Addr) : Option State := suspendCurrent s .yield request

/-- `__libuc_fiber_await`. -/
def fiberAwait (s : State) (sqe : Sqe) (request : Addr) : Option State :=
  suspendCurrent s (.await sqe) request

/-- `__libuc_fiber_join`. -/
def fiberJoin (s : State) (target request : Addr) : Option State :=
  suspendCurrent s (.join target) request

/-- `__libuc_fiber_detach`. -/
def fiberDetach (s : State) (target request : Addr) : Option State :=
  suspendCurrent s (.detach target) request

/-- `__libuc_fiber_start`. -/
def fiberStart (s : State) (spawn : SpawnRequest) (request : Addr) : Option State :=
  suspendCurrent s (.start spawn) request

/-- `exit_fiber`. -/
def exitFiber (s : State) (fiber : Addr) (status : CInt) (request : Addr) : Option State := do
  let record ← s.records fiber
  let s := setRecord s fiber { record with status := status }
  switchOut s fiber (.exit status) request .trap

/-- `__libuc_fiber_exit`. -/
def fiberExit (s : State) (status : CInt) (request : Addr) : Option State :=
  exitFiber s (fiberCurrent s) status request

/-- `__libuc_fiber_process_exit`. -/
def fiberProcessExit (s : State) (fiber : Addr) (status : CInt) (request : Addr) : Option State :=
  switchOut s fiber (.processExit status) request .trap

/-- What `__libuc_fiber_spawn` leaves: the record, its context and its TCB. -/
def fiberSpawned (s : State) (fiber threadPointer : Addr) : State :=
  { setRecord s fiber ⟨threadPointer, 0#64, 0#32, .live⟩ with
    contexts := Function.update s.contexts fiber (some (.entry fiber))
    tcb := Function.update s.tcb threadPointer fiber
    log := .created fiber :: s.log }

def perform (s : State) (call : Call) (request : Addr) : Option State :=
  match call with
  | .yield => fiberYield s request
  | .await sqe => fiberAwait s sqe request
  | .join target => fiberJoin s target request
  | .detach target => fiberDetach s target request
  | .start spawn => fiberStart s spawn request
  | .exit status => fiberExit s status request
  | .processExit status => fiberProcessExit s (fiberCurrent s) status request

/-! ### What the log says -/

def active : List Event → List Addr
  | [] => []
  | .resume _ fiber _ :: log => fiber :: active log
  | .returned _ fiber _ _ :: log => (active log).erase fiber
  | _ :: log => active log

def ends : Call → Bool
  | .exit _ | .processExit _ => true
  | _ => false

def ended : List Event → Addr → Bool
  | [], _ => false
  | .created fiber :: log, f => fiber ≠ f && ended log f
  | .suspend fiber _ call :: log, f => (fiber = f && ends call) || ended log f
  | _ :: log, f => ended log f

/-- The latest resume of a fiber: who called it, with which thread pointer, and where in
the log. -/
def latestResume : List Event → Addr → Option (Party × Addr × ℕ)
  | [], _ => none
  | .resume caller fiber threadPointer :: log, f =>
    if fiber = f then some (caller, threadPointer, log.length) else latestResume log f
  | _ :: log, f => latestResume log f

def latestSuspend : List Event → Addr → Option (Addr × ℕ)
  | [], _ => none
  | .created fiber :: log, f => if fiber = f then none else latestSuspend log f
  | .suspend fiber request _ :: log, f =>
    if fiber = f then some (request, log.length) else latestSuspend log f
  | _ :: log, f => latestSuspend log f

/-! ### Executions -/

/-- A fiber that may be resumed, and a local context for it: an object that is no record
and no other pending resume's context. -/
structure Resumable (s : State) (fiber here : Addr) : Prop where
  exists_record : ∃ record, s.records fiber = some record
  idle : fiber ∉ active s.log
  live : ended s.log fiber = false
  here_ne : here ≠ 0#64
  here_new : s.records here = none ∧ ∀ f record, s.records f = some record → record.returnTo ≠ here

/-- Addresses for a new fiber: a record and a thread-local block that are no other
fiber's, and no pending resume's context. -/
structure Fresh (s : State) (fiber threadPointer : Addr) : Prop where
  record_ne : fiber ≠ 0#64
  record_new : s.records fiber = none ∧ ∀ f record, s.records f = some record → record.returnTo ≠ fiber
  block_ne : threadPointer ≠ 0#64
  block_new : ∀ f record, s.records f = some record → record.threadPointer ≠ threadPointer

/-- One step of whoever runs. A fiber's calls are made with its own thread pointer
installed; only a return from its entry, or from `main`, may leave another one. Answers
and marks are written by schedulers. -/
inductive Step (s : State) : State → Prop
  | created {fiber threadPointer : Addr} (h : Fresh s fiber threadPointer) :
      Step s (fiberSpawned s fiber threadPointer)
  | destroyed {fiber : Addr} {record : Record} (hf : s.records fiber = some record)
      (h : fiber ∉ active s.log) :
      Step s { s with
        records := Function.update s.records fiber none
        contexts := Function.update s.contexts fiber none }
  | answered {request : Addr} {result : Long} :
      Step s { s with requests := Function.update s.requests request { s.requests request with result := result } }
  | marked {fiber : Addr} {record : Record} {life : Life} (h : s.records fiber = some record) :
      Step s (setRecord s fiber { record with life := life })
  | resumed {fiber here : Addr} {s' : State} (h : Resumable s fiber here)
      (hs : fiberResume s fiber here = some s') : Step s s'
  | suspended {fiber request : Addr} {call : Call} {s' : State} (h : s.running = .fiber fiber)
      (hr : request ≠ 0#64)
      (hs : perform s call request = some s') : Step s s'
  | exited {fiber request foreign : Addr} {status : CInt} {s' : State}
      (h : s.running = .fiber fiber) (hr : request ≠ 0#64)
      (hs : exitFiber { s with threadPointer := foreign } fiber status request = some s') : Step s s'
  | processExited {fiber request foreign : Addr} {status : CInt} {s' : State}
      (h : s.running = .fiber fiber) (hr : request ≠ 0#64)
      (hs : fiberProcessExit { s with threadPointer := foreign } fiber status request =
      some s') : Step s s'

structure Initial (original : Addr) (s : State) : Prop where
  threadPointer : s.threadPointer = original
  running : s.running = .control
  records : ∀ f, s.records f = none
  log : s.log = []

end Libuc.Control
