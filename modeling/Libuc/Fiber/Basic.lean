import Libuc.Ring.Basic

/-! Fiber records and the requests by which a fiber suspends. A request lives on
the asking fiber's frame; its address is what travels to the scheduler. Fiber
code is not modelled: between two suspensions a fiber may do anything that does
not touch the scheduler's memory, so only the calls it makes into the runtime
appear here. -/

namespace Libuc

/-- `enum __libuc_fiber_life`. -/
inductive Life where
  | live | detached | exited
  deriving DecidableEq

/-- `struct __libuc_fiber_spawn_request`. -/
structure SpawnRequest where
  stackLength : BitVec 64
  entry : Addr
  argument : Addr
  deriving BEq, ReflBEq, LawfulBEq

/-- The kind of a request with the union member that kind reads. -/
inductive Ask where
  | yield
  | exit
  | await (argument : Sqe)
  | spawn (argument : SpawnRequest)
  | join (target : Addr)
  | detach (target : Addr)
  | processExit (status : Long)

/-- `struct __libuc_fiber_request`. -/
structure Request where
  ask : Ask
  result : Long
  fiber : Option Addr

/-- Where a fiber stopped: at its entry, in a switch, or nowhere because its
exit zeroed the context. -/
inductive Context where
  | entry | saved | zeroed
  deriving DecidableEq

/-- The part of `struct __libuc_fiber` that the scheduler and `fiber.c` keep
about control. `frame` is the address of the request on the fiber's stack. -/
structure Fiber where
  context : Context
  entry : Addr
  argument : Addr
  readyNext : Option Addr
  joiner : Option Addr
  status : CInt
  life : Life
  frame : Option Addr

/-- The record `__libuc_fiber_spawn` builds. -/
def Fiber.spawned (spawn : SpawnRequest) : Fiber where
  context := .entry
  entry := spawn.entry
  argument := spawn.argument
  readyNext := none
  joiner := none
  status := 0
  life := .live
  frame := none

/-- The calls by which a fiber suspends or ends. Returning from the entry is the
call `exit` made by `run_fiber`. -/
inductive Call where
  | yield
  | exit (status : CInt)
  | await (sqe : Sqe)
  | start (spawn : SpawnRequest)
  | join (target : Addr)
  | detach (target : Addr)
  | processExit (status : CInt)
  deriving BEq, ReflBEq, LawfulBEq

def Call.ask : Call → Ask
  | .yield => .yield
  | .exit _ => .exit
  | .await sqe => .await sqe
  | .start spawn => .spawn spawn
  | .join target => .join target
  | .detach target => .detach target
  | .processExit status => .processExit (toLong status)

/-- What the suspended call hands back to the fiber: `await`, `join` and `start`
return the request's result, the others return nothing. -/
def Request.answer (request : Request) : Option Long :=
  match request.ask with
  | .await _ | .join _ | .spawn _ => some request.result
  | _ => none

/-- The record after the fiber's side of the switch has run on to `call`:
`exit_fiber` stores the status first, and `__libuc_fiber_resume` closes an exit
by zeroing the context and marking a live fiber exited. -/
def Fiber.suspend (fiber : Fiber) (call : Call) (frame : Addr) : Fiber :=
  match call with
  | .exit status => { fiber with
      context := .zeroed
      status := status
      life := if fiber.life = .live then .exited else fiber.life
      frame := some frame }
  | _ => { fiber with context := .saved, frame := some frame }

end Libuc
