import Libuc.Uc.SchedulerRing

/-! The operation records of `uc/scheduler/scheduler.c`. A fiber suspends with a request
that may name an operation; the reactor appends the operation's SQE once, with the record's
address as its cookie, and every CQE of it is written into the record before the owner is
resumed. What a fiber does next, and what the kernel answers to a submission, are inputs.
The loop around the two entry points is not written yet: `dispatch` and
`handle_completion` may be called in any order, and the ring submitted at any time. -/

namespace Libuc

open Lib

namespace SchedulerRing

/-- The SQEs the kernel takes while `__libuc_scheduler_ring_submit` runs on these
answers. -/
def taken (ring : SchedulerRing) : List Long → List Sqe
  | [] => []
  | result :: answers =>
    ring.staged.take (Ring.takes result) ++
      match ring.submitPass result with
      | .done _ _ => []
      | .again next => taken next answers

/-- The kernel keeps to what it may answer in every round of the submit loop. -/
def AdmitsAll (ring : SchedulerRing) : List Long → Prop
  | [] => True
  | result :: answers =>
    Ring.Admits ring.batchCount.toNat result ∧
      match ring.submitPass result with
      | .done _ _ => True
      | .again next => AdmitsAll next answers

end SchedulerRing

namespace Reactor

/-- `enum operation_state`. -/
inductive OperationState where
  | prepared | inFlight | complete
  deriving DecidableEq

/-- `struct completion`. -/
structure Completion where
  result : CInt
  flags : U32

/-- `struct operation`. -/
structure Operation where
  owner : Addr
  submission : Sqe
  completion : Completion
  state : OperationState

/-- `struct request`, which stays on the suspended fiber's stack. -/
inductive Request where
  | yield
  | next (operation : Addr)
  deriving DecidableEq

/-- `struct uc_fiber_result`. -/
inductive Result where
  | returned (value : Addr)
  | suspended (request : Request)
  deriving DecidableEq

/-- A completion that resumed the owner of its operation, and how the owner had last come
back from a resume. -/
structure Wake where
  operation : Addr
  latest : Option Result

/-- The scheduler, the operation records, what each fiber was last given and how it came
back, and the history of the ring: the operations appended, those the kernel has taken, and
those whose last CQE has been handled. The history is read by nothing. -/
structure State where
  ring : SchedulerRing
  operations : Addr → Option Operation
  received : Addr → Option Addr
  latest : Addr → Option Result
  stopped : Bool
  appended : List Addr
  taken : List Addr
  finished : List Addr
  wakes : List Wake

namespace State

/-- `__builtin_trap`, or a pointer to nothing. -/
def trap (s : State) : State := { s with stopped := true }

/-- The end of `handle_next`, once a slot has been found. -/
def fill (s : State) (scheduled operation : Addr) (op : Operation) (slot : Addr)
    (ring : SchedulerRing) : State :=
  { s with
    ring := ring.writeSqe slot (op.submission.setUserData operation)
    operations := Function.update s.operations operation (some { op with owner := scheduled, state := .inFlight })
    appended := s.appended ++ [operation] }

/-- `__libuc_scheduler_ring_submit` against the kernel's answers. -/
def submit (s : State) (minComplete : U32) (answers : List Long) : State :=
  { s with
    ring := (s.ring.submit minComplete answers).ring
    taken := s.taken ++ (s.ring.taken answers).map Sqe.userData }

/-- `handle_next`. Absent while the submission it makes on a full ring has not ended. -/
def handleNext (s : State) (scheduled operation : Addr) (answers : List Long) : Option State :=
  match s.operations operation with
  | none => some s.trap
  | some op =>
    if op.state ≠ .prepared then some s
    else
      match s.ring.append with
      | some (slot, ring) => some (s.fill scheduled operation op slot ring)
      | none =>
        match (s.ring.submit 0#32 answers).result with
        | none => none
        | some result =>
          let s := s.submit 0#32 answers
          if syscallFailed result then some s.trap
          else
            match s.ring.append with
            | none => some s.trap
            | some (slot, ring) => some (s.fill scheduled operation op slot ring)

/-- `dispatch`, where `uc_fiber_resume` hands `value` to the fiber and comes back with
`result`. -/
def dispatch (s : State) (scheduled value : Addr) (result : Result) (answers : List Long) :
    Option State :=
  let s := { s with
    received := Function.update s.received scheduled (some value)
    latest := Function.update s.latest scheduled (some result) }
  match result with
  | .returned _ => some s
  | .suspended .yield => some s
  | .suspended (.next operation) => s.handleNext scheduled operation answers

/-- `&operation->completion`. -/
def completionAt (operation : Addr) : Addr := operation + 72#64

/-- `IORING_CQE_F_MORE`. -/
def cqeFMore : U32 := 2#32

def completed (op : Operation) (cqe : Cqe) : Operation :=
  { op with
    completion := ⟨cqe.res, cqe.flags⟩
    state := if cqe.flags &&& cqeFMore = 0#32 then .complete else op.state }

/-- `handle_completion`. -/
def handleCompletion (s : State) (cqe : Cqe) (result : Result) (answers : List Long) : Option State :=
  let operation := cqe.userData
  match s.operations operation with
  | none => some s.trap
  | some op =>
    let s := { s with
      operations := Function.update s.operations operation (some (completed op cqe))
      finished := if cqe.flags &&& cqeFMore = 0#32 then s.finished ++ [operation] else s.finished
      wakes := s.wakes ++ [(⟨operation, s.latest op.owner⟩ : Wake)] }
    s.dispatch op.owner (completionAt operation) result answers

end State

/-- A call from the loop, with what the fiber it resumes and the kernel do. -/
inductive Input where
  | dispatch (scheduled value : Addr) (result : Result) (answers : List Long)
  | completion (cqe : Cqe) (result : Result) (answers : List Long)
  | submit (minComplete : U32) (answers : List Long)

/-- One call; absent when it has not ended, or after a trap. -/
def step (s : State) : Input → Option State
  | .dispatch scheduled value result answers =>
      if s.stopped then none else s.dispatch scheduled value result answers
  | .completion cqe result answers => if s.stopped then none else s.handleCompletion cqe result answers
  | .submit minComplete answers =>
    if s.stopped then none
    else if (s.ring.submit minComplete answers).result = none then none
    else some (s.submit minComplete answers)

def resumes (s : State) : Input → Option (Addr × Result)
  | .dispatch scheduled _ result _ => some (scheduled, result)
  | .completion cqe result _ => (s.operations cqe.userData).map fun op => (op.owner, result)
  | .submit _ _ => none

def Input.answers : Input → List Long
  | .dispatch _ _ _ answers => answers
  | .completion _ _ answers => answers
  | .submit _ answers => answers

/-- What the loop, the fibers and the kernel may do, when `owns` tells whose each operation
is: a fiber names only operations of its own, and a CQE belongs to an SQE that was taken
and has not had its last. -/
structure Allowed (owns : Addr → Addr) (s : State) (i : Input) : Prop where
  names : ∀ f x, resumes s i = some (f, .suspended (.next x)) → owns x = f ∧
    (s.operations x).isSome = true
  answers : s.ring.AdmitsAll i.answers
  posted : ∀ cqe result answers, i = .completion cqe result answers →
    cqe.userData ∈ s.taken ∧ cqe.userData ∉ s.finished

/-- A call that also meets `condition`. -/
def Step (owns : Addr → Addr) (condition : State → Input → Prop) (s s' : State) : Prop :=
  ∃ i, Allowed owns s i ∧ condition s i ∧ step s i = some s'

abbrev Run (owns : Addr → Addr) (condition : State → Input → Prop) : State → State → Prop :=
  Relation.ReflTransGen (Step owns condition)

structure Initial (s : State) : Prop where
  batchCount : s.ring.batchCount = 0#32
  prepared : ∀ x op, s.operations x = some op → op.state = .prepared
  latest : ∀ f, s.latest f = none
  stopped : s.stopped = false
  history : s.appended = [] ∧ s.taken = [] ∧ s.finished = [] ∧ s.wakes = []

def stateOf (s : State) (x : Addr) : Option OperationState := (s.operations x).map Operation.state

/-- A completion resumes the owner only while it waits for that very operation. -/
def WakeRule (s : State) : Prop := ∀ w ∈ s.wakes, w.latest = some (.suspended (.next w.operation))

/-- A call ends operation `x`. -/
def Ends (x : Addr) (i : Input) : Prop :=
  ∃ cqe result answers, i = .completion cqe result answers ∧ cqe.userData = x ∧
  cqe.flags &&& State.cqeFMore = 0#32

/-- A fiber that is resumed while an operation of its own is in flight, and not ended by
this call, comes back waiting for that operation. -/
def Disciplined (owns : Addr → Addr) (s : State) (i : Input) : Prop :=
  ∀ f result, resumes s i = some (f, result) → ∀ x, owns x = f →
  stateOf s x = some .inFlight → ¬Ends x i →
    result = .suspended (.next x)

end Reactor

end Libuc
