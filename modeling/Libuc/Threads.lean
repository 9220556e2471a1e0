import Libuc.Image.Basic
import Libuc.Scheduler.Join
import Libuc.Scheduler.SpawnOrder

/-! `threads.h`. A thread is a fiber and its handle the address of the record. Each call
that suspends makes one request, and computes from the answer what it returns and what it
stores. In every run these are the values that C11 asks for. -/

namespace Libuc

open Lib Scheduler

/-- `thread_stack_length`. -/
def threadStackLength : BitVec 64 := 256#64 * 1024#64

def thrdSuccess : CInt := 0#32

def thrdNomem : CInt := 3#32

/-- The calls that suspend and return, with the pointers they are given. -/
inductive ThreadCall where
  | create (thr func arg : Addr)
  | detach (thr : Addr)
  | join (thr res : Addr)
  | yield

namespace ThreadCall

def request : ThreadCall → Call
  | .create _ func arg => .start ⟨threadStackLength, func, arg⟩
  | .detach thr => .detach thr
  | .join thr _ => .join thr
  | .yield => .yield

/-- The rest of the call once its request is answered: what it returns, where it is not
void, and memory after its own store. -/
def finish (m : Mem) (answer : Option Long) : ThreadCall → Option CInt × Mem
  | .create thr _ _ =>
    let thread := answer.getD 0#64
    if thread = 0#64 then (some thrdNomem, m) else (some thrdSuccess, store64 m thr thread)
  | .detach _ => (some thrdSuccess, m)
  | .join _ res =>
    let status := answer.getD 0#64
    (some thrdSuccess, if res = 0#64 then m else store32 m res (toInt status))
  | .yield => (none, m)

/-- What the return of a call tells; `mid` runs from the call to the return. A creation is
one attempt, and if it succeeds stores the handle of a thread that was not there. A join
stores what its thread ended with. -/
def Keeps (pre mid : List Event) (f : Addr) (a v : Option Long) (c : ThreadCall) : Prop :=
  match c with
  | .create thr _ _ =>
    ∃ m₁ m₂ made, mid = m₁ ++ .spawn f made :: m₂ ∧ (∀ made', .spawn f made' ∉ m₁ ++ m₂) ∧
      (∀ u, made = some u → u ≠ 0#64 ∧ (replay (pre ++ .resume f a c.request :: m₁)).tasks u = none) ∧
      ∀ m, c.finish m v = made.elim (some thrdNomem, m) fun u => (some thrdSuccess, store64 m thr u)
  | .detach thr => (.detach thr ∈ mid ∨ .destroy thr ∈ mid) ∧ ∀ m, c.finish m v = (some thrdSuccess, m)
  | .join thr res => ∃ status, JoinReturned pre (.resume f a c.request) f thr mid v status ∧
      ∀ m, c.finish m v = (some thrdSuccess, if res = 0#64 then m else store32 m res status)
  | .yield => ∀ m, c.finish m v = (none, m)

end ThreadCall

variable {pre mid post : List Event} {f thr func arg : Addr} {a v : Option Long} {c : Call}

/-- What answered a call that has returned, and which call it can be for. A fiber is
answered once, so it spawns at most once meanwhile. -/
theorem Scheduler.Legal.returned_by {call : Call}
    (h : Legal (pre ++ .resume f a call :: mid ++ .resume f v c :: post))
    (hy : call ≠ .yield) (hx : ∀ status, call ≠ .exit status) (hmid : ∀ e ∈ mid, e.resumed ≠ some f) :
    ∃ (m₁ : List Event) (e : Event) (m₂ : List Event) (w : Long) (t : Scheduler.Task),
    mid = m₁ ++ e :: m₂ ∧
      (replay (pre ++ .resume f a call :: m₁)).Enabled e ∧
      Gives (replay (pre ++ .resume f a call :: m₁)) e f w ∧
      (match e with
        | .spawn _ _ => ∃ argument, call = .start argument
        | .detach u => call = .detach u
        | .destroy u => call = .join u ∨ call = .detach u
        | .reap _ => ∃ sqe, call = .await sqe
        | _ => False) ∧
      t.call = some call ∧ t.answer = some w ∧ v = t.returned ∧ ∀ made, .spawn f made ∉ m₁ ++ m₂ := by
  obtain ⟨m₁, e, m₂, w, t, rfl, quiet, asks, he, gives, hcall, answer, hv, -⟩ := h.returned hy hx hmid
  have hlegal : Legal (pre ++ .resume f a call :: m₁) := by
    have h' : Legal (pre ++ .resume f a call :: m₁ ++ (e :: m₂ ++ .resume f v c :: post)) := by
      simpa using h
    exact h'.of_append
  obtain ⟨call', asks', hkind⟩ := gives.asks hlegal.inv he
  obtain rfl := asks.unique asks'
  refine ⟨m₁, e, m₂, w, t, rfl, he, gives, ?_, hcall, answer, hv, fun made hmade => ?_⟩
  · cases e <;> exact hkind
  · rcases List.mem_append.mp hmade with hmade | hmade
    · obtain ⟨p, q, hsplit⟩ := List.append_of_mem hmade
      exact (quiet p _ q hsplit).2 _ (.spawn made)
    · obtain ⟨p, q, rfl⟩ := List.append_of_mem hmade
      have hspawn : Legal (pre ++ .resume f a call :: m₁ ++ [e] ++ p ++ .spawn f made ::
          (q ++ .resume f v c :: post)) := by
        simpa using h
      obtain ⟨w', htold⟩ := gives.told he asks hx
      rw [← replay_concat] at htold
      obtain ⟨⟨t', ht', -, ha'⟩, -⟩ :=
        hspawn.of_append.stays_told htold fun e' he' => hmid e' (by simp [he'])
      obtain ⟨-, ⟨spawn, t₂, ht₂, -, hnone⟩, -⟩ := hspawn.enabled
      rw [ht'] at ht₂
      cases ht₂
      rw [ha'] at hnone
      cases hnone

/-- `thrd_create` returns after one attempt, and says how it went. -/
theorem Scheduler.Legal.create_returned
    (h : Legal (pre ++ .resume f a (ThreadCall.create thr func arg).request :: mid ++
      .resume f v c :: post))
    (hmid : ∀ e ∈ mid, e.resumed ≠ some f) : (ThreadCall.create thr func arg).Keeps pre mid f a v := by
  obtain ⟨m₁, e, m₂, w, t, rfl, he, gives, hkind, hcall, answer, hv, honce⟩ :=
    h.returned_by nofun nofun hmid
  have hvalue : v = some w := by
    rw [hv, Task.returned, hcall, answer]
    rfl
  cases gives with
  | spawn made =>
    obtain ⟨-, -, hnew⟩ := he
    refine ⟨m₁, m₂, made, rfl, honce, hnew, fun m => ?_⟩
    rw [hvalue]
    cases made with
    | none => rfl
    | some u => exact if_neg (hnew u rfl).1
  | detach u hand => cases hkind
  | destroy task heir => rcases hkind with hkind | hkind <;> cases hkind
  | reap posted =>
    obtain ⟨sqe, hkind⟩ := hkind
    cases hkind

/-- `thrd_detach` returns once the thread is detached, or gone. -/
theorem Scheduler.Legal.detach_returned
    (h : Legal (pre ++ .resume f a (ThreadCall.detach thr).request :: mid ++ .resume f v c :: post))
    (hmid : ∀ e ∈ mid, e.resumed ≠ some f) : (ThreadCall.detach thr).Keeps pre mid f a v := by
  obtain ⟨m₁, e, m₂, w, t, rfl, he, gives, hkind, -, -, -, -⟩ := h.returned_by nofun nofun hmid
  refine ⟨?_, fun m => rfl⟩
  cases gives with
  | spawn made =>
    obtain ⟨argument, hkind⟩ := hkind
    cases hkind
  | detach u hand =>
    cases hkind
    exact .inl (by simp)
  | destroy task heir =>
    rcases hkind with hkind | hkind <;> cases hkind
    exact .inr (by simp)
  | reap posted =>
    obtain ⟨sqe, hkind⟩ := hkind
    cases hkind

/-- `thrd_join` stores the status its thread ended with, unchanged by the way through a
`long`. -/
theorem Scheduler.Legal.thread_joined {res : Addr}
    (h : Legal (pre ++ .resume f a (ThreadCall.join thr res).request :: mid ++ .resume f v c :: post))
    (hmid : ∀ e ∈ mid, e.resumed ≠ some f) : (ThreadCall.join thr res).Keeps pre mid f a v := by
  obtain ⟨status, hjoin⟩ := Legal.join_returned h hmid
  refine ⟨status, hjoin, fun m => ?_⟩
  rw [hjoin.value, ThreadCall.finish, Option.getD_some, toInt_toLong]

/-- Whatever runs, a call of `threads.h` that returns has done what it is for. -/
theorem thread_calls_return (k : Kernel) (s : State) (reach : Reachable k s) :
    ∀ (call : ThreadCall) (pre mid post : List Event) (f : Addr) (a v : Option Long) (c : Call),
      s.log = pre ++ .resume f a call.request :: mid ++ .resume f v c :: post →
      (∀ e ∈ mid, e.resumed ≠ some f) →
      call.Keeps pre mid f a v := by
  intro call pre mid post f a v c hlog hmid
  have hlegal : Legal (pre ++ .resume f a call.request :: mid ++ .resume f v c :: post) :=
    hlog ▸ reach.good.refines.legal
  cases call with
  | create thr func arg => exact hlegal.create_returned hmid
  | detach thr => exact hlegal.detach_returned hmid
  | join thr res => exact hlegal.thread_joined hmid
  | yield => exact fun m => rfl

/-- The parent's `thrd_join` stores the 5 that the child ended with. -/
theorem thread_calls_return_closing :
    ∃ status, (∀ m, (ThreadCall.join Sample.child 0x5000#64).finish m (some 5#64) =
        (some thrdSuccess, store32 m 0x5000#64 status)) ∧ toLong status = 5#64 := by
  obtain ⟨status, hjoin, hfinish⟩ := thread_calls_return Sample.kernel _ Sample.reachable_closing
    (.join Sample.child 0x5000#64) (Sample.events.take 6) ((Sample.events.drop 7).take 10)
      [] Sample.parent
    (some Sample.child) (some 5#64) (.exit 0#32) Sample.log_closing (by decide)
  exact ⟨status, hfinish, (Option.some.inj hjoin.value).symm⟩

end Libuc
