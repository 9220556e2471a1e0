import Libuc.Lib.Lists
import Libuc.Scheduler.Basic

/-! What the reactor is for, without its pointers and counters. A board says
where every fiber is: in the ready list, in the scheduler's hand, with the
kernel on an operation, blocked on another fiber, or ended. Each logged event
moves at most one fiber; `Enabled` is the reason that allows the move. Replaying
a log gives the board it leads to, so every statement about a run can be read
off its log. -/

namespace Libuc.Scheduler

/-- A fiber as the programmer sees it: the call it is in, the answer that call
will get, and the claim others have on it. -/
structure Task where
  call : Option Call
  answer : Option Long
  detached : Bool
  joiner : Option Addr

namespace Task

/-- A fiber that has not run yet has nothing to wait for. -/
def new : Task := ⟨none, some 0#64, false, none⟩

/-- A yield is answered at once, every other call has to be. -/
def suspend (t : Task) (call : Call) : Task :=
  { t with
    call := some call
    answer := match call with
      | .yield => some 0#64
      | _ => none }

def exit (t : Task) : Option CInt :=
  match t.call with
  | some (.exit status) => some status
  | _ => none

def returned (t : Task) : Option Long :=
  match t.call with
  | some (.await _) | some (.join _) | some (.start _) => t.answer
  | _ => none

/-- Ended, and somebody still has to join or detach it. -/
def zombie (t : Task) : Bool := t.exit.isSome && !t.detached && t.joiner.isNone

end Task

/-- An operation, numbered in the order of staging. -/
structure Op where
  number : ℕ
  fiber : Addr
  sqe : Sqe

structure Reply where
  op : Op
  res : CInt
  flags : U32

/-- Where everything is. -/
structure Board where
  tasks : Addr → Option Task
  ready : List Addr
  hand : List Addr
  staged : List Op
  held : List Op
  posted : List Reply
  count : ℕ

namespace Board

def empty : Board := ⟨fun _ => none, [], [], [], [], [], 0⟩

/-- The operations between staging and reaping. -/
def ops (b : Board) : List Op := b.staged ++ b.held ++ b.posted.map Reply.op

def parked (b : Board) : List Addr := b.ops.map Op.fiber

/-- The fibers that are in a list, each of them once. -/
def placed (b : Board) : List Addr := b.ready ++ b.hand ++ b.parked

def modify (b : Board) (f : Addr) (g : Task → Task) : Board :=
  { b with tasks := Function.update b.tasks f ((b.tasks f).map g) }

def setAnswer (b : Board) (f : Addr) (value : Long) : Board :=
  b.modify f fun t => { t with answer := some value }

/-- The fiber a destruction answers: the one blocked on the destroyed fiber,
else the one in hand that asked for it. -/
def heir (b : Board) (f : Addr) (t : Task) : Option Addr :=
  match t.joiner with
  | some j => some j
  | none => b.hand.find? (fun g => g ≠ f)

/-- The answer a destruction gives: a join returns the status. -/
def bequest (b : Board) (heir : Addr) (t : Task) : Long :=
  match (b.tasks heir).bind Task.call, t.exit with
  | some (.join _), some status => toLong status
  | _, _ => 0#64

def apply (b : Board) : Event → Board
  | .launch f => { b with tasks := Function.update b.tasks f (some Task.new), hand := [f] }
  | .enqueue f => { b with ready := b.ready ++ [f], hand := b.hand.tail }
  | .resume f _ call =>
    match b.tasks f with
    | none => b
    | some t => { b with
        tasks := Function.update b.tasks f (some (t.suspend call))
        ready := b.ready.tail
        hand := if (t.suspend call).zombie then [] else [f] }
  | .spawn p none => b.setAnswer p 0#64
  | .spawn p (some c) =>
    { b.setAnswer p c with
      tasks := Function.update (b.setAnswer p c).tasks c (some Task.new)
      hand := [p, c] }
  | .block f t => { b.modify t (fun u => { u with joiner := some f }) with hand := [] }
  | .detach t =>
    let b := b.modify t fun u => { u with detached := true }
    match b.hand with
    | f :: _ => b.setAnswer f 0#64
    | [] => b
  | .destroy f =>
    match b.tasks f with
    | none => b
    | some t =>
      match b.heir f t with
      | none => { b with tasks := Function.update b.tasks f none, hand := [] }
      | some j =>
        { b.setAnswer j (b.bequest j t) with
          tasks := Function.update (b.setAnswer j (b.bequest j t)).tasks f none
          hand := [j] }
  | .stage f =>
    match (b.tasks f).bind Task.call with
    | some (.await sqe) =>
      { b with staged := b.staged ++ [⟨b.count, f, sqe⟩], count := b.count + 1, hand := [] }
    | _ => b
  | .enter call =>
    { b with
      held := b.held ++ b.staged.take call.taken.length
      staged := b.staged.drop call.taken.length }
  | .post number cqe =>
    match b.held.find? (fun op => op.number = number) with
    | none => b
    | some op => { b with
        held := b.held.eraseP (fun op => op.number = number)
        posted := b.posted ++ [⟨op, cqe.res, cqe.flags⟩] }
  | .reap _ =>
    match b.posted with
    | [] => b
    | r :: rest => { b.setAnswer r.op.fiber (toLong r.res) with posted := rest, hand := [r.op.fiber] }

/-- The fiber `f` is in the call `call` and has no answer yet. -/
def Asks (b : Board) (f : Addr) (call : Call) : Prop :=
  ∃ t, b.tasks f = some t ∧ t.call = some call ∧ t.answer = none

/-- The fiber `t` can still be joined or detached, and has not ended. -/
def Open (b : Board) (f : Addr) : Prop :=
  ∃ t, b.tasks f = some t ∧ t.exit = none ∧ t.detached = false ∧ t.joiner = none

/-- Why a record may be destroyed: its own exit finds it detached or joined, or
it is a zombie and the fiber in hand joins or detaches it. -/
inductive Reclaim (b : Board) (f : Addr) (t : Task) : Prop
  | detached (hand : b.hand = [f]) (h : t.detached = true) (hj : t.joiner = none)
  | joined (j : Addr) (hand : b.hand = [f]) (h : t.detached = false) (hj : t.joiner = some j)
  | asked (g : Addr) (hand : b.hand = [g]) (hne : g ≠ f) (h : t.detached = false) (hj : t.joiner = none)
      (ask : b.Asks g (.join f) ∨ b.Asks g (.detach f))

/-- The kernel's SQE is the fiber's, the cookie apart. -/
def SameButCookie (x y : Sqe) : Prop := ∀ j : Fin 64, (j : ℕ) < 32 ∨ 40 ≤ (j : ℕ) → x j = y j

def Enabled (b : Board) : Event → Prop
  | .launch f => f ≠ 0#64 ∧ b.tasks f = none ∧ b.hand = []
  | .enqueue f => ∃ rest t, b.hand = f :: rest ∧ b.tasks f = some t ∧ t.answer ≠ none
  | .resume f answer _ =>
    b.hand = [] ∧ b.ready.head? = some f ∧ ∃ t, b.tasks f = some t ∧ answer = t.returned
  | .spawn p result =>
    b.hand = [p] ∧ (∃ argument, b.Asks p (.start argument)) ∧
      ∀ c, result = some c → c ≠ 0#64 ∧ b.tasks c = none
  | .block f t => b.hand = [f] ∧ f ≠ t ∧ b.Asks f (.join t) ∧ b.Open t
  | .detach t => ∃ f, b.hand = [f] ∧ b.Asks f (.detach t) ∧ b.Open t
  | .destroy f => ∃ t, b.tasks f = some t ∧ t.exit ≠ none ∧ b.Reclaim f t
  | .stage f => b.hand = [f] ∧ ∃ sqe, b.Asks f (.await sqe)
  | .enter call =>
    List.Forall₂ (fun x op => SameButCookie x op.sqe) call.taken (b.staged.take call.taken.length)
  | .post number _ => ∃ op ∈ b.held, op.number = number
  | .reap cqe => b.hand = [] ∧ ∃ r rest, b.posted = r :: rest ∧ cqe.res = r.res

end Board

def replay (log : List Event) : Board := log.foldl Board.apply Board.empty

@[simp] theorem replay_nil : replay [] = Board.empty := rfl

@[simp] theorem replay_concat (log : List Event) (e : Event) :
    replay (log ++ [e]) = (replay log).apply e := by
  simp [replay]

/-- Every event of the log was enabled when it happened. -/
inductive Legal : List Event → Prop
  | nil : Legal []
  | concat {log : List Event} {e : Event} (h : Legal log) (he : (replay log).Enabled e) :
      Legal (log ++ [e])

theorem Legal.of_append {p q : List Event} (h : Legal (p ++ q)) : Legal p := by
  induction q using List.reverseRecOn with
  | nil => simpa using h
  | append_singleton q e ih =>
    rw [← List.append_assoc] at h
    generalize hl : p ++ q ++ [e] = l at h
    cases h with
    | nil => simp at hl
    | concat h he =>
      obtain ⟨hp, -⟩ := List.append_inj' hl rfl
      rw [← hp] at h
      exact ih h

theorem Legal.enabled {p q : List Event} {e : Event} (h : Legal (p ++ e :: q)) :
    (replay p).Enabled e := by
  have h' : Legal (p ++ [e] ++ q) := by simpa using h
  generalize hl : p ++ [e] = l at h'
  cases h'.of_append with
  | nil => simp at hl
  | concat hlog he =>
    obtain ⟨hp, hq⟩ := List.append_inj' hl rfl
    cases hp
    cases hq
    exact he

end Libuc.Scheduler
