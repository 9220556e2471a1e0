import Libuc.Scheduler.Rehearsal

/-! The reactor's own work. A tick is a step that neither a fiber nor the kernel takes: a
test of the loop, the end of a sweep, a round of the reap loop. The potential of a state
is the number of ticks that may follow without anybody's doing; each turn and each system
call pays for the ticks it makes possible, and each reaped completion for itself. -/

namespace Libuc.Scheduler

open Lib

variable {k : Kernel} {s s' s'' : State} {b : Board} {i : Input} {e : Event} {log : List Event}
  {inputs : List Input}

inductive Takes (k : Kernel) (s : State) : List Input → State → Prop
  | nil : Takes k s [] s
  | concat {s' s'' : State} {inputs : List Input} {i : Input} (h : Takes k s inputs s')
      (allowed : Allowed k s' i) (hs : step s' i = some s'') : Takes k s (inputs ++ [i]) s''

def Input.isTick : Input → Bool
  | .tick => true
  | _ => false

def Input.credit : Input → ℕ
  | .launch _ _ | .run | .turn _ => 2
  | .enter _ => 3
  | .tick | .post _ _ _ => 0

def Event.isReap : Event → Bool
  | .reap _ => true
  | _ => false

def Event.isPost : Event → Bool
  | .post _ _ => true
  | _ => false

/-- The ticks that may follow, the reaping of completions apart. -/
def State.slack (s : State) : ℕ :=
  match s.control with
  | .test => if s.readyCount = 0#32 ∧ s.parkedCount ≠ 0#32 then 2 else 1
  | .sweep turns => if turns = 0#32 then if s.parkedCount = 0#32 then 2 else 1 else 0
  | .reap => 3
  | _ => 0

theorem State.slack_le_three (s : State) : s.slack ≤ 3 := by
  unfold State.slack
  split <;> (try split_ifs) <;> omega

theorem State.slack_le_two (h : s.control ≠ .reap) : s.slack ≤ 2 := by
  unfold State.slack
  split
  · split_ifs <;> omega
  · split_ifs <;> omega
  · exact absurd ‹_› h
  · omega

/-! ### Completions -/

/-- Between posting and reaping completions wait. -/
theorem Board.Enabled.posted_length (he : b.Enabled e) :
    (b.apply e).posted.length + (if e.isReap then 1 else 0) =
      b.posted.length + if e.isPost then 1 else 0 := by
  cases e with
  | post number cqe =>
    obtain ⟨o, ho, hnumber⟩ := he
    obtain ⟨x, hx⟩ : ∃ x, b.held.find? (fun op => decide (op.number = number)) = some x := by
      rw [← Option.isSome_iff_exists, List.find?_isSome]
      exact ⟨o, ho, by simp [hnumber]⟩
    simp [Board.apply, hx, Event.isReap, Event.isPost]
  | reap cqe =>
    obtain ⟨-, r, rest, hposted, -⟩ := he
    simp [Board.apply, hposted, Event.isReap, Event.isPost]
  | spawn p result =>
    cases result <;> rfl
  | resume f answer call =>
    cases ht : b.tasks f <;> simp [Board.apply, ht, Event.isReap, Event.isPost]
  | detach t =>
    cases hh : b.hand <;> simp [Board.apply, Board.modify, Board.setAnswer, hh,
      Event.isReap, Event.isPost]
  | destroy f =>
    cases ht : b.tasks f with
    | none => simp [Board.apply, ht, Event.isReap, Event.isPost]
    | some t =>
      cases hheir : b.heir f t <;>
        simp [Board.apply, ht, hheir, Board.setAnswer, Board.modify, Event.isReap, Event.isPost]
  | stage f =>
    obtain ⟨-, sqe, hask⟩ := he
    rw [Board.apply_stage hask]
    rfl
  | _ => rfl

/-- Every completion posted has been reaped or waits. -/
theorem Legal.posted_length (h : Legal log) :
    log.countP Event.isPost = log.countP Event.isReap + (replay log).posted.length := by
  induction h with
  | nil => rfl
  | @concat log e hlog he ih =>
    have hstep := he.posted_length
    rw [List.countP_append, List.countP_append, List.countP_singleton, List.countP_singleton,
      replay_concat]
    omega

/-! ### Steps -/

/-- The reap loop is entered from the kernel only. -/
theorem Stepped.reap_from (h : Stepped k s b i s') (hi : b.Inv) (hc : s'.control = .reap) :
    s.control = .reap ∨ ∃ result, i = .enter result := by
  cases h with
  | turn input c hturns head task allowed served =>
    obtain ⟨es, -, -, hends⟩ | ⟨_, _, _, _, _, _, hends⟩ | ⟨_, _, hends⟩ := served.ok_cases hi task
    all_goals
      rw [hends.control] at hc
      cases hc
  | submitted input c answers all ends => exact .inr ⟨_, input⟩
  | reaped c hb res ends => exact .inl c
  | post input c fibers geometry ends => exact .inl (ends.control.symm.trans hc)
  | _ =>
    rename_i ends
    rw [ends.control] at hc
    cases hc

theorem testLoop_slack (hc : s.control = .test) :
    1 + s.testLoop.slack + s.log.countP Event.isReap ≤
      s.slack + 0 + s.testLoop.log.countP Event.isReap := by
  have hslack : s.slack = if s.readyCount = 0#32 ∧ s.parkedCount ≠ 0#32 then 2 else 1 := by
    rw [State.slack, hc]
  rw [hslack]
  unfold State.testLoop
  by_cases hsum : s.parkedCount + s.readyCount ≠ 0#32
  · rw [if_pos hsum]
    simp only [State.slack]
    by_cases hr : s.readyCount = 0#32
    · have hp : s.parkedCount ≠ 0#32 := by
        rintro hp
        rw [hp, hr] at hsum
        exact hsum rfl
      simp [hr, hp]
    · simp [hr]
  · rw [if_neg hsum]
    split_ifs <;> simp [State.slack]

theorem boundary_slack (hc : s.control = .sweep 0#32) :
    1 + s.boundary.slack + s.log.countP Event.isReap ≤
      s.slack + 0 + s.boundary.log.countP Event.isReap := by
  have hslack : s.slack = if s.parkedCount = 0#32 then 2 else 1 := by simp [State.slack, hc]
  rw [hslack]
  unfold State.boundary
  by_cases hp : s.parkedCount = 0#32
  · rw [if_pos hp, if_pos hp]
    simp [State.slack, hp]
  · rw [if_neg hp, if_neg hp]
    simp [State.slack]

/-- One step pays for what it makes possible. -/
theorem slack_step (hg : Good k s) (allowed : Allowed k s i) (hs : step s i = some s') :
    (if i.isTick then 1 else 0) + s'.slack + s.log.countP Event.isReap ≤
      s.slack + i.credit + s'.log.countP Event.isReap := by
  have hstep := hg.stepped allowed hs
  obtain ⟨es, hes, -⟩ := hstep.events hg.refines.inv
  have hgrows : s.log.countP Event.isReap ≤ s'.log.countP Event.isReap := by
    rw [hes, List.countP_append]
    omega
  have hthree := s'.slack_le_three
  have htwo : s.control ≠ .reap → (∀ result, i ≠ .enter result) → s'.slack ≤ 2 := by
    intro hc hne
    refine State.slack_le_two fun hr => ?_
    rcases hstep.reap_from hg.refines.inv hr with h | ⟨result, h⟩
    · exact hc h
    · exact hne result h
  cases i with
  | launch f spawn =>
    have hc : s.control ≠ .reap := by
      intro hc
      simp [step, hc, Control.ready] at hs
    have hle := htwo hc (by simp)
    simp only [Input.isTick, Input.credit]
    simp only [Bool.false_eq_true, if_false]
    omega
  | run =>
    have hc : s.control ≠ .reap := by
      intro hc
      simp [step, hc, Control.ready] at hs
    have hle := htwo hc (by simp)
    simp only [Input.isTick, Input.credit, Bool.false_eq_true, if_false]
    omega
  | turn t =>
    have hc : s.control ≠ .reap := by
      intro hc
      simp [step, hc] at hs
    have hle := htwo hc (by simp)
    simp only [Input.isTick, Input.credit, Bool.false_eq_true, if_false]
    omega
  | enter result =>
    simp only [Input.isTick, Input.credit, Bool.false_eq_true, if_false]
    omega
  | post number res flags =>
    have hslack : s'.slack = s.slack := by
      simp only [step] at hs
      split_ifs at hs
      unfold State.complete at hs
      cases hf : s.held.find? (fun op => op.number = number) with
      | none =>
        rw [hf] at hs
        cases hs
      | some op =>
        rw [hf] at hs
        cases hs
        rfl
    simp only [Input.isTick, Input.credit, Bool.false_eq_true, if_false]
    omega
  | tick =>
    simp only [Input.isTick, Input.credit, if_true]
    cases hc : s.control with
    | test =>
      simp only [step, hc] at hs
      cases hs
      exact testLoop_slack hc
    | sweep turns =>
      simp only [step, hc] at hs
      split_ifs at hs with hz
      cases hs
      rw [hz] at hc
      exact boundary_slack hc
    | reap =>
      have hslack : s.slack = 3 := by rw [State.slack, hc]
      cases hstep with
      | @reaped r rest cqe c hb res ends =>
        have hone : [Event.reap cqe, .enqueue r.op.fiber].countP Event.isReap = 1 := rfl
        rw [ends.log, List.countP_append, hone]
        omega
      | reapDone c hb ends =>
        have hle : s'.slack ≤ 2 := State.slack_le_two (by simp [ends.control])
        omega
      | reapDies c ends =>
        have hzero : s'.slack = 0 := by rw [State.slack, ends.control]
        omega
      | launch input | turn input | turnDies input | flushAgain input | flushed input
      | flushDies input | submitAgain input
      | submitted input | submitDies input | post input => cases input
      | run c => simp [hc, Control.ready] at c
      | loop c | cycle c | drain c | again c | boundary c => simp [hc] at c
    | _ =>
      simp only [step, hc] at hs
      cases hs

/-! ### Runs -/

theorem Takes.reachable (h : Takes k s inputs s') (hs : Reachable k s) : Reachable k s' := by
  induction h with
  | nil => exact hs
  | concat h allowed hstep ih => exact ih.tail ⟨_, allowed, hstep⟩

theorem Takes.slack (h : Takes k s inputs s') (hs : Reachable k s) :
    inputs.countP Input.isTick + s'.slack + s.log.countP Event.isReap ≤
      s.slack + (inputs.map Input.credit).sum + s'.log.countP Event.isReap := by
  induction h with
  | nil => simp
  | concat h allowed hstep ih =>
    have hpaid := slack_step (h.reachable hs).good allowed hstep
    rw [List.countP_append, List.countP_singleton, List.map_append, List.sum_append]
    simp only [List.map_cons, List.map_nil, List.sum_cons, List.sum_nil]
    omega

theorem rehearse_takes (hs : Reachable k s) (h : rehearse step (permits k) s inputs = some s') :
    Takes k s inputs s' := by
  induction inputs using List.reverseRecOn generalizing s' with
  | nil =>
    cases h
    exact .nil
  | append_singleton inputs i ih =>
    obtain ⟨s₁, h₁, hi, hstep⟩ := rehearse_concat h
    have htakes := ih h₁
    exact htakes.concat ((htakes.reachable hs).good.permits hi) hstep

/-- The reactor never spins. From any state it is in, the ticks of a run are bounded by
its turns, system calls and starts, and by the completions the kernel posts: each turn
and each start makes at most two possible, each system call three, each completion one. -/
theorem reactor_never_spins (k : Kernel) (s : State) (reach : Reachable k s)
    (inputs : List Input) (s' : State) (run : Takes k s inputs s') :
    inputs.countP Input.isTick + s.log.countP Event.isPost ≤
      3 + s.parkedCount.toNat + (inputs.map Input.credit).sum + s'.log.countP Event.isPost := by
  have hslack := run.slack reach
  have hstart := s.slack_le_three
  have hbefore := reach.good.refines.legal.posted_length
  have hafter := (run.reachable reach).good.refines.legal.posted_length
  have hparked := reach.good.refines.flight.parked
  simp only [Board.ops, List.length_append, List.length_map] at hparked
  omega

/-- The sample, from a new scheduler to its end. -/
theorem Sample.takes :
    Takes Sample.kernel Sample.scheduler (Sample.opening Sample.child ++ Sample.closing)
    (Sample.after (Sample.opening Sample.child ++ Sample.closing)) := by
  have hsome : (rehearse step (permits Sample.kernel) Sample.scheduler
      (Sample.opening Sample.child ++ Sample.closing)).isSome = true := by decide +kernel
  obtain ⟨s, hs⟩ := Option.isSome_iff_exists.mp hsome
  rw [Sample.after, hs]
  exact rehearse_takes ⟨_, _, _, _, .refl⟩ hs

theorem reactor_never_spins_sample :
    (Sample.opening Sample.child ++ Sample.closing).countP Input.isTick +
    Sample.scheduler.log.countP Event.isPost ≤
      3 + Sample.scheduler.parkedCount.toNat +
      ((Sample.opening Sample.child ++ Sample.closing).map Input.credit).sum +
        (Sample.after (Sample.opening Sample.child ++ Sample.closing)).log.countP Event.isPost :=
  reactor_never_spins Sample.kernel Sample.scheduler ⟨_, _, _, _, .refl⟩ _ _ Sample.takes

end Libuc.Scheduler
