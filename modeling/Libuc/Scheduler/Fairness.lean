import Libuc.Scheduler.Await
import Libuc.Scheduler.Location

/-! Generations. The ready list is a queue: what has been dispatched, followed by
what is ready, is what was ready followed by what has been enqueued. An iteration
dispatches as many fibers as were ready when it began, so exactly those. -/

namespace Libuc.Scheduler

open Lib

variable {k : Kernel} {s s' s₀ s₁ : State} {b : Board} {e : Event} {f g u : Addr} {t : Task}
  {log m : List Event} {i : Input}

def enqueued (m : List Event) : List Addr := m.filterMap Event.enqueued

theorem enqueued_append (m m' : List Event) : enqueued (m ++ m') = enqueued m ++ enqueued m' :=
  List.filterMap_append

/-- The ready list is first in, first out. -/
theorem Legal.fifo (h : Legal (log ++ m)) :
    (replay log).ready ++ enqueued m = dispatched m ++ (replay (log ++ m)).ready := by
  induction m using List.reverseRecOn with
  | nil => simp [enqueued, dispatched]
  | append_singleton m e ih =>
    rw [← List.append_assoc] at h ⊢
    have he : (replay (log ++ m)).Enabled e := Legal.enabled (q := []) h
    rw [replay_concat, enqueued_append, dispatched_append, ← List.append_assoc, ih h.of_append,
      List.append_assoc, List.append_assoc]
    congr 1
    cases hr : e.resumed with
    | none =>
      rw [Board.apply_ready _ hr]
      cases hq : e.enqueued <;> simp [enqueued, dispatched, hr, hq]
    | some f =>
      cases e with
      | resume f' answer call =>
        cases hr
        obtain ⟨-, hhead, t, ht, -⟩ := he
        obtain ⟨rest, hready⟩ := List.head?_eq_some_iff.mp hhead
        rw [Board.resume_ready _ ht, hready]
        simp [enqueued, dispatched, Event.enqueued, Event.resumed]
      | _ => cases hr

/-! ### Iterations -/

/-- From the test that enters the loop body to any state before the next test is
over. -/
inductive Iteration (k : Kernel) (s₀ : State) : State → Prop
  | enter {s : State} (test : s₀.control = .test) (step : step s₀ .tick = some s)
      (loop : s.control = .sweep s₀.readyCount) : Iteration k s₀ s
  | next {s s' : State} (h : Iteration k s₀ s) (inside : s.control ≠ .test) (step : Step k s s') :
      Iteration k s₀ s'

/-- How many of the fibers counted at the beginning have been dispatched. -/
def Dispatches (count total : ℕ) : Control → Prop
  | .sweep turns => count + turns.toNat = total
  | .flush turns _ _ => count + turns.toNat = total + 1
  | .submit _ | .reap | .test => count = total
  | .exited _ | .stopped _ => count ≤ total
  | .idle | .drained => False

structure Swept (s₀ s : State) (m : List Event) : Prop where
  log : s.log = s₀.log ++ m
  count : Dispatches (dispatched m).length (replay s₀.log).ready.length s.control

/-- What a step inside an iteration adds to the count. -/
theorem Stepped.swept (hg : Good k s) (h : Stepped k s (replay s.log) i s') {n total : ℕ}
    (hc : Dispatches n total s.control) (hin : s.control ≠ .test) {m : List Event}
    (hlog : s'.log = s.log ++ m) :
    Dispatches (n + (dispatched m).length) total s'.control := by
  have key : ∀ {es : List Event} {c : Control}, Ends k s (replay s.log) es c s' → m = es := by
    intro es c ends
    rw [ends.log] at hlog
    exact (List.append_cancel_left hlog).symm
  cases h with
  | turn input c hturns head task allowed served =>
    rename_i turns f t x
    have hpos : 0 < turns.toNat := Nat.pos_of_ne_zero fun hz => hturns (eq_zero_iff_toNat.mpr hz)
    have hpred : (turns - 1#32).toNat = turns.toNat - 1 := toNat_pred hpos
    rw [c] at hc
    have hsum : n + turns.toNat = total := hc
    have hone : ∀ {es : List Event}, (∀ e ∈ es, e.resumed = none) →
        (dispatched (.resume f t.returned x.call :: es)).length = 1 := by
      intro es hes
      simp [dispatched, Event.resumed, List.filterMap_eq_nil_iff.mpr hes]
    rcases served.ok_cases hg.refines.inv task with ⟨es, hes, -, ends⟩ |
      ⟨_, _, _, _, _, _, ends⟩ | ⟨_, _, ends⟩
    · obtain rfl := key ends
      rw [ends.control, hone hes]
      show n + 1 + (turns - 1#32).toNat = total
      omega
    · obtain rfl := key ends
      rw [ends.control, hone (by simp)]
      show n + 1 + turns.toNat = total + 1
      omega
    · obtain rfl := key ends
      rw [ends.control, hone (by simp)]
      show n + 1 ≤ total
      omega
  | turnDies input c hturns head task allowed served ends =>
    obtain rfl := key ends
    rw [c] at hc
    rw [ends.control]
    exact Nat.le.intro hc
  | again c ho ends =>
    obtain rfl := key ends
    rw [c] at hc
    rw [ends.control]
    exact hc
  | boundary c ho ends =>
    obtain rfl := key ends
    rw [c] at hc
    rw [ends.control]
    exact hc
  | flushAgain input c answers fibers geometry ends =>
    obtain rfl := key ends
    rw [c] at hc
    rw [ends.control]
    exact hc
  | flushed input c answers ends =>
    rename_i turns f r result
    obtain rfl := key ends
    have hstand := hg.standing
    rw [c] at hc hstand
    obtain ⟨-, -, -, -, hpos, -⟩ := hstand
    have hsum : n + turns.toNat = total + 1 := hc
    rw [ends.control]
    show n + 0 + (turns - 1#32).toNat = total
    rw [toNat_pred hpos]
    omega
  | flushDies input c hwhy ends =>
    rename_i turns f r result stop
    obtain rfl := key ends
    have hstand := hg.standing
    rw [c] at hc hstand
    obtain ⟨-, -, -, -, hpos, -⟩ := hstand
    have hsum : n + turns.toNat = total + 1 := hc
    rw [ends.control]
    show n + 0 ≤ total
    omega
  | submitAgain input c answers ends =>
    obtain rfl := key ends
    rw [c] at hc
    rw [ends.control]
    exact hc
  | submitted input c answers all ends =>
    obtain rfl := key ends
    rw [c] at hc
    rw [ends.control]
    exact hc
  | submitDies input c failed ends =>
    obtain rfl := key ends
    rw [c] at hc
    rw [ends.control]
    exact (show n = total from hc).le
  | reaped c hb res ends =>
    obtain rfl := key ends
    rw [c] at hc
    rw [ends.control]
    exact hc
  | reapDone c hb ends =>
    obtain rfl := key ends
    rw [c] at hc
    rw [ends.control]
    exact hc
  | reapDies c ends =>
    obtain rfl := key ends
    rw [c] at hc
    rw [ends.control]
    exact (show n = total from hc).le
  | post input c fibers geometry ends =>
    obtain rfl := key ends
    rw [ends.control]
    exact hc
  | launch input c fresh ends => cases hcc : s.control <;> simp_all [Control.ready, Dispatches]
  | run c ends => cases hcc : s.control <;> simp_all [Control.ready, Dispatches]
  | loop c hne ends => exact absurd c hin
  | cycle c ho hr hj ends => exact absurd c hin
  | drain c ho hr hj ends => exact absurd c hin

theorem Iteration.swept (h : Iteration k s₀ s) (hr : Reachable k s₀) :
    Reachable k s ∧ ∃ m, Swept s₀ s m := by
  induction h with
  | @enter s test step loop =>
    have hs : Step k s₀ s := ⟨.tick, trivial, step⟩
    refine ⟨hr.tail hs, [], ?_, ?_⟩
    · simp only [Scheduler.step, test] at step
      cases step
      rw [List.append_nil]
      unfold State.testLoop
      split_ifs <;> rfl
    · rw [loop]
      show 0 + s₀.readyCount.toNat = _
      rw [Nat.zero_add, hr.good.refines.readyCount]
  | @next s s' h inside step ih =>
    obtain ⟨hreach, m, hlog, hcount⟩ := ih
    refine ⟨hreach.tail step, ?_⟩
    obtain ⟨i, allowed, hs⟩ := step
    have hstep := hreach.good.stepped allowed hs
    obtain ⟨es, hes, -⟩ := hstep.events hreach.good.refines.inv
    refine ⟨m ++ es, by rw [hes, hlog, List.append_assoc], ?_⟩
    rw [dispatched_append, List.length_append]
    exact hstep.swept hreach.good hcount inside hes

/-- What an iteration did: `m` is what it logged, `ready` and `ready'` are the
ready lists when it began and when it was over. -/
structure Generation (s₀ s : State) (m : List Event) (ready ready' : List Addr) : Prop where
  log : s.log = s₀.log ++ m
  before : LinkedQueue (links s₀.fibers) s₀.readyHead s₀.readyTail ready
  after : LinkedQueue (links s.fibers) s.readyHead s.readyTail ready'
  dispatched_eq : dispatched m = ready
  enqueued_eq : enqueued m = ready'

theorem Iteration.generation (h : Iteration k s₀ s) (hr : Reachable k s₀) (hc : s.control = .test) :
    ∃ m ready ready', Generation s₀ s m ready ready' := by
  obtain ⟨hreach, m, hlog, hcount⟩ := h.swept hr
  rw [hc] at hcount
  have hfifo := Legal.fifo (hlog ▸ hreach.good.refines.legal)
  rw [← hlog] at hfifo
  obtain ⟨hd, he⟩ := List.append_inj hfifo (show _ = _ from hcount).symm
  exact ⟨m, _, _, hlog, hr.good.refines.queue, hreach.good.refines.queue, hd.symm, he⟩

/-! ### Between two turns -/

/-- A fiber that is enqueued before any other turn has its next turn when exactly
the fibers ahead of it have had theirs. -/
theorem Legal.between_turns {pre m₁ m₂ post : List Event} {a v : Option Long} {c c' : Call}
    (h : Legal (pre ++ Event.resume f a c :: m₁ ++ Event.enqueue f :: m₂ ++
      Event.resume f v c' :: post))
    (hm₁ : ∀ e ∈ m₁, e.resumed = none) (hm₂ : ∀ e ∈ m₂, e.resumed ≠ some f) :
    dispatched (m₁ ++ Event.enqueue f :: m₂) = (replay pre).ready.tail ++ enqueued m₁ ∧
      (dispatched (m₁ ++ Event.enqueue f :: m₂)).Nodup := by
  have hturn : (replay pre).Enabled (Event.resume f a c) := by
    refine Legal.enabled (q := m₁ ++ Event.enqueue f :: m₂ ++ Event.resume f v c' :: post) ?_
    simpa using h
  obtain ⟨-, -, t, ht, -⟩ := hturn
  have hl₁ : Legal (pre ++ [Event.resume f a c] ++ (m₁ ++ [Event.enqueue f])) := by
    refine Legal.of_append (q := m₂ ++ Event.resume f v c' :: post) ?_
    simpa using h
  have hl₂ : Legal (pre ++ [Event.resume f a c] ++ (m₁ ++ [Event.enqueue f]) ++
      (m₂ ++ [Event.resume f v c'])) := by
    refine Legal.of_append (q := post) ?_
    simpa using h
  have hready : (replay (pre ++ [Event.resume f a c] ++ (m₁ ++ [Event.enqueue f]))).ready =
      (replay pre).ready.tail ++ enqueued m₁ ++ [f] := by
    have hf := hl₁.fifo
    rw [dispatched_append, dispatched_eq_nil hm₁, enqueued_append, replay_concat,
      Board.resume_ready _ ht] at hf
    have hnone : dispatched [Event.enqueue f] = [] := rfl
    simpa [hnone, show enqueued [Event.enqueue f] = [f] from rfl] using hf.symm
  have hnodup : ((replay pre).ready.tail ++ enqueued m₁ ++ [f]).Nodup := by
    have hn := hl₁.inv.nodup
    rw [← hready]
    rw [Board.placed, List.append_assoc, List.nodup_append] at hn
    exact hn.1
  -- the first element of the queue that is `f` is its last
  have hfifo := hl₂.fifo
  rw [hready, dispatched_append, List.append_assoc _ (dispatched [_])] at hfifo
  have hsplit : (replay pre).ready.tail ++ enqueued m₁ ++ f :: enqueued (m₂ ++ [Event.resume f v c']) =
      dispatched m₂ ++ f ::
        (replay (pre ++ [Event.resume f a c] ++ (m₁ ++ [Event.enqueue f]) ++
          (m₂ ++ [Event.resume f v c']))).ready := by
    simpa [dispatched, Event.resumed] using hfifo
  have hnot : f ∉ (replay pre).ready.tail ++ enqueued m₁ := by
    rw [List.nodup_append] at hnodup
    exact fun hm => hnodup.2.2 f hm f (by simp) rfl
  have hnot' : f ∉ dispatched m₂ := by
    intro hm
    obtain ⟨e, he, hef⟩ := List.mem_filterMap.mp hm
    exact hm₂ e he hef
  have heq : (replay pre).ready.tail ++ enqueued m₁ = dispatched m₂ :=
    split_first_unique hsplit hnot hnot'
  have hd : dispatched (m₁ ++ Event.enqueue f :: m₂) = dispatched m₂ := by
    rw [dispatched_append, dispatched_eq_nil hm₁]
    rfl
  rw [hd, ← heq]
  exact ⟨rfl, (List.nodup_append.mp hnodup).1⟩

/-- The calls that put their caller back in the ready list at once; a join does so
if its target has exited. -/
def Requeues (s : State) : Call → Prop
  | .yield | .start _ | .detach _ => True
  | .join u => ∃ fu, s.fibers u = some fu ∧ fu.life = .exited
  | _ => False

/-- A turn with such a call enqueues its fiber before it does anything else to the
ready list. -/
theorem Good.requeues (h : Good k s) {x : Turn} (allowed : Allowed k s (.turn x))
    (hs : Scheduler.step s (.turn x) = some s') (hx : Requeues s x.call)
    (hc : ∀ stop, s'.control ≠ .stopped stop) :
    ∃ (f : Addr) (a : Option Long) (m₁ m₂ : List Event), s.readyHead = some f ∧
      s'.log = s.log ++ (Event.resume f a x.call :: m₁ ++ Event.enqueue f :: m₂) ∧
      (∀ e ∈ m₁, e.resumed = none ∧ e.enqueued = none) ∧ ∀ e ∈ m₂, e.resumed = none := by
  obtain ⟨turns, f, t, -, -, hhead, ht, served, rfl⟩ := h.served allowed hs
  have hready : s.readyHead = some f := by rw [h.refines.queue.head_eq, hhead]
  generalize s.dispatch turns x = result at served hc
  cases result with
  | error stop => exact absurd rfl (hc stop)
  | ok s' =>
    cases served with
    | yield call ends => exact ⟨f, _, [], [], hready, ends.log, by simp, by simp⟩
    | spawnFailed call hsp ends =>
      exact ⟨f, _, [.spawn f none], [], hready, ends.log,
        by simp [Event.resumed, Event.enqueued], by simp⟩
    | spawned call hsp ends =>
      refine ⟨f, _, [.spawn f _], [.enqueue _], hready, ends.log, ?_, ?_⟩ <;>
        simp [Event.resumed, Event.enqueued]
    | joinZombie call hne htu hz hu ends =>
      exact ⟨f, _, [.destroy _], [], hready, ends.log, by simp [Event.resumed, Event.enqueued], by simp⟩
    | detachZombie call hne htu hz hu ends =>
      exact ⟨f, _, [.destroy _], [], hready, ends.log, by simp [Event.resumed, Event.enqueued], by simp⟩
    | detachOpen call hopen ends =>
      exact ⟨f, _, [.detach _], [], hready, ends.log, by simp [Event.resumed, Event.enqueued], by simp⟩
    | joinBlocked call hne hopen ends =>
      -- a target that can still be joined has not exited
      rw [call] at hx
      obtain ⟨fu, hfu, hlife⟩ := hx
      obtain ⟨tu, htu, hxu, hd, -⟩ := hopen
      exact absurd hxu ((h.refines.life_eq_exited hfu htu hd).mp hlife)
    | _ => simp_all [Requeues]

/-! ### The iteration boundary -/

/-- Since `s` no fiber has been dispatched and nothing staged, and what was parked
is parked or ready. -/
structure Calm (s s' : State) : Prop where
  events : ∃ m, s'.log = s.log ++ m ∧ ∀ e ∈ m, e.resumed = none ∧ e.staged = none
  kept : ∀ o ∈ (replay s.log).ops, o ∈ (replay s'.log).ops ∨ o.fiber ∈ (replay s'.log).ready

/-- Where control can stand between the boundary and the end of the reap loop. -/
def Boundary (b : Board) : Control → Prop
  | .sweep turns => turns = 0#32 ∧ b.ops ≠ []
  | .submit _ => True
  | .reap => b.staged = []
  | .stopped _ => True
  | _ => False

theorem Calm.extend (h : Calm s s') {s'' : State} {es : List Event} (hlog : s''.log = s'.log ++ es)
    (hes : ∀ e ∈ es, e.resumed = none ∧ e.staged = none)
    (hops : ∀ o ∈ (replay s'.log).ops, o ∈ (replay s''.log).ops ∨
      o.fiber ∈ (replay s''.log).ready) : Calm s s'' := by
  obtain ⟨⟨m, hm, hquiet⟩, hkept⟩ := h
  refine ⟨⟨m ++ es, by rw [hlog, hm, List.append_assoc], ?_⟩, ?_⟩
  · intro e he
    rcases List.mem_append.mp he with he | he
    · exact hquiet e he
    · exact hes e he
  · intro o ho
    rcases hkept o ho with ho | ho
    · exact hops o ho
    · refine .inr ?_
      rw [hlog, replay, List.foldl_append, Board.foldl_ready _ fun e he => (hes e he).1]
      exact List.mem_append_left _ ho

/-- An enter or a completion moves operations, and no more. -/
theorem Legal.ops_of_quiet (h : Legal (log ++ [e])) (hg : ∀ g v, ¬ Gives (replay log) e g v) {o : Op}
    (ho : o ∈ (replay log).ops) : o ∈ (replay (log ++ [e])).ops := by
  have he : (replay log).Enabled e := Legal.enabled (q := []) h
  rw [replay_concat]
  exact (he.flow.ops_kept ho).resolve_right fun ⟨v, hv⟩ => hg _ v hv

/-- One step between the boundary and the end of the reap loop. -/
theorem Good.boundary_step (hg : Good k s') (h : Calm s s') (hb : Boundary (replay s'.log) s'.control)
    {s'' : State} (hs : Step k s' s'') :
    Calm s s'' ∧ (Boundary (replay s''.log) s''.control ∨
      s''.control = .test ∧ (replay s''.log).staged = [] ∧ (replay s''.log).posted = []) := by
  obtain ⟨i, allowed, hs⟩ := hs
  have hstep := hg.stepped allowed hs
  have hlegal := (hstep.good hg).refines.legal
  have hsame : ∀ {c : Control}, Ends k s' (replay s'.log) [] c s'' → Calm s s'' ∧
      replay s''.log = replay s'.log := by
    intro c ends
    have hlog : s''.log = s'.log := by rw [ends.log, List.append_nil]
    rw [hlog]
    refine ⟨⟨?_, ?_⟩, rfl⟩
    · rw [hlog]
      exact h.events
    · rw [hlog]
      exact h.kept
  have hone : ∀ {e : Event} {c : Control}, Ends k s' (replay s'.log) [e] c s'' → e.resumed = none →
      e.staged = none →
      (∀ g v, ¬ Gives (replay s'.log) e g v) → Calm s s'' := by
    intro e c ends hr hst hgives
    refine h.extend ends.log (by simp [hr, hst]) fun o ho => .inl ?_
    rw [ends.log] at hlegal ⊢
    exact hlegal.ops_of_quiet hgives ho
  cases hstep with
  | boundary c ho ends =>
    obtain ⟨hcalm, -⟩ := hsame ends
    exact ⟨hcalm, .inl (by rw [ends.control]; trivial)⟩
  | submitAgain input c answers ends =>
    exact ⟨hone ends rfl rfl (by rintro g v ⟨⟩), .inl (by rw [ends.control]; trivial)⟩
  | submitted input c answers all ends =>
    refine ⟨hone ends rfl rfl (by rintro g v ⟨⟩), .inl ?_⟩
    rw [ends.control, ends.board, List.foldl_cons, List.foldl_nil]
    show List.drop _ _ = []
    rw [all, List.drop_length]
  | submitDies input c failed ends =>
    obtain ⟨hcalm, -⟩ := hsame ends
    exact ⟨hcalm, .inl (by rw [ends.control]; trivial)⟩
  | @reaped r rest cqe c hposted res ends =>
    rw [c] at hb
    have hboard : replay s''.log =
        ((replay s'.log).apply (.reap cqe)).apply (.enqueue r.op.fiber) := ends.board
    have hready : r.op.fiber ∈ (replay s''.log).ready := by
      rw [hboard, Board.apply_ready _ rfl]
      exact List.mem_append_right _ (by simp [Event.enqueued])
    refine ⟨h.extend ends.log (by simp [Event.resumed, Event.staged]) fun o ho => ?_, .inl ?_⟩
    · by_cases hr : o = r.op
      · rw [hr]
        exact .inr hready
      · left
        rw [hboard]
        simp only [Board.ops, Board.apply, hposted, List.map_cons, List.append_assoc, List.mem_append,
          List.mem_cons, hr, false_or] at ho ⊢
        exact ho
    · rw [ends.control, hboard]
      show ((replay s'.log).apply (.reap cqe)).staged = []
      simp only [Board.apply, hposted]
      exact hb
  | reapDone c hposted ends =>
    rw [c] at hb
    obtain ⟨hcalm, hboard⟩ := hsame ends
    exact ⟨hcalm, .inr ⟨ends.control, by rw [hboard]; exact hb, by rw [hboard]; exact hposted⟩⟩
  | reapDies c ends =>
    obtain ⟨hcalm, -⟩ := hsame ends
    exact ⟨hcalm, .inl (by rw [ends.control]; trivial)⟩
  | @post number cqe input c fibers geometry ends =>
    refine ⟨hone ends rfl rfl (by rintro g v ⟨⟩), .inl ?_⟩
    rw [ends.control, ends.board, List.foldl_cons, List.foldl_nil]
    obtain ⟨-, -, -, hlen⟩ := (replay s'.log).apply_post number cqe
    have hstaged : ((replay s'.log).apply (.post number cqe)).staged = (replay s'.log).staged := by
      simp only [Board.apply]
      split <;> rfl
    cases hc : s'.control with
    | sweep turns =>
      rw [hc] at hb
      refine ⟨hb.1, ?_⟩
      rw [← List.length_pos_iff_ne_nil, hlen, List.length_pos_iff_ne_nil]
      exact hb.2
    | reap =>
      rw [hc] at hb
      exact hstaged.trans hb
    | submit m => trivial
    | stopped stop => trivial
    | _ =>
      rw [hc] at hb
      exact hb.elim
  | again c ho ends =>
    rw [c] at hb
    exact absurd ho hb.2
  | turn input c hturns head task allowed' served =>
    rw [c] at hb
    exact absurd hb.1 hturns
  | turnDies input c hturns head task allowed' served ends =>
    rw [c] at hb
    exact absurd hb.1 hturns
  | launch input c fresh ends => cases hcc : s'.control <;> simp_all [Control.ready, Boundary]
  | run c ends => cases hcc : s'.control <;> simp_all [Control.ready, Boundary]
  | loop c hne ends => rw [c] at hb; exact hb.elim
  | cycle c ho hr hj ends => rw [c] at hb; exact hb.elim
  | drain c ho hr hj ends => rw [c] at hb; exact hb.elim
  | flushAgain input c answers fibers geometry ends => rw [c] at hb; exact hb.elim
  | flushed input c answers ends => rw [c] at hb; exact hb.elim
  | flushDies input c hwhy ends => rw [c] at hb; exact hb.elim

/-- What has been done at `s₁` for the fibers that were parked at `s`: the batch is
with the kernel, what it has completed has been reaped, and each of the fibers is
ready unless the kernel still holds its operation. -/
structure Serviced (s s₁ : State) : Prop where
  undispatched : ∃ m, s₁.log = s.log ++ m ∧ dispatched m = []
  batch : s₁.ring.batchCount = 0#32
  completions : s₁.ring.Unreaped []
  handed : (consumed s₁.log).length = (consumed s.log).length + s.ring.batchCount.toNat
  parked : ∃ unreaped ready, s.ring.Unreaped unreaped ∧
    LinkedQueue (links s₁.fibers) s₁.readyHead s₁.readyTail ready ∧
    ∀ f r, frames s.fibers f = some r → r ∈ s.cookies unreaped →
      f ∈ ready ∨ ∃ r₁, frames s₁.fibers f = some r₁ ∧ r₁ ∈ s₁.held.map fun o => o.sqe.userData

theorem Calm.serviced (h : Calm s s₁) (hg : Good k s) (hg₁ : Good k s₁)
    (hst : (replay s₁.log).staged = []) (hpo : (replay s₁.log).posted = []) : Serviced s s₁ := by
  obtain ⟨⟨m, hlog, hquiet⟩, hkept⟩ := h
  obtain ⟨q, hq, hall⟩ := hg.refines.flight.posted
  obtain ⟨q₁, hq₁, hall₁⟩ := hg₁.refines.flight.posted
  rw [hpo, List.forall₂_nil_right_iff] at hall₁
  subst hall₁
  refine ⟨⟨m, hlog, dispatched_eq_nil fun e he => (hquiet e he).1⟩, ?_, hq₁, ?_, q,
    (replay s₁.log).ready, hq, hg₁.refines.queue, ?_⟩
  · rw [eq_zero_iff_toNat, ← hg₁.refines.batch_eq, hst]
    rfl
  · have htotal := hg.refines.legal.numbered.total
    have htotal₁ := hg₁.refines.legal.numbered.total
    have hcount : stagings s₁.log = stagings s.log := by
      rw [hlog, stagings, List.filterMap_append,
        List.filterMap_eq_nil_iff.mpr fun e he => (hquiet e he).2,
        List.append_nil]
      rfl
    rw [hg.refines.legal.numbered.count, hg.refines.batch_eq] at htotal
    rw [hg₁.refines.legal.numbered.count, hcount, hst, List.length_nil] at htotal₁
    omega
  · intro f r hr hm
    have hparked : f ∈ (replay s.log).parked := (hg.refines.parked_iff hall []).mp ⟨r, hr, hm⟩
    obtain ⟨o, ho, rfl⟩ := List.mem_map.mp hparked
    rcases hkept o ho with ho | ho
    · right
      have hall₁ : List.Forall₂ (Answered (frames s₁.fibers)) [] (replay s₁.log).posted := by
        rw [hpo]
        exact .nil
      obtain ⟨r₁, hr₁, hm₁⟩ := (hg₁.refines.parked_iff hall₁ []).mpr (List.mem_map_of_mem ho)
      refine ⟨r₁, hr₁, ?_⟩
      have hnil : s₁.ring.staged = [] := by
        have := hg₁.refines.flight.staged
        rwa [hst, List.forall₂_nil_right_iff] at this
      simpa [State.cookies, hnil] using hm₁
    · exact .inl ho

/-- Along any run from a boundary with fibers parked: still before the end of the
reap loop, or past a state where everything has been serviced. -/
theorem Reachable.serviced (hr : Reachable k s) (hc : s.control = .sweep 0#32)
    (hp : s.parkedCount ≠ 0#32) (hrun : Relation.ReflTransGen (Step k) s s') :
    Reachable k s' ∧ (Calm s s' ∧ Boundary (replay s'.log) s'.control ∨
      ∃ s₁, Relation.ReflTransGen (Step k) s s₁ ∧ Relation.ReflTransGen (Step k) s₁ s' ∧
      s₁.control = .test ∧
        Serviced s s₁) := by
  induction hrun with
  | refl =>
    refine ⟨hr, .inl ⟨⟨⟨[], by simp⟩, fun o ho => .inl ho⟩, ?_⟩⟩
    rw [hc]
    refine ⟨rfl, fun ho => hp ?_⟩
    rw [eq_zero_iff_toNat, hr.good.refines.flight.parked, ho]
    rfl
  | @tail s' s'' hrun hstep ih =>
    obtain ⟨hreach, ih⟩ := ih
    refine ⟨hreach.tail hstep, ?_⟩
    rcases ih with ⟨hcalm, hb⟩ | ⟨s₁, h₁, h₂, hs₁⟩
    · obtain ⟨hcalm', hb' | ⟨hc', hst, hpo⟩⟩ := hreach.good.boundary_step hcalm hb hstep
      · exact .inl ⟨hcalm', hb'⟩
      · exact .inr ⟨s'', hrun.tail hstep, .refl, hc',
          hcalm'.serviced hr.good (hreach.tail hstep).good hst hpo⟩
    · exact .inr ⟨s₁, h₁, h₂.tail hstep, hs₁⟩

/-- Generation fairness. In every run: an iteration that is not cut short
dispatches exactly the fibers that were ready when it began, in order, and leaves
ready exactly those it enqueued, in order; between two turns of a fiber that was
back in the ready list before any other turn, each fiber that was ready has one
turn, and yield, spawn, detach and a join of an exited fiber put their caller back
at once; and from a boundary with fibers parked no fiber is dispatched before the
batch is with the kernel and what it has completed has been reaped. -/
theorem generation_fairness (k : Kernel) (s : State) (reach : Reachable k s) :
    (∀ s', Iteration k s s' → s'.control = .test → ∃ m ready ready', Generation s s' m ready ready') ∧
    (∀ (pre m₁ m₂ post : List Event) (f : Addr) (a v : Option Long) (c c' : Call),
      s.log = pre ++ .resume f a c :: m₁ ++ .enqueue f :: m₂ ++ .resume f v c' :: post →
      (∀ e ∈ m₁, e.resumed = none) → (∀ e ∈ m₂, e.resumed ≠ some f) →
      dispatched (m₁ ++ .enqueue f :: m₂) = (replay pre).ready.tail ++ enqueued m₁ ∧
        ∀ g ∈ (replay pre).ready.tail, (dispatched (m₁ ++ .enqueue f :: m₂)).count g = 1) ∧
    (∀ (x : Turn) s', Allowed k s (.turn x) → step s (.turn x) = some s' → Requeues s x.call →
      (∀ stop, s'.control ≠ .stopped stop) →
      ∃ f a m₁ m₂, s.readyHead = some f ∧
      s'.log = s.log ++ (.resume f a x.call :: m₁ ++ .enqueue f :: m₂) ∧
        (∀ e ∈ m₁, e.resumed = none ∧ e.enqueued = none) ∧ ∀ e ∈ m₂, e.resumed = none) ∧
    (s.control = .sweep 0#32 → s.parkedCount ≠ 0#32 → ∀ s' m, Relation.ReflTransGen (Step k) s s' →
      s'.log = s.log ++ m → dispatched m ≠ [] →
      ∃ s₁, Relation.ReflTransGen (Step k) s s₁ ∧ Relation.ReflTransGen (Step k) s₁ s' ∧
        s₁.control = .test ∧ Serviced s s₁) := by
  refine ⟨fun s' h hc => h.generation reach hc, ?_, ?_, ?_⟩
  · intro pre m₁ m₂ post f a v c c' hlog hm₁ hm₂
    obtain ⟨hd, hnodup⟩ := Legal.between_turns (hlog ▸ reach.good.refines.legal) hm₁ hm₂
    refine ⟨hd, fun g hg => List.count_eq_one_of_mem hnodup ?_⟩
    rw [hd]
    exact List.mem_append_left _ hg
  · intro x s' allowed hs hx hc
    exact reach.good.requeues allowed hs hx hc
  · intro hc hp s' m hrun hlog hm
    obtain ⟨-, ⟨hcalm, -⟩ | hserviced⟩ := reach.serviced hc hp hrun
    · obtain ⟨m', hlog', hquiet⟩ := hcalm.events
      obtain rfl := List.append_cancel_left (hlog.symm.trans hlog')
      exact absurd (dispatched_eq_nil fun e he => (hquiet e he).1) hm
    · exact hserviced

/-- The parent yields in the second iteration, the child ends in it and so has its turn
between two of the parent. In the other run both are blocked, and the next to run is the
child whose operation has been submitted and reaped. -/
theorem generation_fairness_yielding :
    (∃ m ready',
      Generation (Sample.after (Sample.yielding.take 5)) (Sample.after (Sample.yielding.take 9)) m
      [Sample.parent, Sample.child] ready') ∧
    (∃ pre post, (Sample.after Sample.yielding).log =
      pre ++ .resume Sample.parent (some Sample.child) .yield :: [] ++ .enqueue Sample.parent ::
        [.resume Sample.child none (.exit 5#32)] ++
        .resume Sample.parent none (.join Sample.child) :: post ∧
      (dispatched ([] ++ .enqueue Sample.parent ::
        [.resume Sample.child none (.exit 5#32)])).count Sample.child = 1) ∧
    (∃ f a m₁ m₂, (Sample.after (Sample.yielding.take 7)).log =
      (Sample.after (Sample.yielding.take 6)).log ++
      (.resume f a .yield :: m₁ ++ .enqueue f :: m₂)) ∧
    ∃ s₁, s₁.control = .test ∧ Serviced (Sample.after (Sample.opening Sample.child)) s₁ := by
  refine ⟨?_, ?_, ?_, ?_⟩
  · obtain ⟨hreach, -, htick⟩ :=
      Sample.step_after (show Sample.yielding[5]? = some .tick from rfl) (by decide +kernel)
    obtain ⟨-, hyield, hyield'⟩ := Sample.step_after
      (show Sample.yielding[6]? = some (Sample.turn 0x101000#64 .yield none) from rfl)
        (by decide +kernel)
    obtain ⟨-, hexit, hexit'⟩ := Sample.step_after
      (show Sample.yielding[7]? = some (Sample.turn 0x201000#64 (.exit 5#32) none) from rfl)
        (by decide +kernel)
    obtain ⟨-, hswept, hswept'⟩ :=
      Sample.step_after (show Sample.yielding[8]? = some .tick from rfl) (by decide +kernel)
    have htwo : (Sample.after (Sample.yielding.take 6)).control = .sweep 2#32 :=
      Control.eq_of_same (by decide +kernel)
    have hone : (Sample.after (Sample.yielding.take 7)).control = .sweep 1#32 :=
      Control.eq_of_same (by decide +kernel)
    have hzero : (Sample.after (Sample.yielding.take 8)).control = .sweep 0#32 :=
      Control.eq_of_same (by decide +kernel)
    have hcount : (Sample.after (Sample.yielding.take 5)).readyCount = 2#32 := by decide +kernel
    have henter : Iteration Sample.kernel (Sample.after (Sample.yielding.take 5))
        (Sample.after (Sample.yielding.take 6)) :=
      .enter (Control.eq_of_same (by decide +kernel)) htick (htwo.trans (congrArg _ hcount.symm))
    have hiteration :=
      ((henter.next (by rw [htwo]; nofun) ⟨_, hyield, hyield'⟩).next (by rw [hone]; nofun)
      ⟨_, hexit, hexit'⟩).next (by rw [hzero]; nofun) ⟨_, hswept, hswept'⟩
    obtain ⟨m, ready, ready', hm⟩ := (generation_fairness Sample.kernel _ hreach).1 _ hiteration
      (Control.eq_of_same (by decide +kernel))
    have hlog : (Sample.after (Sample.yielding.take 9)).log =
        (Sample.after (Sample.yielding.take 5)).log ++
        [.resume Sample.parent (some Sample.child) .yield, .enqueue Sample.parent,
          .resume Sample.child none (.exit 5#32)] := eq_of_beq (by decide +kernel)
    obtain rfl := List.append_cancel_left (hm.log.symm.trans hlog)
    obtain rfl := hm.dispatched_eq
    exact ⟨_, _, hm⟩
  · have hlog : (Sample.after Sample.yielding).log = Sample.events.take 6 ++
        .resume Sample.parent (some Sample.child) .yield :: [] ++ .enqueue Sample.parent ::
          [.resume Sample.child none (.exit 5#32)] ++ .resume Sample.parent none (.join Sample.child) ::
            [.destroy Sample.child, .enqueue Sample.parent] := eq_of_beq (by decide +kernel)
    have hreach : Reachable Sample.kernel (Sample.after Sample.yielding) :=
      Sample.reachable (by decide +kernel)
    exact ⟨_, _, hlog, ((generation_fairness Sample.kernel _ hreach).2.1 _ _ _ _ _ _ _ _ _ hlog
      (by decide) (by decide)).2 Sample.child (by decide)⟩
  · obtain ⟨hreach, hyield, hyield'⟩ := Sample.step_after
      (show Sample.yielding[6]? = some (Sample.turn 0x101000#64 .yield none) from rfl)
        (by decide +kernel)
    have hcontrol : (Sample.after (Sample.yielding.take 7)).control = .sweep 1#32 :=
      Control.eq_of_same (by decide +kernel)
    obtain ⟨f, a, m₁, m₂, -, hlog, -⟩ :=
      (generation_fairness Sample.kernel _ hreach).2.2.1 _ _ hyield hyield' trivial
      fun stop hstop => by
        rw [hcontrol] at hstop
        cases hstop
    exact ⟨f, a, m₁, m₂, hlog⟩
  · have hrun :=
      Sample.run_after (Sample.opening Sample.child) (Sample.closing.take 7) (by decide +kernel)
    have hlog : (Sample.after (Sample.opening Sample.child ++ Sample.closing.take 7)).log =
        (Sample.after (Sample.opening Sample.child)).log ++ (Sample.events.drop 10).take 7 :=
        eq_of_beq (by decide +kernel)
    obtain ⟨s₁, -, -, htest, hserviced⟩ :=
      (generation_fairness Sample.kernel _ Sample.reachable_opening).2.2.2
      (Control.eq_of_same (by decide +kernel)) (by decide +kernel) _ _ hrun hlog (by decide)
    exact ⟨s₁, htest, hserviced⟩

end Libuc.Scheduler
