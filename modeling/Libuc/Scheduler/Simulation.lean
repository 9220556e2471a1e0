import Libuc.Scheduler.Dispatch
import Libuc.Lib.Runs

/-! Every reachable state refines the board of its log. `Stepped` is the inversion
of one step of the reactor: where control was, what the board said, which events
were logged and where control goes. All statements about runs are read off it. -/

namespace Libuc.Scheduler

open Lib

/-- What control at `c` says about the state. -/
def Standing (s : State) (b : Board) : Control → Prop
  | .sweep turns => b.hand = [] ∧ turns.toNat ≤ b.ready.length
  | .flush turns f r => b.hand = [f] ∧ frames s.fibers f = some r ∧
      (∃ sqe, b.Asks f (.await sqe) ∧ sqe.flags = 0#8) ∧ b.ops.length < s.ring.cqEntries.toNat ∧
      0 < turns.toNat ∧ turns.toNat ≤ b.ready.length + 1
  | .submit m => b.hand = [] ∧ b.ops ≠ [] ∧ m = if b.ready = [] then 1#32 else 0#32
  | .drained => b.hand = [] ∧ b.ops = [] ∧ b.ready = [] ∧ joined b.tasks = ∅
  | .exited status => ∃ f, b.hand = [f] ∧ b.Asks f (.processExit status)
  | .stopped _ => b.hand = [] ∨ ∃ f sqe, b.hand = [f] ∧ b.Asks f (.await sqe)
  | _ => b.hand = []

/-- The invariant of the reactor. -/
structure Good (k : Kernel) (s : State) : Prop where
  refines : Refines k s (replay s.log)
  standing : Standing s (replay s.log) s.control

/-- What one step of the reactor can do on input `i`, from a state with board `b`. -/
inductive Stepped (k : Kernel) (s : State) (b : Board) (i : Input) (s' : State) : Prop
  | launch {f : Addr} {spawn : SpawnRequest} (input : i = .launch f spawn)
      (c : s.control.ready = true) (fresh : b.tasks f = none)
      (ends : Ends k s b [.launch f, .enqueue f] .idle s')
  | run (c : s.control.ready = true) (ends : Ends k s b [] .test s')
  | loop (c : s.control = .test) (h : b.ops ≠ [] ∨ b.ready ≠ [])
      (ends : Ends k s b [] (.sweep s.readyCount) s')
  | cycle (c : s.control = .test) (ho : b.ops = []) (hr : b.ready = []) (hj : joined b.tasks ≠ ∅)
      (ends : Ends k s b [] (.stopped (.trap .joinCycle)) s')
  | drain (c : s.control = .test) (ho : b.ops = []) (hr : b.ready = []) (hj : joined b.tasks = ∅)
      (ends : Ends k s b [] .drained s')
  | turn {turns : U32} {f : Addr} {t : Task} {x : Turn} (input : i = .turn x)
      (c : s.control = .sweep turns)
      (hturns : turns ≠ 0#32) (head : b.ready.head? = some f) (task : b.tasks f = some t)
      (allowed : Allowed k s (.turn x)) (served : Served k s b turns f t x (.ok s'))
  | turnDies {turns : U32} {f : Addr} {t : Task} {x : Turn} {stop : Stop} (input : i = .turn x)
      (c : s.control = .sweep turns) (hturns : turns ≠ 0#32) (head : b.ready.head? = some f)
      (task : b.tasks f = some t)
      (allowed : Allowed k s (.turn x)) (served : Served k s b turns f t x (.error stop))
      (ends : Ends k s b [] (.stopped stop) s')
  | again (c : s.control = .sweep 0#32) (ho : b.ops = []) (ends : Ends k s b [] .test s')
  | boundary (c : s.control = .sweep 0#32) (ho : b.ops ≠ [])
      (ends : Ends k s b [] (.submit (if b.ready = [] then 1#32 else 0#32)) s')
  | flushAgain {turns : U32} {f r : Addr} {result : Long} (input : i = .enter result)
      (c : s.control = .flush turns f r)
      (answers : Ring.Answers s.ring.batchCount.toNat result)
      (fibers : s'.fibers = s.fibers) (geometry : s'.ring.toGeometry = s.ring.toGeometry)
      (ends : Ends k s b [.enter (s.ring.enter 0#32 result)] (.flush turns f r) s')
  | flushed {turns : U32} {f r : Addr} {result : Long} (input : i = .enter result)
      (c : s.control = .flush turns f r)
      (answers : Ring.Answers s.ring.batchCount.toNat result)
      (ends : Ends k s b [.enter (s.ring.enter 0#32 result), .stage f] (.sweep (turns - 1#32)) s')
  | flushDies {turns : U32} {f r : Addr} {result : Long} {stop : Stop} (input : i = .enter result)
      (c : s.control = .flush turns f r)
      (h : stop = .trap .flushFailed ∧ syscallFailed result = true ∨
        stop = .trap .appendFailed ∧ s.ring.sqEntries = 0#32)
      (ends : Ends k s b [] (.stopped stop) s')
  | submitAgain {m : U32} {result : Long} (input : i = .enter result)
      (c : s.control = .submit m)
      (answers : Ring.Answers s.ring.batchCount.toNat result)
      (ends : Ends k s b [.enter (s.ring.enter m result)] (.submit m) s')
  | submitted {m : U32} {result : Long} (input : i = .enter result)
      (c : s.control = .submit m)
      (answers : Ring.Answers s.ring.batchCount.toNat result)
      (all : (s.ring.enter m result).taken.length = b.staged.length)
      (ends : Ends k s b [.enter (s.ring.enter m result)] .reap s')
  | submitDies {m : U32} {result : Long} (input : i = .enter result) (c : s.control = .submit m)
      (failed : syscallFailed result = true) (ends : Ends k s b [] (.stopped (.trap .submitFailed)) s')
  | reaped {r : Reply} {rest : List Reply} {cqe : Cqe} (c : s.control = .reap)
      (hb : b.posted = r :: rest)
      (res : cqe.res = r.res) (ends : Ends k s b [.reap cqe, .enqueue r.op.fiber] .reap s')
  | reapDone (c : s.control = .reap) (hb : b.posted = []) (ends : Ends k s b [] .test s')
  | reapDies (c : s.control = .reap) (ends : Ends k s b [] (.stopped (.trap .completionFlags)) s')
  | post {number : ℕ} {cqe : Cqe} (input : i = .post number cqe.res cqe.flags)
      (c : s.control.running = true)
      (fibers : s'.fibers = s.fibers) (geometry : s'.ring.toGeometry = s.ring.toGeometry)
      (ends : Ends k s b [.post number cqe] s.control s')

variable {k : Kernel} {s s' : State} {b : Board} {i : Input}

theorem Refines.silent (h : Refines k s b) (c : Control) : Ends k s b [] c { s with control := c } :=
  ⟨h.setControl c, (List.append_nil _).symm, rfl⟩

theorem Refines.launched (h : Refines k s b) (hh : b.hand = []) {f : Addr} (hf : Fresh k s f)
    (spawn : SpawnRequest) :
    ∃ s', (({ s with control := .idle }.spawn spawn (some f)).record (.launch f)).enqueue f = .ok s' ∧
      Ends k s b [.launch f, .enqueue f] .idle s' := by
  have h₁ := (h.setControl .idle).launch hh hf spawn
  obtain ⟨s', hs', hd'⟩ := h₁.refines.enqueue (f := f) (l := []) rfl (by
    intro t ht
    have := (Function.update_self _ _ _).symm.trans ht
    cases this
    simp [Task.new])
  have hd := h₁.trans hd'
  exact ⟨s', hs', hd.refines, hd.log, hd.control⟩

theorem Good.test (h : Good k s) (c : s.control = .test) : Stepped k s (replay s.log) i s.testLoop := by
  have hR := h.refines
  have hready := hR.readyCount
  have hparked := hR.flight.parked
  have hlt := hR.placed_lt
  simp only [Board.placed, Board.parked, List.length_append, List.length_map] at hlt
  have hsum : (s.parkedCount + s.readyCount).toNat = s.parkedCount.toNat + s.readyCount.toNat := by
    rw [BitVec.toNat_add, Nat.mod_eq_of_lt (by omega)]
  have hjoin : s.joiningCount = 0#32 ↔ joined (replay s.log).tasks = ∅ := by
    rw [eq_zero_iff_toNat, hR.joiningCount, Set.ncard_eq_zero hR.joined_finite]
  unfold State.testLoop
  by_cases hz : s.parkedCount + s.readyCount ≠ 0#32
  · rw [if_pos hz]
    refine .loop c ?_ (hR.silent _)
    rw [Ne, eq_zero_iff_toNat, hsum] at hz
    by_contra hn
    simp only [not_or, not_not, Ne] at hn
    rw [hparked, hready, hn.1, hn.2] at hz
    exact hz rfl
  · rw [if_neg hz]
    simp only [Ne, not_not, eq_zero_iff_toNat, hsum] at hz
    have ho : (replay s.log).ops = [] := List.eq_nil_of_length_eq_zero (by omega)
    have hr : (replay s.log).ready = [] := List.eq_nil_of_length_eq_zero (by omega)
    by_cases hj : s.joiningCount ≠ 0#32
    · rw [if_pos hj]
      exact .cycle c ho hr (by rwa [Ne, hjoin] at hj) (hR.silent _)
    · rw [if_neg hj]
      exact .drain c ho hr (by rwa [Ne, not_not, hjoin] at hj) (hR.silent _)

theorem Good.boundary (h : Good k s) (c : s.control = .sweep 0#32) :
    Stepped k s (replay s.log) i s.boundary := by
  have hR := h.refines
  have hparked : s.parkedCount = 0#32 ↔ (replay s.log).ops = [] := by
    rw [eq_zero_iff_toNat, hR.flight.parked, List.length_eq_zero_iff]
  have hready : s.readyCount = 0#32 ↔ (replay s.log).ready = [] := by
    rw [eq_zero_iff_toNat, hR.readyCount, List.length_eq_zero_iff]
  unfold State.boundary
  by_cases hp : s.parkedCount = 0#32
  · rw [if_pos hp]
    exact .again c (hparked.mp hp) (hR.silent _)
  · rw [if_neg hp]
    refine .boundary c (fun ho => hp (hparked.mpr ho)) ?_
    simp only [← hready]
    exact hR.silent _

/-- Between two steps a fiber in hand awaits or ends the process. -/
theorem Good.hand_asks (h : Good k s) (hg : g ∈ (replay s.log).hand) :
    ∃ c, (replay s.log).Asks g c ∧ ((∃ sqe, c = .await sqe) ∨ ∃ status, c = .processExit status) := by
  have hstand := h.standing
  have hnil : (replay s.log).hand ≠ [] := List.ne_nil_of_mem hg
  cases hc : s.control with
  | flush turns f r =>
    rw [hc] at hstand
    obtain ⟨hh, -, ⟨sqe, hask, -⟩, -⟩ := hstand
    obtain rfl : g = f := by simpa [hh] using hg
    exact ⟨_, hask, .inl ⟨sqe, rfl⟩⟩
  | exited status =>
    rw [hc] at hstand
    obtain ⟨f, hh, hask⟩ := hstand
    obtain rfl : g = f := by simpa [hh] using hg
    exact ⟨_, hask, .inr ⟨status, rfl⟩⟩
  | stopped stop =>
    rw [hc] at hstand
    rcases hstand with hh | ⟨f, sqe, hh, hask⟩
    · exact absurd hh hnil
    · obtain rfl : g = f := by simpa [hh] using hg
      exact ⟨_, hask, .inl ⟨sqe, rfl⟩⟩
  | sweep turns =>
    rw [hc] at hstand
    exact absurd hstand.1 hnil
  | submit m =>
    rw [hc] at hstand
    exact absurd hstand.1 hnil
  | drained =>
    rw [hc] at hstand
    exact absurd hstand.1 hnil
  | _ =>
    rw [hc] at hstand
    exact absurd hstand hnil

/-- A turn is served for the first ready fiber. -/
theorem Good.served (h : Good k s) {x : Turn} (allowed : Allowed k s (.turn x))
    (hs : step s (.turn x) = some s') :
    ∃ turns f t, s.control = .sweep turns ∧ turns ≠ 0#32 ∧ (replay s.log).ready.head? = some f ∧
      (replay s.log).tasks f = some t ∧ Served k s (replay s.log) turns f t x (s.dispatch turns x) ∧
      s' = s.settle (s.dispatch turns x) := by
  have hstand := h.standing
  simp only [step] at hs
  split at hs
  · rename_i turns hc
    split_ifs at hs with hz
    cases hs
    rw [hc] at hstand
    obtain ⟨hh, hle⟩ := hstand
    have hpos : 0 < turns.toNat := Nat.pos_of_ne_zero fun h0 => hz (eq_zero_iff_toNat.mpr h0)
    obtain ⟨f, rest, hr⟩ := List.exists_cons_of_length_pos (lt_of_lt_of_le hpos hle)
    obtain ⟨t, ht⟩ := h.refines.inv.mapped f (by simp [Board.placed, hr])
    exact ⟨turns, f, t, hc, hz, by simp [hr], ht, h.refines.dispatch hh hr ht allowed, rfl⟩
  · cases hs

theorem Good.turn (h : Good k s) {x : Turn} (allowed : Allowed k s (.turn x))
    (hs : step s (.turn x) = some s') : Stepped k s (replay s.log) (.turn x) s' := by
  obtain ⟨turns, f, t, hc, hz, hhead, ht, hserved, rfl⟩ := h.served allowed hs
  cases hd : s.dispatch turns x with
  | ok s' =>
    rw [hd] at hserved
    exact .turn rfl hc hz hhead ht allowed hserved
  | error stop =>
    rw [hd] at hserved
    exact .turnDies rfl hc hz hhead ht allowed hserved (h.refines.silent _)

theorem Good.flush (h : Good k s) {turns : U32} {f r : Addr} {result : Long}
    (c : s.control = .flush turns f r) (answers : Ring.Answers s.ring.batchCount.toNat result)
    (hs : step s (.enter result) = some s') : Stepped k s (replay s.log) (.enter result) s' := by
  have hstand := h.standing
  rw [c] at hstand
  obtain ⟨hh, hr, ⟨sqe, hask, -⟩, hroom, -, -⟩ := hstand
  have hdoes := h.refines.enter 0#32 answers
  simp only [step, c] at hs
  cases hp : s.ring.submitPass result with
  | again ring =>
    have honly := (Ring.submitPass_spec h.refines.flight.fits answers).2.2
    rw [hp] at hs hdoes honly
    cases hs
    exact .flushAgain rfl c answers rfl honly.geometry ⟨hdoes.refines, hdoes.log, c⟩
  | done value ring =>
    rw [hp] at hs hdoes
    simp only [Ring.Pass.ring] at hdoes
    obtain ⟨rfl, -, hall⟩ := Ring.submitPass_done h.refines.flight.fits answers hp
    have honly := (Ring.submitPass_spec h.refines.flight.fits answers).2.2
    simp only [hp, Ring.Pass.ring] at honly
    cases hs
    by_cases hfail : syscallFailed value = true
    · rw [State.parkFlushed, if_pos hfail]
      exact .flushDies rfl c (.inl ⟨rfl, hfail⟩) (h.refines.silent _)
    · obtain ⟨hzero, -⟩ := hall (by simpa using hfail)
      obtain ⟨t, ht, hcall, hans⟩ := id hask
      obtain ⟨fb, hf⟩ := h.refines.memory.exists_fiber ht
      obtain ⟨r', hr', hq⟩ := h.refines.memory.request f fb t _ hf ht hcall
      have hrr : r' = r := by
        simp only [frames, hf, Option.bind_some] at hr
        exact Option.some.inj (hr'.symm.trans hr)
      subst hrr
      rw [State.parkFlushed, if_neg hfail,
        State.request_of_some (s := { s.take 0#32 value with ring := ring }) hq]
      simp only [bind, Except.bind, Task.request, Call.ask]
      cases ha : ring.appendSqe with
      | none =>
        refine .flushDies rfl c (.inr ⟨rfl, ?_⟩) (h.refines.silent _)
        have he := (Ring.appendSqe_eq_none ring).mp ha
        rw [hzero, honly.geometry] at he
        exact he.symm
      | some res =>
        obtain ⟨slot, next⟩ := res
        have hd' := hdoes.refines.stage (f := f) hh hask hr (by
          intro he
          have hg : ring.cqEntries = s.ring.cqEntries := by rw [honly.geometry]
          have hpk := h.refines.flight.parked
          have he' : s.parkedCount = ring.cqEntries := he
          rw [he', hg] at hpk
          omega) ha
        have hend := hdoes.trans hd'
        exact .flushed rfl c answers (hend.ends (.sweep (turns - 1#32)))

theorem Good.submit (h : Good k s) {m : U32} {result : Long} (c : s.control = .submit m)
    (answers : Ring.Answers s.ring.batchCount.toNat result)
    (hs : step s (.enter result) = some s') : Stepped k s (replay s.log) (.enter result) s' := by
  have hdoes := h.refines.enter m answers
  simp only [step, c] at hs
  cases hp : s.ring.submitPass result with
  | again ring =>
    rw [hp] at hs hdoes
    cases hs
    exact .submitAgain rfl c answers ⟨hdoes.refines, hdoes.log, c⟩
  | done value ring =>
    rw [hp] at hs hdoes
    obtain ⟨rfl, -, hall⟩ := Ring.submitPass_done h.refines.flight.fits answers hp
    cases hs
    by_cases hfail : syscallFailed value = true
    · rw [if_pos hfail]
      exact .submitDies rfl c hfail (h.refines.silent _)
    · rw [if_neg hfail]
      obtain ⟨-, hall⟩ := hall (by simpa using hfail)
      refine .submitted rfl c answers ?_ (hdoes.ends .reap)
      rw [h.refines.batch_eq]
      simp [Ring.enter, hall]

theorem Good.reap (h : Good k s) (c : s.control = .reap) :
    Stepped k s (replay s.log) i (s.settle s.reapOne) := by
  have hh := h.standing
  rw [c] at hh
  cases hr : s.ring.reap with
  | mk found ring =>
    cases found with
    | none =>
      obtain ⟨hposted, hsame⟩ := h.refines.flight.reap_none (by rw [hr])
      rw [hr] at hsame
      cases hsame
      simp only [State.reapOne, hr, State.settle]
      exact .reapDone c hposted (h.refines.silent _)
    | some cqe =>
      obtain ⟨r, rest, q, s₁, hposted, hres, hflags, hset, hq, hqf, hdoes⟩ :=
        h.refines.reap hh (by rw [hr])
      rw [hr] at hset
      by_cases hf : cqe.flags &&& State.streamFlags ≠ 0#32
      · simp only [State.reapOne, hr, if_pos hf, State.settle]
        exact .reapDies c (h.refines.silent _)
      · have happly : ((replay s.log).apply (.reap cqe)).hand = [r.op.fiber] := by
          simp only [Board.apply, hposted]
        obtain ⟨s', hs', hd'⟩ := hdoes.refines.enqueue happly (by
          intro t' ht'
          rw [List.foldl_cons, List.foldl_nil, Board.apply, hposted] at ht'
          simp only [Board.setAnswer, Board.modify_self, Option.map_eq_some_iff] at ht'
          obtain ⟨t'', -, rfl⟩ := ht'
          simp)
        have hreap : s.reapOne = .ok s' := by
          simp only [State.reapOne, hr, if_neg hf, hset, bind, Except.bind,
            State.request_of_some hq, hqf]
          exact hs'
        rw [hreap]
        have hd := hdoes.trans hd'
        exact .reaped c hposted hres ⟨hd.refines, hd.log, hd.control.trans c⟩

/-- Every allowed step is one of the cases of `Stepped`. -/
theorem Good.stepped (h : Good k s) (allowed : Allowed k s i) (hs : step s i = some s') :
    Stepped k s (replay s.log) i s' := by
  cases i with
  | launch f spawn =>
    simp only [step] at hs
    split_ifs at hs with hc
    cases hs
    have hh : (replay s.log).hand = [] := by
      have hstand := h.standing
      cases hcc : s.control <;> simp_all [Control.ready, Standing]
    obtain ⟨s', hs', hends⟩ := h.refines.launched hh allowed spawn
    rw [hs']
    exact .launch rfl hc (h.refines.fresh_task allowed) hends
  | run =>
    simp only [step] at hs
    split_ifs at hs with hc
    cases hs
    exact .run hc (h.refines.silent _)
  | tick =>
    simp only [step] at hs
    split at hs
    · rename_i hc
      cases hs
      exact h.test hc
    · rename_i turns hc
      split_ifs at hs with hz
      subst hz
      cases hs
      exact h.boundary hc
    · rename_i hc
      cases hs
      exact h.reap hc
    · cases hs
  | turn x => exact h.turn allowed hs
  | enter result =>
    cases hc : s.control with
    | flush turns f r => exact h.flush hc allowed hs
    | submit m => exact h.submit hc allowed hs
    | _ => simp [step, hc] at hs
  | post number res flags =>
    simp only [step] at hs
    split_ifs at hs with hc
    obtain ⟨cqe, rfl, rfl, hdoes, hfibers, hgeometry⟩ := h.refines.post hs
    exact .post rfl hc hfibers hgeometry ⟨hdoes.refines, hdoes.log, hdoes.control⟩

/-! ### The invariant -/

/-- The fiber an event appends to the ready list. -/
def Event.enqueued : Event → Option Addr
  | .enqueue f => some f
  | _ => none

/-- The fiber an event takes from the head of the ready list. -/
def Event.resumed : Event → Option Addr
  | .resume f _ _ => some f
  | _ => none

def dispatched (m : List Event) : List Addr := m.filterMap Event.resumed

@[simp] theorem dispatched_nil : dispatched [] = [] := rfl

@[simp] theorem dispatched_append (m m' : List Event) :
    dispatched (m ++ m') = dispatched m ++ dispatched m' :=
  List.filterMap_append

@[simp] theorem dispatched_cons (e : Event) (m : List Event) :
    dispatched (e :: m) = e.resumed.toList ++ dispatched m := by
  cases h : e.resumed <;> simp [dispatched, h]

theorem dispatched_eq_nil {m : List Event} (h : ∀ e ∈ m, e.resumed = none) : dispatched m = [] :=
  List.filterMap_eq_nil_iff.mpr h

namespace Board

theorem apply_ready (b : Board) {e : Event} (he : e.resumed = none) :
    (b.apply e).ready = b.ready ++ e.enqueued.toList := by
  cases e with
  | resume f answer call => cases he
  | enqueue f => rfl
  | spawn p result => cases result <;> simp [apply, setAnswer, modify, Event.enqueued]
  | detach u =>
    simp only [apply, Event.enqueued, Option.toList_none, List.append_nil]
    split <;> rfl
  | destroy f =>
    simp only [apply, Event.enqueued, Option.toList_none, List.append_nil]
    split
    · rfl
    · split <;> rfl
  | stage f =>
    simp only [apply, Event.enqueued, Option.toList_none, List.append_nil]
    split <;> rfl
  | post number cqe =>
    simp only [apply, Event.enqueued, Option.toList_none, List.append_nil]
    split <;> rfl
  | reap cqe =>
    simp only [apply, Event.enqueued, Option.toList_none, List.append_nil]
    split <;> rfl
  | launch f => simp [apply, Event.enqueued]
  | block f u => simp [apply, modify, Event.enqueued]
  | enter call => simp [apply, Event.enqueued]

theorem foldl_ready (b : Board) {es : List Event} (he : ∀ e ∈ es, e.resumed = none) :
    (es.foldl apply b).ready = b.ready ++ es.filterMap Event.enqueued := by
  induction es generalizing b with
  | nil => simp
  | cons e es ih =>
    rw [List.foldl_cons, ih _ (fun e' h => he e' (by simp [h])), apply_ready b (he e (by simp)),
      List.append_assoc, List.filterMap_cons]
    cases e.enqueued <;> simp

theorem resume_ready (b : Board) {f : Addr} {t : Task} (ht : b.tasks f = some t) (answer : Option Long)
    (call : Call) : (b.apply (.resume f answer call)).ready = b.ready.tail := by
  simp only [apply, ht]

end Board

theorem Ends.board {es : List Event} {c : Control} (h : Ends k s b es c s') :
    replay s'.log = es.foldl Board.apply b := h.refines.board

theorem Ends.good {es : List Event} {c : Control} (h : Ends k s b es c s')
    (hs : Standing s' (es.foldl Board.apply b) c) : Good k s' :=
  ⟨h.board ▸ h.refines, by rw [h.board, h.control]; exact hs⟩

theorem Board.hand_resume {f : Addr} {t : Task} {call : Call} {a : Option Long}
    (ht : b.tasks f = some t)
    (hc : ∀ status, call ≠ .exit status) : (b.apply (.resume f a call)).hand = [f] := by
  have hz : (t.suspend call).zombie = false := by
    rw [Bool.eq_false_iff, Ne, Task.zombie_iff]
    exact fun hx => hx.1 (Task.exit_eq_none_of_call rfl hc)
  simp [Board.apply, ht, hz]

theorem Board.hand_destroy {f : Addr} {t : Task} (ht : b.tasks f = some t) :
    (b.apply (.destroy f)).hand = (b.heir f t).toList := by
  simp only [Board.apply, ht]
  cases b.heir f t <;> rfl

theorem Board.hand_destroy_enqueue {f g : Addr} {t : Task} (ht : b.tasks f = some t) :
    ((b.apply (.destroy f)).apply (.enqueue g)).hand = [] := by
  show (b.apply (.destroy f)).hand.tail = []
  rw [Board.hand_destroy ht]
  cases b.heir f t <;> rfl

theorem Board.hand_detach (b : Board) (u : Addr) : (b.apply (.detach u)).hand = b.hand := by
  simp only [Board.apply]
  split <;> rfl

theorem Board.apply_detach {f u : Addr} (hh : b.hand = [f]) :
    b.apply (.detach u) = (b.modify u fun v => { v with detached := true }).setAnswer f 0#64 := by
  have hhand : (b.modify u fun v => { v with detached := true }).hand = [f] := hh
  simp only [Board.apply, hhand]

theorem Board.apply_stage {f : Addr} {sqe : Sqe} (h : b.Asks f (.await sqe)) :
    b.apply (.stage f) = { b with
      staged := b.staged ++ [⟨b.count, f, sqe⟩], count := b.count + 1, hand := [] } := by
  obtain ⟨t, ht, hc, -⟩ := h
  simp only [Board.apply, ht, Option.bind_some, hc]

/-- A turn ends in one of three ways: it goes on with the sweep, nothing being
left in hand; it stops in the flush of `park`; or the run is over. -/
theorem Served.ok_cases {turns : U32} {f : Addr} {t : Task} {x : Turn}
    (h : Served k s b turns f t x (.ok s')) (hi : b.Inv) (ht : b.tasks f = some t) :
    (∃ es, (∀ e ∈ es, e.resumed = none) ∧
      (es.foldl Board.apply (b.apply (.resume f t.returned x.call))).hand = [] ∧
      Ends k s b (.resume f t.returned x.call :: es) (.sweep (turns - 1#32)) s') ∨
    (∃ sqe, x.call = .await sqe ∧ sqe.flags = 0#8 ∧ b.ops.length < s.ring.cqEntries.toNat ∧
      frames s'.fibers f = some x.frame ∧ s'.ring = s.ring ∧
      Ends k s b [.resume f t.returned x.call] (.flush turns f x.frame) s') ∨
    (∃ status, x.call = .processExit status ∧
      Ends k s b [.resume f t.returned x.call] (.exited status) s') := by
  have hself : (b.apply (.resume f t.returned x.call)).tasks f = some (t.suspend x.call) := by
    simp only [Board.apply, ht, Function.update_self]
  have hother : ∀ a, a ≠ f → (b.apply (.resume f t.returned x.call)).tasks a = b.tasks a := by
    intro a ha
    simp only [Board.apply, ht, Function.update_of_ne ha]
  cases h with
  | yield call ends =>
    refine .inl ⟨[.enqueue f], by simp [Event.resumed], ?_, ends⟩
    show (b.apply _).hand.tail = []
    rw [Board.hand_resume ht (by simp [call])]
    rfl
  | exitDetached call hd hu ends =>
    refine .inl ⟨[.destroy f], by simp [Event.resumed], ?_, ends⟩
    have hj : t.joiner = none := by
      by_contra hj
      obtain ⟨j, hj⟩ := Option.ne_none_iff_exists'.mp hj
      rw [(hi.joiner f t j ht hj).2.2] at hd
      cases hd
    have hhand : (b.apply (.resume f t.returned x.call)).hand = [f] := by
      simp [Board.apply, ht, Task.zombie, Task.suspend, hd]
    rw [List.foldl_cons, List.foldl_nil, Board.hand_destroy hself]
    simp [Board.heir, Task.suspend, hj, hhand]
  | exitZombie call hd hj ends =>
    refine .inl ⟨[], by simp, ?_, ends⟩
    simp [Board.apply, ht, Task.zombie, Task.suspend, hd, hj, Task.exit, call]
  | exitJoined call hd hj hu ends =>
    exact .inl ⟨[.destroy f, .enqueue _], by simp [Event.resumed],
      Board.hand_destroy_enqueue hself, ends⟩
  | parkStaged call flags room slot ends =>
    refine .inl ⟨[.stage f], by simp [Event.resumed], ?_, ends⟩
    have hask : (b.apply (.resume f t.returned x.call)).Asks f (.await _) :=
      ⟨_, hself, congrArg some call, by simp [Task.suspend, call]⟩
    rw [List.foldl_cons, List.foldl_nil, Board.apply_stage hask]
  | parkFlush call flags room full frame ring ends =>
    exact .inr (.inl ⟨_, call, flags, room, frame, ring, ends⟩)
  | spawnFailed call hs ends =>
    refine .inl ⟨[.spawn f none, .enqueue f], by simp [Event.resumed], ?_, ends⟩
    show (b.apply _).hand.tail = []
    rw [Board.hand_resume ht (by simp [call])]
    rfl
  | spawned call hs ends => exact .inl ⟨_, by simp [Event.resumed], rfl, ends⟩
  | joinZombie call hne htu hz hu ends =>
    exact .inl ⟨[.destroy _, .enqueue f], by simp [Event.resumed],
      Board.hand_destroy_enqueue ((hother _ hne).trans htu), ends⟩
  | joinBlocked call hne hopen ends => exact .inl ⟨[.block f _], by simp [Event.resumed], rfl, ends⟩
  | detachZombie call hne htu hz hu ends =>
    exact .inl ⟨[.destroy _, .enqueue f], by simp [Event.resumed],
      Board.hand_destroy_enqueue ((hother _ hne).trans htu), ends⟩
  | detachOpen call hopen ends =>
    refine .inl ⟨[.detach _, .enqueue f], by simp [Event.resumed], ?_, ends⟩
    show (Board.apply (b.apply _) _).hand.tail = []
    rw [Board.hand_detach, Board.hand_resume ht (by simp [call])]
    rfl
  | processExit call ends => exact .inr (.inr ⟨_, call, ends⟩)

theorem Standing.congr {b' : Board} {c : Control} (h : Standing s b c)
    (hframes : frames s'.fibers = frames s.fibers) (hgeometry : s'.ring.toGeometry = s.ring.toGeometry)
    (htasks : b'.tasks = b.tasks) (hready : b'.ready = b.ready) (hhand : b'.hand = b.hand)
    (hops : b'.ops.length = b.ops.length) : Standing s' b' c := by
  have hnil : b'.ops = [] ↔ b.ops = [] := by
    rw [← List.length_eq_zero_iff, hops, List.length_eq_zero_iff]
  cases c <;> simp only [Standing, Board.Asks, hframes, hgeometry, htasks, hready, hhand, hops,
    hnil, ne_eq] at h ⊢ <;>
    exact h

theorem Board.length_ops_enter (b : Board) (call : Ring.Enter) :
    (b.apply (.enter call)).ops.length = b.ops.length := by
  simp only [Board.apply, Board.ops, List.length_append, List.length_take, List.length_drop]
  omega

/-- A completion leaves everything but the kernel's lists alone. -/
theorem Board.apply_post (b : Board) (number : ℕ) (cqe : Cqe) :
    (b.apply (.post number cqe)).tasks = b.tasks ∧ (b.apply (.post number cqe)).ready = b.ready ∧
      (b.apply (.post number cqe)).hand = b.hand ∧
      (b.apply (.post number cqe)).ops.length = b.ops.length := by
  simp only [Board.apply]
  split
  · exact ⟨rfl, rfl, rfl, rfl⟩
  · rename_i o ho
    have hmem := List.mem_of_find?_eq_some ho
    have hnumber := List.find?_some ho
    obtain ⟨y, before, after, hheld, -, -, herase⟩ :=
      exists_split_find? (p := fun o : Op => decide (o.number = number)) hmem hnumber
    refine ⟨rfl, rfl, rfl, ?_⟩
    simp only [Board.ops, herase, List.length_append, List.length_map, List.length_cons,
      List.length_nil]
    rw [hheld]
    simp only [List.length_append, List.length_cons]
    omega

theorem Stepped.good (h : Good k s) (hstep : Stepped k s (replay s.log) i s') : Good k s' := by
  have hstand := h.standing
  cases hstep with
  | launch input c fresh ends =>
    refine ends.good ?_
    rfl
  | run c ends =>
    refine ends.good ?_
    cases hc : s.control <;> simp_all [Control.ready, Standing]
  | loop c hne ends =>
    rw [c] at hstand
    exact ends.good ⟨hstand, h.refines.readyCount.le⟩
  | cycle c ho hr hj ends =>
    rw [c] at hstand
    exact ends.good (.inl hstand)
  | drain c ho hr hj ends =>
    rw [c] at hstand
    exact ends.good ⟨hstand, ho, hr, hj⟩
  | @turn turns f t x input c hturns head task allowed served =>
    rw [c] at hstand
    have hpos : 0 < turns.toNat := Nat.pos_of_ne_zero fun hz => hturns (eq_zero_iff_toNat.mpr hz)
    have hpred : (turns - 1#32).toNat = turns.toNat - 1 := toNat_pred hpos
    have hlen := hstand.2
    have hready := (replay s.log).resume_ready task t.returned x.call
    rcases served.ok_cases h.refines.inv task with ⟨es, hes, hhand, ends⟩ |
      ⟨sqe, call, flags, room, frame, ring, ends⟩ | ⟨status, call, ends⟩
    · refine ends.good ⟨hhand, ?_⟩
      rw [List.foldl_cons, Board.foldl_ready _ hes, List.length_append, hready, List.length_tail, hpred]
      omega
    · refine ends.good ⟨Board.hand_resume (a := t.returned) task (by simp [call]), frame,
        ⟨sqe, ?_, flags⟩, ?_, hpos, ?_⟩
      · exact ⟨t.suspend x.call, by simp [Board.apply, task], congrArg some call,
          by simp [Task.suspend, call]⟩
      · rw [ring]
        simpa [Board.apply, task, Board.ops] using room
      · rw [List.foldl_cons, List.foldl_nil, hready, List.length_tail]
        omega
    · refine ends.good ⟨f, Board.hand_resume (a := t.returned) task (by simp [call]),
        t.suspend x.call, ?_, ?_, ?_⟩
      · simp [Board.apply, task]
      · exact congrArg some call
      · simp [Task.suspend, call]
  | turnDies input c hturns head task allowed served ends =>
    rw [c] at hstand
    exact ends.good (.inl hstand.1)
  | again c ho ends =>
    rw [c] at hstand
    exact ends.good hstand.1
  | boundary c ho ends =>
    rw [c] at hstand
    exact ends.good ⟨hstand.1, ho, rfl⟩
  | flushAgain input c answers fibers geometry ends =>
    rw [c] at hstand
    obtain ⟨hh, hfr, hask, hroom, hpos, hle⟩ := hstand
    refine ends.good ⟨hh, by rw [fibers]; exact hfr, hask, ?_, hpos, hle⟩
    rw [List.foldl_cons, List.foldl_nil, Board.length_ops_enter, geometry]
    exact hroom
  | @flushed turns f r result input c answers ends =>
    rw [c] at hstand
    obtain ⟨hh, hfr, ⟨sqe, hask, -⟩, hroom, hpos, hle⟩ := hstand
    have hask' : ((replay s.log).apply (.enter (s.ring.enter 0#32 result))).Asks f (.await sqe) := hask
    refine ends.good ⟨?_, ?_⟩
    · rw [List.foldl_cons, List.foldl_cons, List.foldl_nil, Board.apply_stage hask']
    · rw [List.foldl_cons, List.foldl_cons, List.foldl_nil, Board.apply_stage hask', toNat_pred hpos]
      show turns.toNat - 1 ≤ (replay s.log).ready.length
      omega
  | @flushDies turns f r result stop input c hstop ends =>
    rw [c] at hstand
    obtain ⟨hh, -, ⟨sqe, hask, -⟩, -⟩ := hstand
    exact ends.good (.inr ⟨f, sqe, hh, hask⟩)
  | submitAgain input c answers ends =>
    rw [c] at hstand
    refine ends.good ⟨hstand.1, ?_, hstand.2.2⟩
    rw [← List.length_pos_iff_ne_nil, List.foldl_cons, List.foldl_nil, Board.length_ops_enter,
      List.length_pos_iff_ne_nil]
    exact hstand.2.1
  | submitted input c answers all ends =>
    rw [c] at hstand
    exact ends.good hstand.1
  | submitDies input c failed ends =>
    rw [c] at hstand
    exact ends.good (.inl hstand.1)
  | reaped c hb res ends =>
    refine ends.good ?_
    simp [Standing, Board.apply, hb]
  | reapDone c hb ends =>
    rw [c] at hstand
    exact ends.good hstand
  | reapDies c ends =>
    rw [c] at hstand
    exact ends.good (.inl hstand)
  | @post number cqe input c fibers geometry ends =>
    obtain ⟨htasks, hready, hhand, hops⟩ := (replay s.log).apply_post number cqe
    exact ends.good (hstand.congr (by rw [fibers]) geometry htasks hready hhand hops)

/-- Only a turn dispatches a fiber, and that is the first it does. -/
theorem Stepped.events (h : Stepped k s b i s') (hi : b.Inv) :
    ∃ es, s'.log = s.log ++ es ∧ ((∀ e ∈ es, e.resumed = none) ∨
      ∃ x f t es', i = .turn x ∧ b.ready.head? = some f ∧ b.tasks f = some t ∧
        es = .resume f t.returned x.call :: es' ∧ (∀ e ∈ es', e.resumed = none) ∧
        ∃ turns, s.control = .sweep turns ∧ Served k s b turns f t x (.ok s')) := by
  cases h with
  | turn input c hturns head task allowed served =>
    rcases served.ok_cases hi task with ⟨es, hes, -, ends⟩ | ⟨_, _, _, _, _, _, ends⟩ | ⟨_, _, ends⟩
    · exact ⟨_, ends.log, .inr ⟨_, _, _, es, input, head, task, rfl, hes, _, c, served⟩⟩
    · exact ⟨_, ends.log, .inr ⟨_, _, _, [], input, head, task, rfl, by simp, _, c, served⟩⟩
    · exact ⟨_, ends.log, .inr ⟨_, _, _, [], input, head, task, rfl, by simp, _, c, served⟩⟩
  | launch input c fresh ends => exact ⟨_, ends.log, .inl (by simp [Event.resumed])⟩
  | run c ends => exact ⟨_, ends.log, .inl (by simp)⟩
  | loop c hne ends => exact ⟨_, ends.log, .inl (by simp)⟩
  | cycle c ho hr hj ends => exact ⟨_, ends.log, .inl (by simp)⟩
  | drain c ho hr hj ends => exact ⟨_, ends.log, .inl (by simp)⟩
  | turnDies input c hturns head task allowed served ends => exact ⟨_, ends.log, .inl (by simp)⟩
  | again c ho ends => exact ⟨_, ends.log, .inl (by simp)⟩
  | boundary c ho ends => exact ⟨_, ends.log, .inl (by simp)⟩
  | flushAgain input c answers fibers geometry ends =>
    exact ⟨_, ends.log, .inl (by simp [Event.resumed])⟩
  | flushed input c answers ends => exact ⟨_, ends.log, .inl (by simp [Event.resumed])⟩
  | flushDies input c hstop ends => exact ⟨_, ends.log, .inl (by simp)⟩
  | submitAgain input c answers ends => exact ⟨_, ends.log, .inl (by simp [Event.resumed])⟩
  | submitted input c answers all ends => exact ⟨_, ends.log, .inl (by simp [Event.resumed])⟩
  | submitDies input c failed ends => exact ⟨_, ends.log, .inl (by simp)⟩
  | reaped c hb res ends => exact ⟨_, ends.log, .inl (by simp [Event.resumed])⟩
  | reapDone c hb ends => exact ⟨_, ends.log, .inl (by simp)⟩
  | reapDies c ends => exact ⟨_, ends.log, .inl (by simp)⟩
  | post input c fibers geometry ends => exact ⟨_, ends.log, .inl (by simp [Event.resumed])⟩

theorem Good.become (g : Geometry) (memory : Mem) (counter : U32) (cqes : ℕ → Cqe) :
    Good k (become (Ring.created g memory counter cqes)) :=
  ⟨Refines.become g memory counter cqes, rfl⟩

theorem Good.step (h : Good k s) (hs : Step k s s') : Good k s' := by
  obtain ⟨i, allowed, hi⟩ := hs
  exact (h.stepped allowed hi).good h

theorem Reachable.tail (h : Reachable k s) (hs : Step k s s') : Reachable k s' := by
  obtain ⟨g, memory, counter, cqes, hrun⟩ := h
  exact ⟨g, memory, counter, cqes, hrun.tail hs⟩

theorem Reachable.keeps {P : State → Prop} (h : Reachable k s)
    (hstart : ∀ (g : Geometry) memory counter cqes, P (become (Ring.created g memory counter cqes)))
    (hstep : ∀ s s', Reachable k s → P s → Step k s s' → P s') : P s := by
  obtain ⟨g, memory, counter, cqes, hrun⟩ := h
  refine (keeps_run (P := fun s => Reachable k s ∧ P s) ?_ ?_ hrun).2
  · rintro s s' ⟨hreach, hs⟩ h
    exact ⟨hreach.tail h, hstep s s' hreach hs h⟩
  · exact ⟨⟨g, memory, counter, cqes, .refl⟩, hstart g memory counter cqes⟩

theorem Reachable.good (h : Reachable k s) : Good k s :=
  h.keeps Good.become fun _ _ _ hgood hstep => hgood.step hstep

end Libuc.Scheduler
