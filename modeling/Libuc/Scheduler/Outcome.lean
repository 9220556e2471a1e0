import Libuc.Lib.Runs
import Libuc.Scheduler.Rehearsal
import Libuc.Scheduler.Location
import Libuc.Scheduler.Restart

/-! How a run ends. A process exit ends it at once, with the status it carries.
Otherwise the loop ends when nothing is ready and nothing is outstanding: then
every fiber has ended, or the fibers that are left wait for each other in a
circle. -/

namespace Libuc.Scheduler

open Lib

variable {k : Kernel} {s s' : State} {b : Board} {f g u : Addr} {t : Task}

/-! ### Process exit -/

theorem step_exited {status : CInt} (hc : s.control = .exited status) (i : Input) :
    step s i = none := by
  cases i <;> simp [step, hc, Control.ready, Control.running]

theorem Served.processExit_ends {turns : U32} {x : Turn} {status : CInt}
    (h : Served k s b turns f t x (.ok s')) (hx : x.call = .processExit status) :
    Ends k s b [.resume f t.returned (.processExit status)] (.exited status) s' := by
  cases h with
  | processExit call ends =>
    rw [hx] at call ends
    cases call
    exact ends
  | _ => simp_all

/-- The process exit of a run is the last it did. -/
def ExitsLast (s : State) : Prop :=
  ∀ p f a status q, s.log = p ++ .resume f a (.processExit status) :: q → q = [] ∧
  s.control = .exited status

theorem Good.exitsLast (hg : Good k s) (h : ExitsLast s) (hs : Step k s s') : ExitsLast s' := by
  obtain ⟨i, allowed, hs⟩ := hs
  have hstep := hg.stepped allowed hs
  intro p f a status q hlog
  obtain ⟨es, hes, hkind⟩ := hstep.events hg.refines.inv
  rw [hes] at hlog
  rcases append_eq_append_cons hlog with ⟨p', rfl, hsplit⟩ | ⟨q', hp, -⟩
  · have hmem : Event.resume f a (.processExit status) ∈ es := by simp [hsplit]
    rcases hkind with hquiet | ⟨x, f', t, es', rfl, -, -, rfl, hquiet, turns, -, served⟩
    · exact absurd (hquiet _ hmem) (by simp [Event.resumed])
    · rcases List.mem_cons.mp hmem with heq | hmem
      · have hcall : x.call = .processExit status := by
          injection heq with _ _ hcall
          exact hcall.symm
        have ends := served.processExit_ends hcall
        have hone := List.append_cancel_left (hes.symm.trans ends.log)
        rw [hsplit] at hone
        cases p' with
        | nil => exact ⟨(List.cons.inj hone).2, ends.control⟩
        | cons e p' => simp at hone
      · exact absurd (hquiet _ hmem) (by simp [Event.resumed])
  · -- the exit is in the old log, but then there was no step to take
    obtain ⟨-, hc⟩ := h p f a status q' hp
    rw [step_exited hc] at hs
    cases hs

theorem Reachable.exitsLast (h : Reachable k s) : ExitsLast s := by
  refine h.keeps (fun g memory counter cqes p f a status q hlog => ?_) fun s s' hreach hs hstep =>
    hreach.good.exitsLast hs hstep
  simp [become] at hlog

/-- A process exit was asked for by the last turn, with that status. -/
theorem Reachable.exited (h : Reachable k s) {status : CInt} (hc : s.control = .exited status) :
    ∃ p f a, s.log = p ++ [.resume f a (.processExit status)] := by
  have hstand := h.good.standing
  rw [hc] at hstand
  obtain ⟨f, -, t, ht, hcall, -⟩ := hstand
  obtain ⟨p, a, q, hlog, -⟩ := h.good.refines.legal.call_origin ht hcall
  obtain ⟨rfl, -⟩ := h.exitsLast p f a status q hlog
  exact ⟨p, f, a, hlog⟩

theorem Good.processExit (h : Good k s) {x : Turn} {status : CInt} (hx : x.call = .processExit status)
    (allowed : Allowed k s (.turn x)) (hs : Scheduler.step s (.turn x) = some s') :
    s'.control = .exited status := by
  obtain ⟨turns, f, t, -, -, -, -, served, rfl⟩ := h.served allowed hs
  cases hd : s.dispatch turns x with
  | ok s' =>
    rw [hd] at served
    exact (served.processExit_ends hx).control
  | error stop =>
    rw [hd] at served
    cases served <;> simp_all

/-! ### The end of the loop -/

/-- The fiber `f` is blocked in a join of `u`: its request is in the joiner slot of `u`. -/
def State.Waits (s : State) (f u : Addr) : Prop :=
  ∃ r q, s.joinerSlot u = some r ∧ s.requests r = some q ∧ q.fiber = some f

theorem Refines.waits_iff (h : Refines k s b) :
    s.Waits f u ↔ ∃ t, b.tasks u = some t ∧ t.joiner = some f := by
  constructor
  · rintro ⟨r, q, hslot, hq, hqf⟩
    obtain ⟨t, g, ht, hj, hr⟩ := h.joinerSlot_iff.mp hslot
    obtain ⟨fg, hfg, hframe⟩ := Option.bind_eq_some_iff.mp hr
    obtain ⟨q', hq', hqg⟩ := h.memory.frame_fiber hfg hframe
    rw [hq] at hq'
    cases hq'
    rw [hqf] at hqg
    cases hqg
    exact ⟨t, ht, hj⟩
  · rintro ⟨t, ht, hj⟩
    obtain ⟨fu, hfu⟩ := h.memory.exists_fiber ht
    obtain ⟨r, q, hr, hq, hqf⟩ := h.memory.joined u fu t f hfu ht hj
    exact ⟨r, q, by simp [State.joinerSlot, hfu, hr], hq, hqf⟩

/-- When nothing is in a list, whatever has not ended waits for another fiber. -/
theorem Board.Inv.waits_of_idle (h : b.Inv) (hp : b.placed = []) (ht : b.tasks f = some t)
    (hx : t.exit = none) :
    ∃ u tu, b.tasks u = some tu ∧ tu.joiner = some f := by
  rcases h.unplaced f t ht (by simp [hp]) with hz | hwaits
  · exact absurd hx (Task.zombie_iff.mp hz).1
  · exact hwaits

theorem Board.Inv.joined_empty_iff (h : b.Inv) (hp : b.placed = []) :
    joined b.tasks = ∅ ↔ ∀ u t, b.tasks u = some t → t.exit ≠ none := by
  constructor
  · intro hj u t ht hx
    obtain ⟨w, tw, hw, hjw⟩ := h.waits_of_idle hp ht hx
    have hmem : w ∈ joined b.tasks := ⟨tw, hw, by simp [hjw]⟩
    rw [hj] at hmem
    exact hmem
  · intro hall
    refine Set.eq_empty_iff_forall_notMem.mpr ?_
    rintro u ⟨t, ht, hj⟩
    obtain ⟨j, hj⟩ := Option.ne_none_iff_exists'.mp hj
    obtain ⟨hask, -⟩ := h.joiner u t j ht hj
    obtain ⟨tj, htj, -⟩ := id hask
    exact hall j tj htj (hask.exit_none nofun htj)

/-- A target that is waited for has not ended, so when nothing is in a list it
waits itself, and the chain closes. -/
theorem Refines.wait_cycle (h : Refines k s b) (hp : b.placed = []) (hw : s.Waits f u) :
    ∃ g, Relation.TransGen s.Waits g g := by
  let S : Set Addr := {g | ∃ w, s.Waits g w}
  have hfin : S.Finite := by
    refine h.within.finite.subset ?_
    rintro g ⟨w, hgw⟩
    obtain ⟨t, ht, hj⟩ := h.waits_iff.mp hgw
    obtain ⟨tg, htg, -⟩ := (h.inv.joiner w t g ht hj).1
    obtain ⟨fg, hfg⟩ := h.memory.exists_fiber htg
    simp [hfg]
  obtain ⟨g, -, hcycle⟩ := exists_cycle (R := s.Waits) hfin ⟨f, u, hw⟩ (by
    rintro g ⟨w, hgw⟩
    obtain ⟨t, ht, hj⟩ := h.waits_iff.mp hgw
    have hx : t.exit = none := by
      by_contra hx
      have hhand : w ∉ b.hand := by
        intro hm
        have : w ∈ b.placed := by simp [Board.placed, hm]
        simp [hp] at this
      have := (Task.zombie_iff.mp (h.inv.zombie_of_ended ht hx hhand)).2.2
      rw [hj] at this
      cases this
    obtain ⟨v, tv, hv, hjv⟩ := h.inv.waits_of_idle hp ht hx
    exact ⟨w, ⟨v, h.waits_iff.mpr ⟨tv, hv, hjv⟩⟩, hgw⟩)
  exact ⟨g, hcycle⟩

structure LoopEnds (s s' : State) : Prop where
  drained_iff : s'.control = .drained ↔ AllEnded s.log
  cycle_iff : s'.control = .stopped (.trap .joinCycle) ↔ ∃ f u, s.Waits f u
  either : s'.control = .drained ∨ s'.control = .stopped (.trap .joinCycle)
  cycle : s'.control = .stopped (.trap .joinCycle) → ∃ f, Relation.TransGen s.Waits f f

theorem Good.loopEnds (h : Good k s) (hc : s.control = .test) (hz : s.parkedCount + s.readyCount = 0#32)
    (hs : Scheduler.step s .tick = some s') : LoopEnds s s' := by
  have hh := h.standing
  rw [hc] at hh
  have hwaits : (∃ f u, s.Waits f u) ↔ joined (replay s.log).tasks ≠ ∅ := by
    rw [← Set.nonempty_iff_ne_empty]
    constructor
    · rintro ⟨f, u, hw⟩
      obtain ⟨t, ht, hj⟩ := h.refines.waits_iff.mp hw
      exact ⟨u, t, ht, by simp [hj]⟩
    · rintro ⟨u, t, ht, hj⟩
      obtain ⟨f, hj⟩ := Option.ne_none_iff_exists'.mp hj
      exact ⟨f, u, h.refines.waits_iff.mpr ⟨t, ht, hj⟩⟩
  have hended : ∀ (_ : (replay s.log).placed = []), AllEnded s.log ↔
      joined (replay s.log).tasks = ∅ := by
    intro hp
    rw [h.refines.legal.allEnded_iff, h.refines.inv.joined_empty_iff hp]
  have hplaced : (replay s.log).ops = [] → (replay s.log).ready = [] → (replay s.log).placed = [] := by
    intro ho hr
    have hh' : (replay s.log).hand = [] := hh
    simp [Board.placed, Board.parked, ho, hr, hh']
  have hstep : Stepped k s (replay s.log) .tick s' := h.stepped trivial hs
  cases hstep with
  | cycle c ho hr hj ends =>
    have hp := hplaced ho hr
    refine ⟨?_, ?_, .inr ends.control, ?_⟩
    · rw [ends.control, hended hp]
      simp [hj]
    · rw [ends.control, hwaits]
      simp [hj]
    · intro _
      obtain ⟨f, u, hw⟩ := hwaits.mpr hj
      exact h.refines.wait_cycle hp hw
  | drain c ho hr hj ends =>
    have hp := hplaced ho hr
    refine ⟨?_, ?_, .inl ends.control, ?_⟩
    · rw [ends.control, hended hp]
      simp [hj]
    · rw [ends.control, hwaits]
      simp [hj]
    · intro hstop
      rw [ends.control] at hstop
      cases hstop
  | loop c hne ends =>
    -- the counters say what the lists say, so the loop cannot go on
    simp only [Scheduler.step, hc] at hs
    cases hs
    have := ends.control
    simp only [State.testLoop, hz, ne_eq, not_true_eq_false, if_false] at this
    split_ifs at this
  | _ => simp_all [Control.ready]

/-! ### A drained scheduler -/

def State.renewed (s : State) : State :=
  { become (Ring.created s.ring.toGeometry s.ring.memory s.ring.cqHead s.ring.cqes) with
    fibers := s.fibers
    requests := s.requests }

structure Drained (s : State) : Prop where
  head : s.readyHead = none
  tail : s.readyTail = none
  readyCount : s.readyCount = 0#32
  parkedCount : s.parkedCount = 0#32
  joiningCount : s.joiningCount = 0#32
  batch : s.ring.batchCount = 0#32
  held : s.held = []
  completions : s.ring.cqHead = s.ring.cqTail

theorem Good.drained (h : Good k s) (hc : s.control = .drained) : Drained s ∧ AllEnded s.log := by
  have hstand := h.standing
  rw [hc] at hstand
  obtain ⟨hh, ho, hr, hj⟩ := hstand
  have hparts : (replay s.log).staged = [] ∧ (replay s.log).held = [] ∧ (replay s.log).posted = [] := by
    simpa [Board.ops, and_assoc] using ho
  have hqueue := h.refines.queue
  rw [hr] at hqueue
  have hheld := h.refines.flight.held
  rw [hparts.2.1, List.forall₂_nil_right_iff] at hheld
  obtain ⟨q, hq, hall⟩ := h.refines.flight.posted
  rw [hparts.2.2, List.forall₂_nil_right_iff] at hall
  subst hall
  have hp : (replay s.log).placed = [] := by simp [Board.placed, Board.parked, ho, hr, hh]
  refine ⟨⟨hqueue.linked, hqueue.tail_eq, ?_, ?_, ?_, ?_, hheld, ?_⟩, ?_⟩
  · rw [eq_zero_iff_toNat, h.refines.readyCount, hr]
    rfl
  · rw [eq_zero_iff_toNat, h.refines.flight.parked, ho]
    rfl
  · rw [eq_zero_iff_toNat, h.refines.joiningCount, hj, Set.ncard_empty]
  · rw [eq_zero_iff_toNat, ← h.refines.batch_eq, hparts.1]
    rfl
  · rw [hq.tail_eq]
    simp
  · rw [h.refines.legal.allEnded_iff, ← h.refines.inv.joined_empty_iff hp]
    exact hj

theorem Drained.renewed (h : Drained s) :
    { s with control := .idle } = s.renewed.later s.log s.taken := by
  obtain ⟨h1, h2, h3, h4, h5, h6, h7, h8⟩ := h
  obtain ⟨⟨geometry, batch, memory, head, tail, cqes⟩, _, _, _, _, _, _, _, _, _, _, _⟩ := s
  simp only at h1 h2 h3 h4 h5 h6 h7 h8
  subst h1 h2 h3 h4 h5 h6 h7 h8
  simp [State.renewed, State.later, become, Ring.created]

/-- A further run on a drained scheduler is a run on a new one. -/
theorem Drained.run (h : Drained s) (hc : s.control = .drained) (i : Input) (inputs : List Input) :
    run s ((i :: inputs).map (Input.later s.taken)) =
      (run s.renewed (i :: inputs)).map (State.later s.log s.taken) := by
  rw [← run_later, ← h.renewed]
  simp only [Scheduler.run, List.map_cons, List.foldlM_cons, step_drained hc]

/-! ### Entering the kernel -/

theorem Good.submit_waits (h : Good k s) {m : U32} (hc : s.control = .submit m) :
    s.parkedCount ≠ 0#32 ∧ (m = 1#32 ↔ s.readyHead = none) ∧ (m = 0#32 ↔ s.readyHead ≠ none) ∧
      ∃ unreaped, s.ring.Unreaped unreaped ∧
      0 < s.ring.staged.length + s.held.length + unreaped.length := by
  have hstand := h.standing
  rw [hc] at hstand
  obtain ⟨-, ho, hm⟩ := hstand
  obtain ⟨q, hq, hall⟩ := h.refines.flight.posted
  have hready : s.readyHead = none ↔ (replay s.log).ready = [] := by
    rw [h.refines.queue.head_eq, List.head?_eq_none_iff]
  refine ⟨?_, ?_, ?_, q, hq, ?_⟩
  · rw [Ne, eq_zero_iff_toNat, h.refines.flight.parked, List.length_eq_zero_iff]
    exact ho
  · rw [hready, hm]
    split_ifs with hr <;> simp [hr]
  · rw [Ne, hready, hm]
    split_ifs with hr <;> simp [hr]
  · rw [h.refines.flight.staged.length_eq, h.refines.flight.held.length_eq, hall.length_eq]
    have := List.length_pos_iff_ne_nil.mpr ho
    simpa [Board.ops, Nat.add_assoc] using this

/-- A step that enters the kernel does so first, and waits only at the boundary. -/
theorem Stepped.enter_first {i : Input} {es : List Event} {call : Ring.Enter} (h : Stepped k s b i s')
    (hlog : s'.log = s.log ++ es) (hm : .enter call ∈ es) :
    ∃ rest, es = .enter call :: rest ∧ (∀ e ∈ rest, ∀ c, e ≠ .enter c) ∧
      (call.minComplete = 0#32 ∨ s.control = .submit call.minComplete) := by
  have key : ∀ {es' : List Event} {c : Control}, Ends k s b es' c s' → es = es' := by
    intro es' c ends
    rw [ends.log] at hlog
    exact (List.append_cancel_left hlog).symm
  cases h with
  | turn input c hturns head task allowed served =>
    cases served <;> rename_i ends <;> obtain rfl := key ends <;> simp at hm
  | flushAgain input c answers fibers geometry ends =>
    obtain rfl := key ends
    obtain rfl : call = s.ring.enter 0#32 _ := by simpa using hm
    exact ⟨[], rfl, by simp, .inl rfl⟩
  | flushed input c answers ends =>
    obtain rfl := key ends
    obtain rfl : call = s.ring.enter 0#32 _ := by simpa using hm
    exact ⟨_, rfl, by simp, .inl rfl⟩
  | submitAgain input c answers ends =>
    obtain rfl := key ends
    obtain rfl : call = s.ring.enter _ _ := by simpa using hm
    exact ⟨[], rfl, by simp, .inr c⟩
  | submitted input c answers all ends =>
    obtain rfl := key ends
    obtain rfl : call = s.ring.enter _ _ := by simpa using hm
    exact ⟨[], rfl, by simp, .inr c⟩
  | launch input c fresh ends => obtain rfl := key ends; simp at hm
  | run c ends => obtain rfl := key ends; simp at hm
  | loop c hne ends => obtain rfl := key ends; simp at hm
  | cycle c ho hr hj ends => obtain rfl := key ends; simp at hm
  | drain c ho hr hj ends => obtain rfl := key ends; simp at hm
  | turnDies input c hturns head task allowed served ends => obtain rfl := key ends; simp at hm
  | again c ho ends => obtain rfl := key ends; simp at hm
  | boundary c ho ends => obtain rfl := key ends; simp at hm
  | flushDies input c hwhy ends => obtain rfl := key ends; simp at hm
  | submitDies input c failed ends => obtain rfl := key ends; simp at hm
  | reaped c hb res ends => obtain rfl := key ends; simp at hm
  | reapDone c hb ends => obtain rfl := key ends; simp at hm
  | reapDies c ends => obtain rfl := key ends; simp at hm
  | post input c fibers geometry ends => obtain rfl := key ends; simp at hm

/-- Whenever the reactor waited in the kernel nothing was ready and something was
outstanding. -/
def WaitsForWork (log : List Event) : Prop :=
  ∀ p call q, log = p ++ .enter call :: q → call.minComplete ≠ 0#32 →
    call.minComplete = 1#32 ∧ (replay p).ready = [] ∧ (replay p).ops ≠ []

theorem Good.waitsForWork (hg : Good k s) (h : WaitsForWork s.log) (hs : Step k s s') :
    WaitsForWork s'.log := by
  obtain ⟨i, allowed, hs⟩ := hs
  have hstep := hg.stepped allowed hs
  intro p call q hlog hmin
  obtain ⟨es, hes, -⟩ := hstep.events hg.refines.inv
  rw [hes] at hlog
  rcases append_eq_append_cons hlog with ⟨p', rfl, hsplit⟩ | ⟨q', hp, -⟩
  · obtain ⟨rest, hfirst, hrest, hwhere⟩ := hstep.enter_first hes
      (show .enter call ∈ es by simp [hsplit])
    have hp' : p' = [] := by
      cases p' with
      | nil => rfl
      | cons e p' =>
        rw [hsplit] at hfirst
        obtain ⟨-, hmem⟩ := List.cons.inj hfirst
        exact absurd rfl (hrest (.enter call) (by simp [← hmem]) call)
    subst hp'
    rw [List.append_nil]
    have hstand := hg.standing
    rw [hwhere.resolve_left hmin] at hstand
    obtain ⟨-, ho, hm⟩ := hstand
    split_ifs at hm with hr
    · exact ⟨hm, hr, ho⟩
    · exact absurd hm hmin
  · exact h p call q' hp hmin

theorem Reachable.waitsForWork (h : Reachable k s) : WaitsForWork s.log := by
  refine h.keeps (P := fun s => WaitsForWork s.log) (fun g memory counter cqes p call q hlog => ?_)
    fun s s' hreach hs hstep => hreach.good.waitsForWork hs hstep
  simp [become] at hlog

/-- The outcome of a run. A process exit ends it with the status it carries and
nothing follows. When the loop ends otherwise it returns zero exactly when every
fiber ever created has ended, and traps exactly when fibers wait for each other,
in which case they do so in a circle. A drained scheduler is empty and runs on like
a new one. The reactor enters the kernel at an iteration boundary only with
operations outstanding, and waits there only if nothing is ready. -/
theorem run_outcome (k : Kernel) (s : State) (reach : Reachable k s) :
    (∀ status, s.control = .exited status →
      (∃ p f a, s.log = p ++ [.resume f a (.processExit status)]) ∧ ∀ i, step s i = none) ∧
    (∀ (x : Turn) status s', x.call = .processExit status → Allowed k s (.turn x) →
      step s (.turn x) = some s' → s'.control = .exited status) ∧
    (∀ s', s.control = .test → s.parkedCount + s.readyCount = 0#32 → step s .tick = some s' →
      LoopEnds s s') ∧
    (s.control = .drained → AllEnded s.log ∧ Drained s ∧
      ∀ i inputs, run s ((i :: inputs).map (Input.later s.taken)) =
        (run s.renewed (i :: inputs)).map (State.later s.log s.taken)) ∧
    (∀ m, s.control = .submit m →
      s.parkedCount ≠ 0#32 ∧ (m = 1#32 ↔ s.readyHead = none) ∧ (m = 0#32 ↔ s.readyHead ≠ none) ∧
        ∃ unreaped, s.ring.Unreaped unreaped ∧
          0 < s.ring.staged.length + s.held.length + unreaped.length) ∧
    WaitsForWork s.log := by
  have hg := reach.good
  refine ⟨fun status hc => ⟨reach.exited hc, step_exited hc⟩, ?_, ?_, ?_, ?_, reach.waitsForWork⟩
  · intro x status s' hx allowed hs
    exact hg.processExit hx allowed hs
  · intro s' hc hz hs
    exact hg.loopEnds hc hz hs
  · intro hc
    obtain ⟨hd, hall⟩ := hg.drained hc
    exact ⟨hall, hd, hd.run hc⟩
  · intro m hc
    exact hg.submit_waits hc

/-- Both fibers of the sample have ended and the loop has returned 0. -/
theorem run_outcome_closing :
    (Sample.after (Sample.opening Sample.child ++ Sample.closing)).control = .drained ∧
    AllEnded Sample.events ∧
      Drained (Sample.after (Sample.opening Sample.child ++ Sample.closing)) := by
  have hc : (Sample.after (Sample.opening Sample.child ++ Sample.closing)).control = .drained :=
    Control.eq_of_same (by decide +kernel)
  have h := (run_outcome Sample.kernel _ Sample.reachable_closing).2.2.2.1 hc
  rw [Sample.log_closing] at h
  exact ⟨hc, h.1, h.2.1⟩

end Libuc.Scheduler
