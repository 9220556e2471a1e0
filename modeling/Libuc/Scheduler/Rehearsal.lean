import Libuc.Lib.Runs
import Libuc.Scheduler.History

/-! Running the reactor. What the environment may do is a proposition; here it is
checked by evaluation, which makes a list of inputs into a run. The number of
mappings is bounded by the number of fibers the log says were created. -/

namespace Libuc.Scheduler

open Lib

variable {k : Kernel} {s s' : State} {f : Addr} {log : List Event}

def Event.created : Event → Option Addr
  | .launch f => some f
  | .spawn _ result => result
  | _ => none

theorem Event.created_eq_some {e : Event} : e.created = some f ↔ e.Creates f := by
  cases e <;> simp [created, Creates]

def creations (log : List Event) : ℕ := (log.filterMap Event.created).length

theorem Good.mapped_created (h : Good k s) (hf : f ∈ s.mapped) : f ∈ s.log.filterMap Event.created := by
  obtain ⟨fb, hfb⟩ := Option.isSome_iff_exists.mp hf
  cases ht : (replay s.log).tasks f with
  | none =>
    rw [(h.refines.memory.mapped f).mpr ht] at hfb
    cases hfb
  | some t =>
    obtain ⟨p, e, q, hlog, hcreates, -⟩ := h.refines.legal.creation ht
    exact List.mem_filterMap.mpr ⟨e, by simp [hlog], Event.created_eq_some.mpr hcreates⟩

/-- There are at most as many mapped fibers as have been created. -/
theorem Good.mapped_le (h : Good k s) : s.mapped.ncard ≤ creations s.log := by
  have hsub : s.mapped ⊆ ((s.log.filterMap Event.created).toFinset : Set Addr) := by
    intro u hu
    rw [List.coe_toFinset]
    exact h.mapped_created hu
  calc s.mapped.ncard ≤ ((s.log.filterMap Event.created).toFinset : Set Addr).ncard :=
        Set.ncard_le_ncard hsub (Finset.finite_toSet _)
    _ = (s.log.filterMap Event.created).toFinset.card := Set.ncard_coe_finset _
    _ ≤ creations s.log := List.toFinset_card_le _

def fresh (k : Kernel) (s : State) (a : Addr) : Bool :=
  a ≠ 0#64 && (s.fibers a).isNone && creations s.log < k.mapLimit

theorem Good.fresh (h : Good k s) {a : Addr} (ha : Scheduler.fresh k s a = true) : Fresh k s a := by
  simp only [Scheduler.fresh, Bool.and_eq_true, decide_eq_true_eq, Option.isNone_iff_eq_none] at ha
  exact ⟨ha.1.1, ha.1.2, lt_of_le_of_lt h.mapped_le ha.2⟩

def permits (k : Kernel) (s : State) : Input → Bool
  | .launch f _ => fresh k s f
  | .turn t =>
    (s.requests t.frame).all (fun q => q.fiber = s.readyHead) && t.spawned.all (fresh k s) && t.unmapped
  | .enter result =>
    -4095 ≤ result.toInt && result.toInt < 0 ||
      result.toNat ≤ s.ring.batchCount.toNat && (s.ring.batchCount = 0#32 || 0 < result.toNat)
  | _ => true

theorem Good.permits (h : Good k s) {i : Input} (hi : Scheduler.permits k s i = true) :
    Allowed k s i := by
  cases i with
  | launch f spawn => exact h.fresh hi
  | run => trivial
  | tick => trivial
  | turn t =>
    simp only [Scheduler.permits, Bool.and_eq_true, Option.all_eq_true, decide_eq_true_eq] at hi
    exact ⟨hi.1.1, fun a ha => h.fresh (hi.1.2 a ha), fun _ => hi.2⟩
  | enter result =>
    simp only [Scheduler.permits, Bool.and_eq_true, Bool.or_eq_true, decide_eq_true_eq] at hi
    refine hi.imp id ?_
    rintro ⟨hle, hpos⟩
    refine ⟨hle, fun hb => hpos.resolve_left ?_⟩
    intro hz
    rw [hz] at hb
    exact absurd hb (lt_irrefl _)
  | post number res flags => trivial

theorem rehearse_steps (hs : Good k s) {inputs : List Input}
    (h : rehearse step (permits k) s inputs = some s') :
    Relation.ReflTransGen (Step k) s s' := by
  refine rehearse_run (P := Good k) (fun s i s' hg hi hs => ?_) hs h
  have hstep : Step k s s' := ⟨i, hg.permits hi, hs⟩
  exact ⟨hstep, hg.step hstep⟩

/-- A new scheduler is run on these inputs. -/
theorem rehearse_reachable {g : Geometry} {memory : Mem} {counter : U32} {cqes : ℕ → Cqe}
    {inputs : List Input}
    (h : rehearse step (permits k) (become (Ring.created g memory counter cqes)) inputs = some s) :
    Reachable k s :=
  ⟨g, memory, counter, cqes, rehearse_steps (Good.become g memory counter cqes) h⟩

/-- Control stands at one place, as evaluation tells. -/
def Control.same : Control → Control → Bool
  | .idle, .idle | .test, .test | .reap, .reap | .drained, .drained => true
  | .sweep turns, .sweep turns' => turns = turns'
  | .flush turns f r, .flush turns' f' r' => turns = turns' && f = f' && r = r'
  | .submit n, .submit n' => n = n'
  | .exited status, .exited status' => status = status'
  | .stopped stop, .stopped stop' => stop = stop'
  | _, _ => false

theorem Control.eq_of_same {c c' : Control} (h : c.same c' = true) : c = c' := by
  cases c <;> cases c' <;> simp_all [same]

/-! ### A kernel, a ring and a program to rehearse with -/

namespace Sample

/-- A kernel that maps up to sixteen fibers and always unmaps. -/
def kernel : Kernel := ⟨16, by norm_num, true⟩

def scheduler : State := become (Ring.created .small (fun _ => 0#8) 0#32 (fun _ => ⟨0#64, 0#32, 0#32⟩))

/-- A turn of a fiber that has all its frames at `frame`. -/
def turn (frame : Addr) (call : Call) (spawned : Option Addr) : Input :=
  .turn ⟨call, frame, spawned, true⟩

def parent : Addr := 0x100000#64

def child : Addr := 0x200000#64

def spawnRequest : SpawnRequest := ⟨0x10000#64, 0x400000#64, 0#64⟩

def nop : Sqe := fun _ => 0#8

/-- A parent starts a child at `c` and blocks in a join; the child awaits a no-op. -/
def opening (c : Addr) : List Input :=
  [.launch parent spawnRequest, .run, .tick,
    turn 0x101000#64 (.start spawnRequest) (some c), .tick, .tick,
    turn 0x101000#64 (.join c) none, turn 0x201000#64 (.await nop) none]

/-- The operation completes with 7, the child ends with 5, the parent with 0. -/
def closing : List Input :=
  [.tick, .enter 1#64, .post 0 7#32 0#32, .tick, .tick, .tick,
    turn 0x201000#64 (.exit 5#32) none, .tick, .tick,
    turn 0x101000#64 (.exit 0#32) none, .tick, .tick]

def third : Addr := 0x300000#64

/-- Three fibers await; there is room for two SQEs. -/
def crowded : List Input :=
  [.launch parent spawnRequest, .launch child spawnRequest, .launch third spawnRequest, .run, .tick,
    turn 0x101000#64 (.await nop) none, turn 0x201000#64 (.await nop) none,
    turn 0x301000#64 (.await nop) none, .enter (BitVec.ofInt 64 (-11))]

/-- The child ends while its parent yields, then the parent joins it. -/
def yielding : List Input :=
  [.launch parent spawnRequest, .run, .tick,
    turn 0x101000#64 (.start spawnRequest) (some child), .tick, .tick,
    turn 0x101000#64 .yield none, turn 0x201000#64 (.exit 5#32) none, .tick, .tick,
    turn 0x101000#64 (.join child) none]

def after (inputs : List Input) : State :=
  (rehearse step (permits kernel) scheduler inputs).getD scheduler

theorem reachable {inputs : List Input}
    (h : (rehearse step (permits kernel) scheduler inputs).isSome = true) :
    Reachable kernel (after inputs) := by
  obtain ⟨s, hs⟩ := Option.isSome_iff_exists.mp h
  rw [after, hs]
  exact rehearse_reachable hs

def events : List Event :=
  [.launch parent, .enqueue parent, .resume parent none (.start spawnRequest),
    .spawn parent (some child),
    .enqueue parent, .enqueue child, .resume parent (some child) (.join child), .block parent child,
    .resume child none (.await nop), .stage child,
    .enter ⟨1#32, 1#32, 1#64, [nop.setUserData 0x201000#64]⟩, .post 0 ⟨0x201000#64, 7#32, 0#32⟩,
    .reap ⟨0x201000#64, 7#32, 0#32⟩, .enqueue child, .resume child (some 7#64) (.exit 5#32),
    .destroy child, .enqueue parent, .resume parent (some 5#64) (.exit 0#32)]

/-- In a list that leads somewhere every input is allowed, and leads to the next state. -/
theorem step_after {inputs : List Input} {n : ℕ} {i : Input} (hi : inputs[n]? = some i)
    (h : (rehearse step (permits kernel) scheduler (inputs.take (n + 1))).isSome = true) :
    Reachable kernel (after (inputs.take n)) ∧ Allowed kernel (after (inputs.take n)) i ∧
      step (after (inputs.take n)) i = some (after (inputs.take (n + 1))) := by
  rw [List.take_add_one, hi, Option.toList_some] at h ⊢
  obtain ⟨s', hs'⟩ := Option.isSome_iff_exists.mp h
  obtain ⟨s, hs, hi, hstep⟩ := rehearse_concat hs'
  rw [after, after, hs, hs']
  have hreach := rehearse_reachable hs
  exact ⟨hreach, hreach.good.permits hi, hstep⟩

theorem run_after (inputs inputs' : List Input)
    (h : (rehearse step (permits kernel) scheduler (inputs ++ inputs')).isSome = true) :
    Relation.ReflTransGen (Step kernel) (after inputs) (after (inputs ++ inputs')) := by
  obtain ⟨s', hs'⟩ := Option.isSome_iff_exists.mp h
  obtain ⟨s, hs, hrest⟩ := rehearse_append hs'
  rw [after, after, hs, hs']
  exact rehearse_steps (rehearse_reachable hs).good hrest

theorem reachable_opening : Reachable kernel (after (opening child)) := reachable (by decide +kernel)

theorem reachable_closing : Reachable kernel (after (opening child ++ closing)) :=
  reachable (by decide +kernel)

theorem log_closing : (after (opening child ++ closing)).log = events := eq_of_beq (by decide +kernel)

end Sample

end Libuc.Scheduler
