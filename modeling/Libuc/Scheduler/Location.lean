import Libuc.Scheduler.Rehearsal

/-! Where every fiber is, in the reactor's own terms. At a dispatch boundary no
fiber is in hand, so each mapped fiber is in the ready list, or its request is
the cookie of one operation, or its request is in one joiner slot, or it has
exited and waits to be joined or detached. -/

namespace Libuc.Scheduler

open Lib

/-- The places a fiber can be in between two turns. -/
inductive Place where
  | ready | parked | joining | exited
  deriving DecidableEq

def Control.settled : Control → Bool
  | .flush _ _ _ | .exited _ | .stopped _ => false
  | _ => true

namespace State

def cookies (s : State) (unreaped : List Cqe) : List Addr :=
  s.ring.staged.map Sqe.userData ++ s.held.map (fun o => o.sqe.userData) ++ unreaped.map Cqe.userData

/-- The joiner slot of the record at `u`. -/
def joinerSlot (s : State) (u : Addr) : Option Addr := (s.fibers u).bind Fiber.joiner

/-- At `r` is a request of this kind, on the frame of the fiber it names. -/
def Asks (s : State) (r : Addr) (ask : Ask) : Prop :=
  ∃ q f, s.requests r = some q ∧ q.ask = ask ∧ q.fiber = some f ∧ frames s.fibers f = some r

/-- The fiber `f` is in this place. -/
def At (s : State) (ready : List Addr) (unreaped : List Cqe) (f : Addr) : Place → Prop
  | .ready => f ∈ ready
  | .parked => ∃ r, frames s.fibers f = some r ∧ r ∈ s.cookies unreaped
  | .joining => ∃ r u, frames s.fibers f = some r ∧ s.joinerSlot u = some r
  | .exited => ∃ fb, s.fibers f = some fb ∧ fb.life = .exited

end State

/-- The fibers, the ready list, the operations and the joiner slots fit together. -/
structure Located (s : State) (ready : List Addr) (unreaped : List Cqe) : Prop where
  queue : LinkedQueue (links s.fibers) s.readyHead s.readyTail ready
  completions : s.ring.Unreaped unreaped
  place : ∀ f, s.fibers f ≠ none → ∃! p, s.At ready unreaped f p
  once : (s.cookies unreaped).Nodup
  slot : ∀ u v r, s.joinerSlot u = some r → s.joinerSlot v = some r → u = v
  target : ∀ u fb r, s.fibers u = some fb → fb.joiner = some r →
    fb.life = .live ∧ s.Asks r (.join u)
  awaited : ∀ r ∈ s.cookies unreaped, ∃ sqe, s.Asks r (.await sqe)
  ready_mapped : ∀ f ∈ ready, s.fibers f ≠ none
  head_tail : s.readyHead = none ↔ s.readyTail = none
  head_count : s.readyHead = none ↔ s.readyCount = 0#32
  readyCount : s.readyCount.toNat = ready.length
  parkedCount : s.parkedCount.toNat = {f | s.At ready unreaped f .parked}.ncard
  joiningCount : s.joiningCount.toNat = {u | s.joinerSlot u ≠ none}.ncard

variable {k : Kernel} {s : State} {b : Board} {q : List Cqe} {f u r : Addr}

theorem Good.hand_of_settled (h : Good k s) (hc : s.control.settled = true) :
    (replay s.log).hand = [] := by
  have hstand := h.standing
  cases hcc : s.control with
  | sweep turns =>
    rw [hcc] at hstand
    exact hstand.1
  | submit m =>
    rw [hcc] at hstand
    exact hstand.1
  | drained =>
    rw [hcc] at hstand
    exact hstand.1
  | flush turns f r => simp [hcc, Control.settled] at hc
  | exited status => simp [hcc, Control.settled] at hc
  | stopped stop => simp [hcc, Control.settled] at hc
  | _ =>
    rw [hcc] at hstand
    exact hstand

theorem map_some_of_forall₂ {α β γ : Type*} {R : α → β → Prop} {g : α → γ}
    {m : β → Option γ} {l : List α}
    {l' : List β} (h : List.Forall₂ R l l') (hg : ∀ a b, R a b → m b = some (g a)) :
    (l.map g).map some = l'.map m := by
  induction h with
  | nil => rfl
  | cons hr _ ih => simp only [List.map_cons, ih, hg _ _ hr]

/-- The cookies are the frames of the parked fibers, in the same order. -/
theorem InFlight.cookies {parked : U32} (h : InFlight (frames s.fibers) s.ring s.held s.taken parked b)
    (hq : List.Forall₂ (Answered (frames s.fibers)) q b.posted) :
    (s.cookies q).map some = b.parked.map (frames s.fibers) := by
  have h1 := map_some_of_forall₂ (g := Sqe.userData) (m := fun o => frames s.fibers o.fiber) h.staged
    fun x o hc => hc.cookie
  have h2 := map_some_of_forall₂ (g := fun x : Operation => x.sqe.userData)
    (m := fun o => frames s.fibers o.fiber) h.held fun x o hc => hc.2.cookie
  have h3 := map_some_of_forall₂ (g := Cqe.userData)
    (m := fun r : Reply => frames s.fibers r.op.fiber) hq
    fun c r ha => ha.cookie
  simp only [State.cookies, Board.parked, Board.ops, List.map_append, h1, h2, h3, List.map_map,
    Function.comp_def]

namespace Refines

theorem frames_injective (h : Refines k s b) {a c : Addr} (ha : frames s.fibers a = some r)
    (hc : frames s.fibers c = some r) : a = c := by
  simp only [frames, Option.bind_eq_some_iff] at ha hc
  obtain ⟨fa, hfa, hra⟩ := ha
  obtain ⟨fc, hfc, hrc⟩ := hc
  exact h.memory.frame_unique hfa hfc hra hrc

theorem parked_iff (h : Refines k s b) (hq : List.Forall₂ (Answered (frames s.fibers)) q b.posted)
    (ready : List Addr) : s.At ready q f .parked ↔ f ∈ b.parked := by
  have hcookies := h.flight.cookies hq
  constructor
  · rintro ⟨r, hr, hm⟩
    have hm' := List.mem_map_of_mem (f := some) hm
    rw [hcookies] at hm'
    obtain ⟨a, ha, har⟩ := List.mem_map.mp hm'
    rwa [h.frames_injective hr har]
  · intro hm
    have hm' := List.mem_map_of_mem (f := frames s.fibers) hm
    rw [← hcookies] at hm'
    obtain ⟨r, hr, hrf⟩ := List.mem_map.mp hm'
    exact ⟨r, hrf.symm, hr⟩

theorem cookies_nodup (h : Refines k s b) (hq : List.Forall₂ (Answered (frames s.fibers)) q b.posted) :
    (s.cookies q).Nodup := by
  have hnd : b.parked.Nodup := by
    have hn := h.inv.nodup
    rw [Board.placed, List.nodup_append] at hn
    exact hn.2.1
  refine List.Nodup.of_map some ?_
  rw [h.flight.cookies hq]
  refine hnd.map_on fun a ha c hc hac => ?_
  have hm := List.mem_map_of_mem (f := frames s.fibers) ha
  rw [← h.flight.cookies hq] at hm
  obtain ⟨r, -, hr⟩ := List.mem_map.mp hm
  exact h.frames_injective hr.symm (hac ▸ hr.symm)

theorem joinerSlot_iff (h : Refines k s b) :
    s.joinerSlot u = some r ↔ ∃ t f, b.tasks u = some t ∧ t.joiner = some f ∧
    frames s.fibers f = some r := by
  constructor
  · intro hs
    obtain ⟨fu, hfu, hj⟩ := Option.bind_eq_some_iff.mp hs
    obtain ⟨t, ht⟩ := h.memory.exists_task hfu
    cases hjt : t.joiner with
    | none =>
      rw [h.memory.unjoined u fu t hfu ht hjt] at hj
      cases hj
    | some f =>
      obtain ⟨r', q, hr', hq, hqf⟩ := h.memory.joined u fu t f hfu ht hjt
      rw [hj] at hr'
      cases hr'
      obtain ⟨a, fa, ha, hfa, hr⟩ := h.memory.owner r q hq
      rw [hqf] at ha
      cases ha
      exact ⟨t, f, ht, hjt, by simp [frames, hfa, hr]⟩
  · rintro ⟨t, f, ht, hj, hr⟩
    obtain ⟨fu, hfu⟩ := h.memory.exists_fiber ht
    obtain ⟨r', q, hr', hq, hqf⟩ := h.memory.joined u fu t f hfu ht hj
    obtain ⟨a, fa, ha, hfa, hra⟩ := h.memory.owner r' q hq
    rw [hqf] at ha
    cases ha
    have : frames s.fibers f = some r' := by simp [frames, hfa, hra]
    rw [hr] at this
    cases this
    simp [State.joinerSlot, hfu, hr']

theorem joining_iff (h : Refines k s b) (ready : List Addr) :
    s.At ready q f .joining ↔ ∃ u t, b.tasks u = some t ∧ t.joiner = some f := by
  constructor
  · rintro ⟨r, u, hr, hs⟩
    obtain ⟨t, f', ht, hj, hr'⟩ := h.joinerSlot_iff.mp hs
    exact ⟨u, t, ht, h.frames_injective hr' hr ▸ hj⟩
  · rintro ⟨u, t, ht, hj⟩
    obtain ⟨fu, hfu⟩ := h.memory.exists_fiber ht
    obtain ⟨r, q, -, hq, hqf⟩ := h.memory.joined u fu t f hfu ht hj
    obtain ⟨a, fa, ha, hfa, hra⟩ := h.memory.owner r q hq
    rw [hqf] at ha
    cases ha
    have hr : frames s.fibers f = some r := by simp [frames, hfa, hra]
    exact ⟨r, u, hr, h.joinerSlot_iff.mpr ⟨t, f, ht, hj, hr⟩⟩

theorem exited_iff (h : Refines k s b) (hh : b.hand = []) (ready : List Addr) {t : Task}
    (ht : b.tasks f = some t) : s.At ready q f .exited ↔ t.exit ≠ none := by
  obtain ⟨fb, hf⟩ := h.memory.exists_fiber ht
  have hlife : s.At ready q f .exited ↔ fb.life = .exited := by simp [State.At, hf]
  rw [hlife]
  constructor
  · intro hl
    have hd : t.detached = false := by
      cases hd : t.detached with
      | false => rfl
      | true =>
        rw [(h.life_eq_detached hf ht).mpr hd] at hl
        cases hl
    exact (h.life_eq_exited hf ht hd).mp hl
  · intro hx
    have hz := Task.zombie_iff.mp (h.inv.zombie_of_ended ht hx (by simp [hh]))
    exact (h.life_eq_exited hf ht hz.2.1).mpr hx

/-- Each mapped fiber is in exactly one place. -/
theorem place (h : Refines k s b) (hh : b.hand = [])
    (hq : List.Forall₂ (Answered (frames s.fibers)) q b.posted)
    (hf : s.fibers f ≠ none) : ∃! p, s.At b.ready q f p := by
  obtain ⟨fb, hfb⟩ := Option.ne_none_iff_exists'.mp hf
  obtain ⟨t, ht⟩ := h.memory.exists_task hfb
  have hready : s.At b.ready q f .ready ↔ f ∈ b.ready := Iff.rfl
  have hparked := h.parked_iff hq b.ready (f := f)
  have hjoining := h.joining_iff b.ready (q := q) (f := f)
  have hexited := h.exited_iff hh b.ready (q := q) ht
  have hnd := h.inv.nodup
  simp only [Board.placed, hh, List.append_nil] at hnd
  have hplaced : f ∈ b.placed ↔ f ∈ b.ready ∨ f ∈ b.parked := by simp [Board.placed, hh]
  have hdisj : f ∈ b.ready → f ∉ b.parked := fun h1 h2 => (List.nodup_append.mp hnd).2.2 f h1 f h2 rfl
  have hjoin : (∃ u t, b.tasks u = some t ∧ t.joiner = some f) → f ∉ b.placed ∧ t.exit = none := by
    rintro ⟨u, tu, hu, hj⟩
    obtain ⟨hask, hn, -⟩ := h.inv.joiner u tu f hu hj
    exact ⟨hn, hask.exit_none (by simp) ht⟩
  have hended : t.exit ≠ none → f ∉ b.ready ∧ f ∉ b.parked := fun hx => by
    obtain ⟨h1, h2, -⟩ := ended_notMem h.inv ht hx
    exact ⟨h1, h2⟩
  have hsome : f ∈ b.ready ∨ f ∈ b.parked ∨ (∃ u t, b.tasks u = some t ∧ t.joiner = some f) ∨
      t.exit ≠ none := by
    by_cases hp : f ∈ b.placed
    · rcases hplaced.mp hp with hp | hp
      · exact .inl hp
      · exact .inr (.inl hp)
    · rcases h.inv.unplaced f t ht hp with hz | hj
      · exact .inr (.inr (.inr (Task.zombie_iff.mp hz).1))
      · exact .inr (.inr (.inl hj))
  rw [hplaced] at hjoin
  rcases hsome with h1 | h1 | h1 | h1
  · refine ⟨.ready, h1, fun p hp => ?_⟩
    cases p <;> grind
  · refine ⟨.parked, hparked.mpr h1, fun p hp => ?_⟩
    cases p <;> grind
  · refine ⟨.joining, hjoining.mpr h1, fun p hp => ?_⟩
    cases p <;> grind
  · refine ⟨.exited, hexited.mpr h1, fun p hp => ?_⟩
    cases p <;> grind

/-- The request of a fiber that waits is where its frame says. -/
theorem asks (h : Refines k s b) {call : Call} (hask : b.Asks f call)
    (hr : frames s.fibers f = some r) :
    s.Asks r call.ask := by
  obtain ⟨t, ht, hcall, -⟩ := hask
  obtain ⟨fb, hf⟩ := h.memory.exists_fiber ht
  obtain ⟨r', hr', hq⟩ := h.memory.request f fb t call hf ht hcall
  have hrr : r' = r := by
    simp only [frames, hf, Option.bind_some] at hr
    exact Option.some.inj (hr'.symm.trans hr)
  subst hrr
  exact ⟨_, f, hq, rfl, rfl, hr⟩

theorem joinerSlot_ne_none (h : Refines k s b) : {u | s.joinerSlot u ≠ none} = joined b.tasks := by
  ext u
  constructor
  · intro hu
    obtain ⟨r, hr⟩ := Option.ne_none_iff_exists'.mp hu
    obtain ⟨t, f, ht, hj, -⟩ := h.joinerSlot_iff.mp hr
    exact ⟨t, ht, by simp [hj]⟩
  · rintro ⟨t, ht, hj⟩
    obtain ⟨f, hj⟩ := Option.ne_none_iff_exists'.mp hj
    obtain ⟨fu, hfu⟩ := h.memory.exists_fiber ht
    obtain ⟨r, q, hr, -, -⟩ := h.memory.joined u fu t f hfu ht hj
    simp [State.joinerSlot, hfu, hr]

theorem located (h : Refines k s b) (hh : b.hand = []) : ∃ q, Located s b.ready q := by
  obtain ⟨q, hunreaped, hq⟩ := h.flight.posted
  refine ⟨q, h.queue, hunreaped, fun f hf => h.place hh hq hf, h.cookies_nodup hq, ?_, ?_,
    ?_, ?_, ?_, ?_, h.readyCount, ?_, ?_⟩
  · intro u v r hu hv
    obtain ⟨tu, f, htu, hju, hfr⟩ := h.joinerSlot_iff.mp hu
    obtain ⟨tv, g, htv, hjv, hgr⟩ := h.joinerSlot_iff.mp hv
    have hfg := h.frames_injective hfr hgr
    subst hfg
    -- both targets are the one the blocked fiber's join names
    obtain ⟨t, ht, hcall, -⟩ := (h.inv.joiner u tu f htu hju).1
    obtain ⟨t', ht', hcall', -⟩ := (h.inv.joiner v tv f htv hjv).1
    rw [ht] at ht'
    cases ht'
    rw [hcall] at hcall'
    cases hcall'
    rfl
  · intro u fb r hu hj
    have hslot : s.joinerSlot u = some r := by simp [State.joinerSlot, hu, hj]
    obtain ⟨t, f, ht, hjt, hfr⟩ := h.joinerSlot_iff.mp hslot
    refine ⟨?_, h.asks (h.inv.joiner u t f ht hjt).1 hfr⟩
    have hx : t.exit = none := by
      by_contra hx
      have hz := Task.zombie_iff.mp (h.inv.zombie_of_ended ht hx (by simp [hh]))
      rw [hz.2.2] at hjt
      cases hjt
    rw [h.memory.life u fb t hu ht, Task.life, (h.inv.joiner u t f ht hjt).2.2, hx]
    rfl
  · intro r hr
    have hm := List.mem_map_of_mem (f := some) hr
    rw [h.flight.cookies hq] at hm
    obtain ⟨f, hf, hfr⟩ := List.mem_map.mp hm
    obtain ⟨o, ho, rfl⟩ := List.mem_map.mp hf
    exact ⟨o.sqe, h.asks (h.inv.op o ho) hfr⟩
  · intro f hf hn
    obtain ⟨t, ht⟩ := h.inv.mapped f (by simp [Board.placed, hf])
    rw [(h.memory.mapped f).mp hn] at ht
    cases ht
  · rw [h.queue.head_eq_none, h.queue.tail_eq_none]
  · rw [h.queue.head_eq_none, eq_zero_iff_toNat, h.readyCount, List.length_eq_zero_iff]
  · have hset : {f | s.At b.ready q f .parked} = (b.parked.toFinset : Set Addr) := by
      ext f
      simp only [Set.mem_ofPred_eq, h.parked_iff hq b.ready, List.coe_toFinset]
    have hnd := h.inv.nodup
    rw [Board.placed, List.nodup_append] at hnd
    rw [hset, Set.ncard_coe_finset, List.toFinset_card_of_nodup hnd.2.1, h.flight.parked, Board.parked,
      List.length_map]
  · rw [h.joinerSlot_ne_none]
    exact h.joiningCount

end Refines

/-- The location invariant. Between two turns, in every run, each mapped fiber
is in exactly one place, and the list pointers and the three counters agree with
the places. -/
theorem every_fiber_in_one_place (k : Kernel) (s : State) (reach : Reachable k s)
    (hc : s.control.settled = true) : ∃ ready unreaped, Located s ready unreaped := by
  have h := reach.good
  obtain ⟨q, hq⟩ := h.refines.located (h.hand_of_settled hc)
  exact ⟨_, q, hq⟩

/-- One fiber is blocked in a join, the other parked. -/
theorem every_fiber_in_one_place_opening :
    (Sample.after (Sample.opening Sample.child)).parkedCount = 1#32 ∧
      (Sample.after (Sample.opening Sample.child)).joiningCount = 1#32 ∧
      ∃ ready unreaped, Located (Sample.after (Sample.opening Sample.child)) ready unreaped :=
  ⟨by decide +kernel, by decide +kernel,
    every_fiber_in_one_place Sample.kernel _ Sample.reachable_opening (by decide +kernel)⟩

end Libuc.Scheduler
