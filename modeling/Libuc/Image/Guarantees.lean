import Libuc.Image.Rehearsal
import Libuc.Scheduler.Outcome

/-! What the bytes of the process say in every run. The mappings are the log's account of
creations and destructions, the records and requests are the board that the log leads to,
and the words of the ready list and of the operations in flight lead to mapped stacks. -/

namespace Libuc

open Lib FiberRecord ThreadLocal Scheduler

variable {pf : Platform} {k : Kernel} {initial : Finset Mapping} {w w' : Image} {s : State}
  {h : Holding} {fb : Fiber} {t : Scheduler.Task} {a : Addr} {log : List Event}

/-! ### Every run is one of the scheduler -/

theorem Embodies.run (he : Embodies pf k initial w s)
    (hrun : Relation.ReflTransGen (Image.Step pf k) w w') :
    ∃ s', Relation.ReflTransGen (Step k) s s' ∧ Embodies pf k initial w' s' := by
  induction hrun with
  | refl => exact ⟨s, .refl, he⟩
  | tail _ hstep ih =>
    obtain ⟨s₁, hs₁, he₁⟩ := ih
    obtain ⟨s₂, hs₂, he₂⟩ := he₁.next hstep
    rcases hs₂ with rfl | hs₂
    · exact ⟨_, hs₁, he₂⟩
    · exact ⟨s₂, hs₁.tail hs₂, he₂⟩

/-- The process on its bytes is the scheduler: from wherever it is, each run is matched. -/
theorem process_refines_scheduler (reach : Image.Reachable pf k initial w) :
    ∃ s, Embodies pf k initial w s ∧ ∀ w', Relation.ReflTransGen (Image.Step pf k) w w' →
      ∃ s', Relation.ReflTransGen (Step k) s s' ∧ Embodies pf k initial w' s' := by
  obtain ⟨s, he⟩ := reach.embodied
  exact ⟨s, he, fun w' hrun => he.run hrun⟩

theorem process_refines_scheduler_opening :
    ∃ s, Embodies Image.Sample.platform Sample.kernel ∅ (Image.Sample.after Image.Sample.opening) s ∧
      ∀ w', Relation.ReflTransGen (Image.Step Image.Sample.platform Sample.kernel)
        (Image.Sample.after Image.Sample.opening) w' →
      ∃ s', Relation.ReflTransGen (Step Sample.kernel) s s' ∧
      Embodies Image.Sample.platform Sample.kernel ∅ w' s' :=
  process_refines_scheduler Image.Sample.reachable_opening

/-! ### Creations and destructions -/

def Scheduler.Event.destroyed : Event → Option Addr
  | .destroy f => some f
  | _ => none

theorem count_filterMap_concat (f : Event → Option Addr) (log : List Event) (e : Event) (a : Addr) :
    ((log ++ [e]).filterMap f).count a = (log.filterMap f).count a + if f e = some a then 1 else 0 := by
  rw [List.filterMap_append, List.count_append]
  cases h : f e with
  | none => simp [h]
  | some b => simp [h, List.count_singleton]

theorem Scheduler.Event.destroyed_eq_some {e : Event} : e.destroyed = some a ↔ e = .destroy a := by
  cases e <;> simp [Event.destroyed]

/-- A record is mapped when it has been created once more than it has been destroyed. -/
theorem Scheduler.Legal.account (h : Legal log) (a : Addr) :
    (log.filterMap Event.created).count a =
      (log.filterMap Event.destroyed).count a + if ((replay log).tasks a).isSome then 1 else 0 := by
  induction h with
  | nil => simp [Board.empty]
  | @concat log e hlog he ih =>
    rw [count_filterMap_concat, count_filterMap_concat, ih, replay_concat]
    cases hold : (replay log).tasks a with
    | none =>
      have hdestroy : e.destroyed ≠ some a := by
        intro hd
        rw [Event.destroyed_eq_some.mp hd] at he
        obtain ⟨t, ht, -⟩ := he
        rw [hold] at ht
        cases ht
      cases hnew : ((replay log).apply e).tasks a with
      | none =>
        have hcreates : e.created ≠ some a := by
          intro hc
          rw [(he.creates (Event.created_eq_some.mp hc)).2] at hnew
          cases hnew
        simp [hcreates, hdestroy]
      | some t =>
        have hcreates : e.created = some a := Event.created_eq_some.mpr (he.created hold hnew).2
        simp [hcreates, hdestroy]
    | some t =>
      have hcreates : e.created ≠ some a := by
        intro hc
        rw [(he.creates (Event.created_eq_some.mp hc)).1] at hold
        cases hold
      have hev := he.evolves hold
      generalize hnew : ((replay log).apply e).tasks a = next at hev
      cases next with
      | none =>
        obtain ⟨rfl, -⟩ : e = .destroy a ∧ t.exit ≠ none := by
          cases hev with
          | destroyed heq hx => exact ⟨heq, hx⟩
        simp [hcreates, Event.destroyed]
      | some t' =>
        have hdestroy : e.destroyed ≠ some a := by
          intro hd
          rw [Event.destroyed_eq_some.mp hd, Board.apply_destroy_self hold] at hnew
          cases hnew
        simp [hcreates, hdestroy]

theorem Embodies.tasks_iff (he : Embodies pf k initial w s) (a : Addr) :
    ((replay w.log).tasks a).isSome ↔ a ∈ w.live.map Holding.fiber := by
  have hmemory := he.reachable.good.refines.memory
  rw [he.represents.log, List.mem_map]
  constructor
  · intro ht
    obtain ⟨t, ht⟩ := Option.isSome_iff_exists.mp ht
    obtain ⟨fb, hf⟩ := hmemory.exists_fiber ht
    obtain ⟨h, hh, rfl, -⟩ := he.represents.seat hf
    exact ⟨h, hh, rfl⟩
  · rintro ⟨h, hh, rfl⟩
    obtain ⟨fb, hf, -⟩ := he.represents.seats.seated h hh
    obtain ⟨t, ht⟩ := hmemory.exists_task hf
    exact Option.isSome_iff_exists.mpr ⟨t, ht⟩

theorem Represents.fibers_nodup (hr : Represents pf initial w s) :
    (w.live.map Holding.fiber).Nodup := by
  refine (live_nodup hr.owns.distinct).map_on fun g hg h hh hfiber => ?_
  exact hr.seats.eq_of_fiber hg hh hfiber

/-- The books of the process: what is mapped, and what the log says was created and
destroyed. -/
structure Balanced (initial : Finset Mapping) (w : Image) : Prop where
  mappings : w.process.mappings = initial ∪ (held w.live).toFinset
  distinct : (held w.live).Nodup
  own : ∀ m ∈ held w.live, m ∉ initial
  apart : ∀ m ∈ w.process.mappings, ∀ m' ∈ w.process.mappings, m ≠ m' →
    Separate m.base m.length.toNat m'.base m'.length.toNat
  records : (w.log.filterMap Event.created).Perm
    (w.log.filterMap Event.destroyed ++ w.live.map Holding.fiber)

theorem Embodies.balanced (he : Embodies pf k initial w s) : Balanced initial w where
  mappings := he.represents.owns.account
  distinct := he.represents.owns.distinct
  own := he.represents.owns.own
  apart := he.represents.owns.apart
  records := by
    have hlegal : Legal w.log := he.represents.log ▸ he.reachable.good.refines.legal
    rw [List.perm_iff_count]
    intro a
    rw [hlegal.account a, List.count_append, he.represents.fibers_nodup.count]
    simp only [he.tasks_iff a]

/-- No mapping is leaked and none is given back twice, however the run goes. -/
theorem memory_balanced (reach : Image.Reachable pf k initial w) : Balanced initial w := by
  obtain ⟨s, he⟩ := reach.embodied
  exact he.balanced

/-- Two records have been created and one destroyed. -/
theorem memory_balanced_closing :
    Balanced ∅ (Image.Sample.after (Image.Sample.opening ++ Image.Sample.closing)) ∧
    (Image.Sample.after (Image.Sample.opening ++ Image.Sample.closing)).log.filterMap Event.created =
      [Image.Sample.parent, Image.Sample.child] ∧
    (Image.Sample.after (Image.Sample.opening ++ Image.Sample.closing)).log.filterMap Event.destroyed =
      [Image.Sample.child] :=
  ⟨memory_balanced Image.Sample.reachable_closing, eq_of_beq (by decide +kernel),
    eq_of_beq (by decide +kernel)⟩

/-! ### Records -/

/-- The record and the request in memory say what the log says of the fiber. A joiner is
named by its own request, and an SQE still lies where the call passed it. -/
structure Recounts (pf : Platform) (w : Image) (h : Holding) (t : Scheduler.Task) : Prop where
  life : life pf.arch w.memory h.fiber = t.life.word
  status : ∀ st, t.exit = some st → status pf.arch w.memory h.fiber = st
  context : stackPointer pf.arch w.memory h.fiber = 0#64 ↔ t.exit ≠ none
  joiner : get pf.arch w.memory h.fiber .joiner = (t.joiner.bind w.frames).getD 0#64
  request : ∀ c, t.call = some c → ∃ r, w.frames h.fiber = some r ∧
    RequestRecord.Asks w.memory r c.ask ∧
    RequestRecord.result w.memory r = t.answer.getD 0#64 ∧ RequestRecord.fiber w.memory r = h.fiber ∧
    RequestRecord.Lodged w.memory h r

theorem Represents.recounts (hr : Represents pf initial w s)
    (hm : Memory s.fibers s.requests (replay s.log).tasks)
    (hh : h ∈ w.live) (ht : (replay s.log).tasks h.fiber = some t) : Recounts pf w h t := by
  obtain ⟨fb, hf, hseated⟩ := hr.seats.seated h hh
  have hshown := hm.shown hf ht
  have hshows := hseated.shows
  refine ⟨?_, fun st hst => ?_, ?_, ?_, fun c hc => ?_⟩
  · exact hshows.life.trans (congrArg Life.word hshown.life)
  · exact hshows.status.trans (hshown.status st hst)
  · exact hshows.context.trans hshown.context
  · have hword : get pf.arch w.memory h.fiber .joiner = fb.joiner.getD 0#64 := hshows.joiner.1
    rw [hword]
    cases hj : t.joiner with
    | none =>
      rw [hshown.unjoined hj]
      rfl
    | some j =>
      obtain ⟨r, q, hjoiner, hq, hqj⟩ := hshown.joined j hj
      obtain ⟨b, fj, hqb, hfj, hframe⟩ := hr.seats.owner r q hq
      cases hqj.symm.trans hqb
      rw [hjoiner, Option.bind_some, hr.seats.frames j fj hfj, hframe]
  · obtain ⟨r, hframe, hq⟩ := hshown.request c hc
    obtain ⟨q, hq', -, hqshows, hlodged⟩ := hseated.request r hframe
    rw [hq] at hq'
    cases hq'
    refine ⟨r, (hr.seats.frames h.fiber fb hf).trans hframe, hqshows.ask, hqshows.result, ?_, hlodged⟩
    exact (Option.some.inj hqshows.fiber).symm

/-- The log is a legal history, and memory holds what it leads to. -/
theorem records_tell_the_log (reach : Image.Reachable pf k initial w) :
    Legal w.log ∧ (∀ a, (replay w.log).tasks a ≠ none ↔ ∃ h ∈ w.live, h.fiber = a) ∧
      ∀ h ∈ w.live, ∃ t, (replay w.log).tasks h.fiber = some t ∧ Recounts pf w h t := by
  obtain ⟨s, he⟩ := reach.embodied
  have hr := he.represents
  have hrefines := he.reachable.good.refines
  refine ⟨hr.log ▸ hrefines.legal, fun a => ?_, fun h hh => ?_⟩
  · rw [← Option.isSome_iff_ne_none, he.tasks_iff, List.mem_map]
  · obtain ⟨fb, hf, -⟩ := hr.seats.seated h hh
    obtain ⟨t, ht⟩ := hrefines.memory.exists_task hf
    rw [hr.log]
    exact ⟨t, ht, hr.recounts hrefines.memory hh ht⟩

theorem records_tell_the_log_opening :
    Legal (Image.Sample.after Image.Sample.opening).log ∧
      (∀ a, (replay (Image.Sample.after Image.Sample.opening).log).tasks a ≠ none ↔
        ∃ h ∈ (Image.Sample.after Image.Sample.opening).live, h.fiber = a) ∧
      ∀ h ∈ (Image.Sample.after Image.Sample.opening).live,
        ∃ t, (replay (Image.Sample.after Image.Sample.opening).log).tasks h.fiber = some t ∧
          Recounts Image.Sample.platform (Image.Sample.after Image.Sample.opening) h t :=
  records_tell_the_log Image.Sample.reachable_opening

/-- A record left behind: its fiber has ended, nobody waits for it, and its status can
still be read. -/
structure Zombie (pf : Platform) (w : Image) (h : Holding) : Prop where
  life : life pf.arch w.memory h.fiber = Life.exited.word
  unjoined : get pf.arch w.memory h.fiber .joiner = 0#64
  context : stackPointer pf.arch w.memory h.fiber = 0#64
  status : ∃ t st, (replay w.log).tasks h.fiber = some t ∧ t.exit = some st ∧
    status pf.arch w.memory h.fiber = st

/-- When the reactor drains, only zombies are left, and with them two mappings each: what
is mapped is what was, and the stacks and blocks of the zombies. -/
theorem drained_leaves_zombies (reach : Image.Reachable pf k initial w)
    (drained : w.control = .drained) :
    (∀ h ∈ w.live, Zombie pf w h) ∧ w.process.mappings = initial ∪ (held w.live).toFinset ∧
      w.process.mappings.card = initial.card + 2 * w.live.length ∧
      (w.log.filterMap Event.created).length =
        (w.log.filterMap Event.destroyed).length + w.live.length := by
  obtain ⟨s, he⟩ := reach.embodied
  have hr := he.represents
  have hgood := he.reachable.good
  have hbalanced := he.balanced
  rw [hr.control] at drained
  have hhand : (replay s.log).hand = [] := hgood.hand_of_settled (by rw [drained]; rfl)
  have hended := hgood.refines.legal.allEnded_iff.mp (hgood.drained drained).2
  refine ⟨fun h hh => ?_, hbalanced.mappings, ?_, ?_⟩
  · obtain ⟨fb, hf, -⟩ := hr.seats.seated h hh
    obtain ⟨t, ht⟩ := hgood.refines.memory.exists_task hf
    have hexit := hended h.fiber t ht
    have hrecounts := hr.recounts hgood.refines.memory hh ht
    obtain ⟨-, hdetached, hjoiner⟩ :=
      Scheduler.Task.zombie_iff.mp (hgood.refines.inv.zombie_of_ended ht hexit (by simp [hhand]))
    obtain ⟨st, hst⟩ := Option.ne_none_iff_exists'.mp hexit
    have hlog : (replay w.log).tasks h.fiber = some t := by rw [hr.log, ht]
    refine ⟨?_, ?_, hrecounts.context.mpr hexit, t, st, hlog, hst, hrecounts.status st hst⟩
    · rw [hrecounts.life, Scheduler.Task.life, hdetached, hst]
      rfl
    · rw [hrecounts.joiner, hjoiner]
      rfl
  · have hlength : (held w.live).length = 2 * w.live.length := by
      rw [held, List.length_flatMap]
      simp [Nat.mul_comm]
    rw [hbalanced.mappings, Finset.card_union_of_disjoint,
      List.toFinset_card_of_nodup hbalanced.distinct, hlength]
    rw [Finset.disjoint_left]
    intro m hm hm'
    exact hbalanced.own m (List.mem_toFinset.mp hm') hm
  · rw [hbalanced.records.length_eq, List.length_append, List.length_map]

/-- The parent is left; the child has been joined and is gone. -/
theorem drained_leaves_zombies_closing :
    let w := Image.Sample.after (Image.Sample.opening ++ Image.Sample.closing)
    ∃ h, w.live = [h] ∧ h.fiber = Image.Sample.parent ∧ Zombie Image.Sample.platform w h ∧
      w.process.mappings = {h.stack, h.block} ∧
      (w.log.filterMap Event.created).length = (w.log.filterMap Event.destroyed).length + 1 := by
  intro w
  obtain ⟨hzombies, hmappings, -, hrecords⟩ :=
    drained_leaves_zombies Image.Sample.reachable_closing Image.Sample.control_closing
  have hfibers : w.live.map Holding.fiber = [Image.Sample.parent] := eq_of_beq (by decide +kernel)
  obtain ⟨h, rest, hlive, hfiber, hrest⟩ := List.map_eq_cons_iff.mp hfibers
  obtain rfl := List.map_eq_nil_iff.mp hrest
  refine ⟨h, hlive, hfiber, hzombies h (by rw [hlive]; exact List.mem_singleton_self h), ?_, ?_⟩
  · rw [hmappings, hlive]
    simp [held]
  · rw [hrecords, hlive]
    rfl

/-! ### The ready list -/

def pointee (v : Addr) : Option Addr := if v = 0#64 then none else some v

theorem Points.pointee_eq {v : Addr} {o : Option Addr} (hp : Points v o) : pointee v = o := by
  unfold pointee
  split_ifs with hv
  · exact (hp.eq_zero.mp hv).symm
  · exact (hp.eq_some hv).symm

/-- Following `ready_next` from `ready_head` through memory visits the fibers that the log
has in the list, in its order; `ready_tail` is the last and `ready_count` their number. -/
structure Strung (pf : Platform) (w : Image) : Prop where
  list : LinkedQueue (fun a => pointee (get pf.arch w.memory a .readyNext)) (pointee w.readyHead)
    (pointee w.readyTail) (replay w.log).ready
  count : w.readyCount.toNat = (replay w.log).ready.length
  live : ∀ a ∈ (replay w.log).ready, ∃ h ∈ w.live, h.fiber = a

theorem ready_list_strung (reach : Image.Reachable pf k initial w) : Strung pf w := by
  obtain ⟨s, he⟩ := reach.embodied
  have hr := he.represents
  have hrefines := he.reachable.good.refines
  have hqueue := hrefines.queue
  have hlive : ∀ a ∈ (replay w.log).ready, ∃ h ∈ w.live, h.fiber = a := by
    intro a ha
    rw [hr.log] at ha
    obtain ⟨t, ht⟩ := hrefines.inv.mapped a (by simp [Board.placed, ha])
    obtain ⟨fb, hf⟩ := hrefines.memory.exists_fiber ht
    obtain ⟨h, hh, rfl, -⟩ := hr.seat hf
    exact ⟨h, hh, rfl⟩
  rw [← hr.log] at hqueue
  refine ⟨⟨?_, ?_, hqueue.nodup⟩, ?_, hlive⟩
  · rw [hr.head.pointee_eq]
    refine hqueue.linked.congr fun a ha => ?_
    obtain ⟨h, hh, rfl⟩ := hlive a ha
    obtain ⟨fb, hf, hseated⟩ := hr.seats.seated h hh
    have hnext : Points (get pf.arch w.memory h.fiber .readyNext) fb.readyNext :=
      hseated.shows.readyNext
    rw [hnext.pointee_eq, links, hf, Option.bind_some]
  · rw [hr.tail.pointee_eq]
    exact hqueue.tail_eq
  · rw [hr.readyCount, hrefines.readyCount, hr.log]

/-- The parent has started the child: both are in the list, the parent first. -/
theorem ready_list_strung_started :
    Strung Image.Sample.platform (Image.Sample.after (Image.Sample.opening.take 4)) ∧
      (replay (Image.Sample.after (Image.Sample.opening.take 4)).log).ready =
        [Image.Sample.parent, Image.Sample.child] :=
  ⟨ready_list_strung Image.Sample.reachable_started, eq_of_beq (by decide +kernel)⟩

/-! ### Borrowed requests -/

/-- At `r`, in the stack of a live fiber, is the request that the fiber is suspended in; the
fiber is not in the ready list. -/
structure Borrows (pf : Platform) (w : Image) (kind : BitVec 64) (r : Addr) (h : Holding) : Prop where
  live : h ∈ w.live
  away : h.fiber ∉ (replay w.log).ready
  frame : w.frames h.fiber = some r
  lodged : RequestRecord.Lodged w.memory h r
  kind : RequestRecord.kind w.memory r = kind
  fiber : RequestRecord.fiber w.memory r = h.fiber

/-- The pointers into stacks that the ring, the kernel and the joiner slots hold. What an
await points to still is the SQE that was handed over, the cookie apart. -/
structure Lent (pf : Platform) (w : Image) (unreaped : List Cqe) : Prop where
  completions : w.ring.Unreaped unreaped
  count : w.ring.staged.length + w.held.length + unreaped.length = w.parkedCount.toNat
  once : (w.ring.staged.map Sqe.userData ++ w.held.map (fun o => o.sqe.userData) ++
    unreaped.map Cqe.userData).Nodup
  submitted : ∀ sqe ∈ w.ring.staged ++ w.held.map Operation.sqe, ∃ h, Borrows pf w 3#64 sqe.userData h ∧
    Board.SameButCookie sqe (block w.memory (RequestRecord.argument w.memory sqe.userData) 64)
  answered : ∀ cqe ∈ unreaped, ∃ h, Borrows pf w 3#64 cqe.userData h
  joiners : ∀ h ∈ w.live, get pf.arch w.memory h.fiber .joiner ≠ 0#64 → ∃ g,
    Borrows pf w 5#64 (get pf.arch w.memory h.fiber .joiner) g ∧
    RequestRecord.argument w.memory (get pf.arch w.memory h.fiber .joiner) = h.fiber

theorem Embodies.borrows (he : Embodies pf k initial w s) {f r : Addr} {call : Call}
    (hask : (replay s.log).Asks f call)
    (haway : f ∉ (replay s.log).ready) (hframe : frames s.fibers f = some r) :
    ∃ h, h.fiber = f ∧ RequestRecord.Asks w.memory r call.ask ∧
      ∀ kind, RequestRecord.kind w.memory r = kind → Borrows pf w kind r h := by
  have hr := he.represents
  have hmemory := he.reachable.good.refines.memory
  obtain ⟨t, ht, hcall, -⟩ := hask
  obtain ⟨fb, hf⟩ := hmemory.exists_fiber ht
  obtain ⟨h, hh, rfl, -⟩ := hr.seat hf
  obtain ⟨r', hframe', hasks, -, hfiber, hlodged⟩ := (hr.recounts hmemory hh ht).request call hcall
  have hsame : frames s.fibers h.fiber = w.frames h.fiber := by
    rw [hr.seats.frames h.fiber fb hf, frames, hf, Option.bind_some]
  rw [hsame, hframe'] at hframe
  cases hframe
  exact ⟨h, rfl, hasks, fun kind hkind => ⟨hh, hr.log ▸ haway, hframe', hlodged, hkind, hfiber⟩⟩

theorem Embodies.borrows_op (he : Embodies pf k initial w s) {o : Op} {r : Addr}
    (ho : o ∈ (replay s.log).ops) (hframe : frames s.fibers o.fiber = some r) :
    ∃ h, Borrows pf w 3#64 r h ∧ block w.memory (RequestRecord.argument w.memory r) 64 = o.sqe := by
  have hinv := he.reachable.good.refines.inv
  have hparked : o.fiber ∈ (replay s.log).parked := List.mem_map_of_mem ho
  have hnodup := hinv.nodup
  rw [Board.placed, List.append_assoc, List.nodup_append] at hnodup
  have haway : o.fiber ∉ (replay s.log).ready :=
    fun hready => hnodup.2.2 _ hready _ (List.mem_append_right _ hparked) rfl
  obtain ⟨h, -, hasks, hborrows⟩ := he.borrows (hinv.op o ho) haway hframe
  exact ⟨h, hborrows _ hasks.1, hasks.2⟩

/-- No pointer that the reactor will follow is stale, at any moment of any run. -/
theorem requests_lent (reach : Image.Reachable pf k initial w) : ∃ unreaped, Lent pf w unreaped := by
  obtain ⟨s, he⟩ := reach.embodied
  have hr := he.represents
  have hrefines := he.reachable.good.refines
  obtain ⟨q, hunreaped, hq⟩ := hrefines.flight.posted
  have hcarries : ∀ {sqe : Sqe} {o : Op}, o ∈ (replay s.log).ops → Carries (frames s.fibers) sqe o →
      ∃ h, Borrows pf w 3#64 sqe.userData h ∧
        Board.SameButCookie sqe (block w.memory (RequestRecord.argument w.memory sqe.userData) 64) := by
    intro sqe o ho hc
    obtain ⟨h, hborrows, hblock⟩ := he.borrows_op ho hc.cookie
    rw [hblock]
    exact ⟨h, hborrows, hc.same⟩
  refine ⟨q, ?_, ?_, ?_, fun sqe hsqe => ?_, fun cqe hcqe => ?_, fun h hh hjoiner => ?_⟩
  · rw [hr.ring]
    exact hunreaped
  · have hparked := hrefines.flight.parked
    rw [Board.ops, List.length_append, List.length_append, List.length_map,
      ← hrefines.flight.staged.length_eq,
      ← hrefines.flight.held.length_eq, ← hq.length_eq] at hparked
    rw [hr.ring, hr.operations, hr.parkedCount, hparked]
  · rw [hr.ring, hr.operations]
    exact hrefines.cookies_nodup hq
  · rw [hr.ring, hr.operations, List.mem_append] at hsqe
    rcases hsqe with hsqe | hsqe
    · obtain ⟨o, ho, hc⟩ := forall₂_mem_left hrefines.flight.staged hsqe
      exact hcarries (by simp [Board.ops, ho]) hc
    · obtain ⟨x, hx, rfl⟩ := List.mem_map.mp hsqe
      obtain ⟨o, ho, -, hc⟩ := forall₂_mem_left hrefines.flight.held hx
      exact hcarries (by simp [Board.ops, ho]) hc
  · obtain ⟨reply, hreply, ha⟩ := forall₂_mem_left hq hcqe
    obtain ⟨h, hborrows, -⟩ := he.borrows_op (by simp [Board.ops, List.mem_map_of_mem hreply]) ha.cookie
    exact ⟨h, hborrows⟩
  · obtain ⟨fb, hf, -⟩ := hr.seats.seated h hh
    obtain ⟨t, ht⟩ := hrefines.memory.exists_task hf
    have hword := (hr.recounts hrefines.memory hh ht).joiner
    cases hj : t.joiner with
    | none =>
      rw [hj] at hword
      exact absurd hword hjoiner
    | some j =>
      obtain ⟨hask, haway, -⟩ := hrefines.inv.joiner h.fiber t j ht hj
      obtain ⟨r, q', hjoin, hq', hqj⟩ := (hrefines.memory.shown hf ht).joined j hj
      obtain ⟨b, fj, hqb, hfj, hframe⟩ := hr.seats.owner r q' hq'
      cases hqj.symm.trans hqb
      rw [hj, Option.bind_some, hr.seats.frames j fj hfj, hframe, Option.getD_some] at hword
      have hready : j ∉ (replay s.log).ready := fun hm => haway (by simp [Board.placed, hm])
      obtain ⟨g, rfl, hasks, hborrows⟩ :=
        he.borrows hask hready (by rw [frames, hfj, Option.bind_some, hframe])
      rw [hword]
      exact ⟨g, hborrows _ hasks.1, hasks.2⟩

theorem requests_lent_opening :
    ∃ unreaped, Lent Image.Sample.platform (Image.Sample.after Image.Sample.opening) unreaped :=
  requests_lent Image.Sample.reachable_opening

/-! ### Thread-local blocks -/

/-- The fiber is set up as the linker and `__libuc_fiber_current` assume: its thread pointer
leads back to it, block and TCB are in its own mapping at the distance that the code
counts on, and its record is in its own stack. -/
structure Identified (pf : Platform) (w : Image) (h : Holding) : Prop where
  mapped : h.stack ∈ w.process.mappings ∧ h.block ∈ w.process.mappings
  record : Inside pf.arch h.fiber h.stack
  pointer : get pf.arch w.memory h.fiber .threadPointer ≠ 0#64
  current : fiberCurrent w.memory (get pf.arch w.memory h.fiber .threadPointer) = h.fiber
  fits : ∃ l, pf.layout = some l ∧ Fits (contents pf.arch w.memory h.fiber).block pf.arch l
  block : (contents pf.arch w.memory h.fiber).block.mapping = h.block.base ∧
    (contents pf.arch w.memory h.fiber).block.mappingLength = h.block.length

theorem Represents.identified (hr : Represents pf initial w s) (hh : h ∈ w.live) :
    Identified pf w h := by
  obtain ⟨fb, -, hseated⟩ := hr.seats.seated h hh
  have hblock := congrArg Holding.block hseated.holding
  have hbase := congrArg Mapping.base hblock
  have hlength := congrArg Mapping.length hblock
  refine ⟨⟨?_, ?_⟩, hseated.inside, hseated.threadPointer, ?_, hseated.fits, ?_⟩
  · exact hr.owns.mem (List.mem_flatMap.mpr ⟨h, hh, by simp⟩)
  · exact hr.owns.mem (List.mem_flatMap.mpr ⟨h, hh, by simp⟩)
  · rw [fiberCurrent, if_neg hseated.threadPointer]
    exact hseated.tcb
  · rw [← hbase, ← hlength]
    exact ⟨rfl, rfl⟩

/-- Every live fiber is identified by its thread pointer, and no two have a byte of their
stacks and blocks in common. -/
theorem fibers_identified (reach : Image.Reachable pf k initial w) :
    (∀ h ∈ w.live, Identified pf w h) ∧ ∀ h ∈ w.live, ∀ g ∈ w.live, h ≠ g →
    ∀ x ∈ [h.stack, h.block], ∀ y ∈ [g.stack, g.block],
      Separate x.base x.length.toNat y.base y.length.toNat := by
  obtain ⟨s, he⟩ := reach.embodied
  exact ⟨fun h hh => he.represents.identified hh,
    fun h hh g hg hne x hx y hy => he.represents.owns.separate hh hg hne hx hy⟩

theorem fibers_identified_opening :
    (∀ h ∈ (Image.Sample.after Image.Sample.opening).live,
        Identified Image.Sample.platform (Image.Sample.after Image.Sample.opening) h) ∧
      ∀ h ∈ (Image.Sample.after Image.Sample.opening).live,
      ∀ g ∈ (Image.Sample.after Image.Sample.opening).live, h ≠ g →
        ∀ x ∈ [h.stack, h.block], ∀ y ∈ [g.stack, g.block],
        Separate x.base x.length.toNat y.base y.length.toNat :=
  fibers_identified Image.Sample.reachable_opening

end Libuc
