import Libuc.Lib.LinkedQueue
import Libuc.Scheduler.InFlight
import Libuc.Scheduler.Memory

/-! The reactor's memory refines the board of its log. Every primitive of the
reactor is matched by one event: under the condition that enables the event the
primitive succeeds, logs the event, and leaves a state that refines the next
board. -/

namespace Libuc.Scheduler

open Lib

/-- The `ready_next` pointers. -/
def links (F : Addr → Option Fiber) (a : Addr) : Option Addr := (F a).bind Fiber.readyNext

def joined (T : Addr → Option Task) : Set Addr := {u | ∃ t, T u = some t ∧ t.joiner ≠ none}

structure Within (k : Kernel) (F : Addr → Option Fiber) : Prop where
  finite : {a | (F a).isSome}.Finite
  limit : {a | (F a).isSome}.ncard ≤ k.mapLimit

theorem Within.congr {k : Kernel} {F F' : Addr → Option Fiber} (h : Within k F)
    (hF : ∀ a, F' a = none ↔ F a = none) : Within k F' := by
  have he : {a | (F' a).isSome} = {a | (F a).isSome} := by
    ext a
    simp only [Set.mem_ofPred_eq, Option.isSome_iff_ne_none, ne_eq, hF a]
  exact ⟨he ▸ h.finite, he ▸ h.limit⟩

theorem Within.add {k : Kernel} {F : Addr → Option Fiber} (h : Within k F) {c : Addr}
    (hc : {a | (F a).isSome}.ncard < k.mapLimit) (fb : Fiber) :
    Within k (Function.update F c (some fb)) := by
  have he : {a | (Function.update F c (some fb) a).isSome} = insert c {a | (F a).isSome} := by
    ext a
    by_cases ha : a = c
    · subst ha
      simp
    · simp [ha]
  refine ⟨he ▸ h.finite.insert c, ?_⟩
  rw [he]
  exact (Set.ncard_insert_le c _).trans hc

theorem Within.erase {k : Kernel} {F : Addr → Option Fiber} (h : Within k F) (f : Addr) :
    Within k (Function.update F f none) := by
  have he : {a | (Function.update F f none a).isSome} ⊆ {a | (F a).isSome} := by
    intro a
    by_cases ha : a = f
    · subst ha
      simp
    · simp [ha]
  exact ⟨h.finite.subset he, (Set.ncard_le_ncard he h.finite).trans h.limit⟩

/-- The state holds the board of its log. -/
structure Refines (k : Kernel) (s : State) (b : Board) : Prop where
  legal : Legal s.log
  board : replay s.log = b
  memory : Memory s.fibers s.requests b.tasks
  queue : LinkedQueue (links s.fibers) s.readyHead s.readyTail b.ready
  readyCount : s.readyCount.toNat = b.ready.length
  flight : InFlight (frames s.fibers) s.ring s.held s.taken s.parkedCount b
  within : Within k s.fibers
  joiningCount : s.joiningCount.toNat = (joined b.tasks).ncard

/-- From `s` with board `b`, the events `es` led to `s'`. -/
structure Does (k : Kernel) (s : State) (b : Board) (es : List Event) (s' : State) : Prop where
  refines : Refines k s' (es.foldl Board.apply b)
  log : s'.log = s.log ++ es
  control : s'.control = s.control

variable {k : Kernel} {s s' s'' : State} {b b' : Board} {es es' : List Event} {e : Event}

theorem Does.trans (h : Does k s b es s') (h' : Does k s' (es.foldl Board.apply b) es' s'') :
    Does k s b (es ++ es') s'' where
  refines := by
    rw [List.foldl_append]
    exact h'.refines
  log := by rw [h'.log, h.log, List.append_assoc]
  control := h'.control.trans h.control

theorem Legal.inv {log : List Event} (h : Legal log) : (replay log).Inv := by
  induction h with
  | nil => exact Board.inv_empty
  | concat _ he ih =>
    rw [replay_concat]
    exact ih.apply he

/-! ### Memory accesses -/

namespace State

theorem fiber_of_some {a : Addr} {fb : Fiber} (h : s.fibers a = some fb) : s.fiber a = .ok fb := by
  simp only [State.fiber, h]

theorem request_of_some {r : Addr} {q : Request} (h : s.requests r = some q) : s.request r = .ok q := by
  simp only [State.request, h]

theorem modifyFiber_of_some {a : Addr} {fb : Fiber} (h : s.fibers a = some fb) (g : Fiber → Fiber) :
    s.modifyFiber a g = .ok { s with fibers := Function.update s.fibers a (some (g fb)) } := by
  simp only [modifyFiber, fiber_of_some h]
  rfl

theorem setResult_of_some {r : Addr} {q : Request} (h : s.requests r = some q) (v : Long) :
    s.setResult r v =
      .ok { s with requests := Function.update s.requests r (some { q with result := v }) } := by
  simp only [setResult, request_of_some h]
  rfl

end State

/-! ### Ready links -/

theorem links_relink {F : Addr → Option Fiber} (next : Addr → Option Addr) {a : Addr} (h : F a ≠ none) :
    links (relink F next) a = next a := by
  obtain ⟨fb, hf⟩ := Option.ne_none_iff_exists'.mp h
  simp [links, relink_of_some hf]

theorem update_readyNext {F : Addr → Option Fiber} {a : Addr} {fb : Fiber} (hf : F a = some fb)
    (x : Option Addr) :
    Function.update F a (some { fb with readyNext := x }) =
      relink F (Function.update (links F) a x) := by
  funext c
  by_cases hc : c = a
  · subst hc
    simp [relink, hf]
  · rw [Function.update_of_ne hc]
    cases h : F c <;> simp [relink, links, h, hc]

theorem relink_update_links (F : Addr → Option Fiber) (next : Addr → Option Addr) (a : Addr)
    (x : Option Addr) :
    relink (relink F next) (Function.update (links (relink F next)) a x) =
      relink F (Function.update next a x) := by
  funext c
  cases h : F c with
  | none => simp [relink, h]
  | some fb =>
    by_cases hc : c = a
    · subst hc
      simp [relink, h]
    · simp [relink, links, h, hc]

/-! ### The ready list -/

namespace State

theorem enqueue_empty {f : Addr} {fb : Fiber} (hf : s.fibers f = some fb) (ht : s.readyTail = none) :
    s.enqueue f = .ok ({ s with
      readyCount := s.readyCount + 1#32
      fibers := relink s.fibers (Function.update (links s.fibers) f none)
      readyHead := some f
      readyTail := some f }.record (.enqueue f)) := by
  simp only [State.enqueue, modifyFiber, State.fiber, hf, ht, update_readyNext hf, bind, Except.bind,
    pure, Except.pure]

theorem enqueue_last {f tail : Addr} {fb ft : Fiber} (hf : s.fibers f = some fb)
    (ht : s.readyTail = some tail) (hft : s.fibers tail = some ft) :
    s.enqueue f = .ok ({ s with
      readyCount := s.readyCount + 1#32
      fibers := relink s.fibers
        (Function.update (Function.update (links s.fibers) f none) tail (some f))
      readyTail := some f }.record (.enqueue f)) := by
  simp only [State.enqueue, modifyFiber, State.fiber, hf, ht, update_readyNext hf, bind, Except.bind,
    pure, Except.pure, relink_of_some hft, update_readyNext (relink_of_some hft _), relink_update_links]

theorem dequeue_of_head {f : Addr} {fb : Fiber} (hh : s.readyHead = some f)
    (hf : s.fibers f = some fb) :
    s.dequeue = .ok (f, { s with
      readyHead := fb.readyNext
      readyTail := if fb.readyNext = none then none else s.readyTail
      readyCount := s.readyCount - 1#32
      fibers := relink s.fibers (Function.update (links s.fibers) f none) }) := by
  simp only [State.dequeue, modifyFiber, State.fiber, hh, hf, bind, Except.bind, pure, Except.pure]
  split_ifs with hn
  · simp only [hf, update_readyNext hf]
  · simp only [hf, update_readyNext hf]

theorem resume_of_context {f : Addr} (fb : Fiber) (hf : s.fibers f = some fb)
    (hc : fb.context ≠ .zeroed) (call : Call) (frame : Addr) :
    s.resume f call frame = .ok ({ s with
      fibers := Function.update s.fibers f (some (fb.suspend call frame))
      requests := Function.update (dropFrame s.requests fb.frame) frame
        (some { ask := call.ask, result := 0#64, fiber := some f }) }.record
          (.resume f ((fb.frame.bind s.requests).bind Request.answer) call)) := by
  simp only [State.resume, State.fiber, hf, bind, Except.bind, hc, ↓reduceIte]
  rfl

end State

/-! ### The claims on fibers -/

theorem joined_update {T : Addr → Option Task} {f : Addr} {t u : Task} (ht : T f = some t)
    (hj : u.joiner = t.joiner) : joined (Function.update T f (some u)) = joined T := by
  ext a
  by_cases ha : a = f
  · subst ha
    simp [joined, ht, hj]
  · simp [joined, ha]

theorem joined_new {T : Addr → Option Task} {c : Addr} (hc : T c = none) :
    joined (Function.update T c (some Task.new)) = joined T := by
  ext u
  by_cases hu : u = c
  · subst hu
    simp [joined, hc, Task.new]
  · simp [joined, hu]

theorem joined_erase (T : Addr → Option Task) (f : Addr) :
    joined (Function.update T f none) = joined T \ {f} := by
  ext u
  by_cases hu : u = f
  · subst hu
    simp [joined]
  · simp [joined, hu]

theorem joined_setAnswer (b : Board) (f : Addr) (v : Long) :
    joined (b.setAnswer f v).tasks = joined b.tasks := by
  cases ht : b.tasks f with
  | none => rw [show (b.setAnswer f v).tasks = b.tasks by
      simp [Board.setAnswer, Board.modify, ht]]
  | some t =>
    rw [show (b.setAnswer f v).tasks = Function.update b.tasks f (some { t with answer := some v }) by
      simp [Board.setAnswer, Board.modify, ht]]
    exact joined_update ht rfl

/-- What a suspended call returns is what its request holds. -/
theorem Memory.returned {F : Addr → Option Fiber} {R : Addr → Option Request} {T : Addr → Option Task}
    (h : Memory F R T) {f : Addr} {fb : Fiber} {t : Task} (hf : F f = some fb) (ht : T f = some t)
    (ha : t.answer ≠ none) : (fb.frame.bind R).bind Request.answer = t.returned := by
  obtain ⟨v, hv⟩ := Option.ne_none_iff_exists'.mp ha
  cases hc : t.call with
  | none => simp [h.idle f fb t hf ht hc, Task.returned, hc]
  | some c =>
    obtain ⟨r, hr, hq⟩ := h.request f fb t c hf ht hc
    simp only [hr, Option.bind_some, hq, Task.request, Request.answer, Task.returned, hc, hv,
      Option.getD_some]
    cases c <;> rfl

namespace Refines

theorem inv (h : Refines k s b) : b.Inv := h.board ▸ h.legal.inv

theorem become (g : Geometry) (memory : Mem) (counter : U32) (cqes : ℕ → Cqe) :
    Refines k (become (Ring.created g memory counter cqes)) Board.empty where
  legal := .nil
  board := rfl
  memory := Memory.empty
  queue := LinkedQueue.empty _
  readyCount := rfl
  flight := InFlight.created g memory counter cqes
  within := by constructor <;> simp [Scheduler.become]
  joiningCount := by simp [joined, Board.empty, Scheduler.become]

theorem setControl (h : Refines k s b) (c : Control) : Refines k { s with control := c } b :=
  ⟨h.legal, h.board, h.memory, h.queue, h.readyCount, h.flight, h.within, h.joiningCount⟩

/-- The fibers in a list are mapped, so there are fewer of them than a counter
can hold. -/
theorem placed_lt (h : Refines k s b) : b.placed.length < 2 ^ 32 := by
  have hsub : (b.placed.toFinset : Set Addr) ⊆ {a | (s.fibers a).isSome} := by
    intro a ha
    obtain ⟨t, ht⟩ := h.inv.mapped a (by simpa using ha)
    obtain ⟨fb, hf⟩ := h.memory.exists_fiber ht
    simp [hf]
  have hcard := Set.ncard_le_ncard hsub h.within.finite
  rw [Set.ncard_coe_finset, List.toFinset_card_of_nodup h.inv.nodup] at hcard
  exact lt_of_le_of_lt (hcard.trans h.within.limit) k.mapLimit_lt

theorem joined_finite (h : Refines k s b) : (joined b.tasks).Finite := by
  refine h.within.finite.subset ?_
  rintro a ⟨t, ht, -⟩
  obtain ⟨fb, hf⟩ := h.memory.exists_fiber ht
  simp [hf]

theorem joined_lt (h : Refines k s b) {u : Addr} (hu : u ∉ joined b.tasks) (hm : b.tasks u ≠ none) :
    (joined b.tasks).ncard + 1 < 2 ^ 32 := by
  have hsub : insert u (joined b.tasks) ⊆ {a | (s.fibers a).isSome} := by
    intro a ha
    have ht : ∃ t, b.tasks a = some t := by
      rcases ha with rfl | ⟨t, ht, -⟩
      · exact Option.ne_none_iff_exists'.mp hm
      · exact ⟨t, ht⟩
    obtain ⟨t, ht⟩ := ht
    obtain ⟨fb, hf⟩ := h.memory.exists_fiber ht
    simp [hf]
  have hcard := Set.ncard_le_ncard hsub h.within.finite
  rw [Set.ncard_insert_of_notMem hu h.joined_finite] at hcard
  exact lt_of_le_of_lt (hcard.trans h.within.limit) k.mapLimit_lt

/-! ### Enqueue and resume -/

theorem next (h : Refines k s b) (henabled : b.Enabled e) (hlog : s'.log = s.log ++ [e])
    (hcontrol : s'.control = s.control)
    (memory : Memory s'.fibers s'.requests (b.apply e).tasks)
    (queue : LinkedQueue (links s'.fibers) s'.readyHead s'.readyTail (b.apply e).ready)
    (readyCount : s'.readyCount.toNat = (b.apply e).ready.length)
    (flight : InFlight (frames s'.fibers) s'.ring s'.held s'.taken s'.parkedCount (b.apply e))
    (within : Within k s'.fibers)
    (joiningCount : s'.joiningCount.toNat = (joined (b.apply e).tasks).ncard) :
    Does k s b [e] s' where
  refines := ⟨by rw [hlog]; exact h.legal.concat (h.board ▸ henabled), by
    rw [hlog, replay_concat, h.board]; rfl, memory, queue, readyCount, flight, within, joiningCount⟩
  log := hlog
  control := hcontrol

theorem enqueue (h : Refines k s b) {f : Addr} {l : List Addr} (hh : b.hand = f :: l)
    (ha : ∀ t, b.tasks f = some t → t.answer ≠ none) :
    ∃ s', s.enqueue f = .ok s' ∧ Does k s b [.enqueue f] s' := by
  obtain ⟨t, ht⟩ := h.inv.mapped f (by simp [Board.placed, hh])
  obtain ⟨fb, hf⟩ := h.memory.exists_fiber ht
  have henabled : b.Enabled (.enqueue f) := ⟨l, t, hh, ht, ha t ht⟩
  have hfready : f ∉ b.ready := by
    intro hm
    have hnd := h.inv.nodup
    simp only [Board.placed, hh, List.append_assoc, List.nodup_append] at hnd
    exact hnd.2.2 f hm f (by simp) rfl
  have hcount : (s.readyCount + 1#32).toNat = b.ready.length + 1 := by
    have hlt := h.placed_lt
    simp only [Board.placed, hh, List.length_append, List.length_cons] at hlt
    rw [toNat_succ (by rw [h.readyCount]; omega), h.readyCount]
  have hmapped : ∀ x ∈ b.ready, s.fibers x ≠ none := by
    intro x hx hn
    obtain ⟨u, hu⟩ := h.inv.mapped x (by simp [Board.placed, hx])
    rw [(h.memory.mapped x).mp hn] at hu
    cases hu
  -- first the link of the new element is cleared, then the old tail is linked to it
  have hcleared :
      LinkedQueue (Function.update (links s.fibers) f none) s.readyHead s.readyTail b.ready :=
    h.queue.congr fun x hx => Function.update_of_ne (fun he : x = f => hfready (he ▸ hx)) _ _
  have hdone : ∀ (next : Addr → Option Addr) (head : Option Addr),
      LinkedQueue next head (some f) (b.ready ++ [f]) →
      Does k s b [.enqueue f] ({ s with
        readyCount := s.readyCount + 1#32, fibers := relink s.fibers next, readyHead := head
        readyTail := some f }.record (.enqueue f)) := by
    intro next head hq
    refine h.next henabled rfl rfl (h.memory.relink next) ?_ ?_
      (h.flight.congr (fun a _ => congrFun (frames_relink _ next) a) rfl rfl rfl rfl)
      (h.within.congr fun a => relink_eq_none) h.joiningCount
    · refine hq.congr fun x hx => links_relink next ?_
      rcases List.mem_append.mp hx with hx | hx
      · exact hmapped x hx
      · rw [List.mem_singleton.mp hx, hf]
        simp
    · rw [Board.apply, List.length_append]
      exact hcount
  cases htail : s.readyTail with
  | none =>
    rw [htail] at hcleared
    obtain ⟨hq, hnil⟩ := hcleared.push_empty (x := f) (Function.update_self _ _ _)
    refine ⟨_, ?_, hdone _ (some f) (by rw [hnil]; exact hq)⟩
    exact State.enqueue_empty hf htail
  | some tail =>
    rw [htail] at hcleared
    obtain ⟨htm, hq⟩ := hcleared.push_last (x := f) (Function.update_self _ _ _) hfready
    obtain ⟨ft, hft⟩ := Option.ne_none_iff_exists'.mp (hmapped tail htm)
    exact ⟨_, State.enqueue_last hf htail hft, hdone _ s.readyHead hq⟩

/-- The first ready fiber leaves the list and runs on to its next call. -/
theorem resume (h : Refines k s b) {f : Addr} {rest : List Addr} {t : Task} (hh : b.hand = [])
    (hr : b.ready = f :: rest) (ht : b.tasks f = some t) (call : Call) {frame : Addr}
    (hframe : ∀ q, s.requests frame = some q → q.fiber = s.readyHead) :
    ∃ s₁ s', s.dequeue = .ok (f, s₁) ∧ s₁.resume f call frame = .ok s' ∧
      Does k s b [.resume f t.returned call] s' ∧ frames s'.fibers f = some frame ∧
      s'.ring = s.ring := by
  obtain ⟨fb, hf⟩ := h.memory.exists_fiber ht
  have hready := h.inv.ready f (by simp [hr]) t ht
  have hexit : t.exit = none := by
    by_contra hx
    exact hready (h.inv.ended f t ht hx)
  have hhead : s.readyHead = some f := by rw [h.queue.head_eq, hr]; rfl
  have hcontext : fb.context ≠ .zeroed := by
    rw [Ne, h.memory.context f fb t hf ht, hexit]
    simp
  have hplaced : f ∈ b.placed := by simp [Board.placed, hr]
  have hparked : f ∉ b.parked := by
    intro hm
    have hnd := h.inv.nodup
    simp only [Board.placed, hr, hh, List.nodup_append, List.append_nil] at hnd
    exact hnd.2.2 f (by simp) f hm rfl
  have hf' : relink s.fibers (Function.update (links s.fibers) f none) f =
      some { fb with readyNext := none } := by
    rw [relink_of_some hf, Function.update_self]
  have hmem := (h.memory.relink (Function.update (links s.fibers) f none)).suspend hf' ht hexit
    (fun u tu hu => h.inv.joiner_ne hu hplaced) (fun q hq => (hframe q hq).trans hhead) call
  have hother : ∀ a, a ≠ f →
      Function.update (relink s.fibers (Function.update (links s.fibers) f none)) f
      (some (Fiber.suspend { fb with readyNext := none } call frame)) a = s.fibers a := by
    intro a ha
    rw [Function.update_of_ne ha, ← update_readyNext hf, Function.update_of_ne ha]
  have happly : (b.apply (.resume f t.returned call)).tasks =
      Function.update b.tasks f (some (t.suspend call)) := by simp only [Board.apply, ht]
  have hrest : (b.apply (.resume f t.returned call)).ready = rest := by
    simp only [Board.apply, ht, hr, List.tail_cons]
  refine ⟨_, _, State.dequeue_of_head hhead hf,
    State.resume_of_context { fb with readyNext := none } hf' hcontext call frame, ?_, ?_, rfl⟩
  · refine h.next ⟨hh, by simp [hr], t, ht, rfl⟩ ?_ rfl (happly ▸ hmem) ?_ ?_ ?_ ?_ ?_
    · simp only [State.record, h.memory.returned hf ht hready]
    · obtain ⟨l, hl, hq⟩ := LinkedQueue.pop (hhead ▸ h.queue)
      rw [hr, List.cons.injEq] at hl
      rw [hrest, hl.2]
      have hnext : links s.fibers f = fb.readyNext := by simp [links, hf]
      rw [hnext] at hq
      refine hq.congr fun x hx => congrArg (Option.bind · Fiber.readyNext) (hother x ?_)
      rintro rfl
      exact (List.nodup_cons.mp (hr ▸ h.queue.nodup)).1 (hl.2 ▸ hx)
    · rw [hrest]
      have hcount := h.readyCount
      rw [hr, List.length_cons] at hcount
      show (s.readyCount - 1#32).toNat = rest.length
      rw [toNat_pred (by omega), hcount, Nat.add_sub_cancel]
    · refine h.flight.congr (fun a ha => congrArg (Option.bind · Fiber.frame) (hother a ?_)) ?_ ?_ ?_ ?_
      · rintro rfl
        exact hparked ha
      · simp only [Board.apply, ht]
      · simp only [Board.apply, ht]
      · simp only [Board.apply, ht]
      · simp only [Board.apply, ht]
    · refine h.within.congr fun a => ?_
      by_cases ha : a = f
      · subst ha
        simp [State.record, hf]
      · exact iff_of_eq (congrArg (· = none) (hother a ha))
    · exact h.joiningCount.trans (by rw [happly, joined_update ht (u := t.suspend call) rfl])
  · simp only [frames, State.record, Function.update_self, Option.bind_some]
    cases call <;> rfl

/-! ### Answers -/

theorem setAnswer_tasks {f : Addr} {t : Task} (ht : b.tasks f = some t) (v : Long) :
    (b.setAnswer f v).tasks = Function.update b.tasks f (some { t with answer := some v }) := by
  simp [Board.setAnswer, Board.modify, ht]

/-- Writing the result of a fiber's request answers its call. -/
theorem answer (h : Refines k s b) {f r : Addr} {t : Task} (ht : b.tasks f = some t)
    (hr : frames s.fibers f = some r) :
    ∃ q, s.requests r = some q ∧ q.fiber = some f ∧ q.result = t.answer.getD 0#64 ∧
      ∀ v, Memory s.fibers (Function.update s.requests r (some { q with result := v }))
        (b.setAnswer f v).tasks := by
  obtain ⟨fb, hf⟩ := h.memory.exists_fiber ht
  have hr' : fb.frame = some r := by simpa [frames, hf] using hr
  cases hc : t.call with
  | none =>
    rw [h.memory.idle f fb t hf ht hc] at hr'
    cases hr'
  | some c =>
    obtain ⟨r', hr'', hq⟩ := h.memory.request f fb t c hf ht hc
    rw [hr'] at hr''
    cases hr''
    refine ⟨_, hq, rfl, rfl, fun v => ?_⟩
    rw [setAnswer_tasks ht]
    exact h.memory.answer hf ht hr' hq v

/-! ### Destruction -/

/-- An ended fiber is in no list but the hand. -/
theorem ended_notMem (h : b.Inv) {f : Addr} {t : Task} (ht : b.tasks f = some t) (hx : t.exit ≠ none) :
    f ∉ b.ready ∧ f ∉ b.parked ∧ ∀ u tu, b.tasks u = some tu → tu.joiner ≠ some f := by
  refine ⟨fun hm => h.ready f hm t ht (h.ended f t ht hx), fun hm => ?_, fun u tu hu hj => ?_⟩
  · obtain ⟨o, ho, rfl⟩ := List.mem_map.mp hm
    exact hx ((h.op o ho).exit_none (by simp) ht)
  · exact hx ((h.joiner u tu f hu hj).1.exit_none (by simp) ht)

/-- The requests a destruction of `f` finds: its heir has been answered. -/
def Settled (s : State) (b : Board) (f : Addr) (t : Task) (R : Addr → Option Request) : Prop :=
  match b.heir f t with
  | none => R = s.requests
  | some j => Memory s.fibers R (b.setAnswer j (b.bequest j t)).tasks

theorem destroy (h : Refines k s b) {f : Addr} {t : Task} {fb : Fiber} (hf : s.fibers f = some fb)
    (ht : b.tasks f = some t) (hx : t.exit ≠ none) (hre : b.Reclaim f t) {R : Addr → Option Request}
    (hR : Settled s b f t R) :
    Does k s b [.destroy f] ({ s with
      joiningCount := if t.joiner = none then s.joiningCount else s.joiningCount - 1#32
      fibers := Function.update s.fibers f none
      requests := dropFrame R fb.frame }.record (.destroy f)) := by
  obtain ⟨hready, hparked, hjoin⟩ := ended_notMem h.inv ht hx
  have hlists : (b.apply (.destroy f)).ready = b.ready ∧ (b.apply (.destroy f)).staged = b.staged ∧
      (b.apply (.destroy f)).held = b.held ∧ (b.apply (.destroy f)).posted = b.posted ∧
      (b.apply (.destroy f)).count = b.count := by
    simp only [Board.apply, ht]
    cases b.heir f t with
    | none => exact ⟨rfl, rfl, rfl, rfl, rfl⟩
    | some j => exact ⟨rfl, rfl, rfl, rfl, rfl⟩
  have hmemory : Memory (Function.update s.fibers f none) (dropFrame R fb.frame)
      (b.apply (.destroy f)).tasks ∧ joined (b.apply (.destroy f)).tasks = joined b.tasks \ {f} := by
    unfold Settled at hR
    simp only [Board.apply, ht]
    cases hheir : b.heir f t with
    | none =>
      rw [hheir] at hR
      simp only at hR
      subst hR
      exact ⟨h.memory.destroy hf hjoin, joined_erase _ _⟩
    | some j =>
      rw [hheir] at hR
      refine ⟨hR.destroy hf ?_, by rw [joined_erase, joined_setAnswer]⟩
      intro u tu hu
      by_cases huj : u = j
      · subst huj
        simp only [Board.setAnswer, Board.modify_self, Option.map_eq_some_iff] at hu
        obtain ⟨tu', hu', rfl⟩ := hu
        exact hjoin u tu' hu'
      · rw [Board.setAnswer_of_ne _ huj] at hu
        exact hjoin u tu hu
  obtain ⟨hr, hs, hh, hp, hc⟩ := hlists
  refine h.next ⟨t, ht, hx, hre⟩ rfl rfl hmemory.1 ?_ ?_ ?_ (h.within.erase f) ?_
  · rw [hr]
    refine h.queue.congr fun x hx =>
      congrArg (Option.bind · Fiber.readyNext) (Function.update_of_ne ?_ _ _)
    rintro rfl
    exact hready hx
  · rw [hr]
    exact h.readyCount
  · refine h.flight.congr (fun a ha =>
      congrArg (Option.bind · Fiber.frame) (Function.update_of_ne ?_ _ _))
      hs hh hp hc
    rintro rfl
    exact hparked ha
  · rw [hmemory.2]
    show (if t.joiner = none then s.joiningCount else s.joiningCount - 1#32).toNat = _
    have hcount := h.joiningCount
    split_ifs with hj
    · rw [hcount, Set.sdiff_singleton_eq_self]
      rintro ⟨t', ht', hj'⟩
      rw [ht] at ht'
      cases ht'
      exact hj' hj
    · have hm : f ∈ joined b.tasks := ⟨t, ht, hj⟩
      have hdiff := Set.ncard_sdiff_singleton_add_one hm h.joined_finite
      rw [toNat_pred (by omega), hcount]
      omega

/-! ### Spawning -/

theorem fresh_task (h : Refines k s b) {c : Addr} (hc : Fresh k s c) : b.tasks c = none :=
  (h.memory.mapped c).mp hc.2.1

/-- A new record changes nothing for the others. -/
theorem spawned (h : Refines k s b) {c : Addr} (hc : Fresh k s c) (argument : SpawnRequest) :
    LinkedQueue (links (Function.update s.fibers c (some (Fiber.spawned argument)))) s.readyHead
        s.readyTail b.ready ∧
      (∀ a ∈ b.parked, frames (Function.update s.fibers c (some (Fiber.spawned argument))) a =
        frames s.fibers a) ∧
      Within k (Function.update s.fibers c (some (Fiber.spawned argument))) := by
  have hne : ∀ a ∈ b.placed, a ≠ c := by
    rintro a ha rfl
    obtain ⟨t, ht⟩ := h.inv.mapped a ha
    rw [h.fresh_task hc] at ht
    cases ht
  refine ⟨h.queue.congr fun x hx => ?_, fun a ha => ?_, h.within.add hc.2.2 _⟩
  · exact congrArg (Option.bind · Fiber.readyNext)
      (Function.update_of_ne (hne x (by simp [Board.placed, hx])) _ _)
  · exact congrArg (Option.bind · Fiber.frame)
      (Function.update_of_ne (hne a (by simp [Board.placed, ha])) _ _)

theorem launch (h : Refines k s b) {c : Addr} (hh : b.hand = []) (hc : Fresh k s c)
    (argument : SpawnRequest) :
    Does k s b [.launch c] ((s.spawn argument (some c)).record (.launch c)) := by
  obtain ⟨hqueue, hframes, hwithin⟩ := h.spawned hc argument
  exact h.next ⟨hc.1, h.fresh_task hc, hh⟩ rfl rfl (h.memory.spawn (h.fresh_task hc) argument) hqueue
    h.readyCount (h.flight.congr hframes rfl rfl rfl rfl) hwithin
    (h.joiningCount.trans (by rw [← joined_new (h.fresh_task hc)]; rfl))

theorem spawn (h : Refines k s b) {p r : Addr} {argument : SpawnRequest} (hh : b.hand = [p])
    (hask : b.Asks p (.start argument)) (hr : frames s.fibers p = some r) {result : Option Addr}
    (hfresh : ∀ c, result = some c → Fresh k s c) :
    ∃ s', (s.spawn argument result).setResult r (result.getD 0#64) = .ok s' ∧
      Does k s b [.spawn p result] (s'.record (.spawn p result)) := by
  obtain ⟨t, ht, hcall, hans⟩ := hask
  obtain ⟨q, hq, -, -, hmem⟩ := h.answer ht hr
  cases result with
  | none =>
    refine ⟨_, State.setResult_of_some hq _, h.next ⟨hh, ⟨argument, t, ht, hcall, hans⟩, nofun⟩ rfl rfl
      (hmem 0#64) h.queue h.readyCount (h.flight.congr (fun _ _ => rfl) rfl rfl rfl rfl) h.within ?_⟩
    exact h.joiningCount.trans (by rw [← joined_setAnswer b p 0#64]; rfl)
  | some c =>
    have hc := hfresh c rfl
    have hcp : c ≠ p := by
      rintro rfl
      rw [h.fresh_task hc] at ht
      cases ht
    have hnew : (b.setAnswer p c).tasks c = none :=
      (Board.setAnswer_of_ne c hcp).trans (h.fresh_task hc)
    obtain ⟨hqueue, hframes, hwithin⟩ := h.spawned hc argument
    refine ⟨_, State.setResult_of_some (s := s.spawn argument (some c)) hq _, h.next
      ⟨hh, ⟨argument, t, ht, hcall, hans⟩, fun c' hc' => ?_⟩ rfl rfl
      ((hmem c).spawn hnew argument) hqueue h.readyCount
        (h.flight.congr hframes rfl rfl rfl rfl) hwithin ?_⟩
    · cases hc'
      exact ⟨hc.1, h.fresh_task hc⟩
    · exact h.joiningCount.trans (by rw [← joined_setAnswer b p c, ← joined_new hnew]; rfl)

/-! ### Joining and detaching a running fiber -/

theorem block (h : Refines k s b) {f u r : Addr} {fu : Fiber} (hh : b.hand = [f]) (hne : f ≠ u)
    (hask : b.Asks f (.join u)) (hopen : b.Open u) (hr : frames s.fibers f = some r)
    (hu : s.fibers u = some fu) :
    Does k s b [.block f u] ({ s with
      fibers := Function.update s.fibers u (some { fu with joiner := some r })
      joiningCount := s.joiningCount + 1#32 }.record (.block f u)) := by
  obtain ⟨t, ht, hcall, hans⟩ := hask
  obtain ⟨tu, htu, hx, hd, hj⟩ := hopen
  obtain ⟨q, hq, hqf, -, -⟩ := h.answer ht hr
  have happly : (b.apply (.block f u)).tasks =
      Function.update b.tasks u (some { tu with joiner := some f }) := by
    simp only [Board.apply, Board.modify, htu, Option.map_some]
  have hsame : ∀ a, links (Function.update s.fibers u (some { fu with joiner := some r })) a =
      links s.fibers a ∧
      frames (Function.update s.fibers u (some { fu with joiner := some r })) a =
        frames s.fibers a := by
    intro a
    by_cases ha : a = u
    · subst ha
      simp [links, frames, hu]
    · simp [links, frames, ha]
  have hnot : u ∉ joined b.tasks := by
    rintro ⟨t', ht', hj'⟩
    rw [htu] at ht'
    cases ht'
    exact hj' hj
  refine h.next ⟨hh, hne, ⟨t, ht, hcall, hans⟩, tu, htu, hx, hd, hj⟩ rfl rfl ?_
    (h.queue.congr fun x _ => (hsame x).1) h.readyCount
    (h.flight.congr (fun a _ => (hsame a).2) rfl rfl rfl rfl) (h.within.congr fun a => ?_) ?_
  · rw [happly]
    exact h.memory.join hu htu hq hqf
  · by_cases ha : a = u
    · subst ha
      simp [State.record, hu]
    · simp [State.record, ha]
  · have hins : joined (b.apply (.block f u)).tasks = insert u (joined b.tasks) := by
      rw [happly]
      ext a
      by_cases ha : a = u
      · subst ha
        simp [joined]
      · simp [joined, ha]
    have hlt := h.joined_lt hnot (by simp [htu])
    have hcount := h.joiningCount
    rw [hins, Set.ncard_insert_of_notMem hnot h.joined_finite]
    show (s.joiningCount + 1#32).toNat = _
    rw [toNat_succ (by omega), hcount]

theorem detach (h : Refines k s b) {f u : Addr} {fu : Fiber} (hh : b.hand = [f])
    (hask : b.Asks f (.detach u)) (hopen : b.Open u) (hu : s.fibers u = some fu) :
    Does k s b [.detach u] ({ s with
      fibers := Function.update s.fibers u (some { fu with life := .detached }) }.record
        (.detach u)) := by
  obtain ⟨t, ht, hcall, hans⟩ := hask
  obtain ⟨tu, htu, hx, hd, hj⟩ := hopen
  have hmem := h.memory.detach hu htu
  have hT : (b.modify u fun v => { v with detached := true }).tasks =
      Function.update b.tasks u (some { tu with detached := true }) := by
    simp only [Board.modify, htu, Option.map_some]
  have hhand : (b.modify u fun v => { v with detached := true }).hand = [f] := hh
  have happly : b.apply (.detach u) =
      (b.modify u fun v => { v with detached := true }).setAnswer f 0#64 := by
    simp only [Board.apply, hhand]
  -- the detaching fiber may be the target itself
  have hf : ∃ t', Function.update b.tasks u (some { tu with detached := true }) f = some t' ∧
      t'.call = some (.detach u) ∧ t'.answer = none := by
    by_cases hfu : f = u
    · subst hfu
      rw [htu] at ht
      cases ht
      exact ⟨_, Function.update_self _ _ _, hcall, hans⟩
    · exact ⟨t, by rw [Function.update_of_ne hfu, ht], hcall, hans⟩
  obtain ⟨t', ht', hcall', hans'⟩ := hf
  obtain ⟨ff, hff⟩ := hmem.exists_fiber ht'
  obtain ⟨r, hr, hq⟩ := hmem.request f ff t' _ hff ht' hcall'
  have hanswered := hmem.answer hff ht' hr hq 0#64
  have hsame : ({ t'.request f (.detach u) with result := 0#64 } : Request) =
      t'.request f (.detach u) := by
    simp only [Task.request, hans', Option.getD_none]
  rw [hsame, ← hq, Function.update_eq_self] at hanswered
  have hlinks : ∀ a, links (Function.update s.fibers u (some { fu with life := .detached })) a =
      links s.fibers a ∧
      frames (Function.update s.fibers u (some { fu with life := .detached })) a =
        frames s.fibers a := by
    intro a
    by_cases ha : a = u
    · subst ha
      simp [links, frames, hu]
    · simp [links, frames, ha]
  refine h.next ⟨f, hh, ⟨t, ht, hcall, hans⟩, tu, htu, hx, hd, hj⟩ rfl rfl ?_ ?_ ?_ ?_
    (h.within.congr fun a => ?_) ?_
  · rw [happly, setAnswer_tasks (t := t') (by rw [hT, ht']), hT]
    exact hanswered
  · rw [happly]
    exact h.queue.congr fun x _ => (hlinks x).1
  · rw [happly]
    exact h.readyCount
  · rw [happly]
    exact h.flight.congr (fun a _ => (hlinks a).2) rfl rfl rfl rfl
  · by_cases ha : a = u
    · subst ha
      simp [State.record, hu]
    · simp [State.record, ha]
  · rw [happly, joined_setAnswer, hT, joined_update htu (u := { tu with detached := true }) rfl]
    exact h.joiningCount

/-! ### Operations -/

theorem stage (h : Refines k s b) {f r slot : Addr} {sqe : Sqe} {ring : Ring} (hh : b.hand = [f])
    (hask : b.Asks f (.await sqe)) (hr : frames s.fibers f = some r)
    (hroom : s.parkedCount ≠ s.ring.cqEntries) (ha : s.ring.appendSqe = some (slot, ring)) :
    Does k s b [.stage f] (s.fill f r sqe slot ring) := by
  obtain ⟨t, ht, hcall, hans⟩ := hask
  have happly : b.apply (.stage f) = { b with
      staged := b.staged ++ [⟨b.count, f, sqe⟩], count := b.count + 1, hand := [] } := by
    simp only [Board.apply, ht, Option.bind_some, hcall]
  refine h.next ⟨hh, sqe, t, ht, hcall, hans⟩ rfl rfl ?_ ?_ ?_ ?_ h.within ?_
  · rw [happly]
    exact h.memory
  · rw [happly]
    exact h.queue
  · rw [happly]
    exact h.readyCount
  · rw [happly]
    exact h.flight.stage ha hr hroom rfl rfl rfl rfl
  · rw [happly]
    exact h.joiningCount

theorem enter (h : Refines k s b) {result : Long} (minComplete : U32)
    (ha : Ring.Answers s.ring.batchCount.toNat result) :
    Does k s b [.enter (s.ring.enter minComplete result)]
      { s.take minComplete result with ring := (s.ring.submitPass result).ring } := by
  obtain ⟨hflight, henabled⟩ := h.flight.enter minComplete ha
  exact h.next henabled rfl rfl h.memory h.queue h.readyCount hflight h.within h.joiningCount

theorem post (h : Refines k s b) {number : ℕ} {res : CInt} {flags : U32}
    (hc : s.complete number res flags = some s') :
    ∃ cqe, cqe.res = res ∧ cqe.flags = flags ∧ Does k s b [.post number cqe] s' ∧ s'.fibers = s.fibers ∧
      s'.ring.toGeometry = s.ring.toGeometry := by
  unfold State.complete at hc
  split at hc
  · cases hc
  · rename_i x hx
    cases hc
    obtain ⟨hflight, henabled⟩ := h.flight.post hx res flags
    have hlists : ∀ cqe, (b.apply (.post number cqe)).tasks = b.tasks ∧
        (b.apply (.post number cqe)).ready = b.ready := by
      intro cqe
      simp only [Board.apply]
      split <;> exact ⟨rfl, rfl⟩
    refine ⟨_, rfl, rfl, h.next henabled rfl rfl ?_ ?_ ?_ hflight h.within ?_, rfl, rfl⟩
    · rw [(hlists _).1]
      exact h.memory
    · rw [(hlists _).2]
      exact h.queue
    · rw [(hlists _).2]
      exact h.readyCount
    · rw [(hlists _).1]
      exact h.joiningCount

/-- The answer of a completion reaches the request its cookie names. -/
theorem reap (h : Refines k s b) {c : Cqe} (hh : b.hand = []) (hr : s.ring.reap.1 = some c) :
    ∃ r rest q s', b.posted = r :: rest ∧ c.res = r.res ∧ c.flags = r.flags ∧
      { s with ring := s.ring.reap.2 }.setResult c.userData (toLong c.res) = .ok s' ∧
      s'.requests c.userData = some q ∧ q.fiber = some r.op.fiber ∧
      Does k s b [.reap c] ({ s' with parkedCount := s'.parkedCount - 1#32 }.record (.reap c)) := by
  obtain ⟨r, rest, hposted, hans, hflight⟩ := h.flight.reap_some hr
  have hop : r.op ∈ b.ops := by simp [Board.ops, hposted]
  obtain ⟨t, ht, hcall, hnone⟩ := h.inv.op _ hop
  obtain ⟨q, hq, hqf, -, hmem⟩ := h.answer ht hans.cookie
  have happly : b.apply (.reap c) = { b.setAnswer r.op.fiber (toLong r.res) with
      posted := rest, hand := [r.op.fiber] } := by
    simp only [Board.apply, hposted]
  refine ⟨r, rest, _, _, hposted, hans.res, hans.flags,
    State.setResult_of_some (s := { s with ring := s.ring.reap.2 }) hq _,
    Function.update_self _ _ _, hqf,
    h.next ⟨hh, r, rest, hposted, hans.res⟩ rfl rfl ?_ ?_ ?_ ?_ h.within ?_⟩
  · rw [happly, ← hans.res]
    exact hmem _
  · rw [happly]
    exact h.queue
  · rw [happly]
    exact h.readyCount
  · rw [happly]
    exact hflight _ rfl rfl rfl rfl
  · rw [happly]
    exact h.joiningCount.trans (by rw [← joined_setAnswer b r.op.fiber (toLong r.res)])

end Refines

end Libuc.Scheduler
