import Libuc.Libc.Errno
import Libuc.Scheduler.Admission

/-! Every libc call returns the result of its own operation, and no call touches the
`errno` of another fiber. The thread pointer installed while a fiber runs is its own, and
the blocks of the fibers there are lie apart; what the call returns is what its await
returns. -/

namespace Libuc.Libc

open Scheduler

variable {k : Kernel} {s s' : State} {b : Board} {i : Input} {f g : Addr}

/-! ### What the reactor does to records and turns -/

/-- A fiber that is there after some events and was not before was created by one of
them. -/
theorem creates_of_legal {log es : List Event} (h : Legal (log ++ es))
    (hbefore : (replay log).tasks g = none) {t : Scheduler.Task}
    (hafter : (replay (log ++ es)).tasks g = some t) : ∃ e ∈ es, e.Creates g := by
  induction es using List.reverseRecOn generalizing t with
  | nil =>
    rw [List.append_nil, hbefore] at hafter
    cases hafter
  | append_singleton es e ih =>
    rw [← List.append_assoc] at h hafter
    have hlegal := h.of_append
    have he : (replay (log ++ es)).Enabled e := Legal.enabled (q := []) h
    cases hold : (replay (log ++ es)).tasks g with
    | some t' =>
      obtain ⟨e', hmem, hcreates⟩ := ih hlegal hold
      exact ⟨e', List.mem_append_left _ hmem, hcreates⟩
    | none =>
      rw [replay_concat] at hafter
      exact ⟨e, List.mem_append_right _ (List.mem_singleton_self e), (he.created hold hafter).2⟩

/-- The input makes a fiber at `g`. -/
def Makes (i : Input) (g : Addr) : Prop :=
  (∃ spawn, i = .launch g spawn) ∨ ∃ x argument, i = .turn x ∧ x.call = .start argument ∧
  x.spawned = some g

theorem served_creates {turns : U32} {t : Scheduler.Task} {x : Turn}
    (h : Served k s b turns f t x (.ok s')) :
    ∃ es, s'.log = s.log ++ es ∧ ∀ e ∈ es, e.Creates g → ∃ argument, x.call = .start argument ∧
    x.spawned = some g := by
  cases h with
  | spawned call hs ends =>
    refine ⟨_, ends.log, fun e he hcreates => ⟨_, call, ?_⟩⟩
    simp only [List.mem_cons, List.not_mem_nil, or_false] at he
    rcases he with rfl | rfl | rfl | rfl <;> simp_all [Event.Creates]
  | yield call ends => exact ⟨_, ends.log, by simp [Event.Creates]⟩
  | exitDetached call hd hu ends => exact ⟨_, ends.log, by simp [Event.Creates]⟩
  | exitZombie call hd hj ends => exact ⟨_, ends.log, by simp [Event.Creates]⟩
  | exitJoined call hd hj hu ends => exact ⟨_, ends.log, by simp [Event.Creates]⟩
  | parkStaged call flags room slot ends => exact ⟨_, ends.log, by simp [Event.Creates]⟩
  | parkFlush call flags room full frame ring ends => exact ⟨_, ends.log, by simp [Event.Creates]⟩
  | spawnFailed call hs ends => exact ⟨_, ends.log, by simp [Event.Creates]⟩
  | joinZombie call hne ht hz hu ends => exact ⟨_, ends.log, by simp [Event.Creates]⟩
  | joinBlocked call hne hopen ends => exact ⟨_, ends.log, by simp [Event.Creates]⟩
  | detachZombie call hne ht hz hu ends => exact ⟨_, ends.log, by simp [Event.Creates]⟩
  | detachOpen call hopen ends => exact ⟨_, ends.log, by simp [Event.Creates]⟩
  | processExit call ends => exact ⟨_, ends.log, by simp [Event.Creates]⟩

theorem stepped_creates (h : Stepped k s b i s') :
    ∃ es, s'.log = s.log ++ es ∧ ∀ e ∈ es, e.Creates g → Makes i g := by
  cases h with
  | launch input c fresh ends =>
    refine ⟨_, ends.log, fun e he hcreates => .inl ?_⟩
    simp only [List.mem_cons, List.not_mem_nil, or_false] at he
    rcases he with rfl | rfl <;> simp_all [Event.Creates]
  | turn input c hturns head task allowed served =>
    obtain ⟨es, hlog, hes⟩ := served_creates (g := g) served
    refine ⟨es, hlog, fun e he hcreates => .inr ?_⟩
    obtain ⟨argument, hcall, hspawned⟩ := hes e he hcreates
    exact ⟨_, argument, input, hcall, hspawned⟩
  | run c ends => exact ⟨_, ends.log, by simp⟩
  | loop c hne ends => exact ⟨_, ends.log, by simp⟩
  | cycle c ho hr hj ends => exact ⟨_, ends.log, by simp⟩
  | drain c ho hr hj ends => exact ⟨_, ends.log, by simp⟩
  | turnDies input c hturns head task allowed served ends => exact ⟨_, ends.log, by simp⟩
  | again c ho ends => exact ⟨_, ends.log, by simp⟩
  | boundary c ho ends => exact ⟨_, ends.log, by simp⟩
  | flushAgain input c answers fibers geometry ends => exact ⟨_, ends.log, by simp [Event.Creates]⟩
  | flushed input c answers ends => exact ⟨_, ends.log, by simp [Event.Creates]⟩
  | flushDies input c hstop ends => exact ⟨_, ends.log, by simp⟩
  | submitAgain input c answers ends => exact ⟨_, ends.log, by simp [Event.Creates]⟩
  | submitted input c answers all ends => exact ⟨_, ends.log, by simp [Event.Creates]⟩
  | submitDies input c failed ends => exact ⟨_, ends.log, by simp⟩
  | reaped c hb res ends => exact ⟨_, ends.log, by simp [Event.Creates]⟩
  | reapDone c hb ends => exact ⟨_, ends.log, by simp⟩
  | reapDies c ends => exact ⟨_, ends.log, by simp⟩
  | post input c fibers geometry ends => exact ⟨_, ends.log, by simp [Event.Creates]⟩

/-- A fiber is new only if the input made it. -/
theorem mapped_after (h : Good k s) (ha : Allowed k s i) (hs : step s i = some s')
    (hg : g ∈ s'.mapped) :
    g ∈ s.mapped ∨ Makes i g := by
  by_cases hold : g ∈ s.mapped
  · exact .inl hold
  have hstepped := h.stepped ha hs
  have hgood := hstepped.good h
  obtain ⟨es, hlog, hes⟩ := stepped_creates (g := g) hstepped
  have hnone : (replay s.log).tasks g = none := by
    rw [← h.refines.memory.mapped]
    simpa [State.mapped] using hold
  have hsome : (replay s'.log).tasks g ≠ none := by
    rw [Ne, ← hgood.refines.memory.mapped]
    exact Option.isSome_iff_ne_none.mp hg
  obtain ⟨t, ht⟩ := Option.ne_none_iff_exists'.mp hsome
  rw [hlog] at ht
  obtain ⟨e, he, hcreates⟩ := creates_of_legal (hlog ▸ hgood.refines.legal) hnone ht
  exact .inr (hes e he hcreates)

theorem mapped_of_awaiting (h : Good k s) {pre mid : List Event} {a : Option Long} {sqe : Sqe}
    (hlog : s.log = pre ++ .resume f a (.await sqe) :: mid) (hmid : ∀ e ∈ mid, e.resumed ≠ some f) :
    f ∈ s.mapped := by
  have hlegal : Legal (pre ++ [.resume f a (.await sqe)] ++ mid) := by
    rw [List.append_assoc, List.singleton_append, ← hlog]
    exact h.refines.legal
  have hreplay : replay (pre ++ [.resume f a (.await sqe)] ++ mid) = replay s.log := by
    rw [hlog, List.append_assoc, List.singleton_append]
  have htask : ∃ t, (replay s.log).tasks f = some t := by
    cases hlegal.pending (hlegal.of_append.asks_of_resume nofun) nofun hmid with
    | unanswered quiet asks enqueued =>
      obtain ⟨t, ht, -⟩ := asks
      exact ⟨t, hreplay ▸ ht⟩
    | answered split quiet asks gives task call answer enqueued => exact ⟨_, hreplay ▸ task⟩
  obtain ⟨t, ht⟩ := htask
  obtain ⟨fb, hfb⟩ := h.refines.memory.exists_fiber ht
  exact Option.isSome_iff_exists.mpr ⟨fb, hfb⟩

/-- Where a turn starts: the first ready fiber is there, and what its suspended call returns
is in its request. -/
structure Entered (s : State) (f : Addr) (result : Option Long) : Prop where
  head : s.readyHead = some f
  mapped : f ∈ s.mapped
  answer : ((s.fibers f).bind fun fb => fb.frame.bind s.requests).bind Request.answer = result
  enabled : ∀ c, (replay s.log).Enabled (.resume f result c)

theorem entered_of_turn (h : Good k s) {x : Turn} (ha : Allowed k s (.turn x))
    (hs : step s (.turn x) = some s') :
    ∃ f result, Entered s f result ∧
      ((∃ stop, s'.control = .stopped stop) ∨
        ∃ es, s'.log = s.log ++ .resume f result x.call :: es ∧ ∀ e ∈ es, e.resumed = none) := by
  obtain ⟨turns, f, t, hc, hturns, hhead, ht, hserved, rfl⟩ := h.served ha hs
  have hstand := h.standing
  rw [hc] at hstand
  obtain ⟨fb, hfb⟩ := h.refines.memory.exists_fiber ht
  have hready : t.answer ≠ none := h.refines.inv.ready f (List.mem_of_mem_head? hhead) t ht
  refine ⟨f, t.returned, ⟨?_, ?_, ?_, ?_⟩, ?_⟩
  · rw [h.refines.queue.head_eq, hhead]
  · exact Option.isSome_iff_exists.mpr ⟨fb, hfb⟩
  · rw [hfb]
    exact h.refines.memory.returned hfb ht hready
  · exact fun c => ⟨hstand.1, hhead, t, ht, rfl⟩
  · cases hd : s.dispatch turns x with
    | error stop => exact .inl ⟨stop, rfl⟩
    | ok next =>
      rw [hd] at hserved
      rcases hserved.ok_cases h.refines.inv ht with ⟨es, hes, -, ends⟩ |
        ⟨_, _, _, _, _, _, ends⟩ | ⟨_, _, ends⟩
      · exact .inr ⟨es, ends.log, hes⟩
      · exact .inr ⟨[], ends.log, nofun⟩
      · exact .inr ⟨[], ends.log, nofun⟩

/-! ### The fiber's own code -/

variable {w w' : World} {log : List Event}

/-- What a call that has returned shows. A refused one fails with `EINVAL`. Any other had
its own operation completed with some `res`, and returns that and keeps `errno`, or returns
-1 with `errno` the error number. -/
def Proper (log : List Event) (r : Return) : Prop :=
  match r.history with
  | none => r.call.submission = none ∧ r.value = minusOne ∧ r.after = einval
  | some (pre, mid) => ∃ sqe a n res, r.call.submission = some sqe ∧
      pre ++ .resume r.fiber a (.await sqe) :: mid <+: log ∧
      AwaitReturned pre (.resume r.fiber a (.await sqe)) r.fiber sqe mid (some (toLong res)) n ∧
      (0 ≤ res.toInt → r.value = toLong res ∧ r.after = r.before) ∧
      (res.toInt < 0 → r.value = minusOne ∧ r.after = -res ∧
        (-4095 ≤ res.toInt → r.after.toInt = -res.toInt))

theorem Proper.mono {r : Return} {log' : List Event} (h : Proper log r) (hextends : log <+: log') :
    Proper log' r := by
  unfold Proper at h ⊢
  split at h
  · exact h
  · obtain ⟨sqe, a, n, res, hsub, hpre, hrest⟩ := h
    exact ⟨sqe, a, n, res, hsub, hpre.trans hextends, hrest⟩

/-- The fiber `f` has run: nothing but the word at the installed thread pointer, its own
frame and the list of returns has changed. -/
structure Ran (f : Addr) (w w' : World) : Prop where
  scheduler : w'.scheduler = w.scheduler
  threadPointer : w'.threadPointer = w.threadPointer
  blocks : w'.blocks = w.blocks
  errno : ∀ a, a ≠ w.threadPointer → w'.errno a = w.errno a
  frames : ∀ g, g ≠ f → w'.frames g = w.frames g
  returns : (∀ r ∈ w.returns, Proper w.scheduler.log r) → ∀ r ∈ w'.returns, Proper w.scheduler.log r

theorem Ran.refl (f : Addr) (w : World) : Ran f w w :=
  ⟨rfl, rfl, rfl, fun _ _ => rfl, fun _ _ => rfl, id⟩

theorem Ran.trans {w'' : World} (h : Ran f w w') (h' : Ran f w' w'') : Ran f w w'' := by
  refine ⟨h'.scheduler.trans h.scheduler, h'.threadPointer.trans h.threadPointer,
    h'.blocks.trans h.blocks, ?_, ?_, ?_⟩
  · intro a ha
    rw [h'.errno a (by rw [h.threadPointer]; exact ha), h.errno a ha]
  · intro g hg
    rw [h'.frames g hg, h.frames g hg]
  · intro hr
    have hmid := h.returns hr
    have hlog : w'.scheduler.log = w.scheduler.log := by rw [h.scheduler]
    rw [← hlog] at hmid ⊢
    exact h'.returns hmid

theorem ran_setErrno (f : Addr) (w : World) (value : CInt) : Ran f w (w.setErrno value) :=
  ⟨rfl, rfl, rfl, fun _ ha => Function.update_of_ne ha _ _, fun _ _ => rfl, id⟩

theorem ran_refuse (w : World) {c : LibcCall} (hc : c.submission = none) : Ran f w (w.refuse f c) := by
  refine ⟨rfl, rfl, rfl, fun _ ha => Function.update_of_ne ha _ _, fun _ _ => rfl, fun hr r hmem => ?_⟩
  rcases List.mem_append.mp hmem with hold | hnew
  · exact hr r hold
  · rw [List.mem_singleton.mp hnew]
    exact ⟨hc, rfl, rfl⟩

/-- Up to its next suspension, which for a libc call is the await of its SQE. -/
theorem perform_ran (acts : List Act) (f : Addr) (w : World) :
    Ran f w (w.perform f acts).1 ∧
      ∀ call c, (w.perform f acts).2 = some (call, some c) → ∃ sqe, c.submission = some sqe ∧
      call = .await sqe := by
  induction acts generalizing w with
  | nil => exact ⟨.refl f w, nofun⟩
  | cons act acts ih =>
    cases act with
    | assign value =>
      obtain ⟨hran, hstop⟩ := ih (w.setErrno value)
      exact ⟨(ran_setErrno f w value).trans hran, hstop⟩
    | other call =>
      refine ⟨.refl f w, fun call' c h => ?_⟩
      cases h
    | libc c =>
      unfold World.perform
      cases hc : c.submission with
      | none =>
        obtain ⟨hran, hstop⟩ := ih (w.refuse f c)
        exact ⟨(ran_refuse w hc).trans hran, hstop⟩
      | some sqe =>
        refine ⟨.refl f w, fun call' c' h => ?_⟩
        cases h
        exact ⟨sqe, hc, rfl⟩

/-! ### The invariant -/

/-- The fiber `f` is suspended in the libc call of the frame `p`: it has not run since the
turn that made the call, and `errno` is what it was then. -/
structure Suspended (w : World) (f : Addr) (p : Frame) : Prop where
  called : ∃ sqe a mid, p.call.submission = some sqe ∧
    w.scheduler.log = p.pre ++ .resume f a (.await sqe) :: mid ∧ ∀ e ∈ mid, e.resumed ≠ some f
  errno : w.errnoOf f = p.errno

def Stopped (w : World) : Prop := ∃ stop, w.scheduler.control = .stopped stop

structure Inv (k : Kernel) (w : World) : Prop where
  reach : Reachable k w.scheduler
  apart : ∀ g ∈ w.scheduler.mapped, ∀ h ∈ w.scheduler.mapped, w.blocks g = w.blocks h → g = h
  frames : ¬Stopped w → ∀ f p, w.frames f = some p → Suspended w f p
  returns : ∀ r ∈ w.returns, Proper w.scheduler.log r

theorem Suspended.mapped {p : Frame} (h : Suspended w f p) (hg : Good k w.scheduler) :
    f ∈ w.scheduler.mapped := by
  obtain ⟨sqe, a, mid, -, hlog, hmid⟩ := h.called
  exact mapped_of_awaiting hg hlog hmid

/-- The fiber `f` with the frame `p` is switched back in: the call returns, and `errno` of
the fiber is what it left. -/
structure Returns (w : World) (f : Addr) (p : Frame) (r : Return) : Prop where
  fiber : r.fiber = f
  call : r.call = p.call
  before : r.before = w.errnoOf f
  history : ∃ mid, r.history = some (p.pre, mid)
  proper : Proper w.scheduler.log r
  finish : { w with threadPointer := w.blocks f }.finish f =
    { { w with threadPointer := w.blocks f }.setErrno r.after with
      frames := Function.update w.frames f none
      returns := w.returns ++ [r] }

theorem Suspended.returns {result : Option Long} {p : Frame} (h : Suspended w f p)
    (hg : Good k w.scheduler)
    (he : Entered w.scheduler f result) (hp : w.frames f = some p) : ∃ r, Returns w f p r := by
  obtain ⟨⟨sqe, a, mid, hsub, hlog, hmid⟩, herrno⟩ := h
  -- the await of the call is about to return, so it has been completed
  have hlegal : Legal (p.pre ++ .resume f a (.await sqe) :: mid ++ [.resume f result .yield]) := by
    rw [← hlog]
    exact .concat hg.refines.legal (he.enabled .yield)
  obtain ⟨n, hreturned⟩ := Legal.await_returned hlegal hmid
  obtain ⟨-, cqe, -, -, -, -, -, hvalue⟩ := hreturned.completed
  have hresult : { w with threadPointer := w.blocks f }.result f = some (toLong cqe.res) := by
    rw [← hvalue]
    exact he.answer
  have hbefore : w.errno (w.blocks f) = p.errno := herrno
  have hdrop : w.scheduler.log.drop (p.pre.length + 1) = mid := by
    rw [hlog, List.drop_append]
    simp
  let out := errnoResult (toLong cqe.res) p.errno
  refine ⟨⟨f, p.call, p.errno, p.call.convert out.1, out.2, some (p.pre, mid)⟩, rfl, rfl,
    herrno.symm, ⟨mid, rfl⟩, ?_, ?_⟩
  · refine ⟨sqe, a, n, cqe.res, hsub, ⟨[], by rw [List.append_nil]; exact hlog.symm⟩,
      hvalue ▸ hreturned, ?_, ?_⟩
    · exact fun hres => errnoResult_of_nonneg p.call hres p.errno
    · intro hres
      obtain ⟨hone, hneg⟩ := errnoResult_of_neg p.call hres p.errno
      refine ⟨hone, hneg, fun hrange => ?_⟩
      simp only [out, hneg]
      exact neg_toInt hrange
  · simp only [World.finish, hp, hresult, hbefore, hdrop, out]

/-- The fiber's `errno` is then what the call left. -/
theorem Returns.errnoOf {p : Frame} {r : Return} (h : Returns w f p r) :
    ({ w with threadPointer := w.blocks f }.finish f).errnoOf f = r.after := by
  rw [h.finish]
  exact Function.update_self ..

/-- The start of a turn, up to the fiber's own code. -/
theorem finish_ran {result : Option Long} (h : Inv k w) (hrun : ¬Stopped w)
    (he : Entered w.scheduler f result) :
    Ran f { w with threadPointer := w.blocks f } ({ w with threadPointer := w.blocks f }.finish f) := by
  cases hp : w.frames f with
  | none =>
    have hsame : { w with threadPointer := w.blocks f }.finish f =
        { w with threadPointer := w.blocks f } := by
      simp only [World.finish, hp]
    rw [hsame]
    exact .refl f _
  | some p =>
    obtain ⟨r, hr⟩ := (h.frames hrun f p hp).returns h.reach.good he hp
    rw [hr.finish]
    refine ⟨rfl, rfl, rfl, fun _ ha => Function.update_of_ne ha _ _,
      fun _ hne => Function.update_of_ne hne _ _, ?_⟩
    intro hall r' hmem
    rcases List.mem_append.mp hmem with hold | hnew
    · exact hall r' hold
    · rw [List.mem_singleton.mp hnew]
      exact hr.proper

/-- How the fibers there are and their blocks change: no fiber is new, or one is, with a
block apart from the others. -/
def Grown (w w' : World) : Prop :=
  (w'.blocks = w.blocks ∧ w'.scheduler.mapped ⊆ w.scheduler.mapped) ∨
    ∃ c threadPointer, c ∉ w.scheduler.mapped ∧ Apart w threadPointer ∧
      w'.blocks = Function.update w.blocks c threadPointer ∧
      w'.scheduler.mapped ⊆ insert c w.scheduler.mapped

theorem Grown.blocks (h : Grown w w') (hg : g ∈ w.scheduler.mapped) : w'.blocks g = w.blocks g := by
  rcases h with ⟨hsame, -⟩ | ⟨c, threadPointer, hnew, -, hblocks, -⟩
  · rw [hsame]
  · have hne : g ≠ c := by
      rintro rfl
      exact hnew hg
    rw [hblocks, Function.update_of_ne hne]

theorem Grown.apart (h : Grown w w')
    (hw : ∀ g ∈ w.scheduler.mapped, ∀ h ∈ w.scheduler.mapped, w.blocks g = w.blocks h → g = h) :
    ∀ g ∈ w'.scheduler.mapped, ∀ h ∈ w'.scheduler.mapped, w'.blocks g = w'.blocks h → g = h := by
  intro g hg x hx heq
  rcases h with ⟨hsame, hsub⟩ | ⟨c, threadPointer, hnew, hapart, hblocks, hsub⟩
  · rw [hsame] at heq
    exact hw g (hsub hg) x (hsub hx) heq
  · rw [hblocks] at heq
    have hold : ∀ y ∈ w'.scheduler.mapped, y ≠ c → y ∈ w.scheduler.mapped := fun y hy hne =>
      (Set.mem_insert_iff.mp (hsub hy)).resolve_left hne
    by_cases hgc : g = c <;> by_cases hxc : x = c
    · rw [hgc, hxc]
    · rw [hgc, Function.update_self, Function.update_of_ne hxc] at heq
      exact absurd heq.symm (hapart x (hold x hx hxc))
    · rw [hxc, Function.update_self, Function.update_of_ne hgc] at heq
      exact absurd heq (hapart g (hold g hg hgc))
    · rw [Function.update_of_ne hgc, Function.update_of_ne hxc] at heq
      exact hw g (hold g hg hgc) x (hold x hx hxc) heq

/-- A move that does not run `f` keeps its suspended call. -/
theorem Suspended.keep {p : Frame} {es : List Event} (h : Suspended w f p)
    (hlog : w'.scheduler.log = w.scheduler.log ++ es) (hes : ∀ e ∈ es, e.resumed ≠ some f)
    (herrno : w'.errnoOf f = w.errnoOf f) : Suspended w' f p := by
  obtain ⟨⟨sqe, a, mid, hsub, hbefore, hmid⟩, hkept⟩ := h
  refine ⟨⟨sqe, a, mid ++ es, hsub, ?_, fun e he => ?_⟩, herrno.trans hkept⟩
  · rw [hlog, hbefore]
    simp
  · rcases List.mem_append.mp he with hold | hnew
    · exact hmid e hold
    · exact hes e hnew

/-! ### One move -/

theorem not_stopped_of_step (h : step w.scheduler i = some s') : ¬Stopped w := by
  rintro ⟨stop, hc⟩
  cases i <;> simp [step, hc, Control.ready, Control.running] at h

/-- The turn of a fiber, taken apart. -/
theorem turn_cases {acts : List Act} {frame : Addr} {spawned : Option (Addr × Addr)} {unmapped : Bool}
    (h : w.turn acts frame spawned unmapped = some w') :
    ∃ f ran call libc s', w.scheduler.readyHead = some f ∧
      ({ w with threadPointer := w.blocks f }.finish f).perform f acts = (ran, some (call, libc)) ∧
      step w.scheduler (.turn ⟨call, frame, spawned.map Prod.fst, unmapped⟩) = some s' ∧
      w' = { ran with
        scheduler := s'
        threadPointer := w.threadPointer
        frames := Function.update ran.frames f (libc.map fun c => ⟨c, ran.errno ran.threadPointer, w.scheduler.log⟩)
        }.placeSpawned call spawned := by
  unfold World.turn at h
  obtain ⟨f, hf, hturn⟩ := Option.bind_eq_some_iff.mp h
  cases hp : ({ w with threadPointer := w.blocks f }.finish f).perform f acts with
  | mk ran stop =>
    simp only [hp] at hturn
    obtain ⟨⟨call, libc⟩, hstop, hcall⟩ := Option.bind_eq_some_iff.mp hturn
    obtain ⟨s', hs, hw⟩ := Option.bind_eq_some_iff.mp hcall
    exact ⟨f, ran, call, libc, s', hf, by rw [hp, hstop], hs, (Option.some.inj hw).symm⟩

/-- Only a `start` request that is granted places a block. -/
theorem placeSpawned_cases (w : World) (call : Call) (spawned : Option (Addr × Addr)) :
    ((∀ argument, call = .start argument → spawned = none) ∧ w.placeSpawned call spawned = w) ∨
      ∃ argument c threadPointer, call = .start argument ∧ spawned = some (c, threadPointer) ∧
        w.placeSpawned call spawned = w.place c threadPointer := by
  cases spawned with
  | none =>
    refine .inl ⟨fun _ _ => rfl, ?_⟩
    cases call <;> rfl
  | some p =>
    cases call with
    | start argument => exact .inr ⟨argument, p.1, p.2, rfl, rfl, rfl⟩
    | _ => exact .inl ⟨nofun, rfl⟩

@[simp] theorem placeSpawned_scheduler (w : World) (call : Call) (spawned : Option (Addr × Addr)) :
    (w.placeSpawned call spawned).scheduler = w.scheduler := by
  rcases placeSpawned_cases w call spawned with ⟨-, h⟩ | ⟨_, _, _, -, -, h⟩ <;> rw [h]
  rfl

@[simp] theorem placeSpawned_frames (w : World) (call : Call) (spawned : Option (Addr × Addr)) :
    (w.placeSpawned call spawned).frames = w.frames := by
  rcases placeSpawned_cases w call spawned with ⟨-, h⟩ | ⟨_, _, _, -, -, h⟩ <;> rw [h]
  rfl

@[simp] theorem placeSpawned_returns (w : World) (call : Call) (spawned : Option (Addr × Addr)) :
    (w.placeSpawned call spawned).returns = w.returns := by
  rcases placeSpawned_cases w call spawned with ⟨-, h⟩ | ⟨_, _, _, -, -, h⟩ <;> rw [h]
  rfl

/-- A new block is away from the others. -/
theorem placeSpawned_errno (w : World) (call : Call) {spawned : Option (Addr × Addr)} {a : Addr}
    (ha : ∀ c threadPointer, spawned = some (c, threadPointer) → a ≠ threadPointer) :
    (w.placeSpawned call spawned).errno a = w.errno a := by
  rcases placeSpawned_cases w call spawned with ⟨-, h⟩ | ⟨_, c, threadPointer, -, hspawned, h⟩
  · rw [h]
  · rw [h]
    exact Function.update_of_ne (ha c threadPointer hspawned) _ _

/-- What one move does; `who` is the fiber that it runs. -/
structure Moved (k : Kernel) (w w' : World) (who : Option Addr) : Prop where
  step : Step k w.scheduler w'.scheduler
  grown : Grown w w'
  errno : ∀ g ∈ w.scheduler.mapped, who ≠ some g → w'.errnoOf g = w.errnoOf g
  frames : ¬Stopped w' → ∀ f p, w'.frames f = some p → Suspended w' f p
  returns : ∀ r ∈ w'.returns, Proper w'.scheduler.log r

theorem Moved.inv {who : Option Addr} (h : Moved k w w' who) (hw : Inv k w) : Inv k w' :=
  ⟨hw.reach.tail h.step, h.grown.apart hw.apart, h.frames, h.returns⟩

/-- An allowed step, with what it adds to the log. -/
theorem log_grows (h : Good k s) (ha : Allowed k s i) (hs : step s i = some s') : s.log <+: s'.log := by
  obtain ⟨es, hlog, -⟩ := (h.stepped ha hs).events h.refines.inv
  exact ⟨es, hlog.symm⟩

/-- The fibers there are, after a step that makes none or the fiber `c`. -/
theorem grown_of_step (h : Good k w.scheduler) (ha : Allowed k w.scheduler i)
    (hs : step w.scheduler i = some w'.scheduler)
    (hmade : (w'.blocks = w.blocks ∧ ∀ c, ¬Makes i c) ∨
      ∃ c threadPointer, w.scheduler.fibers c = none ∧ Apart w threadPointer ∧
        w'.blocks = Function.update w.blocks c threadPointer ∧ ∀ c', Makes i c' → c' = c) :
        Grown w w' := by
  rcases hmade with ⟨hsame, hnone⟩ | ⟨c, threadPointer, hfresh, hapart, hblocks, honly⟩
  · exact .inl ⟨hsame, fun g hg => (mapped_after h ha hs hg).resolve_right (hnone g)⟩
  · refine .inr ⟨c, threadPointer, by simp [State.mapped, hfresh], hapart, hblocks, fun g hg => ?_⟩
    rcases mapped_after h ha hs hg with hold | hmakes
    · exact Set.mem_insert_of_mem c hold
    · exact Set.mem_insert_iff.mpr (.inl (honly g hmakes))

/-- A move that runs no fiber. -/
theorem moved_of_quiet (h : Inv k w) (ha : Allowed k w.scheduler i)
    (hs : step w.scheduler i = some w'.scheduler)
    (hi : ∀ x, i ≠ .turn x) (hgrown : Grown w w') (hframes : w'.frames = w.frames)
    (hreturns : w'.returns = w.returns)
    (herrno : ∀ g ∈ w.scheduler.mapped, w'.errnoOf g = w.errnoOf g) : Moved k w w' none := by
  have hgood := h.reach.good
  obtain ⟨es, hlog, hquiet | ⟨x, _, _, _, hx, _⟩⟩ := (hgood.stepped ha hs).events hgood.refines.inv
  · refine ⟨⟨i, ha, hs⟩, hgrown, fun g hg _ => herrno g hg, fun _ f p hp => ?_, fun r hr => ?_⟩
    · rw [hframes] at hp
      have hsuspended := h.frames (not_stopped_of_step hs) f p hp
      refine hsuspended.keep hlog (fun e he => ?_) (herrno f (hsuspended.mapped hgood))
      rw [hquiet e he]
      exact nofun
    · rw [hreturns] at hr
      exact (h.returns r hr).mono ⟨es, hlog.symm⟩
  · exact absurd hx (hi x)

section Turn

variable {acts : List Act} {frame : Addr} {spawned : Option (Addr × Addr)} {unmapped : Bool}
  {call : Call} {m : World}

theorem turn_grown (h : Inv k w) (hp : Permitted k w (.turn acts frame spawned unmapped))
    (hs : step w.scheduler (.turn ⟨call, frame, spawned.map Prod.fst, unmapped⟩) = some m.scheduler)
    (hblocks : m.blocks = w.blocks) : Grown w (m.placeSpawned call spawned) := by
  refine grown_of_step h.reach.good (hp.1 call) (by rw [placeSpawned_scheduler]; exact hs) ?_
  rcases placeSpawned_cases m call spawned with ⟨hnone, hsame⟩ | ⟨argument, c, threadPointer,
    rfl, rfl, hplaced⟩
  · refine .inl ⟨by rw [hsame, hblocks], ?_⟩
    rintro c (⟨_, hi⟩ | ⟨x, argument, hi, hcall, hspawned⟩)
    · cases hi
    · cases hi
      rw [hnone argument hcall] at hspawned
      cases hspawned
  · refine .inr ⟨c, threadPointer, ((hp.1 (.start argument)).2.1 c rfl).2.1,
      hp.2 c threadPointer rfl, ?_, ?_⟩
    · rw [hplaced, ← hblocks]
      rfl
    · rintro c' (⟨_, hi⟩ | ⟨x, _, hi, -, hspawned⟩)
      · cases hi
      · cases hi
        exact (Option.some.inj hspawned).symm

/-- The turn of a fiber. It writes only through its own thread pointer. -/
theorem turn_moved (h : Inv k w) (hp : Permitted k w (.turn acts frame spawned unmapped))
    (hturn : w.turn acts frame spawned unmapped = some w') : Moved k w w' w.scheduler.readyHead := by
  have hgood := h.reach.good
  obtain ⟨f, ran, call, libc, s', hf, hperform, hs, hw'⟩ := turn_cases hturn
  obtain ⟨f', result, hentered, hlog⟩ := entered_of_turn hgood (hp.1 call) hs
  obtain rfl : f = f' := Option.some.inj (hf.symm.trans hentered.head)
  obtain ⟨hperformed, hsuspends⟩ := perform_ran acts f ({ w with threadPointer := w.blocks f }.finish f)
  rw [hperform] at hperformed hsuspends
  simp only at hperformed hsuspends
  have hran := (finish_ran h (not_stopped_of_step hs) hentered).trans hperformed
  have hscheduler : w'.scheduler = s' := by rw [hw', placeSpawned_scheduler]
  have hframes : w'.frames = Function.update ran.frames f
      (libc.map fun c => ⟨c, ran.errno ran.threadPointer, w.scheduler.log⟩) := by
        rw [hw', placeSpawned_frames]
  have hgrown : Grown w w' := by
    rw [hw']
    exact turn_grown h hp hs hran.blocks
  have herrno : ∀ g ∈ w.scheduler.mapped, g ≠ f → w'.errnoOf g = w.errnoOf g := by
    intro g hg hne
    have hapart : w.blocks g ≠ w.blocks f := fun heq => hne (h.apart g hg f hentered.mapped heq)
    rw [World.errnoOf, hgrown.blocks hg, hw', placeSpawned_errno _ _ fun c tp hc => hp.2 c tp hc g hg]
    exact hran.errno _ hapart
  refine ⟨⟨_, hp.1 call, hscheduler ▸ hs⟩, hgrown, fun g hg hne => herrno g hg ?_, ?_, ?_⟩
  · rintro rfl
    exact hne hf
  · intro hrun g p hframe
    rcases hlog with hdead | ⟨es, hlog, hes⟩
    · rw [← hscheduler] at hdead
      exact absurd hdead hrun
    rw [← hscheduler] at hlog
    rw [hframes] at hframe
    by_cases hgf : g = f
    · subst hgf
      rw [Function.update_self] at hframe
      obtain ⟨c, rfl, rfl⟩ := Option.map_eq_some_iff.mp hframe
      obtain ⟨sqe, hsub, rfl⟩ := hsuspends call c rfl
      refine ⟨⟨sqe, result, es, hsub, hlog, fun e he => ?_⟩, ?_⟩
      · rw [hes e he]
        exact nofun
      · rw [World.errnoOf, hgrown.blocks hentered.mapped, hw', hran.threadPointer]
        rfl
    · rw [Function.update_of_ne hgf, hran.frames g hgf] at hframe
      have hsuspended := h.frames (not_stopped_of_step hs) g p hframe
      refine hsuspended.keep hlog (fun e he => ?_) (herrno g (hsuspended.mapped hgood) hgf)
      rcases List.mem_cons.mp he with rfl | he
      · exact fun heq => hgf (Option.some.inj heq).symm
      · rw [hes e he]
        exact nofun
  · intro r hr
    rw [hw', placeSpawned_returns] at hr
    rw [hscheduler]
    exact (hran.returns h.returns r hr).mono (log_grows hgood (hp.1 call) hs)

end Turn

theorem next_moved {move : Move} (h : Inv k w) (hp : Permitted k w move) (hn : next w move = some w') :
    Moved k w w' (runs w move) := by
  cases move with
  | turn acts frame spawned unmapped => exact turn_moved h hp hn
  | launch fiber spawn threadPointer =>
    obtain ⟨ha, hapart⟩ := hp
    obtain ⟨s', hs, rfl⟩ := Option.map_eq_some_iff.mp hn
    have hnew : ∀ g ∈ w.scheduler.mapped, g ≠ fiber := by
      rintro g hg rfl
      simp [State.mapped, ha.2.1] at hg
    refine moved_of_quiet h ha hs (by simp) (grown_of_step h.reach.good ha hs (.inr ?_)) rfl rfl
      fun g hg => ?_
    · refine ⟨fiber, threadPointer, ha.2.1, hapart, rfl, ?_⟩
      rintro c (⟨_, hi⟩ | ⟨_, _, hi, -, -⟩)
      · cases hi
        rfl
      · cases hi
    · simp only [World.errnoOf, World.place, Function.update_of_ne (hnew g hg),
        Function.update_of_ne (hapart g hg)]
  | reactor input =>
    have hquiet : ∀ s', step w.scheduler input = some s' → w' = { w with scheduler := s' } →
        (∀ x, input ≠ .turn x) →
        (∀ f spawn, input ≠ .launch f spawn) → Moved k w w' none := by
      rintro s' hs rfl hturn hlaunch
      refine moved_of_quiet h hp hs hturn
        (grown_of_step h.reach.good hp hs (.inl ⟨rfl, ?_⟩)) rfl rfl fun _ _ => rfl
      rintro c (⟨_, hi⟩ | ⟨_, _, hi, -, -⟩)
      · exact hlaunch _ _ hi
      · exact hturn _ hi
    cases input with
    | turn x => cases hn
    | launch f spawn => cases hn
    | _ =>
      obtain ⟨s', hs, rfl⟩ := Option.map_eq_some_iff.mp hn
      exact hquiet s' hs rfl (by simp) (by simp)

/-! ### Runs -/

theorem Initial.inv (h : Initial w) : Inv k w := by
  obtain ⟨g, memory, counter, cqes, hs⟩ := h.scheduler
  have hmapped : w.scheduler.mapped = ∅ := by
    rw [hs]
    exact Set.eq_empty_of_forall_notMem fun a ha => by simp [State.mapped, become] at ha
  refine ⟨⟨g, memory, counter, cqes, hs ▸ .refl⟩, ?_, fun _ f p hp => ?_, ?_⟩
  · intro g hg
    rw [hmapped] at hg
    cases hg
  · rw [h.frames f] at hp
    cases hp
  · intro r hr
    rw [h.returns] at hr
    cases hr

/-- The check that a move is permitted; there is no fiber that was never created. -/
def permits (k : Kernel) (w : World) : Move → Bool
  | .turn _ frame spawned unmapped =>
    Scheduler.permits k w.scheduler (.turn ⟨.yield, frame, spawned.map Prod.fst, unmapped⟩) &&
      spawned.all fun p => (w.scheduler.log.filterMap Event.created).all fun g => w.blocks g ≠ p.2
  | .launch fiber spawn threadPointer =>
    Scheduler.permits k w.scheduler (.launch fiber spawn) &&
      (w.scheduler.log.filterMap Event.created).all fun g => w.blocks g ≠ threadPointer
  | .reactor input => Scheduler.permits k w.scheduler input

theorem apart_of_created (h : Good k w.scheduler) {threadPointer : Addr}
    (hall : ((w.scheduler.log.filterMap Event.created).all fun g => w.blocks g ≠
      threadPointer) = true) :
    Apart w threadPointer :=
  fun g hg => of_decide_eq_true (List.all_eq_true.mp hall g (h.mapped_created hg))

theorem Inv.permitted (h : Inv k w) {move : Move} (hm : permits k w move = true) :
    Permitted k w move := by
  have hgood := h.reach.good
  cases move with
  | turn acts frame spawned unmapped =>
    obtain ⟨hallowed, hapart⟩ := (Bool.and_eq_true _ _).mp hm
    refine ⟨fun call => hgood.permits hallowed, fun c tp hspawned => apart_of_created hgood ?_⟩
    rw [hspawned] at hapart
    exact hapart
  | launch fiber spawn tp =>
    obtain ⟨hallowed, hapart⟩ := (Bool.and_eq_true _ _).mp hm
    exact ⟨hgood.permits hallowed, apart_of_created hgood hapart⟩
  | reactor input => exact hgood.permits hm

/-! ### Two fibers -/

namespace Sample

def world : World := ⟨Scheduler.Sample.scheduler, 0#64, fun _ => 0#64, fun _ => 0#32, fun _ => none, []⟩

def first : Addr := 0x100000#64

def second : Addr := 0x200000#64

/-- The first fiber closes a descriptor that is not open, the second reads three bytes after
a count that is refused; the results come in the other order. -/
def moves : List Move :=
  [.launch first Scheduler.Sample.spawnRequest 0x110000#64,
    .launch second Scheduler.Sample.spawnRequest 0x210000#64,
    .reactor .run, .reactor .tick, .turn [.assign 5#32, .libc (.close 9#32)] 0x101000#64 none true,
    .turn [.libc (.write 1#32 0x300000#64 (BitVec.allOnes 64)),
      .libc (.read 0#32 0x300000#64 100#64)] 0x201000#64 none true,
    .reactor .tick, .reactor (.enter 2#64), .reactor (.post 1 3#32 0#32),
    .reactor (.post 0 (BitVec.ofInt 32 (-9)) 0#32), .reactor .tick,
    .reactor .tick, .reactor .tick, .reactor .tick, .turn [.other (.exit 0#32)] 0x201000#64 none true,
    .turn [.other .yield] 0x101000#64 none true]

def after : World := (Lib.rehearse next (permits Scheduler.Sample.kernel) world moves).getD world

theorem initial_world : Initial world := ⟨⟨.small, _, _, _, rfl⟩, fun _ => rfl, rfl⟩

theorem run_after : Relation.ReflTransGen (Next Scheduler.Sample.kernel) world after := by
  have hsome : (Lib.rehearse next (permits Scheduler.Sample.kernel) world moves).isSome = true := by
    decide +kernel
  obtain ⟨w, hw⟩ := Option.isSome_iff_exists.mp hsome
  rw [after, hw]
  refine Lib.rehearse_run (P := Inv Scheduler.Sample.kernel) ?_ initial_world.inv hw
  intro w move w' h hm hnext
  have hpermitted := h.permitted hm
  exact ⟨⟨move, hpermitted, hnext⟩, (next_moved h hpermitted hnext).inv h⟩

end Sample

/-! ### The calls of every run -/

structure Calls (k : Kernel) (w : World) : Prop where
  /-- What has returned has returned the result of its own operation. -/
  returned : ∀ r ∈ w.returns, Proper w.scheduler.log r
  /-- A fiber that is switched back into a call returns from it. -/
  returns : ∀ acts frame spawned unmapped w' f p, Permitted k w (.turn acts frame spawned unmapped) →
    next w (.turn acts frame spawned unmapped) = some w' →
    runs w (.turn acts frame spawned unmapped) = some f →
    w.frames f = some p → ∃ r, Returns w f p r ∧
    ({ w with threadPointer := w.blocks f }.finish f).errnoOf f = r.after
  /-- A refused call returns at once, and the reactor sees nothing of it. -/
  refused : ∀ f call acts, call.submission = none →
    w.perform f (.libc call :: acts) = (w.refuse f call).perform f acts ∧
    (w.refuse f call).scheduler = w.scheduler
  /-- No fiber but the one that runs has its `errno` changed. -/
  errno : ∀ move w', Permitted k w move → next w move = some w' → ∀ g ∈ w.scheduler.mapped,
    runs w move ≠ some g →
    w'.errnoOf g = w.errnoOf g
  /-- A call that suspends has no flags in its SQE, and `park` takes it unless the
  completion queue has no room for it. -/
  parks : ∀ acts frame spawned unmapped w' f p, Permitted k w (.turn acts frame spawned unmapped) →
    next w (.turn acts frame spawned unmapped) = some w' →
    runs w (.turn acts frame spawned unmapped) = some f →
    w'.frames f = some p → ∃ sqe, p.call.submission = some sqe ∧ sqe.flags = 0#8 ∧
      ∀ stop, w'.scheduler.control = .stopped stop →
        stop = .trap .parkRefused ∧ w.scheduler.parkedCount = w.scheduler.ring.cqEntries

theorem Inv.parks {acts : List Act} {frame : Addr} {spawned : Option (Addr × Addr)}
    {unmapped : Bool} {p : Frame}
    (h : Inv k w) (hp : Permitted k w (.turn acts frame spawned unmapped))
    (hturn : w.turn acts frame spawned unmapped = some w') (hf : w.scheduler.readyHead = some f)
    (hframe : w'.frames f = some p) : ∃ sqe, p.call.submission = some sqe ∧ sqe.flags = 0#8 ∧
      ∀ stop, w'.scheduler.control = .stopped stop →
        stop = .trap .parkRefused ∧ w.scheduler.parkedCount = w.scheduler.ring.cqEntries := by
  obtain ⟨f', ran, call, libc, s', hf', hperform, hs, rfl⟩ := turn_cases hturn
  obtain rfl : f = f' := Option.some.inj (hf.symm.trans hf')
  obtain ⟨-, hsuspends⟩ := perform_ran acts f ({ w with threadPointer := w.blocks f }.finish f)
  rw [hperform] at hsuspends
  rw [placeSpawned_frames] at hframe
  simp only [Function.update_self] at hframe
  obtain ⟨c, rfl, rfl⟩ := Option.map_eq_some_iff.mp hframe
  obtain ⟨sqe, hsub, rfl⟩ := hsuspends call c rfl
  have hflags := LibcCall.submission_flags hsub
  obtain ⟨hdies, hiff⟩ := h.reach.good.await_dies rfl (hp.1 (.await sqe)) hs
  refine ⟨sqe, hsub, hflags, fun stop hstop => ?_⟩
  rw [placeSpawned_scheduler] at hstop
  obtain rfl := hdies stop hstop
  exact ⟨rfl, (hiff.mp hstop).resolve_left fun hne => hne hflags⟩

theorem Inv.calls (h : Inv k w) : Calls k w where
  returned := h.returns
  returns := by
    intro acts frame spawned unmapped w' f p hp hn hf hframe
    obtain ⟨f', ran, call, libc, s', hf', -, hs, -⟩ := turn_cases hn
    obtain ⟨f'', result, he, -⟩ := entered_of_turn h.reach.good (hp.1 call) hs
    obtain rfl : f = f'' := Option.some.inj (hf.symm.trans he.head)
    obtain ⟨r, hr⟩ := (h.frames (not_stopped_of_step hs) f p hframe).returns h.reach.good he hframe
    exact ⟨r, hr, hr.errnoOf⟩
  refused := by
    intro f call acts hsub
    exact ⟨by simp only [World.perform, hsub], rfl⟩
  errno := fun move w' hp hn => (next_moved h hp hn).errno
  parks := fun acts frame spawned unmapped w' f p hp hn hf hframe => h.parks hp hn hf hframe

end Libuc.Libc
