import Libuc.Scheduler.Simulation

/-! What the reactor leaves alone in the records of other fibers. A record's way of
starting (its context, entry and argument) is written when it is spawned and when its
own fiber is switched to, by nothing else. A turn that only puts its own fiber back
leaves every other record as it was, the ready links apart. -/

namespace Libuc.Scheduler

variable {k : Kernel} {s s' s'' : State} {c f : Addr} {fb : Fiber} {t : Turn} {turns : U32}

theorem ok_of_bind {α β : Type} {x : Except Stop α} {g : α → Except Stop β} {r : β}
    (h : x >>= g = .ok r) :
    ∃ a, x = .ok a ∧ g a = .ok r := by
  cases x with
  | error e => cases h
  | ok a => exact ⟨a, rfl, h⟩

theorem ok_of_map {α β : Type} {x : Except Stop α} {g : α → β} {r : β} (h : g <$> x = .ok r) :
    ∃ a, x = .ok a ∧ g a = r := by
  cases x with
  | error e => cases h
  | ok a =>
    cases h
    exact ⟨a, rfl, rfl⟩

structure SameStart (fb fb' : Fiber) : Prop where
  context : fb'.context = fb.context
  entry : fb'.entry = fb.entry
  argument : fb'.argument = fb.argument

theorem SameStart.trans {fb fb' fb'' : Fiber} (h : SameStart fb fb') (h' : SameStart fb' fb'') :
    SameStart fb fb'' :=
  ⟨h'.context.trans h.context, h'.entry.trans h.entry, h'.argument.trans h.argument⟩

/-- A record at `c` was there before and starts the same way. -/
def Keeps (c : Addr) (s s' : State) : Prop :=
  ∀ fb', s'.fibers c = some fb' → ∃ fb, s.fibers c = some fb ∧ SameStart fb fb'

theorem Keeps.of_eq (h : s'.fibers = s.fibers) : Keeps c s s' := by
  intro fb' hf
  exact ⟨fb', h ▸ hf, rfl, rfl, rfl⟩

theorem Keeps.trans (h : Keeps c s s') (h' : Keeps c s' s'') : Keeps c s s'' := by
  intro fb'' hf
  obtain ⟨fb', hf', hs'⟩ := h' fb'' hf
  obtain ⟨fb, hf, hs⟩ := h fb' hf'
  exact ⟨fb, hf, hs.trans hs'⟩

theorem Keeps.update {g : Fiber} (hf : s.fibers f = some fb) (hs : SameStart fb g)
    (he : s'.fibers = Function.update s.fibers f (some g)) : Keeps c s s' := by
  intro fb' hf'
  rw [he] at hf'
  by_cases hc : c = f
  · subst hc
    rw [Function.update_self] at hf'
    cases hf'
    exact ⟨fb, hf, hs⟩
  · rw [Function.update_of_ne hc] at hf'
    exact ⟨fb', hf', rfl, rfl, rfl⟩

theorem Keeps.elsewhere {g : Option Fiber} (hc : c ≠ f)
    (he : s'.fibers = Function.update s.fibers f g) :
    Keeps c s s' := by
  intro fb' hf'
  rw [he, Function.update_of_ne hc] at hf'
  exact ⟨fb', hf', rfl, rfl, rfl⟩

namespace State

theorem fiber_ok (h : s.fiber f = .ok fb) : s.fibers f = some fb := by
  unfold fiber at h
  split at h
  · cases h
    assumption
  · cases h

theorem modifyFiber_keeps {g : Fiber → Fiber} (h : s.modifyFiber f g = .ok s')
    (hg : ∀ fb, SameStart fb (g fb)) :
    Keeps c s s' := by
  obtain ⟨fb, hf, h⟩ := ok_of_bind h
  cases h
  exact .update (fiber_ok hf) (hg fb) rfl

theorem setResult_fibers {r : Addr} {v : Long} (h : s.setResult r v = .ok s') :
    s'.fibers = s.fibers := by
  obtain ⟨q, -, h⟩ := ok_of_bind h
  cases h
  rfl

theorem enqueue_keeps (h : s.enqueue f = .ok s') : Keeps c s s' := by
  obtain ⟨s₁, h₁, h⟩ := ok_of_bind h
  have k₁ : Keeps c s s₁ := modifyFiber_keeps (s := { s with readyCount := s.readyCount + 1#32 }) h₁
      fun _ => ⟨rfl, rfl, rfl⟩
  simp only at h
  split at h
  · cases h
    exact k₁.trans (.of_eq rfl)
  · obtain ⟨s₂, h₂, h⟩ := ok_of_bind h
    cases h
    exact (k₁.trans (modifyFiber_keeps h₂ fun _ => ⟨rfl, rfl, rfl⟩)).trans (.of_eq rfl)

theorem dequeue_keeps (h : s.dequeue = .ok (f, s')) : Keeps c s s' := by
  unfold dequeue at h
  split at h
  · cases h
  · next head hh =>
    obtain ⟨fb, hf, h⟩ := ok_of_bind h
    obtain ⟨s₁, h₁, h⟩ := ok_of_bind h
    cases h
    refine Keeps.trans (.of_eq ?_) (modifyFiber_keeps h₁ fun _ => ⟨rfl, rfl, rfl⟩)
    split_ifs <;> rfl

theorem resume_keeps {call : Call} {frame : Addr} (h : s.resume f call frame = .ok s')
    (hc : c ≠ f) : Keeps c s s' := by
  obtain ⟨fb, -, h⟩ := ok_of_bind h
  split_ifs at h
  cases h
  exact .elsewhere hc rfl

theorem destroy_keeps {unmapped ok : Bool} (h : s.destroy f unmapped = .ok (ok, s')) :
    Keeps c s s' := by
  obtain ⟨fb, -, h⟩ := ok_of_bind h
  split_ifs at h
  · cases h
    intro fb' hf'
    by_cases hc : c = f
    · subst hc
      simp [record] at hf'
    · simp only [record, Function.update_of_ne hc] at hf'
      exact ⟨fb', hf', rfl, rfl, rfl⟩
  · cases h
    exact .of_eq rfl

theorem reclaim_keeps {unmapped : Bool} {site : Trap} (h : s.reclaim f unmapped site = .ok s') :
    Keeps c s s' := by
  obtain ⟨⟨ok, s₁⟩, h₁, h⟩ := ok_of_bind h
  have k₁ := destroy_keeps (c := c) h₁
  cases ok with
  | true =>
    cases h
    exact k₁
  | false => cases h

theorem park_keeps {request : Addr} {await : Sqe} (h : s.park turns f request await = .ok s') :
    Keeps c s s' := by
  unfold park at h
  split_ifs at h
  split at h
  · cases h
    exact .of_eq rfl
  · cases h
    exact .of_eq rfl

theorem parkFlushed_keeps {request : Addr} {result : Long}
    (h : s.parkFlushed turns f request result = .ok s') :
    Keeps c s s' := by
  unfold parkFlushed at h
  split_ifs at h
  obtain ⟨q, -, h⟩ := ok_of_bind h
  split at h
  · split at h
    · cases h
      exact .of_eq rfl
    · cases h
  · cases h

theorem serveExit_keeps (h : s.serveExit f t = .ok s') : Keeps c s s' := by
  obtain ⟨fb, -, h⟩ := ok_of_bind h
  split_ifs at h
  · exact reclaim_keeps h
  split at h
  · cases h
    exact .of_eq rfl
  · obtain ⟨s₁, h₁, h⟩ := ok_of_bind h
    obtain ⟨s₂, h₂, h⟩ := ok_of_bind h
    obtain ⟨q, -, h⟩ := ok_of_bind h
    have k₁ : Keeps c s s₁ := .of_eq ((setResult_fibers h₁).trans rfl)
    split at h
    · cases h
    · exact (k₁.trans (reclaim_keeps h₂)).trans (enqueue_keeps h)

/-- A spawn writes the record it creates and no other. -/
theorem serveSpawn_keeps {argument : SpawnRequest} (h : s.serveSpawn f argument t = .ok s') :
    Keeps c (s.spawn argument t.spawned) s' := by
  obtain ⟨s₁, h₁, h⟩ := ok_of_bind h
  obtain ⟨s₂, h₂, h⟩ := ok_of_bind h
  have k₁ : Keeps c (s.spawn argument t.spawned) s₁ := .of_eq (setResult_fibers h₁)
  have k₂ : Keeps c s₁ s₂ := enqueue_keeps (s := s₁.record (.spawn f t.spawned)) h₂
  split at h
  · cases h
    exact k₁.trans k₂
  · exact (k₁.trans k₂).trans (enqueue_keeps h)

theorem spawn_keeps {argument : SpawnRequest} {result : Option Addr} (hc : result ≠ some c) :
    Keeps c s (s.spawn argument result) := by
  cases result with
  | none => exact .of_eq rfl
  | some g => exact .elsewhere (fun h => hc (by rw [h])) rfl

theorem serveJoin_keeps {target : Addr} (h : s.serveJoin f target t = .ok s') : Keeps c s s' := by
  unfold serveJoin at h
  split_ifs at h
  obtain ⟨tb, -, h⟩ := ok_of_bind h
  split_ifs at h
  · obtain ⟨s₁, h₁, h⟩ := ok_of_bind h
    obtain ⟨s₂, h₂, h⟩ := ok_of_bind h
    have k₁ : Keeps c s s₁ := .of_eq (setResult_fibers h₁)
    exact (k₁.trans (reclaim_keeps h₂)).trans (enqueue_keeps h)
  · obtain ⟨s₁, h₁, h⟩ := ok_of_bind h
    cases h
    exact (modifyFiber_keeps h₁ fun _ => ⟨rfl, rfl, rfl⟩).trans (.of_eq rfl)

theorem serveDetach_keeps {target : Addr} (h : s.serveDetach f target t = .ok s') : Keeps c s s' := by
  obtain ⟨tb, -, h⟩ := ok_of_bind h
  split_ifs at h
  · obtain ⟨s₁, h₁, h⟩ := ok_of_bind h
    exact (reclaim_keeps h₁).trans (enqueue_keeps h)
  · obtain ⟨s₁, h₁, h⟩ := ok_of_bind h
    have k₁ : Keeps c s s₁ := modifyFiber_keeps h₁ fun _ => ⟨rfl, rfl, rfl⟩
    have k₂ := enqueue_keeps (c := c) h
    exact k₁.trans k₂

theorem serve_keeps (h : s.serve turns f t = .ok s') (hc : t.spawned ≠ some c) : Keeps c s s' := by
  obtain ⟨q, -, h⟩ := ok_of_bind h
  split at h
  · obtain ⟨s₁, h₁, rfl⟩ := ok_of_map h
    exact (enqueue_keeps h₁).trans (.of_eq rfl)
  · obtain ⟨s₁, h₁, rfl⟩ := ok_of_map h
    exact (serveExit_keeps h₁).trans (.of_eq rfl)
  · exact park_keeps h
  · obtain ⟨s₁, h₁, rfl⟩ := ok_of_map h
    exact ((spawn_keeps hc).trans (serveSpawn_keeps h₁)).trans (.of_eq rfl)
  · obtain ⟨s₁, h₁, rfl⟩ := ok_of_map h
    exact (serveJoin_keeps h₁).trans (.of_eq rfl)
  · obtain ⟨s₁, h₁, rfl⟩ := ok_of_map h
    exact (serveDetach_keeps h₁).trans (.of_eq rfl)
  · cases h
    exact .of_eq rfl

theorem dequeue_head (h : s.dequeue = .ok (f, s')) : s.readyHead = some f := by
  unfold dequeue at h
  split at h
  · cases h
  · next head hh =>
    obtain ⟨fb, -, h⟩ := ok_of_bind h
    obtain ⟨s₁, -, h⟩ := ok_of_bind h
    cases h
    exact hh

theorem dispatch_keeps (h : s.dispatch turns t = .ok s') (hf : s.readyHead ≠ some c)
    (hc : t.spawned ≠ some c) :
    Keeps c s s' := by
  obtain ⟨⟨f, s₁⟩, h₁, h⟩ := ok_of_bind h
  obtain ⟨s₂, h₂, h⟩ := ok_of_bind h
  have hne : c ≠ f := by
    rintro rfl
    exact hf (dequeue_head h₁)
  exact ((dequeue_keeps h₁).trans (resume_keeps h₂ hne)).trans (serve_keeps h hc)

theorem reapOne_keeps (h : s.reapOne = .ok s') : Keeps c s s' := by
  unfold reapOne at h
  split at h
  · cases h
    exact .of_eq rfl
  · split_ifs at h
    obtain ⟨s₁, h₁, h⟩ := ok_of_bind h
    obtain ⟨q, -, h⟩ := ok_of_bind h
    split at h
    · cases h
    · have k₁ : Keeps c s s₁ := .of_eq ((setResult_fibers h₁).trans rfl)
      have k₂ := enqueue_keeps (c := c) h
      exact k₁.trans k₂

theorem settle_keeps {r : Except Stop State} (h : ∀ s', r = .ok s' → Keeps c s s') :
    Keeps c s (s.settle r) := by
  cases r with
  | error stop => exact .of_eq rfl
  | ok s' => exact h s' rfl

end State

def Input.touches (s : State) : Input → Option Addr × Option Addr
  | .launch f _ => (some f, none)
  | .turn t => (s.readyHead, t.spawned)
  | _ => (none, none)

/-- A step changes how a record starts only by dispatching or creating it. -/
theorem step_keeps {i : Input} (h : step s i = some s') (h₁ : (i.touches s).1 ≠ some c)
    (h₂ : (i.touches s).2 ≠ some c) :
    Keeps c s s' := by
  cases i with
  | launch f spawn =>
    simp only [step] at h
    split_ifs at h
    cases h
    refine State.settle_keeps fun s' hs' => ?_
    have hk : Keeps c s (({ s with control := .idle }.spawn spawn (some f)).record (.launch f)) :=
      .elsewhere (f := f) (fun hc => h₁ (by rw [hc]; rfl)) rfl
    exact hk.trans (State.enqueue_keeps hs')
  | run =>
    simp only [step] at h
    split_ifs at h
    cases h
    exact .of_eq rfl
  | tick =>
    simp only [step] at h
    split at h
    · cases h
      refine .of_eq ?_
      unfold State.testLoop
      split_ifs <;> rfl
    · split_ifs at h
      cases h
      refine .of_eq ?_
      unfold State.boundary
      split_ifs <;> rfl
    · cases h
      exact State.settle_keeps fun s' hs' => State.reapOne_keeps hs'
    · cases h
  | turn t =>
    simp only [step] at h
    split at h
    · split_ifs at h
      cases h
      exact State.settle_keeps fun s' hs' => State.dispatch_keeps hs' h₁ h₂
    · cases h
  | enter result =>
    simp only [step] at h
    split at h
    · split at h
      · cases h
        exact .of_eq rfl
      · cases h
        refine State.settle_keeps fun s' hs' => ?_
        have hk := State.parkFlushed_keeps (c := c) hs'
        exact hk
    · split at h
      · cases h
        exact .of_eq rfl
      · cases h
        refine State.settle_keeps fun s' hs' => ?_
        split_ifs at hs'
        cases hs'
        exact .of_eq rfl
    · cases h
  | post number res flags =>
    simp only [step] at h
    split_ifs at h
    unfold State.complete at h
    split at h
    · cases h
    · cases h
      exact .of_eq rfl

/-! ### A turn that only puts its fiber back -/

def unlinked (fb : Fiber) : Fiber := { fb with readyNext := none }

/-- From `s` to `s'` nothing but the fiber `f` and the ready list has changed. -/
structure Apart (f : Addr) (s s' : State) : Prop where
  fibers : ∀ a, a ≠ f → (s'.fibers a).map unlinked = (s.fibers a).map unlinked
  ring : s'.ring = s.ring
  held : s'.held = s.held
  parkedCount : s'.parkedCount = s.parkedCount
  joiningCount : s'.joiningCount = s.joiningCount

theorem Apart.trans (h : Apart f s s') (h' : Apart f s' s'') : Apart f s s'' :=
  ⟨fun a ha => (h'.fibers a ha).trans (h.fibers a ha), h'.ring.trans h.ring, h'.held.trans h.held,
    h'.parkedCount.trans h.parkedCount, h'.joiningCount.trans h.joiningCount⟩

namespace State

theorem modifyFiber_apart {a : Addr} {g : Fiber → Fiber} (h : s.modifyFiber a g = .ok s')
    (hg : a = f ∨ ∀ fb, unlinked (g fb) = unlinked fb) : Apart f s s' := by
  obtain ⟨fb, hf, h⟩ := ok_of_bind h
  cases h
  refine ⟨fun x hx => ?_, rfl, rfl, rfl, rfl⟩
  by_cases hxa : x = a
  · subst hxa
    have hg' := hg.resolve_left hx fb
    simp [fiber_ok hf, hg']
  · simp [Function.update_of_ne hxa]

theorem dequeue_apart (h : s.dequeue = .ok (f, s')) : Apart f s s' := by
  unfold dequeue at h
  split at h
  · cases h
  · obtain ⟨fb, -, h⟩ := ok_of_bind h
    obtain ⟨s₁, h₁, h⟩ := ok_of_bind h
    cases h
    refine Apart.trans ⟨fun _ _ => ?_, ?_, ?_, ?_, ?_⟩
      (modifyFiber_apart h₁ (.inl rfl)) <;> split_ifs <;> rfl

theorem resume_apart {call : Call} {frame : Addr} (h : s.resume f call frame = .ok s') :
    Apart f s s' ∧ s'.requests frame = some { ask := call.ask, result := 0#64, fiber := some f } := by
  obtain ⟨fb, -, h⟩ := ok_of_bind h
  split_ifs at h
  cases h
  exact ⟨⟨fun a ha => by simp [record, Function.update_of_ne ha], rfl, rfl, rfl, rfl⟩,
    Function.update_self _ _ _⟩

theorem setResult_apart {r : Addr} {v : Long} (h : s.setResult r v = .ok s') : Apart f s s' := by
  obtain ⟨q, -, h⟩ := ok_of_bind h
  cases h
  exact ⟨fun _ _ => rfl, rfl, rfl, rfl, rfl⟩

theorem enqueue_apart (h : s.enqueue f = .ok s') : Apart f s s' := by
  obtain ⟨s₁, h₁, h⟩ := ok_of_bind h
  have a₁ : Apart f s s₁ := by
    refine Apart.trans ?_ (modifyFiber_apart h₁ (.inl rfl))
    exact ⟨fun _ _ => rfl, rfl, rfl, rfl, rfl⟩
  simp only at h
  split at h
  · cases h
    exact a₁.trans ⟨fun _ _ => rfl, rfl, rfl, rfl, rfl⟩
  · obtain ⟨s₂, h₂, h⟩ := ok_of_bind h
    cases h
    -- of the old tail only the link changes
    have a₂ := modifyFiber_apart (f := f) h₂ (.inr fun _ => rfl)
    exact (a₁.trans a₂).trans ⟨fun _ _ => rfl, rfl, rfl, rfl, rfl⟩

theorem serveSpawn_apart {argument : SpawnRequest} (h : s.serveSpawn f argument t = .ok s')
    (hs : t.spawned = none) :
    Apart f s s' := by
  simp only [serveSpawn, hs, spawn] at h
  obtain ⟨s₁, h₁, h⟩ := ok_of_bind h
  obtain ⟨s₂, h₂, h⟩ := ok_of_bind h
  cases h
  have a₂ : Apart f s₁ s' := by
    refine Apart.trans ?_ (enqueue_apart h₂)
    exact ⟨fun _ _ => rfl, rfl, rfl, rfl, rfl⟩
  exact (setResult_apart h₁).trans a₂

/-- A spawn that fails. -/
theorem dispatch_apart {request : SpawnRequest} (h : s.dispatch turns t = .ok s')
    (hc : t.call = .start request)
    (hs : t.spawned = none) : ∃ f, s.readyHead = some f ∧ Apart f s s' := by
  obtain ⟨⟨f, s₁⟩, h₁, h⟩ := ok_of_bind h
  obtain ⟨s₂, h₂, h⟩ := ok_of_bind h
  obtain ⟨a₂, hq⟩ := resume_apart h₂
  refine ⟨f, dequeue_head h₁, ((dequeue_apart h₁).trans a₂).trans ?_⟩
  simp only [serve, request_of_some hq, bind, Except.bind, hc, Call.ask] at h
  obtain ⟨s₃, h₃, rfl⟩ := ok_of_map h
  exact (serveSpawn_apart h₃ hs).trans ⟨fun _ _ => rfl, rfl, rfl, rfl, rfl⟩

/-- A spawn that succeeds: the record of the child as the request says. -/
theorem dispatch_child {request : SpawnRequest} (h : s.dispatch turns t = .ok s')
    (hc : t.call = .start request)
    (hs : t.spawned = some c) (hm : s'.fibers c = some fb) : SameStart (Fiber.spawned request) fb := by
  obtain ⟨⟨f, s₁⟩, -, h⟩ := ok_of_bind h
  obtain ⟨s₂, h₂, h⟩ := ok_of_bind h
  obtain ⟨-, hq⟩ := resume_apart h₂
  simp only [serve, request_of_some hq, bind, Except.bind, hc, Call.ask] at h
  obtain ⟨s₃, h₃, rfl⟩ := ok_of_map h
  obtain ⟨fb', hf', hstart⟩ := serveSpawn_keeps h₃ fb hm
  have hnew : (s₂.spawn request t.spawned).fibers c = some (Fiber.spawned request) := by
    rw [hs]
    exact Function.update_self _ _ _
  rw [hnew] at hf'
  cases hf'
  exact hstart

end State

end Libuc.Scheduler
