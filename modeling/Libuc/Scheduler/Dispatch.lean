import Libuc.Scheduler.Refinement

/-! One turn of the sweep. `Served` lists everything a turn can do, one case for
each way through the `switch`, with the events it logs or the trap it takes. -/

namespace Libuc.Scheduler

open Lib

/-- As `Does`, with control at `c`. -/
structure Ends (k : Kernel) (s : State) (b : Board) (es : List Event) (c : Control) (s' : State) :
    Prop where
  refines : Refines k s' (es.foldl Board.apply b)
  log : s'.log = s.log ++ es
  control : s'.control = c

/-- What the turn `x` of the fiber `f`, whose task is `t`, can come to. -/
inductive Served (k : Kernel) (s : State) (b : Board) (turns : U32) (f : Addr) (t : Task) (x : Turn) :
    Except Stop State → Prop
  | yield {s' : State} (call : x.call = .yield)
      (ends : Ends k s b [.resume f t.returned x.call, .enqueue f] (.sweep (turns - 1#32)) s') :
      Served k s b turns f t x (.ok s')
  | exitDetached {s' : State} {status : CInt} (call : x.call = .exit status) (hd : t.detached = true)
      (hu : x.unmapped = true)
      (ends : Ends k s b [.resume f t.returned x.call, .destroy f] (.sweep (turns - 1#32)) s') :
      Served k s b turns f t x (.ok s')
  | exitDetachedTrap {status : CInt} (call : x.call = .exit status) (hd : t.detached = true)
      (hu : x.unmapped = false) : Served k s b turns f t x (.error (.trap .exitDetached))
  | exitZombie {s' : State} {status : CInt} (call : x.call = .exit status) (hd : t.detached = false)
      (hj : t.joiner = none)
      (ends : Ends k s b [.resume f t.returned x.call] (.sweep (turns - 1#32)) s') :
      Served k s b turns f t x (.ok s')
  | exitJoined {s' : State} {status : CInt} {j : Addr} (call : x.call = .exit status)
      (hd : t.detached = false) (hj : t.joiner = some j) (hu : x.unmapped = true)
      (ends : Ends k s b [.resume f t.returned x.call, .destroy f, .enqueue j]
      (.sweep (turns - 1#32)) s') :
      Served k s b turns f t x (.ok s')
  | exitJoinedTrap {status : CInt} {j : Addr} (call : x.call = .exit status) (hd : t.detached = false)
      (hj : t.joiner = some j) (hu : x.unmapped = false) :
      Served k s b turns f t x (.error (.trap .exitJoined))
  | parkRefused {sqe : Sqe} (call : x.call = .await sqe)
      (h : sqe.flags ≠ 0#8 ∨ b.ops.length = s.ring.cqEntries.toNat) :
      Served k s b turns f t x (.error (.trap .parkRefused))
  | parkStaged {s' : State} {sqe : Sqe} (call : x.call = .await sqe) (flags : sqe.flags = 0#8)
      (room : b.ops.length < s.ring.cqEntries.toNat) (slot : b.staged.length < s.ring.sqEntries.toNat)
      (ends : Ends k s b [.resume f t.returned x.call, .stage f] (.sweep (turns - 1#32)) s') :
      Served k s b turns f t x (.ok s')
  | parkFlush {s' : State} {sqe : Sqe} (call : x.call = .await sqe) (flags : sqe.flags = 0#8)
      (room : b.ops.length < s.ring.cqEntries.toNat) (full : b.staged.length = s.ring.sqEntries.toNat)
      (frame : frames s'.fibers f = some x.frame) (ring : s'.ring = s.ring)
      (ends : Ends k s b [.resume f t.returned x.call] (.flush turns f x.frame) s') :
      Served k s b turns f t x (.ok s')
  | spawnFailed {s' : State} {argument : SpawnRequest} (call : x.call = .start argument)
      (hs : x.spawned = none)
      (ends : Ends k s b [.resume f t.returned x.call, .spawn f none, .enqueue f]
        (.sweep (turns - 1#32)) s') :
      Served k s b turns f t x (.ok s')
  | spawned {s' : State} {argument : SpawnRequest} {c : Addr} (call : x.call = .start argument)
      (hs : x.spawned = some c)
      (ends : Ends k s b [.resume f t.returned x.call, .spawn f (some c), .enqueue f, .enqueue c]
        (.sweep (turns - 1#32)) s') :
      Served k s b turns f t x (.ok s')
  | joinRefused {u : Addr} (call : x.call = .join u)
      (h : u = f ∨ ∃ tu, b.tasks u = some tu ∧ (tu.joiner ≠ none ∨ tu.detached = true)) :
      Served k s b turns f t x (.error (.trap .joinRefused))
  | joinFault {u : Addr} (call : x.call = .join u) (hne : u ≠ f) (hu : b.tasks u = none) :
      Served k s b turns f t x (.error .fault)
  | joinZombie {s' : State} {u : Addr} {tu : Task} (call : x.call = .join u) (hne : u ≠ f)
      (ht : b.tasks u = some tu) (hz : tu.zombie = true) (hu : x.unmapped = true)
      (ends : Ends k s b [.resume f t.returned x.call, .destroy u, .enqueue f]
      (.sweep (turns - 1#32)) s') :
      Served k s b turns f t x (.ok s')
  | joinZombieTrap {u : Addr} {tu : Task} (call : x.call = .join u) (hne : u ≠ f)
      (ht : b.tasks u = some tu) (hz : tu.zombie = true) (hu : x.unmapped = false) :
      Served k s b turns f t x (.error (.trap .joinReclaim))
  | joinBlocked {s' : State} {u : Addr} (call : x.call = .join u) (hne : u ≠ f) (hopen : b.Open u)
      (ends : Ends k s b [.resume f t.returned x.call, .block f u] (.sweep (turns - 1#32)) s') :
      Served k s b turns f t x (.ok s')
  | detachRefused {u : Addr} (call : x.call = .detach u)
      (h : ∃ tu, b.tasks u = some tu ∧ (tu.joiner ≠ none ∨ tu.detached = true)) :
      Served k s b turns f t x (.error (.trap .detachRefused))
  | detachFault {u : Addr} (call : x.call = .detach u) (hu : b.tasks u = none) :
      Served k s b turns f t x (.error .fault)
  | detachZombie {s' : State} {u : Addr} {tu : Task} (call : x.call = .detach u) (hne : u ≠ f)
      (ht : b.tasks u = some tu) (hz : tu.zombie = true) (hu : x.unmapped = true)
      (ends : Ends k s b [.resume f t.returned x.call, .destroy u, .enqueue f]
      (.sweep (turns - 1#32)) s') :
      Served k s b turns f t x (.ok s')
  | detachZombieTrap {u : Addr} {tu : Task} (call : x.call = .detach u) (hne : u ≠ f)
      (ht : b.tasks u = some tu) (hz : tu.zombie = true) (hu : x.unmapped = false) :
      Served k s b turns f t x (.error (.trap .detachReclaim))
  | detachOpen {s' : State} {u : Addr} (call : x.call = .detach u) (hopen : b.Open u)
      (ends : Ends k s b [.resume f t.returned x.call, .detach u, .enqueue f]
      (.sweep (turns - 1#32)) s') :
      Served k s b turns f t x (.ok s')
  | processExit {s' : State} {status : CInt} (call : x.call = .processExit status)
      (ends : Ends k s b [.resume f t.returned x.call] (.exited status) s') :
      Served k s b turns f t x (.ok s')

variable {k : Kernel} {s s' : State} {b : Board} {es : List Event} {turns : U32}
  {f u : Addr} {t tu : Task} {x : Turn}

theorem Does.ends (h : Does k s b es s') (c : Control) : Ends k s b es c { s' with control := c } :=
  ⟨h.refines.setControl c, h.log, rfl⟩

theorem State.reclaim_of_some {fb : Fiber} (hf : s.fibers f = some fb) (unmapped : Bool) (site : Trap) :
    s.reclaim f unmapped site = if unmapped then .ok ({ s with
        fibers := Function.update s.fibers f none
        requests := dropFrame s.requests fb.frame }.record (.destroy f))
      else .error (.trap site) := by
  simp only [State.reclaim, State.destroy, State.fiber_of_some hf, bind, Except.bind]
  cases unmapped <;> rfl

namespace Refines

/-! ### Exit -/

theorem life_eq_detached (h : Refines k s b) {fb : Fiber} (hf : s.fibers f = some fb)
    (ht : b.tasks f = some t) : fb.life = .detached ↔ t.detached = true := by
  rw [h.memory.life f fb t hf ht, Task.life]
  split_ifs <;> simp_all

theorem life_eq_exited (h : Refines k s b) {fb : Fiber} (hf : s.fibers f = some fb)
    (ht : b.tasks f = some t) (hd : t.detached = false) : fb.life = .exited ↔ t.exit ≠ none := by
  rw [h.memory.life f fb t hf ht, Task.life]
  split_ifs <;> simp_all

theorem joiner_eq_none (h : Refines k s b) {fb : Fiber} (hf : s.fibers f = some fb)
    (ht : b.tasks f = some t) : fb.joiner = none ↔ t.joiner = none := by
  cases hj : t.joiner with
  | none => simp [h.memory.unjoined f fb t hf ht hj]
  | some j =>
    obtain ⟨r, q, hr, -, -⟩ := h.memory.joined f fb t j hf ht hj
    simp [hr]

theorem serveExit_detached (h : Refines k s b) (hh : b.hand = [f]) (ht : b.tasks f = some t)
    (hx : t.exit ≠ none) (hd : t.detached = true) :
    (x.unmapped = false → s.serveExit f x = .error (.trap .exitDetached)) ∧
    (x.unmapped = true → ∃ s', s.serveExit f x = .ok s' ∧ Does k s b [.destroy f] s') := by
  obtain ⟨fb, hf⟩ := h.memory.exists_fiber ht
  have hj : t.joiner = none := by
    by_contra hj
    obtain ⟨j, hj⟩ := Option.ne_none_iff_exists'.mp hj
    rw [(h.inv.joiner f t j ht hj).2.2] at hd
    cases hd
  have hheir : b.heir f t = none := by simp [Board.heir, hj, hh]
  have hserve : s.serveExit f x = s.reclaim f x.unmapped .exitDetached := by
    simp only [State.serveExit, State.fiber_of_some hf, bind, Except.bind,
      (h.life_eq_detached hf ht).mpr hd, ↓reduceIte]
  rw [hserve, State.reclaim_of_some hf]
  refine ⟨fun hu => by simp [hu], fun hu => ?_⟩
  rw [if_pos hu]
  have hdoes := h.destroy hf ht hx (.detached hh hd hj) (R := s.requests) (by simp [Settled, hheir])
  rw [if_pos hj] at hdoes
  exact ⟨_, rfl, hdoes⟩

theorem serveExit_zombie (h : Refines k s b) (ht : b.tasks f = some t) (hd : t.detached = false)
    (hj : t.joiner = none) : s.serveExit f x = .ok s := by
  obtain ⟨fb, hf⟩ := h.memory.exists_fiber ht
  have hlife : fb.life ≠ .detached := by rw [Ne, h.life_eq_detached hf ht, hd]; simp
  simp only [State.serveExit, State.fiber_of_some hf, bind, Except.bind, hlife, ↓reduceIte,
    (h.joiner_eq_none hf ht).mpr hj]
  rfl

theorem destroy_heir {j : Addr} {tj : Task} (ht : b.tasks f = some t) (hheir : b.heir f t = some j)
    (hne : j ≠ f) (hj : b.tasks j = some tj) :
    (b.apply (.destroy f)).hand = [j] ∧
      (b.apply (.destroy f)).tasks j = some { tj with answer := some (b.bequest j t) } := by
  simp only [Board.apply, ht, hheir]
  refine ⟨trivial, ?_⟩
  rw [Function.update_of_ne hne, Board.setAnswer_self hj]

theorem serveExit_joined (h : Refines k s b) {j : Addr} (hh : b.hand = [f]) (ht : b.tasks f = some t)
    {status : CInt} (hx : t.exit = some status) (hd : t.detached = false) (hj : t.joiner = some j) :
    (x.unmapped = false → s.serveExit f x = .error (.trap .exitJoined)) ∧
    (x.unmapped = true → ∃ s', s.serveExit f x = .ok s' ∧ Does k s b [.destroy f, .enqueue j] s') := by
  obtain ⟨fb, hf⟩ := h.memory.exists_fiber ht
  have hlife : fb.life ≠ .detached := by rw [Ne, h.life_eq_detached hf ht, hd]; simp
  obtain ⟨r, q, hr, hq, hqf⟩ := h.memory.joined f fb t j hf ht hj
  obtain ⟨a, fj, ha, hfj, hframe⟩ := h.memory.owner r q hq
  rw [hqf] at ha
  cases ha
  obtain ⟨ask, result, woken⟩ := q
  cases hqf
  obtain ⟨⟨tj, htj, hcall, hans⟩, hjp, -⟩ := h.inv.joiner f t j ht hj
  have hjf : j ≠ f := by
    rintro rfl
    exact hjp (by simp [Board.placed, hh])
  have hheir : b.heir f t = some j := by simp [Board.heir, hj]
  have hbequest : b.bequest j t = toLong status := by simp [Board.bequest, htj, hcall, hx]
  have hstatus : fb.status = status := h.memory.status f fb t status hf ht hx
  obtain ⟨q', hq', -, -, hmem⟩ :=
    h.answer htj (by simp [frames, hfj, hframe] : frames s.fibers j = some r)
  rw [hq] at hq'
  cases hq'
  -- the joiner's request is on another frame than the one that goes
  have hkept :
      dropFrame (Function.update s.requests r (some ⟨ask, toLong fb.status, some j⟩)) fb.frame r =
      some ⟨ask, toLong fb.status, some j⟩ := by
    rw [Memory.dropFrame_eq_some]
    refine ⟨Function.update_self _ _ _, fun hfr => hjf ?_⟩
    exact h.memory.frame_unique hfj hf hframe hfr
  have hdoes := h.destroy hf ht (by simp [hx]) (.joined j hh hd hj) (R := Function.update s.requests r
    (some ⟨ask, toLong fb.status, some j⟩)) (by
      simp only [Settled, hheir, hbequest, hstatus]
      exact hmem _)
  rw [if_neg (by simp [hj])] at hdoes
  obtain ⟨hhand, htask⟩ := destroy_heir ht hheir hjf htj
  obtain ⟨s', hs', hdoes'⟩ := hdoes.refines.enqueue hhand (by
    intro t' ht'
    rw [List.foldl_cons, List.foldl_nil, htask] at ht'
    cases ht'
    simp)
  have hserve : s.serveExit f x =
      ({ s with
        joiningCount := s.joiningCount - 1#32
        requests := Function.update s.requests r (some ⟨ask, toLong fb.status, some j⟩) }.reclaim f
          x.unmapped .exitJoined).bind fun s => (s.request r).bind fun q =>
            q.fiber.elim (.error .fault) s.enqueue := by
    simp only [State.serveExit, State.fiber_of_some hf, bind]
    show (if fb.life = .detached then _ else _) = _
    rw [if_neg hlife]
    simp only [hr]
    rw [State.setResult_of_some (s := { s with joiningCount := s.joiningCount - 1#32 }) hq]
    show Except.bind (State.reclaim _ f x.unmapped .exitJoined) _ = _
    refine congrArg (Except.bind _) (funext fun s => congrArg (Except.bind _) (funext fun q => ?_))
    cases q.fiber <;> rfl
  rw [hserve, State.reclaim_of_some (s := { s with
    joiningCount := s.joiningCount - 1#32
    requests := Function.update s.requests r (some ⟨ask, toLong fb.status, some j⟩) }) hf]
  refine ⟨fun hu => by rw [if_neg (by simp [hu])]; rfl, fun hu => ⟨s', ?_, hdoes.trans hdoes'⟩⟩
  have hreq := State.request_of_some (s := { s with
    joiningCount := s.joiningCount - 1#32
    fibers := Function.update s.fibers f none
    requests := dropFrame (Function.update s.requests r (some ⟨ask, toLong fb.status, some j⟩))
      fb.frame }.record (.destroy f)) hkept
  rw [if_pos hu]
  show Except.bind (State.request _ r) _ = _
  rw [hreq]
  exact hs'

/-! ### Spawn -/

theorem serveSpawn (h : Refines k s b) {argument : SpawnRequest} (hh : b.hand = [f])
    (hask : b.Asks f (.start argument)) (hr : frames s.fibers f = some x.frame)
    (hfresh : ∀ c, x.spawned = some c → Fresh k s c) :
    ∃ s', s.serveSpawn f argument x = .ok s' ∧
      Does k s b (.spawn f x.spawned :: .enqueue f :: x.spawned.toList.map .enqueue) s' := by
  obtain ⟨t, ht, -, -⟩ := id hask
  obtain ⟨s₁, hs₁, hd₁⟩ := h.spawn hh hask hr hfresh
  cases hx : x.spawned with
  | none =>
    rw [hx] at hs₁ hd₁
    obtain ⟨s₂, hs₂, hd₂⟩ := hd₁.refines.enqueue (f := f) (l := []) hh (by
      intro t' ht'
      have := (Board.setAnswer_self ht 0#64).symm.trans ht'
      cases this
      simp)
    refine ⟨s₂, ?_, hd₁.trans hd₂⟩
    simp only [State.serveSpawn, hx, hs₁, bind, Except.bind, hs₂]
    rfl
  | some c =>
    rw [hx] at hs₁ hd₁
    have hcf : c ≠ f := by
      rintro rfl
      rw [h.fresh_task (hfresh c hx)] at ht
      cases ht
    obtain ⟨s₂, hs₂, hd₂⟩ := hd₁.refines.enqueue (f := f) (l := [c]) rfl (by
      intro t' ht'
      have := (Board.setAnswer_self ht c).symm.trans
          ((Function.update_of_ne hcf.symm _ _).symm.trans ht')
      cases this
      simp)
    obtain ⟨s₃, hs₃, hd₃⟩ := hd₂.refines.enqueue (f := c) (l := []) rfl (by
      intro t' ht'
      have := (Function.update_self _ _ _).symm.trans ht'
      cases this
      simp [Task.new])
    refine ⟨s₃, ?_, hd₁.trans (hd₂.trans hd₃)⟩
    simp only [State.serveSpawn, hx, hs₁, bind, Except.bind, hs₂]
    exact hs₃

/-! ### Join -/

theorem enqueue_heir {j : Addr} {tj : Task} (hd : Does k s b [.destroy u] s')
    (ht : b.tasks u = some tu) (hheir : b.heir u tu = some j) (hne : j ≠ u) (hj : b.tasks j = some tj) :
    ∃ s'', s'.enqueue j = .ok s'' ∧ Does k s b [.destroy u, .enqueue j] s'' := by
  obtain ⟨hhand, htask⟩ := destroy_heir ht hheir hne hj
  obtain ⟨s'', hs, hdoes⟩ := hd.refines.enqueue hhand (by
    intro t' ht'
    rw [List.foldl_cons, List.foldl_nil, htask] at ht'
    cases ht'
    simp)
  exact ⟨s'', hs, hd.trans hdoes⟩

/-- The three tests of the `JOIN` arm that look at the target. -/
theorem join_tests (h : Refines k s b) {fu : Fiber} (hu : s.fibers u = some fu)
    (ht : b.tasks u = some tu) :
    (fu.joiner ≠ none ∨ fu.life = .detached) ↔ (tu.joiner ≠ none ∨ tu.detached = true) := by
  rw [Ne, h.joiner_eq_none hu ht, h.life_eq_detached hu ht]

theorem serveJoin_refused (h : Refines k s b)
    (hu : u = f ∨ ∃ tu, b.tasks u = some tu ∧ (tu.joiner ≠ none ∨ tu.detached = true)) :
    s.serveJoin f u x = .error (.trap .joinRefused) := by
  by_cases huf : u = f
  · simp only [State.serveJoin, huf, ↓reduceIte]
  · obtain ⟨tu, ht, htest⟩ := hu.resolve_left huf
    obtain ⟨fu, hfu⟩ := h.memory.exists_fiber ht
    simp only [State.serveJoin, huf, ↓reduceIte, State.fiber_of_some hfu, bind, Except.bind,
      (h.join_tests hfu ht).mpr htest]

theorem serveJoin_fault (h : Refines k s b) (hne : u ≠ f) (hu : b.tasks u = none) :
    s.serveJoin f u x = .error .fault := by
  have hfu : s.fibers u = none := (h.memory.mapped u).mpr hu
  simp only [State.serveJoin, hne, ↓reduceIte, State.fiber, hfu, bind, Except.bind]

theorem serveJoin_zombie (h : Refines k s b) (hh : b.hand = [f])
    (hask : b.Asks f (.join u)) (hne : u ≠ f)
    (hr : frames s.fibers f = some x.frame) (ht : b.tasks u = some tu) (hz : tu.zombie = true) :
    (x.unmapped = false → s.serveJoin f u x = .error (.trap .joinReclaim)) ∧
    (x.unmapped = true → ∃ s', s.serveJoin f u x = .ok s' ∧
      Does k s b [.destroy u, .enqueue f] s') := by
  obtain ⟨hx, hd, hj⟩ := Task.zombie_iff.mp hz
  obtain ⟨status, hstatus⟩ := Option.ne_none_iff_exists'.mp hx
  obtain ⟨fu, hfu⟩ := h.memory.exists_fiber ht
  obtain ⟨t, htf, hcall, hans⟩ := id hask
  obtain ⟨q, hq, -, -, hmem⟩ := h.answer htf hr
  have hheir : b.heir u tu = some f := by simp [Board.heir, hj, hh, Ne.symm hne]
  have hbequest : b.bequest f tu = toLong status := by simp [Board.bequest, htf, hcall, hstatus]
  have hst : fu.status = status := h.memory.status u fu tu status hfu ht hstatus
  have htest : ¬ (fu.joiner ≠ none ∨ fu.life = .detached) := by
    rw [h.join_tests hfu ht]
    simp [hj, hd]
  have hserve : s.serveJoin f u x =
      ({ s with requests := Function.update s.requests x.frame (some { q with result := toLong fu.status }) }.reclaim
        u x.unmapped .joinReclaim).bind fun s => s.enqueue f := by
    simp only [State.serveJoin, hne, ↓reduceIte, State.fiber_of_some hfu, bind, Except.bind]
    rw [if_neg htest, if_pos ((h.life_eq_exited hfu ht hd).mpr hx), State.setResult_of_some hq]
  have hdoes := h.destroy hfu ht hx (.asked f hh hne.symm hd hj (.inl hask))
    (R := Function.update s.requests x.frame (some { q with result := toLong fu.status })) (by
      simp only [Settled, hheir, hbequest, hst]
      exact hmem _)
  rw [if_pos hj] at hdoes
  obtain ⟨s', hs', hdoes'⟩ := enqueue_heir hdoes ht hheir hne.symm htf
  rw [hserve, State.reclaim_of_some (s := { s with
    requests := Function.update s.requests x.frame (some { q with result := toLong fu.status }) }) hfu]
  refine ⟨fun hu => by rw [if_neg (by simp [hu])]; rfl, fun hu => ⟨s', ?_, hdoes'⟩⟩
  rw [if_pos hu]
  exact hs'

theorem serveJoin_open (h : Refines k s b) (hh : b.hand = [f]) (hask : b.Asks f (.join u)) (hne : u ≠ f)
    (hr : frames s.fibers f = some x.frame) (hopen : b.Open u) :
    ∃ s', s.serveJoin f u x = .ok s' ∧ Does k s b [.block f u] s' := by
  obtain ⟨tu, ht, hx, hd, hj⟩ := id hopen
  obtain ⟨fu, hfu⟩ := h.memory.exists_fiber ht
  have htest : ¬ (fu.joiner ≠ none ∨ fu.life = .detached) := by
    rw [h.join_tests hfu ht]
    simp [hj, hd]
  have hlife : fu.life ≠ .exited := by
    rw [Ne, h.life_eq_exited hfu ht hd]
    simp [hx]
  refine ⟨_, ?_, h.block hh hne.symm hask hopen hr hfu⟩
  simp only [State.serveJoin, hne, ↓reduceIte, State.fiber_of_some hfu, bind, Except.bind, htest, hlife,
    State.modifyFiber_of_some hfu]
  rfl

/-! ### Detach -/

theorem serveDetach_refused (h : Refines k s b) (ht : b.tasks u = some tu)
    (htest : tu.joiner ≠ none ∨ tu.detached = true) :
    s.serveDetach f u x = .error (.trap .detachRefused) := by
  obtain ⟨fu, hfu⟩ := h.memory.exists_fiber ht
  simp only [State.serveDetach, ↓reduceIte, State.fiber_of_some hfu, bind, Except.bind,
    (h.join_tests hfu ht).mpr htest]

theorem serveDetach_fault (h : Refines k s b) (hu : b.tasks u = none) :
    s.serveDetach f u x = .error .fault := by
  have hfu : s.fibers u = none := (h.memory.mapped u).mpr hu
  simp only [State.serveDetach, State.fiber, hfu, bind, Except.bind]

theorem serveDetach_zombie (h : Refines k s b) (hh : b.hand = [f])
    (hask : b.Asks f (.detach u)) (hne : u ≠ f)
    (hr : frames s.fibers f = some x.frame) (ht : b.tasks u = some tu) (hz : tu.zombie = true) :
    (x.unmapped = false → s.serveDetach f u x = .error (.trap .detachReclaim)) ∧
    (x.unmapped = true → ∃ s', s.serveDetach f u x = .ok s' ∧
      Does k s b [.destroy u, .enqueue f] s') := by
  obtain ⟨hx, hd, hj⟩ := Task.zombie_iff.mp hz
  obtain ⟨fu, hfu⟩ := h.memory.exists_fiber ht
  obtain ⟨t, htf, hcall, hans⟩ := id hask
  obtain ⟨q, hq, -, hres, hmem⟩ := h.answer htf hr
  have hheir : b.heir u tu = some f := by simp [Board.heir, hj, hh, Ne.symm hne]
  have hbequest : b.bequest f tu = 0#64 := by simp [Board.bequest, htf, hcall]
  have htest : ¬ (fu.joiner ≠ none ∨ fu.life = .detached) := by
    rw [h.join_tests hfu ht]
    simp [hj, hd]
  -- the detaching fiber's request still holds the zero it was made with
  have hsame : Function.update s.requests x.frame (some { q with result := 0#64 }) = s.requests := by
    have hzero : ({ q with result := 0#64 } : Request) = q := by
      rw [hans] at hres
      rw [← show q.result = 0#64 from hres]
    rw [hzero, ← hq, Function.update_eq_self]
  have hserve : s.serveDetach f u x =
      (s.reclaim u x.unmapped .detachReclaim).bind fun s => s.enqueue f := by
    simp only [State.serveDetach, State.fiber_of_some hfu, bind, Except.bind]
    rw [if_neg htest, if_pos ((h.life_eq_exited hfu ht hd).mpr hx)]
  have hdoes := h.destroy hfu ht hx (.asked f hh hne.symm hd hj (.inr hask)) (R := s.requests) (by
      have hm := hmem 0#64
      rw [hsame] at hm
      simp only [Settled, hheir, hbequest]
      exact hm)
  rw [if_pos hj] at hdoes
  obtain ⟨s', hs', hdoes'⟩ := enqueue_heir hdoes ht hheir hne.symm htf
  rw [hserve, State.reclaim_of_some hfu]
  refine ⟨fun hu => by rw [if_neg (by simp [hu])]; rfl, fun hu => ⟨s', ?_, hdoes'⟩⟩
  rw [if_pos hu]
  exact hs'

theorem serveDetach_open (h : Refines k s b) (hh : b.hand = [f]) (hask : b.Asks f (.detach u))
    (hopen : b.Open u) :
    ∃ s', s.serveDetach f u x = .ok s' ∧ Does k s b [.detach u, .enqueue f] s' := by
  obtain ⟨tu, ht, hx, hd, hj⟩ := id hopen
  obtain ⟨fu, hfu⟩ := h.memory.exists_fiber ht
  have htest : ¬ (fu.joiner ≠ none ∨ fu.life = .detached) := by
    rw [h.join_tests hfu ht]
    simp [hj, hd]
  have hlife : fu.life ≠ .exited := by
    rw [Ne, h.life_eq_exited hfu ht hd]
    simp [hx]
  have hdoes := h.detach hh hask hopen hfu
  have happly : b.apply (.detach u) =
      (b.modify u fun v => { v with detached := true }).setAnswer f 0#64 := by
    have hhand : (b.modify u fun v => { v with detached := true }).hand = [f] := hh
    simp only [Board.apply, hhand]
  obtain ⟨s', hs', hdoes'⟩ := hdoes.refines.enqueue (f := f) (l := []) (by
    rw [List.foldl_cons, List.foldl_nil, happly]
    exact hh) (by
    intro t' ht'
    rw [List.foldl_cons, List.foldl_nil, happly, Board.setAnswer, Board.modify_self,
      Option.map_eq_some_iff] at ht'
    obtain ⟨t'', -, rfl⟩ := ht'
    simp)
  refine ⟨s', ?_, hdoes.trans hdoes'⟩
  simp only [State.serveDetach, ↓reduceIte, State.fiber_of_some hfu, bind, Except.bind, htest, hlife,
    State.modifyFiber_of_some hfu]
  exact hs'

/-! ### Await -/

theorem parkedCount_eq (h : Refines k s b) :
    s.parkedCount = s.ring.cqEntries ↔ b.ops.length = s.ring.cqEntries.toNat := by
  rw [← h.flight.parked]
  exact ⟨congrArg _, BitVec.eq_of_toNat_eq⟩

theorem batch_eq (h : Refines k s b) : b.staged.length = s.ring.batchCount.toNat := by
  rw [← h.flight.staged.length_eq, Ring.staged_length]

theorem appendSqe_eq_none (h : Refines k s b) :
    s.ring.appendSqe = none ↔ b.staged.length = s.ring.sqEntries.toNat := by
  rw [Ring.appendSqe_eq_none, h.batch_eq]
  exact ⟨congrArg _, BitVec.eq_of_toNat_eq⟩

theorem park (h : Refines k s b) {sqe : Sqe} (turns : U32) (hh : b.hand = [f])
    (hask : b.Asks f (.await sqe)) (hr : frames s.fibers f = some x.frame) :
    (sqe.flags ≠ 0#8 ∨ b.ops.length = s.ring.cqEntries.toNat →
      s.park turns f x.frame sqe = .error (.trap .parkRefused)) ∧
    (sqe.flags = 0#8 → b.ops.length ≠ s.ring.cqEntries.toNat →
      b.staged.length ≠ s.ring.sqEntries.toNat →
      ∃ s', s.park turns f x.frame sqe = .ok { s' with control := .sweep (turns - 1#32) } ∧
        Does k s b [.stage f] s') ∧
    (sqe.flags = 0#8 → b.ops.length ≠ s.ring.cqEntries.toNat →
      b.staged.length = s.ring.sqEntries.toNat →
      s.park turns f x.frame sqe = .ok { s with control := .flush turns f x.frame }) := by
  simp only [ne_eq, ← h.parkedCount_eq, ← h.appendSqe_eq_none]
  refine ⟨fun hc => if_pos hc, fun hflags hroom hslot => ?_, fun hflags hroom hslot => ?_⟩
  · obtain ⟨⟨slot, ring⟩, ha⟩ := Option.ne_none_iff_exists'.mp hslot
    refine ⟨_, ?_, h.stage hh hask hr hroom ha⟩
    simp only [State.park, hflags, hroom, ha, ne_eq, not_true_eq_false, or_self, ↓reduceIte]
  · simp only [State.park, hflags, hroom, hslot, ne_eq, not_true_eq_false, or_self, ↓reduceIte]

/-! ### The whole turn -/

theorem fresh_congr (h : Refines k s b) {s₂ : State} {b₂ : Board} (h₂ : Refines k s₂ b₂)
    (hb : ∀ a, b₂.tasks a = none ↔ b.tasks a = none) {c : Addr} (hc : Fresh k s c) : Fresh k s₂ c := by
  have hF : ∀ a, s₂.fibers a = none ↔ s.fibers a = none := fun a => by
    rw [h₂.memory.mapped, h.memory.mapped, hb]
  have hmapped : s₂.mapped = s.mapped := by
    ext a
    simp only [State.mapped, Set.mem_ofPred_eq, Option.isSome_iff_ne_none, ne_eq, hF a]
  exact ⟨hc.1, (hF c).mpr hc.2.1, hmapped ▸ hc.2.2⟩

end Refines

/-- The state between the switch back from the fiber and the `switch` over its
request. -/
structure Resumed (k : Kernel) (s : State) (b : Board) (f : Addr) (t : Task) (x : Turn) (s₂ : State) :
    Prop where
  refines : Refines k s b
  task : b.tasks f = some t
  exit : t.exit = none
  does : Does k s b [.resume f t.returned x.call] s₂
  frame : frames s₂.fibers f = some x.frame
  ring : s₂.ring = s.ring
  allowed : Allowed k s (.turn x)

namespace Resumed

variable {s₂ : State} {status : CInt}

theorem self (h : Resumed k s b f t x s₂) :
    (b.apply (.resume f t.returned x.call)).tasks f = some (t.suspend x.call) := by
  simp only [Board.apply, h.task, Function.update_self]

theorem other (h : Resumed k s b f t x s₂) {a : Addr} (ha : a ≠ f) :
    (b.apply (.resume f t.returned x.call)).tasks a = b.tasks a := by
  simp only [Board.apply, h.task, Function.update_of_ne ha]

theorem mapped (h : Resumed k s b f t x s₂) (a : Addr) :
    (b.apply (.resume f t.returned x.call)).tasks a = none ↔ b.tasks a = none := by
  by_cases ha : a = f
  · subst ha
    simp [h.self, h.task]
  · rw [h.other ha]

theorem hand (h : Resumed k s b f t x s₂) (hz : (t.suspend x.call).zombie = false) :
    (b.apply (.resume f t.returned x.call)).hand = [f] := by
  simp [Board.apply, h.task, hz]

theorem hand_of_call (h : Resumed k s b f t x s₂) (hc : ∀ status, x.call ≠ .exit status) :
    (b.apply (.resume f t.returned x.call)).hand = [f] := by
  refine h.hand ?_
  rw [Bool.eq_false_iff, Ne, Task.zombie_iff]
  exact fun hx => hx.1 (Task.exit_eq_none_of_call rfl hc)

theorem ops (h : Resumed k s b f t x s₂) :
    (b.apply (.resume f t.returned x.call)).ops = b.ops ∧
      (b.apply (.resume f t.returned x.call)).staged = b.staged := by
  simp only [Board.apply, h.task, Board.ops, and_self]

/-- The claims on a fiber are not changed by its own turn. -/
theorem claims (h : Resumed k s b f t x s₂) (hc : ∀ status, x.call ≠ .exit status)
    (hu : b.tasks u = some tu) :
    ∃ tu', (b.apply (.resume f t.returned x.call)).tasks u = some tu' ∧ tu'.joiner = tu.joiner ∧
      tu'.detached = tu.detached ∧ tu'.exit = tu.exit := by
  by_cases huf : u = f
  · subst huf
    rw [h.task] at hu
    cases hu
    exact ⟨_, h.self, rfl, rfl, (Task.exit_eq_none_of_call rfl hc).trans h.exit.symm⟩
  · exact ⟨tu, (h.other huf).trans hu, rfl, rfl, rfl⟩

theorem asks (h : Resumed k s b f t x s₂) {call : Call} (hc : x.call = call) (hne : call ≠ .yield) :
    (b.apply (.resume f t.returned x.call)).Asks f call := by
  refine ⟨_, h.self, congrArg some hc, ?_⟩
  unfold Task.suspend
  rw [hc]
  cases call with
  | yield => exact absurd rfl hne
  | _ => rfl

theorem request (h : Resumed k s b f t x s₂) :
    ∃ q, s₂.requests x.frame = some q ∧ q.ask = x.call.ask := by
  obtain ⟨ff, hff⟩ := h.does.refines.memory.exists_fiber h.self
  obtain ⟨r, hr, hq⟩ := h.does.refines.memory.request f ff _ x.call hff h.self rfl
  have hfr := h.frame
  simp only [frames, hff, Option.bind_some] at hfr
  rw [hr] at hfr
  cases hfr
  exact ⟨_, hq, rfl⟩

theorem yield (h : Resumed k s b f t x s₂) (hc : x.call = .yield) :
    Served k s b turns f t x (s₂.serve turns f x) := by
  obtain ⟨q, hq, hask⟩ := h.request
  obtain ⟨s', hs', hd'⟩ := h.does.refines.enqueue (h.hand_of_call (by simp [hc])) (by
    intro t' ht'
    have := h.self.symm.trans ht'
    cases this
    simp [Task.suspend, hc])
  simp only [State.serve, State.request_of_some hq, bind, Except.bind, hask, hc, Call.ask, hs',
    Functor.map, Except.map]
  exact .yield hc ((h.does.trans hd').ends _)

theorem exits (h : Resumed k s b f t x s₂) (hc : x.call = .exit status) :
    Served k s b turns f t x (s₂.serve turns f x) := by
  obtain ⟨q, hq, hask⟩ := h.request
  have hx : (t.suspend x.call).exit = some status := by simp [Task.suspend, Task.exit, hc]
  simp only [State.serve, State.request_of_some hq, bind, Except.bind, hask, hc, Call.ask]
  cases hd : t.detached with
  | true =>
    have hz : (t.suspend x.call).zombie = false := by simp [Task.zombie, Task.suspend, hd]
    obtain ⟨htrap, hok⟩ :=
      h.does.refines.serveExit_detached (x := x) (h.hand hz) h.self (by simp [hx]) hd
    cases hu : x.unmapped with
    | false =>
      rw [htrap hu]
      exact .exitDetachedTrap hc hd hu
    | true =>
      obtain ⟨s', hs', hd'⟩ := hok hu
      rw [hs']
      exact .exitDetached hc hd hu ((h.does.trans hd').ends _)
  | false =>
    cases hj : t.joiner with
    | none =>
      rw [h.does.refines.serveExit_zombie (x := x) h.self hd hj]
      exact .exitZombie hc hd hj (h.does.ends _)
    | some j =>
      have hz : (t.suspend x.call).zombie = false := by simp [Task.zombie, Task.suspend, hj]
      obtain ⟨htrap, hok⟩ := h.does.refines.serveExit_joined (x := x) (h.hand hz) h.self hx hd hj
      cases hu : x.unmapped with
      | false =>
        rw [htrap hu]
        exact .exitJoinedTrap hc hd hj hu
      | true =>
        obtain ⟨s', hs', hd'⟩ := hok hu
        rw [hs']
        exact .exitJoined hc hd hj hu ((h.does.trans hd').ends _)

theorem awaits (h : Resumed k s b f t x s₂) {sqe : Sqe} (hc : x.call = .await sqe) :
    Served k s b turns f t x (s₂.serve turns f x) := by
  obtain ⟨q, hq, hask⟩ := h.request
  have hcap := h.refines.flight.capacity
  have hfits := h.refines.flight.fits
  obtain ⟨hrefuse, hstage, hflush⟩ := h.does.refines.park (x := x) turns
    (h.hand_of_call (by simp [hc])) (h.asks hc nofun) h.frame
  have hcq : s₂.ring.cqEntries = s.ring.cqEntries := by rw [h.ring]
  have hsq : s₂.ring.sqEntries = s.ring.sqEntries := by rw [h.ring]
  simp only [State.serve, State.request_of_some hq, bind, Except.bind, hask, hc, Call.ask]
  have hops : ∀ n, (List.foldl Board.apply b [.resume f t.returned x.call]).ops.length = n ↔
      b.ops.length = n := fun n => by rw [List.foldl_cons, List.foldl_nil, h.ops.1]
  have hstaged : ∀ n, (List.foldl Board.apply b [.resume f t.returned x.call]).staged.length = n ↔
      b.staged.length = n := fun n => by rw [List.foldl_cons, List.foldl_nil, h.ops.2]
  simp only [ne_eq, hops, hstaged, hcq, hsq] at hrefuse hstage hflush
  by_cases hflags : sqe.flags = 0#8
  · by_cases hroom : b.ops.length = s.ring.cqEntries.toNat
    · rw [hrefuse (.inr hroom)]
      exact .parkRefused hc (.inr hroom)
    · by_cases hslot : b.staged.length = s.ring.sqEntries.toNat
      · rw [hflush hflags hroom hslot]
        exact .parkFlush hc hflags (by omega) hslot h.frame h.ring (h.does.ends _)
      · obtain ⟨s', hs', hd'⟩ := hstage hflags hroom hslot
        rw [hs']
        have hle : b.staged.length ≤ s.ring.sqEntries.toNat := by
          rw [h.refines.batch_eq]
          exact hfits
        exact .parkStaged hc hflags (by omega) (by omega) ((h.does.trans hd').ends _)
  · rw [hrefuse (.inl hflags)]
    exact .parkRefused hc (.inl hflags)

theorem starts (h : Resumed k s b f t x s₂) {argument : SpawnRequest} (hc : x.call = .start argument) :
    Served k s b turns f t x (s₂.serve turns f x) := by
  obtain ⟨q, hq, hask⟩ := h.request
  have hfresh : ∀ c, x.spawned = some c → Fresh k s₂ c := fun c hx =>
    h.refines.fresh_congr h.does.refines h.mapped (h.allowed.2.1 c hx)
  obtain ⟨s', hs', hd'⟩ := h.does.refines.serveSpawn (h.hand_of_call (by simp [hc]))
    (h.asks hc nofun) h.frame hfresh
  simp only [State.serve, State.request_of_some hq, bind, Except.bind, hask, hc, Call.ask, hs',
    Functor.map, Except.map]
  have hends := (h.does.trans hd').ends (.sweep (turns - 1#32))
  cases hx : x.spawned with
  | none =>
    rw [hx] at hends
    exact .spawnFailed hc hx hends
  | some c =>
    rw [hx] at hends
    exact .spawned hc hx hends

theorem joins (h : Resumed k s b f t x s₂) (hc : x.call = .join u) :
    Served k s b turns f t x (s₂.serve turns f x) := by
  obtain ⟨q, hq, hask⟩ := h.request
  have hasks := h.asks hc nofun
  have hhand := h.hand_of_call (by simp [hc])
  simp only [State.serve, State.request_of_some hq, bind, Except.bind, hask, hc, Call.ask]
  by_cases huf : u = f
  · rw [h.does.refines.serveJoin_refused (.inl huf)]
    exact .joinRefused hc (.inl huf)
  cases htu : b.tasks u with
  | none =>
    rw [h.does.refines.serveJoin_fault huf ((h.mapped u).mpr htu)]
    exact .joinFault hc huf htu
  | some tu =>
    have htu' := (h.other huf).trans htu
    by_cases htest : tu.joiner ≠ none ∨ tu.detached = true
    · rw [h.does.refines.serveJoin_refused (.inr ⟨tu, htu', htest⟩)]
      exact .joinRefused hc (.inr ⟨tu, htu, htest⟩)
    · simp only [not_or, ne_eq, not_not, Bool.not_eq_true] at htest
      cases hx : tu.exit with
      | none =>
        obtain ⟨s', hs', hd'⟩ := h.does.refines.serveJoin_open hhand hasks huf h.frame
          ⟨tu, htu', hx, htest.2, htest.1⟩
        rw [hs']
        exact .joinBlocked hc huf ⟨tu, htu, hx, htest.2, htest.1⟩ ((h.does.trans hd').ends _)
      | some status =>
        have hz : tu.zombie = true := Task.zombie_iff.mpr ⟨by simp [hx], htest.2, htest.1⟩
        obtain ⟨htrap, hok⟩ := h.does.refines.serveJoin_zombie hhand hasks huf h.frame htu' hz
        cases hu : x.unmapped with
        | false =>
          rw [htrap hu]
          exact .joinZombieTrap hc huf htu hz hu
        | true =>
          obtain ⟨s', hs', hd'⟩ := hok hu
          rw [hs']
          exact .joinZombie hc huf htu hz hu ((h.does.trans hd').ends _)

theorem detaches (h : Resumed k s b f t x s₂) (hc : x.call = .detach u) :
    Served k s b turns f t x (s₂.serve turns f x) := by
  obtain ⟨q, hq, hask⟩ := h.request
  have hasks := h.asks hc nofun
  have hhand := h.hand_of_call (by simp [hc])
  simp only [State.serve, State.request_of_some hq, bind, Except.bind, hask, hc, Call.ask]
  cases htu : b.tasks u with
  | none =>
    rw [h.does.refines.serveDetach_fault ((h.mapped u).mpr htu)]
    exact .detachFault hc htu
  | some tu =>
    obtain ⟨tu', htu', hj', hd', hx'⟩ := h.claims (by simp [hc]) htu
    by_cases htest : tu.joiner ≠ none ∨ tu.detached = true
    · rw [h.does.refines.serveDetach_refused htu' (by rwa [hj', hd'])]
      exact .detachRefused hc ⟨tu, htu, htest⟩
    · simp only [not_or, ne_eq, not_not, Bool.not_eq_true] at htest
      cases hx : tu.exit with
      | none =>
        obtain ⟨s', hs', hdoes'⟩ := h.does.refines.serveDetach_open (x := x) hhand hasks
          ⟨tu', htu', hx'.trans hx, hd'.trans htest.2, hj'.trans htest.1⟩
        rw [hs']
        exact .detachOpen hc ⟨tu, htu, hx, htest.2, htest.1⟩ ((h.does.trans hdoes').ends _)
      | some status =>
        have huf : u ≠ f := by
          rintro rfl
          rw [h.task] at htu
          cases htu
          rw [h.exit] at hx
          cases hx
        have hz : tu.zombie = true := Task.zombie_iff.mpr ⟨by simp [hx], htest.2, htest.1⟩
        obtain ⟨htrap, hok⟩ := h.does.refines.serveDetach_zombie hhand hasks huf h.frame
          ((h.other huf).trans htu) hz
        cases hu : x.unmapped with
        | false =>
          rw [htrap hu]
          exact .detachZombieTrap hc huf htu hz hu
        | true =>
          obtain ⟨s', hs', hd'⟩ := hok hu
          rw [hs']
          exact .detachZombie hc huf htu hz hu ((h.does.trans hd').ends _)

theorem processExits (h : Resumed k s b f t x s₂) (hc : x.call = .processExit status) :
    Served k s b turns f t x (s₂.serve turns f x) := by
  obtain ⟨q, hq, hask⟩ := h.request
  simp only [State.serve, State.request_of_some hq, bind, Except.bind, hask, hc, Call.ask, toInt_toLong]
  exact .processExit hc (h.does.ends _)

end Resumed

/-- Every turn is one of the cases of `Served`. -/
theorem Refines.dispatch (h : Refines k s b) {rest : List Addr} (hh : b.hand = [])
    (hr : b.ready = f :: rest) (ht : b.tasks f = some t) (allowed : Allowed k s (.turn x)) :
    Served k s b turns f t x (s.dispatch turns x) := by
  obtain ⟨s₁, s₂, hdeq, hres, hdoes, hfr, hring⟩ := h.resume hh hr ht x.call allowed.1
  have hexit : t.exit = none := by
    by_contra hx
    exact h.inv.ready f (by simp [hr]) t ht (h.inv.ended f t ht hx)
  have hresumed : Resumed k s b f t x s₂ := ⟨h, ht, hexit, hdoes, hfr, hring, allowed⟩
  have hserve : s.dispatch turns x = s₂.serve turns f x := by
    simp only [State.dispatch, hdeq, hres, bind, Except.bind]
  rw [hserve]
  cases hc : x.call with
  | yield => exact hresumed.yield hc
  | exit status => exact hresumed.exits hc
  | await sqe => exact hresumed.awaits hc
  | start argument => exact hresumed.starts hc
  | join u => exact hresumed.joins hc
  | detach u => exact hresumed.detaches hc
  | processExit status => exact hresumed.processExits hc

end Libuc.Scheduler
