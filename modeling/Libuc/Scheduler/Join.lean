import Libuc.Scheduler.Rehearsal

/-! Join and detach. A join that returns was answered by the destruction of its
target, whichever of the two came first, so it returns the status the target
ended with. The other half is about the traps: they depend only on the claims
already made on the target. -/

namespace Libuc.Scheduler

open Lib

variable {k : Kernel} {s s' : State} {b : Board} {f g u : Addr} {t : Task}

/-- A fiber that has ended made its exit, and has not been destroyed since. -/
theorem Legal.exit_origin {log : List Event} (h : Legal log) (ht : (replay log).tasks u = some t)
    {status : CInt} (hx : t.exit = some status) :
    ∃ p a q, log = p ++ .resume u a (.exit status) :: q ∧ ∀ e ∈ q, e ≠ .destroy u := by
  have hcall : t.call = some (.exit status) := Task.exit_eq_some.mp hx
  obtain ⟨p, a, q, hlog, hq⟩ := h.call_origin ht hcall
  exact ⟨p, a, q, hlog, fun e he => (hq e he).2⟩

/-- A fiber whose join is unanswered is in hand, or its target is claimed for it. -/
theorem Board.Inv.blocked_of_asks (hi : b.Inv) (hask : b.Asks f (.join u)) (hhand : f ∉ b.hand) :
    ∃ tu, b.tasks u = some tu ∧ tu.joiner = some f := by
  obtain ⟨tf, htf, hcall, hans⟩ := id hask
  have hplaced : f ∉ b.placed := by
    intro hp
    simp only [Board.placed, List.mem_append] at hp
    rcases hp with (hp | hp) | hp
    · exact hi.ready f hp tf htf hans
    · exact hhand hp
    · obtain ⟨o, ho, rfl⟩ := List.mem_map.mp hp
      cases hask.unique (hi.op o ho)
  rcases hi.unplaced f tf htf hplaced with hz | ⟨u', tu, hu', hj⟩
  · exact absurd (Task.exit_eq_none_of_call hcall (by simp)) (Task.zombie_iff.mp hz).1
  · cases hask.unique (hi.joiner u' tu f hu' hj).1
    exact ⟨tu, hu', hj⟩

/-- The destruction of a fiber answers whoever waits to join it. -/
theorem Board.Enabled.destroy_gives (he : b.Enabled (.destroy u)) (hi : b.Inv)
    (hask : b.Asks f (.join u)) :
    ∃ v, Gives b (.destroy u) f v := by
  obtain ⟨t, ht, hx, hre⟩ := he
  have hfu : f ≠ u := by
    rintro rfl
    exact hx (hask.exit_none nofun ht)
  suffices hheir : b.heir u t = some f from ⟨_, .destroy ht hheir⟩
  by_cases hhand : f ∈ b.hand
  · cases hre with
    | detached hand _ _ => exact absurd (by simpa [hand] using hhand) hfu
    | joined j hand _ _ => exact absurd (by simpa [hand] using hhand) hfu
    | asked g hand hne _ hj _ =>
      have hfg : f = g := by simpa [hand] using hhand
      subst hfg
      simp [Board.heir, hj, hand, hne]
  · obtain ⟨tu, htu, hj⟩ := hi.blocked_of_asks hask hhand
    rw [ht] at htu
    cases htu
    simp [Board.heir, hj]

/-- What a join that has returned tells about its target: `mid` runs from the
call to the return. The target is destroyed once in it, which is what answers the
join; it had ended before, with the status the join returns; and the joining
fiber was put in the ready list once. -/
structure JoinReturned (pre : List Event) (call : Event) (f u : Addr) (mid : List Event)
    (v : Option Long) (status : CInt) : Prop where
  value : v = some (toLong status)
  status_eq : toInt (toLong status) = status
  ended : ∃ m₁ m₂ p a q, mid = m₁ ++ .destroy u :: m₂ ∧ (∀ e ∈ m₁, e ≠ .destroy u) ∧
    pre ++ call :: m₁ = p ++ .resume u a (.exit status) :: q ∧ ∀ e ∈ q, e ≠ .destroy u
  enqueued : (mid.filterMap Event.enqueued).count f = 1

/-- A join is answered by the destruction of its target. -/
theorem Legal.join_answered {pre m₁ m₂ : List Event} {a : Option Long} {w : Long} {e : Event}
    (h : Legal (pre ++ .resume f a (.join u) :: m₁))
    (quiet : Quiet (pre ++ [.resume f a (.join u)]) f (.join u) m₁)
    (asks : (replay (pre ++ .resume f a (.join u) :: m₁)).Asks f (.join u))
    (he : (replay (pre ++ .resume f a (.join u) :: m₁)).Enabled e)
    (gives : Gives (replay (pre ++ .resume f a (.join u) :: m₁)) e f w)
    (enqueued : ((m₁ ++ e :: m₂).filterMap Event.enqueued).count f = 1) :
    ∃ status, JoinReturned pre (.resume f a (.join u)) f u (m₁ ++ e :: m₂) (some w) status := by
  obtain ⟨call', asks', hkind⟩ := gives.asks h.inv he
  obtain rfl := asks'.unique asks
  cases gives with
  | spawn result =>
    obtain ⟨argument, h'⟩ := hkind
    cases h'
  | detach u' hand => cases hkind
  | reap posted =>
    obtain ⟨sqe, h'⟩ := hkind
    cases h'
  | @destroy u' _ tu task heir =>
    simp only [Call.join.injEq, reduceCtorEq, or_false] at hkind
    subst hkind
    obtain ⟨tu', htu', hx, hre⟩ := he
    rw [task] at htu'
    cases htu'
    obtain ⟨status, hstatus⟩ := Option.ne_none_iff_exists'.mp hx
    obtain ⟨p, a', q, hlog, hq⟩ := h.exit_origin task hstatus
    obtain ⟨tf, htf, hcf, -⟩ := asks
    have hw : (replay (pre ++ .resume f a (.join u) :: m₁)).bequest f tu = toLong status := by
      simp [Board.bequest, htf, hcf, hstatus]
    refine ⟨status, congrArg some hw, toInt_toLong status,
      ⟨m₁, m₂, p, a', q, rfl, ?_, hlog, hq⟩, enqueued⟩
    intro e' he' hd
    subst hd
    obtain ⟨p', q', hsplit⟩ := List.append_of_mem he'
    obtain ⟨hask', hno⟩ := quiet p' _ q' hsplit
    have hen : (replay (pre ++ [.resume f a (.join u)] ++ p')).Enabled (.destroy u) := by
      refine Legal.enabled (q := q') ?_
      rw [hsplit] at h
      simpa using h
    have hinv : (replay (pre ++ [.resume f a (.join u)] ++ p')).Inv := by
      have h' : Legal (pre ++ [.resume f a (.join u)] ++ p' ++ (.destroy u :: q')) := by
        rw [hsplit] at h
        simpa using h
      exact h'.of_append.inv
    obtain ⟨w', hw'⟩ := hen.destroy_gives hinv hask'
    exact hno w' hw'

theorem Legal.join_returned {pre mid post : List Event} {a v : Option Long} {c : Call}
    (h : Legal (pre ++ .resume f a (.join u) :: mid ++ .resume f v c :: post))
    (hmid : ∀ e ∈ mid, e.resumed ≠ some f) :
    ∃ status, JoinReturned pre (.resume f a (.join u)) f u mid v status := by
  obtain ⟨m₁, e, m₂, w, t, rfl, quiet, asks, he, gives, call, answer, hv, enqueued⟩ :=
    h.returned nofun nofun hmid
  have hlegal : Legal (pre ++ .resume f a (.join u) :: m₁) := by
    have h' : Legal (pre ++ .resume f a (.join u) :: m₁ ++ (e :: m₂ ++ .resume f v c :: post)) := by
      simpa using h
    exact h'.of_append
  have hw : v = some w := by
    rw [hv, Task.returned, call, answer]
  rw [hw]
  exact hlegal.join_answered quiet asks he gives enqueued

/-! ### Waking the joiner -/

/-- A join that has not returned. The target lives and its record leads to the request of
the joining fiber, or the join has been answered and its fiber made ready once. -/
inductive JoinPends (s : State) (pre : List Event) (call : Event) (f u : Addr) (mid : List Event) : Prop
  | waits {fu : Fiber} {r : Addr} {q : Request} (target : s.fibers u = some fu) (live : fu.life = .live)
      (joiner : fu.joiner = some r) (request : s.requests r = some q) (fiber : q.fiber = some f)
      (enqueued : (mid.filterMap Event.enqueued).count f = 0)
  | answered (status : CInt) (returns : JoinReturned pre call f u mid (some (toLong status)) status)

theorem Good.join_pends (h : Good k s) {pre mid : List Event} {a : Option Long}
    (hlog : s.log = pre ++ .resume f a (.join u) :: mid) (hmid : ∀ e ∈ mid, e.resumed ≠ some f) :
    JoinPends s pre (.resume f a (.join u)) f u mid := by
  have hinv := h.refines.inv
  have hlog' : s.log = pre ++ [.resume f a (.join u)] ++ mid := by simp [hlog]
  have hlegal : Legal (pre ++ [.resume f a (.join u)] ++ mid) := hlog' ▸ h.refines.legal
  -- whoever is in hand between two steps awaits, or ends the process
  have hhand : ∀ t, (replay s.log).tasks f = some t → t.call = some (.join u) →
      f ∉ (replay s.log).hand := by
    intro t ht hcall hf
    obtain ⟨c, ⟨t', ht', hcall', -⟩, hc⟩ := h.hand_asks hf
    rw [ht] at ht'
    cases ht'
    rw [hcall] at hcall'
    cases hcall'
    rcases hc with ⟨sqe, hc⟩ | ⟨status, hc⟩ <;> cases hc
  cases hlegal.pending (hlegal.of_append.asks_of_resume nofun) nofun hmid with
  | unanswered quiet asks enqueued =>
    rw [← hlog'] at asks
    obtain ⟨tf, htf, hcall, -⟩ := id asks
    obtain ⟨tu, htu, hj⟩ := hinv.blocked_of_asks asks (hhand tf htf hcall)
    obtain ⟨fu, hfu⟩ := h.refines.memory.exists_fiber htu
    obtain ⟨r, q, hr, hq, hqf⟩ := h.refines.memory.joined u fu tu f hfu htu hj
    have hx : tu.exit = none := by
      by_contra hx
      have hu : u ∉ (replay s.log).hand := by
        intro hu
        obtain ⟨c, hask, ⟨sqe, rfl⟩ | ⟨status, rfl⟩⟩ := h.hand_asks hu
        · exact hx (hask.exit_none nofun htu)
        · exact hx (hask.exit_none nofun htu)
      obtain ⟨-, -, hnone⟩ := Task.zombie_iff.mp (hinv.zombie_of_ended htu hx hu)
      rw [hj] at hnone
      cases hnone
    have hlife : fu.life = .live := by
      rw [h.refines.memory.life u fu tu hfu htu, Task.life, (hinv.joiner u tu f htu hj).2.2, hx]
      rfl
    exact .waits hfu hlife hr hq hqf enqueued
  | @answered m₁ m₂ e v t split quiet asks gives task call answer enqueued =>
    rw [← hlog'] at task enqueued
    rw [List.count_eq_zero_of_not_mem (hhand t task call), Nat.zero_add] at enqueued
    subst split
    have hlegal' : Legal (pre ++ [.resume f a (.join u)] ++ m₁ ++ (e :: m₂)) := by simpa using hlegal
    have he := hlegal'.enabled
    simp only [List.append_assoc, List.singleton_append] at asks gives he
    obtain ⟨status, hreturns⟩ :=
      Legal.join_answered (by simpa using hlegal'.of_append) quiet asks he gives enqueued
    rw [hreturns.value] at hreturns
    exact .answered status hreturns

/-- The turn that answers a join: it goes on, the target `u` is gone, and `j` is made ready
once, with the status in its request. -/
structure JoinAnswered (s s' : State) (f : Addr) (call : Call) (u j : Addr) (status : CInt) : Prop where
  goes : ∀ stop, s'.control ≠ .stopped stop
  log : ∃ a, s'.log = s.log ++ [.resume f a call, .destroy u, .enqueue j]
  gone : s'.fibers u = none
  answer : ∃ fj r q, s'.fibers j = some fj ∧ fj.frame = some r ∧ s'.requests r = some q ∧
    q.ask = .join u ∧ q.result = toLong status

theorem Ends.join_answered {b₁ : Board} {turns : U32} {a : Option Long} {call : Call} {j : Addr}
    {tu : Task} {status : CInt}
    (ends : Ends k s b [.resume f a call, .destroy u, .enqueue j] (.sweep turns) s')
    (hb : b.apply (.resume f a call) = b₁)
    (hu : b₁.tasks u = some tu) (hx : tu.exit = some status) (hheir : b₁.heir u tu = some j)
    (hask : b₁.Asks j (.join u)) : JoinAnswered s s' f call u j status := by
  obtain ⟨tj, htj, hcall, -⟩ := id hask
  have hne : j ≠ u := by
    rintro rfl
    rw [hask.exit_none nofun hu] at hx
    cases hx
  have hbequest : b₁.bequest j tu = toLong status := by simp [Board.bequest, htj, hcall, hx]
  obtain ⟨-, htask⟩ := Refines.destroy_heir hu hheir hne htj
  rw [hbequest] at htask
  have hmemory := ends.refines.memory
  simp only [List.foldl_cons, List.foldl_nil, hb] at hmemory
  obtain ⟨fj, hfj⟩ := hmemory.exists_fiber htask
  obtain ⟨r, hr, hq⟩ := hmemory.request j fj _ (.join u) hfj htask hcall
  refine ⟨fun stop => by simp [ends.control], ⟨a, ends.log⟩, ?_, fj, r, _, hfj, hr, hq, rfl, rfl⟩
  exact (hmemory.mapped u).mpr (Board.apply_destroy_self hu)

theorem Good.exit_wakes (h : Good k s) {x : Turn} (allowed : Allowed k s (.turn x))
    (hs : Scheduler.step s (.turn x) = some s') {status : CInt} (hx : x.call = .exit status)
    (hhead : s.readyHead = some u)
    {fu : Fiber} (hu : s.fibers u = some fu) {r : Addr} (hr : fu.joiner = some r) {q : Request}
    (hq : s.requests r = some q) {j : Addr} (hj : q.fiber = some j) (hmunmap : x.unmapped = true) :
    JoinAnswered s s' u (.exit status) u j status := by
  obtain ⟨turns, f, t, hc, -, hready, ht, hserved, rfl⟩ := h.served allowed hs
  obtain rfl : u = f := by
    rw [h.refines.queue.head_eq, hready] at hhead
    exact (Option.some.inj hhead).symm
  obtain ⟨j', hj'⟩ : ∃ j', t.joiner = some j' := by
    refine Option.ne_none_iff_exists'.mp fun hnone => ?_
    rw [h.refines.memory.unjoined u fu t hu ht hnone] at hr
    cases hr
  obtain rfl : j = j' := by
    obtain ⟨r', q', hr', hq', hqj⟩ := h.refines.memory.joined u fu t j' hu ht hj'
    rw [hr] at hr'
    cases hr'
    rw [hq] at hq'
    cases hq'
    rw [hj] at hqj
    exact Option.some.inj hqj
  obtain ⟨hask, -, hd⟩ := h.refines.inv.joiner u t j ht hj'
  generalize s.dispatch turns x = result at hserved
  cases hserved with
  | @exitJoined s' status' j' call hd' hj'' hmunmap' ends =>
    rw [hx] at call
    cases call
    rw [hj'] at hj''
    cases hj''
    rw [hx] at ends
    have hself : ((replay s.log).apply (.resume u t.returned (.exit status))).tasks u =
        some (t.suspend (.exit status)) := by
      simp [Board.apply, ht]
    refine ends.join_answered rfl hself rfl (by simp [Board.heir, Task.suspend, hj']) ?_
    have hne : j ≠ u := by
      rintro rfl
      exact absurd h.refines.inv fun hi =>
        (hi.joiner j t j ht hj').2.1 (by simp [Board.placed, List.mem_of_mem_head? hready])
    refine hask.congr ?_
    simp [Board.apply, ht, Function.update_of_ne hne]
  | exitZombie call hd' hnone ends =>
    rw [hj'] at hnone
    cases hnone
  | _ => simp_all

/-- A join is refused to the target itself and on a target that is claimed. -/
def JoinRefused (s : State) (u : Addr) (fu : Fiber) : Prop :=
  s.readyHead = some u ∨ fu.joiner ≠ none ∨ fu.life = .detached

theorem Good.join_reclaims (h : Good k s) {x : Turn} (allowed : Allowed k s (.turn x))
    (hs : Scheduler.step s (.turn x) = some s') (hx : x.call = .join u)
    (hhead : s.readyHead = some f) {fu : Fiber}
    (hu : s.fibers u = some fu) (hlife : fu.life = .exited) (hopen : ¬JoinRefused s u fu)
    (hmunmap : x.unmapped = true) :
    JoinAnswered s s' f (.join u) u f fu.status := by
  obtain ⟨turns, g, t, hc, -, hready, ht, hserved, rfl⟩ := h.served allowed hs
  obtain rfl : f = g := by
    rw [h.refines.queue.head_eq, hready] at hhead
    exact (Option.some.inj hhead).symm
  obtain ⟨tu, htu⟩ := h.refines.memory.exists_task hu
  rw [JoinRefused, not_or, h.refines.join_tests hu htu] at hopen
  obtain ⟨hself, htests⟩ := hopen
  have hlife' : tu.life = .exited := by rw [← h.refines.memory.life u fu tu hu htu, hlife]
  have hexit : tu.exit ≠ none := by
    intro hx'
    unfold Task.life at hlife'
    simp only [hx', ↓reduceIte] at hlife'
    split at hlife' <;> cases hlife'
  generalize s.dispatch turns x = result at hserved
  cases hserved with
  | joinRefused call hr =>
    rw [hx] at call
    cases call
    rcases hr with rfl | ⟨tu', htu', hr⟩
    · exact absurd hhead hself
    · rw [htu] at htu'
      cases htu'
      exact absurd hr htests
  | joinZombie call hne ht' hz hu' ends =>
    rw [hx] at call
    cases call
    rw [htu] at ht'
    cases ht'
    obtain ⟨status, hstatus⟩ := Option.ne_none_iff_exists'.mp hexit
    rw [h.refines.memory.status u fu tu status hu htu hstatus]
    rw [hx] at ends
    obtain ⟨-, -, hj⟩ := Task.zombie_iff.mp hz
    have hother : ((replay s.log).apply (.resume f t.returned (.join u))).tasks u = some tu := by
      simp [Board.apply, ht, Function.update_of_ne hne, htu]
    refine ends.join_answered rfl hother hstatus ?_ ?_
    · have hhand : ((replay s.log).apply (.resume f t.returned (.join u))).hand = [f] := by
        simp [Board.apply, ht, Task.suspend, Task.zombie, Task.exit]
      simp [Board.heir, hj, hhand, Ne.symm hne]
    · exact ⟨t.suspend (.join u), by simp [Board.apply, ht], rfl, rfl⟩
  | joinZombieTrap call hne ht' hz hu' => simp [hmunmap] at hu'
  | joinBlocked call hne hopen' ends =>
    rw [hx] at call
    cases call
    obtain ⟨tu', htu', hnone, -⟩ := hopen'
    rw [htu] at htu'
    cases htu'
    exact absurd hnone hexit
  | joinFault call hne hnone =>
    rw [hx] at call
    cases call
    rw [htu] at hnone
    cases hnone
  | _ => simp_all

/-! ### Traps -/

theorem Good.join_dies (h : Good k s) {x : Turn} (allowed : Allowed k s (.turn x))
    (hs : Scheduler.step s (.turn x) = some s') (hx : x.call = .join u) {fu : Fiber}
    (hu : s.fibers u = some fu) :
    (JoinRefused s u fu → s'.control = .stopped (.trap .joinRefused)) ∧
      (x.unmapped = true → ¬ JoinRefused s u fu → ∀ stop, s'.control ≠ .stopped stop) := by
  obtain ⟨turns, f, t, hc, -, hhead, -, hserved, rfl⟩ := h.served allowed hs
  obtain ⟨tu, htu⟩ := h.refines.memory.exists_task hu
  have hcond : JoinRefused s u fu ↔ u = f ∨ tu.joiner ≠ none ∨ tu.detached = true := by
    rw [JoinRefused, h.refines.join_tests hu htu, h.refines.queue.head_eq, hhead,
      Option.some.injEq, eq_comm]
  rw [hcond]
  generalize s.dispatch turns x = result at hserved
  cases hserved with
  | joinRefused call hr =>
    rw [hx] at call
    cases call
    have hr' : u = f ∨ tu.joiner ≠ none ∨ tu.detached = true := by
      rcases hr with hr | ⟨tu', htu', hr⟩
      · exact .inl hr
      · rw [htu] at htu'
        cases htu'
        exact .inr hr
    exact ⟨fun _ => rfl, fun _ hn => absurd hr' hn⟩
  | joinFault call hne hnone =>
    rw [hx] at call
    cases call
    rw [htu] at hnone
    cases hnone
  | joinZombie call hne ht hz hunmapped ends =>
    rw [hx] at call
    cases call
    rw [htu] at ht
    cases ht
    obtain ⟨-, hd, hj⟩ := Task.zombie_iff.mp hz
    refine ⟨fun hr => ?_, fun _ _ stop => by simp [State.settle, ends.control]⟩
    simp [hne, hd, hj] at hr
  | joinZombieTrap call hne ht hz hunmapped =>
    rw [hx] at call
    cases call
    rw [htu] at ht
    cases ht
    obtain ⟨-, hd, hj⟩ := Task.zombie_iff.mp hz
    refine ⟨fun hr => ?_, fun hum => by simp [hunmapped] at hum⟩
    simp [hne, hd, hj] at hr
  | joinBlocked call hne hopen ends =>
    rw [hx] at call
    cases call
    obtain ⟨tu', htu', -, hd, hj⟩ := hopen
    rw [htu] at htu'
    cases htu'
    refine ⟨fun hr => ?_, fun _ _ stop => by simp [State.settle, ends.control]⟩
    simp [hne, hd, hj] at hr
  | _ => simp_all

theorem Good.detach_dies (h : Good k s) {x : Turn} (allowed : Allowed k s (.turn x))
    (hs : Scheduler.step s (.turn x) = some s') (hx : x.call = .detach u) {fu : Fiber}
    (hu : s.fibers u = some fu) :
    (fu.joiner ≠ none ∨ fu.life = .detached → s'.control = .stopped (.trap .detachRefused)) ∧
      (x.unmapped = true → ¬ (fu.joiner ≠ none ∨ fu.life = .detached) → ∀ stop,
        s'.control ≠ .stopped stop) := by
  obtain ⟨turns, f, t, hc, -, hhead, -, hserved, rfl⟩ := h.served allowed hs
  obtain ⟨tu, htu⟩ := h.refines.memory.exists_task hu
  rw [h.refines.join_tests hu htu]
  generalize s.dispatch turns x = result at hserved
  cases hserved with
  | detachRefused call hr =>
    rw [hx] at call
    cases call
    obtain ⟨tu', htu', hr⟩ := hr
    rw [htu] at htu'
    cases htu'
    exact ⟨fun _ => rfl, fun _ hn => absurd hr hn⟩
  | detachFault call hnone =>
    rw [hx] at call
    cases call
    rw [htu] at hnone
    cases hnone
  | detachZombie call hne ht hz hunmapped ends =>
    rw [hx] at call
    cases call
    rw [htu] at ht
    cases ht
    obtain ⟨-, hd, hj⟩ := Task.zombie_iff.mp hz
    exact ⟨fun hr => by simp [hd, hj] at hr, fun _ _ stop => by simp [State.settle, ends.control]⟩
  | detachZombieTrap call hne ht hz hunmapped =>
    rw [hx] at call
    cases call
    rw [htu] at ht
    cases ht
    obtain ⟨-, hd, hj⟩ := Task.zombie_iff.mp hz
    exact ⟨fun hr => by simp [hd, hj] at hr, fun hum => by simp [hunmapped] at hum⟩
  | detachOpen call hopen ends =>
    rw [hx] at call
    cases call
    obtain ⟨tu', htu', -, hd, hj⟩ := hopen
    rw [htu] at htu'
    cases htu'
    exact ⟨fun hr => by simp [hd, hj] at hr, fun _ _ stop => by simp [State.settle, ends.control]⟩
  | _ => simp_all

/-- Join semantics. In every run a join that returns does so after its target
ended and with the target's status, and made its caller ready once. A join or
detach of a mapped target traps on a claimed target and on a join of oneself, and
as long as the kernel unmaps what it is asked to, never otherwise. A join that has
not returned waits for a living target or is answered and its caller ready once;
the turn that answers it is the exit of its target, or its own when the target has
ended already. -/
theorem join_semantics (k : Kernel) (s : State) (reach : Reachable k s) :
    (∀ (pre mid post : List Event) (f u : Addr) (a v : Option Long) (c : Call),
      s.log = pre ++ .resume f a (.join u) :: mid ++ .resume f v c :: post →
      (∀ e ∈ mid, e.resumed ≠ some f) →
      ∃ status, JoinReturned pre (.resume f a (.join u)) f u mid v status) ∧
    (∀ (x : Turn) (s' : State) (u : Addr) (fu : Fiber), Allowed k s (.turn x) →
      step s (.turn x) = some s' → s.fibers u = some fu →
      (x.call = .join u →
        (JoinRefused s u fu → s'.control = .stopped (.trap .joinRefused)) ∧
        (x.unmapped = true → ¬ JoinRefused s u fu → ∀ stop, s'.control ≠ .stopped stop)) ∧
      (x.call = .detach u →
        (fu.joiner ≠ none ∨ fu.life = .detached → s'.control = .stopped (.trap .detachRefused)) ∧
        (x.unmapped = true → ¬ (fu.joiner ≠ none ∨ fu.life = .detached) →
          ∀ stop, s'.control ≠ .stopped stop))) ∧
    (∀ (pre mid : List Event) (f u : Addr) (a : Option Long),
      s.log = pre ++ .resume f a (.join u) :: mid →
      (∀ e ∈ mid, e.resumed ≠ some f) → JoinPends s pre (.resume f a (.join u)) f u mid) ∧
    (∀ (x : Turn) (s' : State) (u j r : Addr) (fu : Fiber) (q : Request) (status : CInt),
      Allowed k s (.turn x) → step s (.turn x) = some s' → x.call = .exit status → x.unmapped = true →
      s.readyHead = some u → s.fibers u = some fu → fu.joiner = some r → s.requests r = some q →
      q.fiber = some j → JoinAnswered s s' u (.exit status) u j status) ∧
    (∀ (x : Turn) (s' : State) (f u : Addr) (fu : Fiber), Allowed k s (.turn x) →
      step s (.turn x) = some s' → x.call = .join u → x.unmapped = true → s.readyHead = some f →
      s.fibers u = some fu → fu.life = .exited → ¬ JoinRefused s u fu →
      JoinAnswered s s' f (.join u) u f fu.status) := by
  have h := reach.good
  refine ⟨fun pre mid post f u a v c hlog hmid => ?_,
    fun x s' u fu allowed hs hu => ⟨fun hx => ?_, fun hx => ?_⟩,
    fun pre mid f u a hlog hmid => ?_,
    fun x s' u j r fu q status allowed hs hx hmunmap hhead hu hr hq hj => ?_,
    fun x s' f u fu allowed hs hx hmunmap hhead hu hlife hopen => ?_⟩
  · exact Legal.join_returned (hlog ▸ h.refines.legal) hmid
  · exact h.join_dies allowed hs hx hu
  · exact h.detach_dies allowed hs hx hu
  · exact h.join_pends hlog hmid
  · exact h.exit_wakes allowed hs hx hhead hu hr hq hj hmunmap
  · exact h.join_reclaims allowed hs hx hhead hu hlife hopen hmunmap

/-- The parent's join returns 5, and is answered by the exit; a join that comes after the
exit is answered at once. -/
theorem join_semantics_closing :
    let ended := (Sample.opening Sample.child ++ Sample.closing).take 14
    let yielded := Sample.yielding.take 10
    (∃ pre mid status,
      pre ++ .resume Sample.parent (some Sample.child) (.join Sample.child) :: mid <+: Sample.events ∧
      JoinReturned pre (.resume Sample.parent (some Sample.child) (.join Sample.child))
        Sample.parent Sample.child mid (some 5#64) status) ∧
    (∃ s', JoinAnswered (Sample.after ended) s' Sample.child (.exit 5#32)
      Sample.child Sample.parent 5#32) ∧
    ∃ s' status, JoinAnswered (Sample.after yielded) s' Sample.parent (.join Sample.child)
      Sample.child Sample.parent status := by
  intro ended yielded
  refine ⟨?_, ?_, ?_⟩
  · obtain ⟨status, hs⟩ := (join_semantics Sample.kernel _ Sample.reachable_closing).1
      (Sample.events.take 6) ((Sample.events.drop 7).take 10) [] Sample.parent Sample.child
      (some Sample.child) (some 5#64) (.exit 0#32) Sample.log_closing (by decide)
    exact ⟨_, _, status, ⟨Sample.events.drop 17, rfl⟩, hs⟩
  · obtain ⟨hreach, hallowed, hstep⟩ := Sample.step_after
      (show (Sample.opening Sample.child ++ Sample.closing)[14]? =
        some (Sample.turn 0x201000#64 (.exit 5#32) none) from rfl) (by decide +kernel)
    obtain ⟨fu, hu⟩ := Option.isSome_iff_exists.mp
      (show ((Sample.after ended).fibers Sample.child).isSome = true by decide +kernel)
    have hr : ((Sample.after ended).fibers Sample.child).bind Fiber.joiner = some 0x101000#64 := by
      decide +kernel
    obtain ⟨q, hq⟩ := Option.isSome_iff_exists.mp
      (show ((Sample.after ended).requests 0x101000#64).isSome = true by decide +kernel)
    have hj : ((Sample.after ended).requests 0x101000#64).bind Request.fiber = some Sample.parent := by
      decide +kernel
    rw [hu] at hr
    rw [hq] at hj
    exact ⟨_, (join_semantics Sample.kernel _ hreach).2.2.2.1 _ _ Sample.child Sample.parent
      0x101000#64 fu q 5#32 hallowed hstep rfl rfl (by decide +kernel) hu hr hq hj⟩
  · obtain ⟨hreach, hallowed, hstep⟩ := Sample.step_after
      (show Sample.yielding[10]? = some (Sample.turn 0x101000#64 (.join Sample.child) none) from rfl)
      (by decide +kernel)
    obtain ⟨fu, hu⟩ := Option.isSome_iff_exists.mp
      (show ((Sample.after yielded).fibers Sample.child).isSome = true by decide +kernel)
    have hlife : ((Sample.after yielded).fibers Sample.child).map Fiber.life = some .exited := by
      decide +kernel
    have hj : ((Sample.after yielded).fibers Sample.child).map Fiber.joiner = some none := by
      decide +kernel
    rw [hu] at hlife hj
    have hlife' : fu.life = .exited := Option.some.inj hlife
    have hj' : fu.joiner = none := Option.some.inj hj
    refine ⟨_, _,
      (join_semantics Sample.kernel _ hreach).2.2.2.2 _ _ Sample.parent Sample.child fu hallowed hstep rfl rfl
      (by decide +kernel) hu hlife' ?_⟩
    rintro (hself | hclaimed | hdetached)
    · exact absurd hself (by decide +kernel)
    · exact hclaimed hj'
    · rw [hlife'] at hdetached
      cases hdetached

end Libuc.Scheduler
