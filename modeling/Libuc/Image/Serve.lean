import Libuc.Image.Create
import Libuc.Image.Resume

/-! What the reactor does with a request, and one round of the sweep, on the bytes and on
the records. Every case of the `switch` reads the request where the fiber left it. -/

namespace Libuc

open Lib FiberRecord

variable {pf : Platform} {initial : Finset Mapping} {k : Scheduler.Kernel} {w : Image}
  {s : Scheduler.State} {h : Holding}
  {fb : Fiber} {a r : Addr} {v : Visit} {t : Scheduler.Turn} {turns : U32}

namespace Represents

theorem setJoining (hr : Represents pf initial w s) {n n' : U32} (hn : n = n') :
    Represents pf initial { w with joiningCount := n } { s with joiningCount := n' } :=
  { hr with joiningCount := hn }

theorem life_iff (hr : Represents pf initial w s) (hf : s.fibers a = some fb) (l : Life) :
    life pf.arch w.memory a = l.word ↔ fb.life = l := by
  obtain ⟨h, -, rfl, hs⟩ := hr.seat hf
  have hlife : life pf.arch w.memory h.fiber = fb.life.word := hs.shows.life
  rw [hlife]
  exact ⟨Life.word_injective, congrArg Life.word⟩

theorem joiner (hr : Represents pf initial w s) (hf : s.fibers a = some fb) :
    Points (get pf.arch w.memory a .joiner) fb.joiner := by
  obtain ⟨h, -, rfl, hs⟩ := hr.seat hf
  exact hs.shows.joiner

theorem status (hr : Represents pf initial w s) (hf : s.fibers a = some fb) :
    FiberRecord.status pf.arch w.memory a = fb.status := by
  obtain ⟨h, -, rfl, hs⟩ := hr.seat hf
  exact hs.shows.status

/-- The fiber a request is stamped with goes back to the ready list. -/
theorem enqueue_fiber (hr : Represents pf initial w s) (r : Addr) :
    Tracks pf initial (.ok (w.enqueue pf (RequestRecord.fiber w.memory r)))
      (s.request r >>= fun q => match q.fiber with
        | none => .error .fault
        | some woken => s.enqueue woken) := by
  refine follows_request fun q hq => ?_
  rw [(hr.shows_request hq).fiber]
  exact hr.enqueue _

/-! ### Exit -/

/-- `case __LIBUC_FIBER_REQUEST_EXIT`. -/
theorem serveExit (hr : Represents pf initial w s) (a : Addr) (ht : t.unmapped = true) :
    Tracks pf initial (w.serveExit pf a) (s.serveExit a t) := by
  unfold Scheduler.State.serveExit
  refine follows_fiber fun fb hf => ?_
  rw [ht]
  unfold Image.serveExit
  extract_lets joiner w₁ w₂ s₁
  refine .ite (hr.life_iff hf .detached) (fun _ => hr.reclaim a _) fun _ => ?_
  have hjoiner : Points joiner fb.joiner := hr.joiner hf
  by_cases hz : joiner = 0#64
  · rw [if_pos hz, hjoiner.eq_zero.mp hz]
    exact .ok hr
  · rw [if_neg hz, hjoiner.eq_some hz]
    have h₁ : Represents pf initial w₁ s₁ := hr.setJoining (congrArg (· - 1#32) hr.joiningCount)
    have hstatus : FiberRecord.status pf.arch w₁.memory a = fb.status := hr.status hf
    have hwrite : w₁.write (RequestRecord.setResult w₁.memory joiner (toLong fb.status)) = w₂ := by
      rw [← hstatus]
    refine (h₁.setResult joiner (toLong fb.status)).next fun s₂ _ h₂ => ?_
    rw [hwrite] at h₂
    exact (h₂.reclaim a .exitJoined).bind fun w₃ s₃ h₃ => h₃.enqueue_fiber joiner

/-! ### Spawn -/

/-- `case __LIBUC_FIBER_REQUEST_SPAWN`. -/
theorem serveSpawn (hr : Represents pf initial w s) {argument : SpawnRequest}
    {stackAnswer blockAnswer : Long}
    {q : Request} (hq : s.requests t.frame = some q) (hask : q.ask = .spawn argument)
    (hk : w.Maps pf k argument stackAnswer blockAnswer)
    (hspawned : t.spawned = (w.spawn pf argument stackAnswer blockAnswer).1) :
    Tracks pf initial (.ok (w.serveSpawn pf a t.frame stackAnswer blockAnswer))
      (s.serveSpawn a argument t) := by
  have hshows := (hr.shows_request hq).ask
  rw [hask] at hshows
  obtain ⟨-, hargument⟩ := hshows
  unfold Scheduler.State.serveSpawn Image.serveSpawn
  extract_lets argument' r' w₁ w₂ w₃ w₄ s₁
  have hargument' : argument' = argument := hargument
  have h₁ : Represents pf initial w₁ s₁ := by
    have hspawn := (hr.spawn hk).1
    simp only [w₁, r', s₁, hargument', hspawned]
    exact hspawn
  have hresult : r'.1 = t.spawned := by
    simp only [r', hargument', hspawned]
  clear_value w₁ s₁
  refine (h₁.setResult t.frame (t.spawned.getD 0#64)).next fun s₂ _ h₂ => ?_
  have h₃ := h₂.record (.spawn a t.spawned)
  rw [← hresult] at h₃ ⊢
  refine (h₃.enqueue a).next fun s₄ _ h₄ => ?_
  change Represents pf initial w₄ s₄ at h₄
  clear_value w₄
  cases r'.1 with
  | none => exact .ok h₄
  | some spawned => exact h₄.enqueue spawned

/-! ### Join and detach -/

/-- `case __LIBUC_FIBER_REQUEST_JOIN`. -/
theorem serveJoin (hr : Represents pf initial w s) {target : Addr}
    (ht : t.unmapped = true) {q : Request}
    (hq : s.requests t.frame = some q) (hask : q.ask = .join target) :
    Tracks pf initial (w.serveJoin pf a t.frame) (s.serveJoin a target t) := by
  have hshows := (hr.shows_request hq).ask
  rw [hask] at hshows
  obtain ⟨-, hargument⟩ := hshows
  unfold Scheduler.State.serveJoin
  rw [ht]
  unfold Image.serveJoin
  rw [show RequestRecord.argument w.memory t.frame = target from hargument]
  by_cases hself : target = a
  · rw [if_pos (.inl hself), if_pos hself]
    exact .error _
  rw [if_neg hself]
  refine follows_fiber fun tb hf => ?_
  have hjoiner := hr.joiner hf
  have hrefused : (target = a ∨ get pf.arch w.memory target .joiner ≠ 0#64 ∨
      life pf.arch w.memory target = Life.detached.word) ↔
      tb.joiner ≠ none ∨ tb.life = .detached := by
    rw [hr.life_iff hf .detached, Ne, hjoiner.eq_zero, or_iff_right hself]
  refine .ite hrefused (fun _ => .error _) fun _ =>
    .ite (hr.life_iff hf .exited) (fun _ => ?_) fun _ => ?_
  · rw [hr.status hf]
    refine (hr.setResult t.frame (toLong tb.status)).next fun s₁ _ h₁ => ?_
    exact (h₁.reclaim target .joinReclaim).bind fun w₂ s₂ h₂ => h₂.enqueue a
  · have hne : t.frame ≠ 0#64 := by
      obtain ⟨u, fu, -, hfu, hframe⟩ := hr.seats.owner _ _ hq
      obtain ⟨g, -, -, hs⟩ := hr.seat hfu
      obtain ⟨-, -, -, -, hlodged⟩ := hs.request _ hframe
      intro h0
      have hlow := hlodged.low
      have hpos := hs.nonnull
      rw [h0, BitVec.toNat_ofNat, Nat.zero_mod] at hlow
      omega
    refine (hr.setJoiner target (points_some hne)).next fun s₁ _ h₁ => ?_
    exact .ok ((h₁.setJoining (congrArg (· + 1#32) h₁.joiningCount)).record _)

/-- `case __LIBUC_FIBER_REQUEST_DETACH`. -/
theorem serveDetach (hr : Represents pf initial w s) {target : Addr}
    (ht : t.unmapped = true) {q : Request}
    (hq : s.requests t.frame = some q) (hask : q.ask = .detach target) :
    Tracks pf initial (w.serveDetach pf a t.frame) (s.serveDetach a target t) := by
  have hshows := (hr.shows_request hq).ask
  rw [hask] at hshows
  obtain ⟨-, hargument⟩ := hshows
  unfold Scheduler.State.serveDetach
  rw [ht]
  unfold Image.serveDetach
  rw [show RequestRecord.argument w.memory t.frame = target from hargument]
  refine follows_fiber fun tb hf => ?_
  have hjoiner := hr.joiner hf
  have hrefused : (get pf.arch w.memory target .joiner ≠ 0#64 ∨
      life pf.arch w.memory target = Life.detached.word) ↔
      tb.joiner ≠ none ∨ tb.life = .detached := by
    rw [hr.life_iff hf .detached, Ne, hjoiner.eq_zero]
  refine .ite hrefused (fun _ => .error _) fun _ =>
    .ite (hr.life_iff hf .exited) (fun _ => ?_) fun _ => ?_
  · exact (hr.reclaim target .detachReclaim).bind fun w₁ s₁ h₁ => h₁.enqueue a
  · exact (hr.setLife target .detached).next fun s₁ _ h₁ => (h₁.record (.detach target)).enqueue a

/-! ### Parking -/

theorem fill (hr : Represents pf initial w s) (a : Addr) {sqe : Sqe} {slot : Addr} {ring : Ring}
    (hsqe : block w.memory (RequestRecord.argument w.memory r) 64 = sqe) :
    Represents pf initial (w.fill a r slot ring) (s.fill a r sqe slot ring) := by
  unfold Image.fill Scheduler.State.fill
  extract_lets await
  rw [show await = sqe from hsqe]
  have hfilled : Represents pf initial
      { w with ring := ring.writeSqe slot (sqe.setUserData r), parkedCount := w.parkedCount + 1#32 }
      { s with ring := ring.writeSqe slot (sqe.setUserData r), parkedCount := s.parkedCount + 1#32 } :=
    { hr with ring := rfl, parkedCount := congrArg (· + 1#32) hr.parkedCount }
  exact hfilled.record _

/-- `park` up to the flush. -/
theorem park (hr : Represents pf initial w s) (turns : U32) (a : Addr) {sqe : Sqe} {q : Request}
    (hq : s.requests r = some q)
    (hask : q.ask = .await sqe) : Tracks pf initial (w.park turns a r) (s.park turns a r sqe) := by
  have hshows := (hr.shows_request hq).ask
  rw [hask] at hshows
  obtain ⟨-, hsqe⟩ := hshows
  unfold Image.park Scheduler.State.park
  extract_lets await
  rw [show await = sqe from hsqe]
  have hfull : sqe.flags ≠ 0#8 ∨ w.parkedCount = w.ring.cqEntries ↔ sqe.flags ≠ 0#8 ∨
      s.parkedCount = s.ring.cqEntries := by
    rw [hr.parkedCount, hr.ring]
  have happend : w.ring.appendSqe = s.ring.appendSqe := congrArg Ring.appendSqe hr.ring
  refine .ite hfull (fun _ => .error _) fun _ => ?_
  rw [happend]
  cases s.ring.appendSqe with
  | none => exact .ok (hr.setControl _)
  | some x => exact .ok ((hr.fill a hsqe).setControl _)

/-- `park` after the flush. -/
theorem parkFlushed (hr : Represents pf initial w s) (turns : U32) (a r : Addr) (result : Long) :
    Tracks pf initial (w.parkFlushed turns a r result) (s.parkFlushed turns a r result) := by
  unfold Image.parkFlushed Scheduler.State.parkFlushed
  refine .ite Iff.rfl (fun _ => .error _) fun _ => follows_request fun q hq => ?_
  have hshows := (hr.shows_request hq).ask
  cases hask : q.ask with
  | await sqe =>
    rw [hask] at hshows
    have happend : w.ring.appendSqe = s.ring.appendSqe := congrArg Ring.appendSqe hr.ring
    rw [happend]
    cases s.ring.appendSqe with
    | none => exact .error _
    | some x => exact .ok ((hr.fill a hshows.2).setControl _)
  | _ => exact .excuse rfl

/-! ### The switch -/

/-- The `switch`. -/
theorem serve (hr : Represents pf initial w s) (turns : U32) (a : Addr) (hframe : t.frame = v.frame)
    (ht : t.unmapped = true)
    (hspawn : ∀ q argument, s.requests v.frame = some q → q.ask = .spawn argument →
      w.Maps pf k argument v.stackAnswer v.blockAnswer ∧
      t.spawned = (w.spawn pf argument v.stackAnswer v.blockAnswer).1) :
    Tracks pf initial (w.serve pf turns a v) (s.serve turns a t) := by
  unfold Scheduler.State.serve
  rw [hframe]
  refine follows_request fun q hq => ?_
  have hshows := (hr.shows_request hq).ask
  unfold Image.serve
  extract_lets request resumeSweep resumeSweep'
  have hsweep : ∀ w' s', Represents pf initial w' s' →
      Represents pf initial (resumeSweep w') (resumeSweep' s') :=
    fun w' s' h' => h'.setControl _
  have hq' : s.requests t.frame = some q := by rw [hframe, hq]
  cases hask : q.ask with
  | yield =>
    rw [hask] at hshows
    rw [show RequestRecord.kind w.memory request = 1#64 from hshows]
    exact (hr.enqueue a).map hsweep
  | exit =>
    rw [hask] at hshows
    rw [show RequestRecord.kind w.memory request = 2#64 from hshows]
    exact (hr.serveExit a ht).map hsweep
  | await sqe =>
    rw [hask] at hshows
    rw [show RequestRecord.kind w.memory request = 3#64 from hshows.1]
    exact hr.park turns a hq hask
  | spawn argument =>
    rw [hask] at hshows
    rw [show RequestRecord.kind w.memory request = 4#64 from hshows.1]
    obtain ⟨hk, hspawned⟩ := hspawn q argument hq hask
    have hserve := hr.serveSpawn (a := a) hq' hask hk hspawned
    rw [hframe] at hserve
    exact hserve.map hsweep
  | join target =>
    rw [hask] at hshows
    rw [show RequestRecord.kind w.memory request = 5#64 from hshows.1]
    have hserve := hr.serveJoin (a := a) ht hq' hask
    rw [hframe] at hserve
    exact hserve.map hsweep
  | detach target =>
    rw [hask] at hshows
    rw [show RequestRecord.kind w.memory request = 6#64 from hshows.1]
    have hserve := hr.serveDetach (a := a) ht hq' hask
    rw [hframe] at hserve
    exact hserve.map hsweep
  | processExit status =>
    rw [hask] at hshows
    rw [show RequestRecord.kind w.memory request = 7#64 from hshows.1]
    rw [show RequestRecord.argument w.memory request = status from hshows.2]
    exact .ok (hr.setControl _)

end Represents

end Libuc
