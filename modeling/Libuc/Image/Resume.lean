import Libuc.Image.Suspend

/-! One turn of a fiber, from `__libuc_fiber_resume` to its return. A fiber may store
where it likes as long as it leaves alone what the runtime keeps of the fibers that are
suspended, and of itself its record and TCB; its own request has been answered and is
dead. -/

namespace Libuc

open Lib FiberRecord

def Suspension.Finds (fiber threadPointer own : Addr) : Suspension → Prop
  | .returned _ => True
  | .processExit self _ => self = fiber
  | _ => threadPointer = own

def Image.switchIn (pf : Platform) (w : Image) (fiber : Addr) : Image :=
  { w.write (set pf.arch w.memory fiber .returnTo pf.here) with frames := Function.update w.frames fiber none }

/-- How the fiber of `h` uses its turn, `w` being the image when it is switched to. -/
structure Proper (pf : Platform) (w : Image) (h : Holding) (v : Visit) : Prop where
  stores : ∀ g ∈ w.live, ∀ range ∈ guarded pf.arch w.memory g (w.frames g.fiber), ∀ x ∈ v.writes,
    Outside range.1 range.2 x.1
  finds : v.suspension.Finds h.fiber v.threadPointer (get pf.arch w.memory h.fiber .threadPointer)
  fits : v.suspension.Fits h v.frame
  saved : v.saved.length = contextWords pf.arch
  stackPointer : v.saved.getD (stackPointerIndex pf.arch) 0#64 ≠ 0#64

variable {pf : Platform} {initial : Finset Mapping} {w : Image} {s : Scheduler.State}
  {h g : Holding} {fb : Fiber} {m : Mem} {v : Visit} {r : Addr} {R : Addr → Option Request}

namespace Seats

variable {mappings : Finset Mapping} {live : List Holding} {frames : Addr → Option Addr}
  {F : Addr → Option Fiber}

theorem store (hs : Seats pf m live frames F R) {writes : List (Addr × Byte)}
    (hout : ∀ g ∈ live, ∀ range ∈ guarded pf.arch m g (frames g.fiber), ∀ x ∈ writes,
      Outside range.1 range.2 x.1) :
    Seats pf (storeBytes m writes) live frames F R := by
  refine ⟨hs.frames, hs.mapped, fun g hg => ?_, hs.owner⟩
  obtain ⟨fb, hf, hseated⟩ := hs.seated g hg
  refine ⟨fb, hf, hseated.keeps fun range hrange => storeBytes_keeps m fun x hx => ?_⟩
  rw [← hs.frames g.fiber fb hf] at hrange
  exact hout g hg range hrange x hx

/-- A fiber is switched to: its call returns, and its request is gone. -/
theorem switchIn (hs : Seats pf m live frames F R) (ho : Owns initial mappings live) (hh : h ∈ live)
    (hf : F h.fiber = some fb) :
    Seats pf (set pf.arch m h.fiber .returnTo pf.here) live (Function.update frames h.fiber none)
      (Function.update F h.fiber (some { fb with frame := none }))
        (Scheduler.dropFrame R fb.frame) := by
  have hseated := hs.seated_of hh hf
  have hfits := hseated.record_fits
  have hne : Field.returnTo ≠ .statusLife := by decide
  have hc := contents_set (m := m) hfits hne pf.here
  have ht : Touches h.stack.base h.stack.length.toNat m (set pf.arch m h.fiber .returnTo pf.here) :=
    (touches_set hfits _ _).mono hseated.inside.1 hseated.inside.2
  refine hs.reseat ho hh ht (hseated.renew ht (fun field _ _ hr => ?_) ?_ ?_) (fun r q hq hr => ?_)
    (fun r q hq => ?_) (Function.update_self _ _ _) (fun a ha => Function.update_of_ne ha _ _)
  · rw [hc]
    exact Function.update_of_ne hr _ _
  · obtain ⟨hcontext, hentry, hargument, hnext, hjoiner, hstatus, hlife⟩ := hseated.shows
    rw [hc]
    exact ⟨hcontext, hentry, hargument, hnext, hjoiner, hstatus, hlife⟩
  · intro r hr
    cases hr
  · refine Scheduler.Memory.dropFrame_eq_some.mpr ⟨hr, fun hframe => hq ?_⟩
    obtain ⟨q', hq', hown, -⟩ := hseated.request r hframe
    rw [hr] at hq'
    cases hq'
    exact hown
  · obtain ⟨hq', hframe⟩ := Scheduler.Memory.dropFrame_eq_some.mp hq
    exact .inr ⟨hq', fun hown => hframe (hs.frame_of_request hf hq' hown)⟩

/-- A fiber that has no request switches out with one. -/
theorem switchOut (hs : Seats pf m live frames F R) (ho : Owns initial mappings live)
    (hh : h ∈ live) (hf : F h.fiber = some fb)
    (hnone : fb.frame = none) (hfits : v.suspension.Fits h v.frame)
    (hlen : v.saved.length = contextWords pf.arch)
    (hsaved : v.saved.getD (stackPointerIndex pf.arch) 0#64 ≠ 0#64) :
    Seats pf (switched pf.arch m h.fiber v.frame v.suspension v.saved) live
      (Function.update frames h.fiber (some v.frame))
      (Function.update F h.fiber (some (fb.suspend (v.suspension.call m) v.frame)))
      (Function.update R v.frame (some ⟨(v.suspension.call m).ask, 0#64, some h.fiber⟩)) := by
  have hseated := hs.seated_of hh hf
  have hspec := switched_spec (m := m) hseated.inside hseated.ends hfits hlen
  have hframe : (fb.suspend (v.suspension.call m) v.frame).frame = some v.frame := by
    cases v.suspension <;> rfl
  -- a request at the new frame would be another fiber's, in this fiber's stack
  have hfree : ∀ q, R v.frame ≠ some q := by
    intro q hq
    obtain ⟨a, fa, hqa, hfa, hra⟩ := hs.owner v.frame q hq
    obtain ⟨g, hg, rfl, hseated'⟩ := hs.seat hfa
    obtain ⟨-, -, -, -, hlodged⟩ := hseated'.request v.frame hra
    by_cases hgh : g = h
    · subst hgh
      rw [hf] at hfa
      cases hfa
      rw [hnone] at hra
      cases hra
    · have hapart := ho.separate hg hh hgh (x := g.stack) (y := h.stack) (by simp) (by simp)
      have h₁ := hlodged.low
      have h₂ := hlodged.high
      have h₃ := hfits.low
      have h₄ := hfits.high
      have h₅ := hseated'.inside.2
      have h₆ := hseated.inside.2
      rcases hapart with hapart | hapart <;> omega
  refine hs.reseat ho hh hspec.touches (hseated.renew hspec.touches (fun field _ _ hr => ?_) ?_ ?_)
    (fun r q _ hr => ?_) (fun r q hq => ?_) ?_ (fun a ha => Function.update_of_ne ha _ _)
  · rw [hspec.contents]
    simp only [Contents.suspended]
    rw [Function.update_of_ne hr]
    split_ifs <;> rfl
  · rw [hspec.contents]
    exact hseated.shows.suspend hsaved
  · intro r hr
    rw [hframe] at hr
    cases hr
    exact ⟨_, Function.update_self _ _ _, rfl, hspec.shows, hspec.lodged⟩
  · rw [Function.update_of_ne, hr]
    rintro rfl
    exact hfree q hr
  · by_cases hr : r = v.frame
    · subst hr
      rw [Function.update_self] at hq
      cases hq
      exact .inl ⟨rfl, hframe⟩
    · rw [Function.update_of_ne hr] at hq
      refine .inr ⟨hq, fun hown => ?_⟩
      have hfr := hs.frame_of_request hf hq hown
      rw [hnone] at hfr
      cases hfr
  · rw [Function.update_self, hframe]

end Seats

/-- The request a suspended call keeps has the answer that the call returns. -/
theorem Represents.answer (hr : Represents pf initial w s) (hf : s.fibers h.fiber = some fb) :
    w.answer h.fiber = (fb.frame.bind s.requests).bind Request.answer := by
  rw [Image.answer, hr.seats.frames _ _ hf]
  cases hframe : fb.frame with
  | none => rfl
  | some r =>
    obtain ⟨g, -, he, hseated⟩ := hr.seat hf
    obtain ⟨q, hq, -, hshows, -⟩ := hseated.request r hframe
    obtain ⟨hask, hresult, -⟩ := hshows
    obtain ⟨ask, result, fiber⟩ := q
    simp only at hask hresult
    rw [Option.bind_some, Option.bind_some, hq]
    cases ask <;> simp only [RequestRecord.Asks] at hask <;> simp [hask, hresult, Request.answer]

/-- The record that the call finds is the fiber's own. -/
theorem Suspension.self_eq (hseated : Seated pf m R h fb) (call : Suspension) {threadPointer : Addr}
    (hfinds : call.Finds h.fiber threadPointer (get pf.arch m h.fiber .threadPointer)) :
    call.self m h.fiber threadPointer = h.fiber := by
  have hcurrent : threadPointer = get pf.arch m h.fiber .threadPointer →
      fiberCurrent m threadPointer = h.fiber := by
    rintro rfl
    rw [fiberCurrent, if_neg hseated.threadPointer, hseated.tcb]
  cases call with
  | returned status => rfl
  | processExit self status => exact hfinds
  | _ => exact hcurrent hfinds

/-- The fiber's side of the switch comes back here: the record it finds is its own, and
nothing has been stored over `return_to`. -/
theorem runFiber_eq (hs : Seated pf m R h fb) (hreturn : get pf.arch m h.fiber .returnTo = pf.here)
    (hstores : ∀ range ∈ guarded pf.arch m h fb.frame, ∀ x ∈ v.writes, Outside range.1 range.2 x.1)
    (hfinds : v.suspension.Finds h.fiber v.threadPointer (get pf.arch m h.fiber .threadPointer))
    (hfits : v.suspension.Fits h v.frame) : Image.runFiber pf m h.fiber v =
      .ok (storeWords (v.suspension.perform pf.arch
        (storeBytes m v.writes) h.fiber v.frame) h.fiber v.saved) := by
  have hkeeps : ∀ range ∈ guarded pf.arch m h fb.frame,
      Keeps range.1 range.2 m (storeBytes m v.writes) :=
    fun range hrange => storeBytes_keeps m fun x hx => hstores range hrange x hx
  have hstored := hs.keeps hkeeps
  have hcontents := contents_keeps hs.record_fits
    ((forall_guarded (P := fun a n => Keeps a n m (storeBytes m v.writes))).mp hkeeps).1
  have hword : ∀ field, field ≠ .statusLife →
      get pf.arch (storeBytes m v.writes) h.fiber field = get pf.arch m h.fiber field := by
    intro field hne
    rw [← contents_words hne, hcontents, contents_words hne]
  have hown : v.suspension.self (storeBytes m v.writes) h.fiber v.threadPointer = h.fiber :=
    v.suspension.self_eq hstored (by rw [hword _ (by decide)]; exact hfinds)
  have hperformed := hfits.contents (m := storeBytes m v.writes) hs.record_fits
  have hback : get pf.arch (v.suspension.perform pf.arch
      (storeBytes m v.writes) h.fiber v.frame) h.fiber .returnTo = pf.here := by
    rw [← contents_words (show Field.returnTo ≠ .statusLife by decide), hperformed]
    exact (contents_words (by decide)).trans ((hword _ (by decide)).trans hreturn)
  simp only [Image.runFiber, hown]
  exact if_neg fun hne => hne hback

/-- `__libuc_fiber_resume` on the bytes and on the records. -/
theorem Represents.resume (hr : Represents pf initial w s) (hh : h ∈ w.live)
    (hp : Proper pf (w.switchIn pf h.fiber) h v) :
    Follows Unmapped (fun w' s' => Represents pf initial w' s' ∧ w'.live = w.live ∧
        w'.process.mappings = w.process.mappings ∧ s'.requests v.frame =
          some ⟨(v.suspension.call (storeBytes (w.switchIn pf h.fiber).memory v.writes)).ask, 0#64,
            some h.fiber⟩)
      (w.resume pf h.fiber v)
      (s.resume h.fiber
        (v.suspension.call (storeBytes (w.switchIn pf h.fiber).memory v.writes)) v.frame) := by
  unfold Scheduler.State.resume
  refine follows_fiber fun fb hf => ?_
  have hseated := hr.seats.seated_of hh hf
  have hne : Field.returnTo ≠ .statusLife := by decide
  have hc := contents_set (m := w.memory) hseated.record_fits hne pf.here
  have hin := hr.seats.switchIn hr.owns hh hf
  have hstored := hin.store hp.stores
  have hself : Function.update s.fibers h.fiber (some { fb with frame := none }) h.fiber =
      some { fb with frame := none } :=
    Function.update_self _ _ _
  have hseated₁ := hin.seated_of hh hself
  have hzero : FiberRecord.stackPointer pf.arch
      (set pf.arch w.memory h.fiber .returnTo pf.here) h.fiber = 0#64 ↔
      fb.context = .zeroed := hseated₁.shows.context
  have hreturn :
      get pf.arch (set pf.arch w.memory h.fiber .returnTo pf.here) h.fiber .returnTo = pf.here :=
    load64_store64 _ _ _
  have hstores : ∀ range ∈ guarded pf.arch (set pf.arch w.memory h.fiber .returnTo pf.here) h none,
      ∀ x ∈ v.writes,
      Outside range.1 range.2 x.1 := by
    have hown := hp.stores h hh
    simp only [Image.switchIn, Function.update_self] at hown
    exact hown
  have hrun := runFiber_eq hseated₁ hreturn hstores hp.finds hp.fits
  have hframe : v.frame ≠ 0#64 := by
    have hlow := hp.fits.low
    have hpos := hseated.nonnull
    intro h0
    rw [h0] at hlow
    simp only [BitVec.toNat_ofNat, Nat.zero_mod] at hlow
    omega
  have hanswer := hr.answer hf
  have hout := hstored.switchOut hr.owns hh hself rfl hp.fits hp.saved hp.stackPointer
  rw [Function.update_idem, Function.update_idem] at hout
  unfold Image.resume
  extract_lets answer m₀
  refine .ite hzero (fun _ => .error _) fun _ => ?_
  rw [show Image.runFiber pf m₀ h.fiber v = _ from hrun]
  change Follows _ _ (if v.frame = 0#64 then _ else _) _
  rw [if_neg hframe]
  have hsuspend : ({ fb with frame := none } : Fiber).suspend
      (v.suspension.call (storeBytes m₀ v.writes)) v.frame =
      fb.suspend (v.suspension.call (storeBytes m₀ v.writes)) v.frame := by cases v.suspension <;> rfl
  rw [hsuspend] at hout
  have hlog : w.log ++
      [Scheduler.Event.resume h.fiber answer (v.suspension.call (storeBytes m₀ v.writes))] =
      s.log ++ [.resume h.fiber ((fb.frame.bind s.requests).bind Request.answer)
        (v.suspension.call (storeBytes m₀ v.writes))] := by
    rw [hr.log, ← hanswer]
  refine .ok ⟨?_, rfl, rfl, Function.update_self _ _ _⟩
  exact { hr with
    log := hlog
    seats := hout }

end Libuc
