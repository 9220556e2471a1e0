import Libuc.Image.Represents

/-! The operations of the scheduler, on the bytes and on the records: each does to the
image what its counterpart does to the scheduler's state. Where the scheduler would
follow a pointer to nothing, the image is not asked for anything. -/

namespace Libuc

open Lib FiberRecord

/-- A failure that the image need not have: a pointer to nothing was followed. -/
def Unmapped (stop : Scheduler.Stop) : Prop := stop = .fault

/-- The image does what the scheduler does. -/
abbrev Tracks (pf : Platform) (initial : Finset Mapping) (x : Except Scheduler.Stop Image)
    (y : Except Scheduler.Stop Scheduler.State) : Prop := Follows Unmapped (Represents pf initial) x y

variable {pf : Platform} {initial : Finset Mapping} {w : Image} {s : Scheduler.State} {h : Holding}
  {fb : Fiber} {m' : Mem} {a r : Addr}

/-! ### Pointers -/

theorem follows_fiber {α β : Type} {R : α → β → Prop} {x : Except Scheduler.Stop α}
    {f : Fiber → Except Scheduler.Stop β}
    (h : ∀ fb, s.fibers a = some fb → Follows Unmapped R x (f fb)) :
    Follows Unmapped R x (s.fiber a >>= f) := by
  cases hf : s.fibers a with
  | none =>
    simp only [Scheduler.State.fiber, hf]
    exact .excuse rfl
  | some fb =>
    simp only [Scheduler.State.fiber, hf]
    exact h fb hf

theorem follows_request {α β : Type} {R : α → β → Prop} {x : Except Scheduler.Stop α}
    {f : Request → Except Scheduler.Stop β}
    (h : ∀ q, s.requests r = some q → Follows Unmapped R x (f q)) :
    Follows Unmapped R x (s.request r >>= f) := by
  cases hq : s.requests r with
  | none =>
    simp only [Scheduler.State.request, hq]
    exact .excuse rfl
  | some q =>
    simp only [Scheduler.State.request, hq]
    exact h q hq

namespace Represents

theorem seat (hr : Represents pf initial w s) (hf : s.fibers a = some fb) :
    ∃ h ∈ w.live, h.fiber = a ∧ Seated pf w.memory s.requests h fb := hr.seats.seat hf

theorem shows_request (hr : Represents pf initial w s) {q : Request} (hq : s.requests r = some q) :
    RequestRecord.Shows w.memory r q := by
  obtain ⟨a, fb, -, hf, hframe⟩ := hr.seats.owner r q hq
  obtain ⟨h, -, -, hs⟩ := hr.seat hf
  obtain ⟨q', hq', -, hshows, -⟩ := hs.request r hframe
  rw [hq] at hq'
  cases hq'
  exact hshows

/-- An assignment to a field of a record. -/
theorem modify (hr : Represents pf initial w s) (f : Fiber → Fiber)
    (hw : ∀ h fb, h.fiber = a → Seated pf w.memory s.requests h fb →
      Touches h.fiber (FiberRecord.size pf.arch) w.memory m' ∧
      Seated.Fixed (contents pf.arch w.memory h.fiber) (contents pf.arch m' h.fiber) ∧
        (contents pf.arch m' h.fiber).Shows (f fb) ∧ (f fb).frame = fb.frame) :
    Tracks pf initial (.ok (w.write m')) (s.modifyFiber a f) := by
  refine follows_fiber fun fb hf => ?_
  obtain ⟨h, hh, rfl, hs⟩ := hr.seat hf
  obtain ⟨ht, hfixed, hshows, hframe⟩ := hw h fb rfl hs
  exact .ok { hr with seats := hr.seats.record hr.owns hh hf ht hfixed hshows hframe }

theorem setReadyNext (hr : Represents pf initial w s) (a : Addr) {v : Addr} {next : Option Addr}
    (hv : Points v next) :
    Tracks pf initial (.ok (w.write (set pf.arch w.memory a .readyNext v)))
      (s.modifyFiber a fun fb => { fb with readyNext := next }) := by
  refine hr.modify _ fun h fb he hs => ?_
  subst he
  have hc := contents_set (m := w.memory) hs.record_fits
      (show Field.readyNext ≠ .statusLife by decide) v
  obtain ⟨hcontext, hentry, hargument, -, hjoiner, hstatus, hlife⟩ := hs.shows
  rw [hc]
  exact ⟨touches_set hs.record_fits _ _, fun field hne _ _ => Function.update_of_ne hne _ _,
    ⟨hcontext, hentry, hargument, hv, hjoiner, hstatus, hlife⟩, rfl⟩

theorem setJoiner (hr : Represents pf initial w s) (a : Addr) {v : Addr} {joiner : Option Addr}
    (hv : Points v joiner) :
    Tracks pf initial (.ok (w.write (set pf.arch w.memory a .joiner v)))
      (s.modifyFiber a fun fb => { fb with joiner := joiner }) := by
  refine hr.modify _ fun h fb he hs => ?_
  subst he
  have hc := contents_set (m := w.memory) hs.record_fits (show Field.joiner ≠ .statusLife by decide) v
  obtain ⟨hcontext, hentry, hargument, hnext, -, hstatus, hlife⟩ := hs.shows
  rw [hc]
  exact ⟨touches_set hs.record_fits _ _, fun field _ hne _ => Function.update_of_ne hne _ _,
    ⟨hcontext, hentry, hargument, hnext, hv, hstatus, hlife⟩, rfl⟩

theorem setLife (hr : Represents pf initial w s) (a : Addr) (life : Life) :
    Tracks pf initial (.ok (w.write (FiberRecord.setLife pf.arch w.memory a life.word)))
      (s.modifyFiber a fun fb => { fb with life := life }) := by
  refine hr.modify _ fun h fb he hs => ?_
  subst he
  have hc := contents_setLife (m := w.memory) hs.record_fits life.word
  obtain ⟨hcontext, hentry, hargument, hnext, hjoiner, hstatus, -⟩ := hs.shows
  rw [hc]
  exact ⟨touches_setLife hs.record_fits _, fun field _ _ _ => rfl,
    ⟨hcontext, hentry, hargument, hnext, hjoiner, hstatus, rfl⟩, rfl⟩

theorem setResult (hr : Represents pf initial w s) (r : Addr) (v : Long) :
    Tracks pf initial (.ok (w.write (RequestRecord.setResult w.memory r v))) (s.setResult r v) := by
  refine follows_request fun q hq => ?_
  exact .ok { hr with seats := hr.seats.setResult hr.owns hq v }

/-- An entry of the log, which nothing reads. -/
theorem record (hr : Represents pf initial w s) (e : Scheduler.Event) :
    Represents pf initial (w.record e) (s.record e) :=
  { hr with log := congrArg (· ++ [e]) hr.log }

theorem setControl (hr : Represents pf initial w s) (c : Scheduler.Control) :
    Represents pf initial { w with control := c } { s with control := c } :=
  { hr with control := rfl }

theorem setLine (hr : Represents pf initial w s) {head tail : Addr}
    {head' tail' : Option Addr} {n n' : U32}
    (hhead : Points head head') (htail : Points tail tail') (hn : n = n') :
    Represents pf initial { w with readyHead := head, readyTail := tail, readyCount := n }
      { s with readyHead := head', readyTail := tail', readyCount := n' } :=
  { hr with head := hhead, tail := htail, readyCount := hn }

theorem ne_zero_of_modify (hr : Represents pf initial w s) {f : Fiber → Fiber} {n : U32}
    {s' : Scheduler.State}
    (h : ({ s with readyCount := n }).modifyFiber a f = .ok s') : a ≠ 0#64 := by
  cases hf : s.fibers a with
  | none =>
    simp [Scheduler.State.modifyFiber, Scheduler.State.fiber, hf, bind, Except.bind] at h
  | some fb =>
    obtain ⟨h, -, rfl, hs⟩ := hr.seat hf
    exact hs.fiber_ne_zero

/-! ### The ready list -/

theorem enqueue (hr : Represents pf initial w s) (f : Addr) :
    Tracks pf initial (.ok (w.enqueue pf f)) (s.enqueue f) := by
  unfold Image.enqueue
  extract_lets w₀ w₁ w₂
  have hcount : Represents pf initial w₀ { s with readyCount := s.readyCount + 1#32 } :=
    hr.setLine hr.head hr.tail (congrArg (· + 1#32) hr.readyCount)
  refine (hcount.setReadyNext f points_none).next fun s₁ hs₁ h₁ => ?_
  have hf := hr.ne_zero_of_modify hs₁
  change Represents pf initial w₁ s₁ at h₁
  have htail := h₁.tail
  clear_value w₁
  simp only [w₂]
  cases ht : s₁.readyTail with
  | none =>
    rw [if_pos (htail.eq_zero.mpr ht)]
    exact .ok ((h₁.setLine (points_some hf) (points_some hf) h₁.readyCount).record _)
  | some tail =>
    rw [ht] at htail
    have he : w₁.readyTail = tail := htail.of_some
    have hz : w₁.readyTail ≠ 0#64 := fun h0 => by
      have hn := htail.eq_zero.mp h0
      cases hn
    rw [if_neg hz, he]
    refine (h₁.setReadyNext tail (points_some hf)).next fun s₂ _ h₂ => ?_
    exact .ok ((h₂.setLine h₂.head (points_some hf) h₂.readyCount).record _)

theorem dequeue (hr : Represents pf initial w s) :
    Follows Unmapped (fun x y => x.1 = y.1 ∧ s.readyHead = some y.1 ∧ Represents pf initial x.2 y.2)
      (w.dequeue pf) s.dequeue := by
  unfold Scheduler.State.dequeue Image.dequeue
  extract_lets f w₀ w₁
  have hhead := hr.head
  cases hh : s.readyHead with
  | none => exact .excuse rfl
  | some f' =>
    rw [hh] at hhead
    have hff : f = f' := hhead.of_some
    have hz : f ≠ 0#64 := fun h0 => by
      have hn := hhead.eq_zero.mp h0
      cases hn
    rw [if_neg hz]
    refine follows_fiber fun fb hf => ?_
    obtain ⟨h, -, he, hs⟩ := hr.seat hf
    have hnext : Points (get pf.arch w.memory f .readyNext) fb.readyNext := by
      rw [hff, ← he]
      exact hs.shows.readyNext
    have hcount : w.readyCount - 1#32 = s.readyCount - 1#32 := congrArg (· - 1#32) hr.readyCount
    have h₁ : Represents pf initial w₁ (if fb.readyNext = none then
        { s with readyHead := fb.readyNext, readyCount := s.readyCount - 1#32, readyTail := none }
        else { s with readyHead := fb.readyNext, readyCount := s.readyCount - 1#32 }) := by
      have hcase : w₀.readyHead = 0#64 ↔ fb.readyNext = none := hnext.eq_zero
      simp only [w₁]
      by_cases hn : fb.readyNext = none
      · rw [if_pos hn, if_pos (hcase.mpr hn)]
        exact hr.setLine hnext points_none hcount
      · rw [if_neg hn, if_neg (fun h => hn (hcase.mp h))]
        exact hr.setLine hnext hr.tail hcount
    rw [hff]
    exact (h₁.setReadyNext f' points_none).next fun s₂ _ h₂ => .ok ⟨rfl, rfl, h₂⟩

end Represents

end Libuc
