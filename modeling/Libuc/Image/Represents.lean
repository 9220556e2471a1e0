import Libuc.Image.Seat
import Libuc.Lib.Follow
import Libuc.Scheduler.Refinement

/-! The image stands for a state of the scheduler: every live record is seated, and the
mappings are those the process began with and two for each record, apart from one
another. One rule says what a write into the stack of one fiber does to all this; the
operations on the ready list and the requests follow from it. -/

namespace Libuc

open Lib FiberRecord

/-- The mappings are the process's own and two for each fiber, and no two meet. -/
structure Owns (initial mappings : Finset Mapping) (live : List Holding) : Prop where
  account : mappings = initial ∪ (held live).toFinset
  distinct : (held live).Nodup
  own : ∀ m ∈ held live, m ∉ initial
  apart : ∀ m ∈ mappings, ∀ m' ∈ mappings, m ≠ m' →
    Separate m.base m.length.toNat m'.base m'.length.toNat

/-- Fiber records `F` and requests `R`, in memory. -/
structure Seats (pf : Platform) (m : Mem) (live : List Holding) (frames : Addr → Option Addr)
    (F : Addr → Option Fiber) (R : Addr → Option Request) : Prop where
  frames : ∀ a fb, F a = some fb → frames a = fb.frame
  mapped : ∀ a fb, F a = some fb → ∃ h ∈ live, h.fiber = a
  seated : ∀ h ∈ live, ∃ fb, F h.fiber = some fb ∧ Seated pf m R h fb
  owner : ∀ r q, R r = some q → ∃ a fb, q.fiber = some a ∧ F a = some fb ∧ fb.frame = some r

/-- The scheduler `s`, in the bytes of `w`. -/
structure Represents (pf : Platform) (initial : Finset Mapping) (w : Image) (s : Scheduler.State) :
    Prop where
  ring : w.ring = s.ring
  head : Points w.readyHead s.readyHead
  tail : Points w.readyTail s.readyTail
  readyCount : w.readyCount = s.readyCount
  parkedCount : w.parkedCount = s.parkedCount
  joiningCount : w.joiningCount = s.joiningCount
  operations : w.held = s.held
  taken : w.taken = s.taken
  control : w.control = s.control
  log : w.log = s.log
  owns : Owns initial w.process.mappings w.live
  seats : Seats pf w.memory w.live w.frames s.fibers s.requests

variable {pf : Platform} {initial mappings : Finset Mapping} {live : List Holding} {h g : Holding}
  {fb fb' : Fiber} {m m' : Mem}
  {a r : Addr} {frames frames' : Addr → Option Addr} {F : Addr → Option Fiber}
    {R R' : Addr → Option Request}

theorem held_disjoint (hd : (held live).Nodup) (hh : h ∈ live) (hg : g ∈ live) (hne : h ≠ g)
    {x y : Mapping} (hx : x ∈ [h.stack, h.block]) (hy : y ∈ [g.stack, g.block]) : x ≠ y := by
  have hsymm : Std.Symm (Function.onFun List.Disjoint fun h : Holding => [h.stack, h.block]) :=
    ⟨fun _ _ hab => List.Disjoint.symm hab⟩
  obtain ⟨-, hpair⟩ := List.nodup_flatMap.mp hd
  have hdisjoint := hpair.forall hh hg hne
  rintro rfl
  exact hdisjoint hx hy

namespace Owns

theorem mem (ho : Owns initial mappings live) {x : Mapping} (hx : x ∈ held live) : x ∈ mappings := by
  rw [ho.account]
  exact Finset.mem_union_right _ (List.mem_toFinset.mpr hx)

theorem separate (ho : Owns initial mappings live) (hh : h ∈ live) (hg : g ∈ live) (hne : h ≠ g)
    {x y : Mapping} (hx : x ∈ [h.stack, h.block]) (hy : y ∈ [g.stack, g.block]) :
    Separate x.base x.length.toNat y.base y.length.toNat :=
  ho.apart x (ho.mem (List.mem_flatMap.mpr ⟨h, hh, hx⟩)) y (ho.mem (List.mem_flatMap.mpr ⟨g, hg, hy⟩))
    (held_disjoint ho.distinct hh hg hne hx hy)

end Owns

namespace Seats

theorem eq_of_fiber (hs : Seats pf m live frames F R) (hh : h ∈ live) (hg : g ∈ live)
    (he : h.fiber = g.fiber) : h = g := by
  obtain ⟨fb, -, hs₁⟩ := hs.seated h hh
  obtain ⟨fb', -, hs₂⟩ := hs.seated g hg
  rw [← hs₁.holding, ← hs₂.holding, he]

theorem seat (hs : Seats pf m live frames F R) (hf : F a = some fb) :
    ∃ h ∈ live, h.fiber = a ∧ Seated pf m R h fb := by
  obtain ⟨h, hh, rfl⟩ := hs.mapped a fb hf
  obtain ⟨fb', hf', hseated⟩ := hs.seated h hh
  rw [hf] at hf'
  cases hf'
  exact ⟨h, hh, rfl, hseated⟩

theorem seated_of (hs : Seats pf m live frames F R) (hh : h ∈ live) (hf : F h.fiber = some fb) :
    Seated pf m R h fb := by
  obtain ⟨g, hg, he, hseated⟩ := hs.seat hf
  cases hs.eq_of_fiber hg hh he
  exact hseated

/-- What is written in the stack of one fiber leaves every other fiber seated. -/
theorem touched (ho : Owns initial mappings live) (hh : h ∈ live)
    (ht : Touches h.stack.base h.stack.length.toNat m m')
    (hg : g ∈ live) (hne : g ≠ h) (hseated : Seated pf m R g fb) : Seated pf m' R g fb := by
  refine hseated.keeps fun range hrange => ?_
  by_cases hn : range.2 = 0
  · rw [hn]
    intro x hx
    exact absurd (by unfold Outside; omega) hx
  · refine ht.keeps ?_
    rcases hseated.guarded_inside range hrange hn with ⟨hlow, hhigh⟩ | ⟨hlow, hhigh⟩
    · exact (ho.separate hg hh hne (x := g.stack) (y := h.stack) (by simp) (by simp)).sub hlow hhigh
    · exact (ho.separate hg hh hne (x := g.block) (y := h.stack) (by simp) (by simp)).sub hlow hhigh

/-- One fiber changes: its record, its request, and bytes of its stack. -/
theorem reseat (hs : Seats pf m live frames F R) (ho : Owns initial mappings live) (hh : h ∈ live)
    (ht : Touches h.stack.base h.stack.length.toNat m m') (hseated : Seated pf m' R' h fb')
    (hother : ∀ r q, q.fiber ≠ some h.fiber → R r = some q → R' r = some q)
    (hown : ∀ r q, R' r = some q → (q.fiber = some h.fiber ∧ fb'.frame = some r) ∨
      (R r = some q ∧ q.fiber ≠ some h.fiber))
    (hframe : frames' h.fiber = fb'.frame) (hframes : ∀ a, a ≠ h.fiber → frames' a = frames a) :
    Seats pf m' live frames' (Function.update F h.fiber (some fb')) R' := by
  refine ⟨fun a fa ha => ?_, fun a fa ha => ?_, fun g hg => ?_, fun r q hq => ?_⟩
  · by_cases hne : a = h.fiber
    · subst hne
      rw [Function.update_self] at ha
      cases ha
      exact hframe
    · rw [Function.update_of_ne hne] at ha
      exact (hframes a hne).trans (hs.frames a fa ha)
  · by_cases hne : a = h.fiber
    · exact ⟨h, hh, hne.symm⟩
    · rw [Function.update_of_ne hne] at ha
      exact hs.mapped a fa ha
  · by_cases hgh : g = h
    · subst hgh
      exact ⟨fb', Function.update_self _ _ _, hseated⟩
    · have hfiber : g.fiber ≠ h.fiber := fun he => hgh (hs.eq_of_fiber hg hh he)
      obtain ⟨fu, hfu, hsu⟩ := hs.seated g hg
      refine ⟨fu, (Function.update_of_ne hfiber _ _).trans hfu, ?_⟩
      refine (touched ho hh ht hg hgh hsu).requests_congr fun r hr => ?_
      obtain ⟨q, hq, hqg, -⟩ := hsu.request r hr
      rw [hq]
      refine hother r q (fun he => hfiber ?_) hq
      exact Option.some.inj (hqg.symm.trans he)
  · rcases hown r q hq with ⟨hfiber, hr'⟩ | ⟨hq', hfiber⟩
    · exact ⟨h.fiber, fb', hfiber, Function.update_self _ _ _, hr'⟩
    · obtain ⟨u, fu, hqu, hfu, hru⟩ := hs.owner r q hq'
      refine ⟨u, fu, hqu, (Function.update_of_ne ?_ _ _).trans hfu, hru⟩
      rintro rfl
      exact hfiber hqu

theorem frame_of_request (hs : Seats pf m live frames F R) {q : Request} (hf : F h.fiber = some fb)
    (hq : R r = some q) (hfiber : q.fiber = some h.fiber) : fb.frame = some r := by
  obtain ⟨u, fu, hqu, hfu, hru⟩ := hs.owner r q hq
  cases hfiber.symm.trans hqu
  rw [hf] at hfu
  cases hfu
  exact hru

/-- The reactor writes into a record. -/
theorem record (hs : Seats pf m live frames F R) (ho : Owns initial mappings live) (hh : h ∈ live)
    (hf : F h.fiber = some fb) (ht : Touches h.fiber (FiberRecord.size pf.arch) m m')
    (hfixed : Seated.Fixed (contents pf.arch m h.fiber) (contents pf.arch m' h.fiber))
    (hshows : (contents pf.arch m' h.fiber).Shows fb') (hframe : fb'.frame = fb.frame) :
    Seats pf m' live frames (Function.update F h.fiber (some fb')) R := by
  have hseated := hs.seated_of hh hf
  obtain ⟨hlow, hhigh⟩ := hseated.inside
  refine hs.reseat ho hh (ht.mono hlow hhigh) (hseated.record ht hfixed hshows hframe)
    (fun _ _ _ hq => hq) (fun r q hq => ?_) ((hs.frames _ _ hf).trans hframe.symm) (fun _ _ => rfl)
  by_cases hfiber : q.fiber = some h.fiber
  · exact .inl ⟨hfiber, hframe.trans (hs.frame_of_request hf hq hfiber)⟩
  · exact .inr ⟨hq, hfiber⟩

/-- The reactor answers a request. -/
theorem setResult (hs : Seats pf m live frames F R) (ho : Owns initial mappings live) {q : Request}
    (hq : R r = some q) (v : Long) : Seats pf (RequestRecord.setResult m r v) live frames F
    (Function.update R r (some { q with result := v })) := by
  obtain ⟨a, fb, hqa, hf, hr⟩ := hs.owner r q hq
  obtain ⟨h, hh, rfl, hseated⟩ := hs.seat hf
  obtain ⟨q', hq', -, -, hlodged⟩ := hseated.request r hr
  have hlow := hlodged.low
  have hhigh := hlodged.high
  have hin := hseated.inside.2
  obtain ⟨-, h16, -⟩ := RequestRecord.word_toNat hlodged.fits
  have ht : Touches h.stack.base h.stack.length.toNat m (RequestRecord.setResult m r v) := by
    have hfits := hlodged.fits
    exact (touches_store64 m v (by omega)).mono (by omega) (by omega)
  have hF : Function.update F h.fiber (some fb) = F := by rw [Function.update_eq_self_iff, hf]
  rw [← hF]
  refine hs.reseat ho hh ht (hseated.setResult hr hq v) (fun r' p hp hp' => ?_) (fun r' p hp => ?_)
    (hs.frames _ _ hf) (fun _ _ => rfl)
  · rw [Function.update_of_ne, hp']
    rintro rfl
    rw [hq] at hp'
    cases hp'
    exact hp hqa
  · by_cases hr' : r' = r
    · subst hr'
      rw [Function.update_self] at hp
      cases hp
      exact .inl ⟨hqa, hr⟩
    · rw [Function.update_of_ne hr'] at hp
      by_cases hfiber : p.fiber = some h.fiber
      · exact .inl ⟨hfiber, hs.frame_of_request hf hp hfiber⟩
      · exact .inr ⟨hp, hfiber⟩

end Seats

end Libuc
