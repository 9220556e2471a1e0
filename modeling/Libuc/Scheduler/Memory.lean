import Libuc.Scheduler.Places

/-! The fiber records and requests hold what the board says of each fiber. The
relation is local to the two memories, so the lemmas below are about maps alone:
one for each way the reactor writes to a record or a request. -/

namespace Libuc.Scheduler

def Task.life (t : Task) : Life :=
  if t.detached then .detached else if t.exit = none then .live else .exited

/-- The request the fiber's call leaves on its frame, with the answer so far. -/
def Task.request (t : Task) (a : Addr) (c : Call) : Request := ⟨c.ask, t.answer.getD 0#64, some a⟩

/-- Fiber records `F` and requests `R` hold the tasks `T`. -/
structure Memory (F : Addr → Option Fiber) (R : Addr → Option Request) (T : Addr → Option Task) :
    Prop where
  mapped : ∀ a, F a = none ↔ T a = none
  life : ∀ a fb t, F a = some fb → T a = some t → fb.life = t.life
  status : ∀ a fb t st, F a = some fb → T a = some t → t.exit = some st → fb.status = st
  context : ∀ a fb t, F a = some fb → T a = some t → (fb.context = .zeroed ↔ t.exit ≠ none)
  idle : ∀ a fb t, F a = some fb → T a = some t → t.call = none → fb.frame = none
  request : ∀ a fb t c, F a = some fb → T a = some t → t.call = some c →
    ∃ r, fb.frame = some r ∧ R r = some (t.request a c)
  owner : ∀ r q, R r = some q → ∃ a fb, q.fiber = some a ∧ F a = some fb ∧ fb.frame = some r
  unjoined : ∀ a fb t, F a = some fb → T a = some t → t.joiner = none → fb.joiner = none
  joined : ∀ a fb t j, F a = some fb → T a = some t → t.joiner = some j →
    ∃ r q, fb.joiner = some r ∧ R r = some q ∧ q.fiber = some j

def frames (F : Addr → Option Fiber) (a : Addr) : Option Addr := (F a).bind Fiber.frame

def relink (F : Addr → Option Fiber) (next : Addr → Option Addr) : Addr → Option Fiber :=
  fun a => (F a).map fun fb => { fb with readyNext := next a }

theorem relink_eq_none {F : Addr → Option Fiber} {next : Addr → Option Addr} {a : Addr} :
    relink F next a = none ↔ F a = none := by
  simp [relink]

theorem relink_eq_some {F : Addr → Option Fiber} {next : Addr → Option Addr} {a : Addr} {fb : Fiber} :
    relink F next a = some fb ↔ ∃ fb', F a = some fb' ∧ fb = { fb' with readyNext := next a } := by
  simp only [relink, Option.map_eq_some_iff, eq_comm (b := fb)]

theorem relink_of_some {F : Addr → Option Fiber} {a : Addr} {fb : Fiber} (h : F a = some fb)
    (next : Addr → Option Addr) : relink F next a = some { fb with readyNext := next a } := by
  simp [relink, h]

@[simp] theorem frames_relink (F : Addr → Option Fiber) (next : Addr → Option Addr) :
    frames (relink F next) = frames F := by
  funext a
  cases h : F a <;> simp [frames, relink, h]

namespace Memory

variable {F F' : Addr → Option Fiber} {R R' : Addr → Option Request} {T T' : Addr → Option Task}

theorem empty : Memory (fun _ => none) (fun _ => none) (fun _ => none) where
  mapped := by simp
  life := by simp
  status := by simp
  context := by simp
  idle := by simp
  request := by simp
  owner := by simp
  unjoined := by simp
  joined := by simp

theorem exists_fiber (h : Memory F R T) {a : Addr} {t : Task} (ht : T a = some t) :
    ∃ fb, F a = some fb :=
  Option.ne_none_iff_exists'.mp fun hn => by
    rw [(h.mapped a).mp hn] at ht
    cases ht

theorem exists_task (h : Memory F R T) {a : Addr} {fb : Fiber} (hf : F a = some fb) :
    ∃ t, T a = some t :=
  Option.ne_none_iff_exists'.mp fun hn => by
    rw [(h.mapped a).mpr hn] at hf
    cases hf

/-- The request at a fiber's frame is that fiber's. -/
theorem frame_fiber (h : Memory F R T) {a r : Addr} {fb : Fiber} (hf : F a = some fb)
    (hr : fb.frame = some r) : ∃ q, R r = some q ∧ q.fiber = some a := by
  obtain ⟨t, ht⟩ := h.exists_task hf
  cases hc : t.call with
  | none =>
    rw [h.idle a fb t hf ht hc] at hr
    cases hr
  | some c =>
    obtain ⟨r', hr', hq⟩ := h.request a fb t c hf ht hc
    rw [hr] at hr'
    cases hr'
    exact ⟨_, hq, rfl⟩

theorem frame_unique (h : Memory F R T) {a a' r : Addr} {fb fb' : Fiber} (hf : F a = some fb)
    (hf' : F a' = some fb') (hr : fb.frame = some r) (hr' : fb'.frame = some r) : a = a' := by
  obtain ⟨q, hq, ha⟩ := h.frame_fiber hf hr
  obtain ⟨q', hq', ha'⟩ := h.frame_fiber hf' hr'
  rw [hq] at hq'
  cases hq'
  rw [ha] at ha'
  exact Option.some.inj ha'

/-! ### One record at a time -/

/-- The record `fb` at `a` and the requests hold the task `t`. -/
structure Shown (R : Addr → Option Request) (a : Addr) (fb : Fiber) (t : Task) : Prop where
  life : fb.life = t.life
  status : ∀ st, t.exit = some st → fb.status = st
  context : fb.context = .zeroed ↔ t.exit ≠ none
  idle : t.call = none → fb.frame = none
  request : ∀ c, t.call = some c → ∃ r, fb.frame = some r ∧ R r = some (t.request a c)
  unjoined : t.joiner = none → fb.joiner = none
  joined : ∀ j, t.joiner = some j → ∃ r q, fb.joiner = some r ∧ R r = some q ∧ q.fiber = some j

theorem shown (h : Memory F R T) {a : Addr} {fb : Fiber} {t : Task} (hf : F a = some fb)
    (ht : T a = some t) :
    Shown R a fb t where
  life := h.life a fb t hf ht
  status st := h.status a fb t st hf ht
  context := h.context a fb t hf ht
  idle := h.idle a fb t hf ht
  request c := h.request a fb t c hf ht
  unjoined := h.unjoined a fb t hf ht
  joined j := h.joined a fb t j hf ht

theorem of_shown (mapped : ∀ a, F a = none ↔ T a = none)
    (shown : ∀ a fb t, F a = some fb → T a = some t → Shown R a fb t)
    (owner : ∀ r q, R r = some q → ∃ a fb, q.fiber = some a ∧ F a = some fb ∧ fb.frame = some r) :
    Memory F R T where
  mapped := mapped
  life a fb t hf ht := (shown a fb t hf ht).life
  status a fb t st hf ht := (shown a fb t hf ht).status st
  context a fb t hf ht := (shown a fb t hf ht).context
  idle a fb t hf ht := (shown a fb t hf ht).idle
  request a fb t c hf ht := (shown a fb t hf ht).request c
  owner := owner
  unjoined a fb t hf ht := (shown a fb t hf ht).unjoined
  joined a fb t j hf ht := (shown a fb t hf ht).joined j

/-- A record is shown by other requests, as long as its own is there and its joiner's is
still that fiber's. -/
theorem Shown.requests {a : Addr} {fb : Fiber} {t : Task} (h : Shown R a fb t)
    (hown : ∀ r, fb.frame = some r → R' r = R r)
    (hjoin : ∀ r q j, t.joiner = some j → R r = some q → q.fiber = some j → ∃ q', R' r = some q' ∧
      q'.fiber = some j) :
    Shown R' a fb t := by
  refine ⟨h.life, h.status, h.context, h.idle, fun c hc => ?_, h.unjoined, fun j hj => ?_⟩
  · obtain ⟨r, hr, hq⟩ := h.request c hc
    exact ⟨r, hr, by rw [hown r hr, hq]⟩
  · obtain ⟨r, q, hr, hq, hqj⟩ := h.joined j hj
    obtain ⟨q', hq', hqj'⟩ := hjoin r q j hj hq hqj
    exact ⟨r, q', hr, hq', hqj'⟩

theorem update (h : Memory F R T) {a : Addr} {fb : Fiber} {t : Task} (hself : Shown R' a fb t)
    (hother : ∀ u fu tu, u ≠ a → F u = some fu → T u = some tu → Shown R u fu tu → Shown R' u fu tu)
    (howner : ∀ r q, R' r = some q →
      ∃ u fu, q.fiber = some u ∧ Function.update F a (some fb) u = some fu ∧ fu.frame = some r) :
    Memory (Function.update F a (some fb)) R' (Function.update T a (some t)) := by
  refine of_shown (fun u => ?_) (fun u fu tu hf ht => ?_) howner
  · by_cases hu : u = a
    · rw [hu, Function.update_self, Function.update_self]
      simp
    · rw [Function.update_of_ne hu, Function.update_of_ne hu]
      exact h.mapped u
  · by_cases hu : u = a
    · subst hu
      rw [Function.update_self] at hf ht
      cases hf
      cases ht
      exact hself
    · rw [Function.update_of_ne hu] at hf ht
      exact hother u fu tu hu hf ht (h.shown hf ht)

/-- Every request still has its fiber, when a record is replaced by one with the same
frame. -/
theorem owner_update (h : Memory F R T) {a : Addr} {fb : Fiber} (hf : F a = some fb) (fb' : Fiber)
    (hframe : fb'.frame = fb.frame) {r : Addr} {q : Request} (hq : R r = some q) :
    ∃ u fu, q.fiber = some u ∧ Function.update F a (some fb') u = some fu ∧ fu.frame = some r := by
  obtain ⟨u, fu, hqu, hfu, hr⟩ := h.owner r q hq
  by_cases hu : u = a
  · subst hu
    rw [hf] at hfu
    cases hfu
    exact ⟨u, fb', hqu, Function.update_self _ _ _, by rw [hframe, hr]⟩
  · exact ⟨u, fu, hqu, by rw [Function.update_of_ne hu, hfu], hr⟩

/-! ### What the reactor writes -/

/-- The ready links are not part of the picture. -/
theorem relink (h : Memory F R T) (next : Addr → Option Addr) : Memory (relink F next) R T := by
  refine of_shown (fun a => ?_) (fun a fb t hf ht => ?_) (fun r q hq => ?_)
  · rw [relink_eq_none]
    exact h.mapped a
  · obtain ⟨fb, hfb, rfl⟩ := relink_eq_some.mp hf
    obtain ⟨hlife, hstatus, hcontext, hidle, hrequest, hunjoined, hjoined⟩ := h.shown hfb ht
    exact ⟨hlife, hstatus, hcontext, hidle, hrequest, hunjoined, hjoined⟩
  · obtain ⟨a, fb, ha, hf, hr⟩ := h.owner r q hq
    exact ⟨a, _, ha, relink_of_some hf next, hr⟩

/-- A fiber's call is answered through its request. -/
theorem answer (h : Memory F R T) {a r : Addr} {fb : Fiber} {t : Task} {q : Request}
    (hf : F a = some fb)
    (ht : T a = some t) (hr : fb.frame = some r) (hq : R r = some q) (v : Long) :
    Memory F (Function.update R r (some { q with result := v }))
      (Function.update T a (some { t with answer := some v })) := by
  have hkept : ∀ r' q', R r' = some q' →
      ∃ q'', Function.update R r (some { q with result := v }) r' = some q'' ∧
      q''.fiber = q'.fiber := by
    intro r' q' hq'
    by_cases hr' : r' = r
    · subst hr'
      rw [hq] at hq'
      cases hq'
      exact ⟨_, Function.update_self _ _ _, rfl⟩
    · exact ⟨q', by rw [Function.update_of_ne hr', hq'], rfl⟩
  have hjoin : ∀ r' q' j, R r' = some q' → q'.fiber = some j →
      ∃ q'', Function.update R r (some { q with result := v }) r' = some q'' ∧ q''.fiber = some j := by
    intro r' q' j hq' hj
    obtain ⟨q'', hq'', hfiber⟩ := hkept r' q' hq'
    exact ⟨q'', hq'', hfiber.trans hj⟩
  have hself := h.shown hf ht
  have hF : Function.update F a (some fb) = F := by rw [Function.update_eq_self_iff, hf]
  rw [← hF]
  refine h.update ?_ (fun u fu tu hu hfu htu hshown => ?_) (fun r' q' hq' => ?_)
  · refine ⟨hself.life, hself.status, hself.context, hself.idle, fun c hc => ?_, hself.unjoined,
      fun j hj => ?_⟩
    · obtain ⟨r', hr', hrequest⟩ := hself.request c hc
      rw [hr] at hr'
      cases hr'
      rw [hq] at hrequest
      cases hrequest
      exact ⟨r, hr, Function.update_self _ _ _⟩
    · obtain ⟨r', q', hr', hq', hqj⟩ := hself.joined j hj
      obtain ⟨q'', hq'', hfiber⟩ := hjoin r' q' j hq' hqj
      exact ⟨r', q'', hr', hq'', hfiber⟩
  · refine hshown.requests (fun r' hr' => Function.update_of_ne ?_ _ _) (fun r' q' j _ => hjoin r' q' j)
    rintro rfl
    exact hu (h.frame_unique hfu hf hr' hr)
  · by_cases hr' : r' = r
    · subst hr'
      rw [Function.update_self] at hq'
      cases hq'
      obtain ⟨u, fu, hqu, hfu, hru⟩ := h.owner_update hf fb rfl hq
      exact ⟨u, fu, hqu, hfu, hru⟩
    · rw [Function.update_of_ne hr'] at hq'
      exact h.owner_update hf _ rfl hq'

theorem detach (h : Memory F R T) {a : Addr} {fb : Fiber} {t : Task} (hf : F a = some fb)
    (ht : T a = some t) :
    Memory (Function.update F a (some { fb with life := .detached })) R
      (Function.update T a (some { t with detached := true })) := by
  obtain ⟨-, hstatus, hcontext, hidle, hrequest, hunjoined, hjoined⟩ := h.shown hf ht
  exact h.update ⟨rfl, hstatus, hcontext, hidle, hrequest, hunjoined, hjoined⟩
    (fun _ _ _ _ _ _ hshown => hshown)
    fun _ _ hq => h.owner_update hf { fb with life := .detached } rfl hq

/-- A fiber's request is stored in its target's joiner slot. -/
theorem join (h : Memory F R T) {a j r : Addr} {fb : Fiber} {t : Task} {q : Request}
    (hf : F a = some fb) (ht : T a = some t) (hq : R r = some q) (hj : q.fiber = some j) :
    Memory (Function.update F a (some { fb with joiner := some r })) R
      (Function.update T a (some { t with joiner := some j })) := by
  obtain ⟨hlife, hstatus, hcontext, hidle, hrequest, -, -⟩ := h.shown hf ht
  refine h.update ⟨hlife, hstatus, hcontext, hidle, hrequest, fun hnone => ?_, fun j' hj' => ?_⟩
    (fun _ _ _ _ _ _ hshown => hshown) fun _ _ hq =>
      h.owner_update hf { fb with joiner := some r } rfl hq
  · cases hnone
  · cases hj'
    exact ⟨r, q, rfl, hq, hj⟩

theorem spawn (h : Memory F R T) {c : Addr} (hc : T c = none) (argument : SpawnRequest) :
    Memory (Function.update F c (some (Fiber.spawned argument))) R
      (Function.update T c (some Task.new)) := by
  have hF : F c = none := (h.mapped c).mpr hc
  refine h.update ⟨rfl, ?_, ?_, fun _ => rfl, ?_, fun _ => rfl, ?_⟩
    (fun _ _ _ _ _ _ hshown => hshown) fun r q hq => ?_
  · simp
  · simp [Fiber.spawned]
  · simp [Task.new]
  · simp [Task.new]
  · obtain ⟨u, fu, hqu, hfu, hr⟩ := h.owner r q hq
    have hne : u ≠ c := by
      rintro rfl
      rw [hF] at hfu
      cases hfu
    exact ⟨u, fu, hqu, by rw [Function.update_of_ne hne, hfu], hr⟩

theorem dropFrame_eq_some {fb : Fiber} {r : Addr} {q : Request} :
    dropFrame R fb.frame r = some q ↔ R r = some q ∧ fb.frame ≠ some r := by
  unfold dropFrame
  cases fb.frame with
  | none => simp
  | some r' =>
    by_cases hr : r = r'
    · simp [hr]
    · simp [hr, Ne.symm hr]

/-- A fiber nobody joins for loses its request: the other fibers' records are as before. -/
theorem Shown.dropFrame (h : Memory F R T) {a u : Addr} {fb fu : Fiber} {tu : Task}
    (hf : F a = some fb) (hu : u ≠ a)
    (hfu : F u = some fu) (hj : tu.joiner ≠ some a) (hshown : Shown R u fu tu) :
    Shown (dropFrame R fb.frame) u fu tu := by
  refine hshown.requests (fun r hr => ?_) (fun r q j hjoiner hq hqj => ⟨q, ?_, hqj⟩)
  · obtain ⟨q, hq, -⟩ := h.frame_fiber hfu hr
    rw [hq, dropFrame_eq_some]
    exact ⟨hq, fun hr' => hu (h.frame_unique hfu hf hr hr')⟩
  · refine dropFrame_eq_some.mpr ⟨hq, fun hr' => hj ?_⟩
    -- the request is the joiner's, and it is on the frame of `a`
    obtain ⟨q', hq', hqa⟩ := h.frame_fiber hf hr'
    rw [hq] at hq'
    cases hq'
    rw [hjoiner, ← hqj, hqa]

/-- A fiber nobody's joiner slot leads to is destroyed. -/
theorem destroy (h : Memory F R T) {a : Addr} {fb : Fiber} (hf : F a = some fb)
    (hj : ∀ u t, T u = some t → t.joiner ≠ some a) :
    Memory (Function.update F a none) (dropFrame R fb.frame) (Function.update T a none) := by
  refine of_shown (fun u => ?_) (fun u fu tu hfu htu => ?_) (fun r q hq => ?_)
  · by_cases hu : u = a
    · rw [hu, Function.update_self, Function.update_self]
      simp
    · rw [Function.update_of_ne hu, Function.update_of_ne hu]
      exact h.mapped u
  · have hu : u ≠ a := by
      rintro rfl
      rw [Function.update_self] at hfu
      cases hfu
    rw [Function.update_of_ne hu] at hfu htu
    exact Shown.dropFrame h hf hu hfu (hj u tu htu) (h.shown hfu htu)
  · obtain ⟨hq, hr⟩ := dropFrame_eq_some.mp hq
    obtain ⟨u, fu, hqu, hfu, hru⟩ := h.owner r q hq
    have hu : u ≠ a := by
      rintro rfl
      rw [hf] at hfu
      cases hfu
      exact hr hru
    exact ⟨u, fu, hqu, by rw [Function.update_of_ne hu, hfu], hru⟩

/-- A fiber runs on to its next call. -/
theorem suspend (h : Memory F R T) {a r : Addr} {fb : Fiber} {t : Task} (hf : F a = some fb)
    (ht : T a = some t) (hx : t.exit = none) (hj : ∀ u t, T u = some t → t.joiner ≠ some a)
    (hr : ∀ q, R r = some q → q.fiber = some a) (call : Call) :
    Memory (Function.update F a (some (fb.suspend call r)))
      (Function.update (dropFrame R fb.frame) r (some ⟨call.ask, 0#64, some a⟩))
      (Function.update T a (some (t.suspend call))) := by
  have hself := h.shown hf ht
  have hframe : (fb.suspend call r).frame = some r := by cases call <;> rfl
  have hjoin : (fb.suspend call r).joiner = fb.joiner := by cases call <;> rfl
  have hlife : (fb.suspend call r).life = (t.suspend call).life := by
    have hl := hself.life
    rw [Task.life, hx] at hl
    cases hd : t.detached <;> rw [hd] at hl <;> cases call <;> simp [Fiber.suspend, Task.suspend,
      Task.life, Task.exit, hd, hl]
  have hcontext : (fb.suspend call r).context = .zeroed ↔ (t.suspend call).exit ≠ none := by
    cases call <;> simp [Fiber.suspend, Task.suspend, Task.exit]
  have hstatus : ∀ st, (t.suspend call).exit = some st → (fb.suspend call r).status = st := by
    cases call <;> simp [Fiber.suspend, Task.suspend, Task.exit]
  have hrequest : (t.suspend call).request a call = ⟨call.ask, 0#64, some a⟩ := by cases call <;> rfl
  -- a request of another fiber is where it was, since the new frame was free or this fiber's
  have hkept : ∀ r' q j, j ≠ a → dropFrame R fb.frame r' = some q → q.fiber = some j →
      Function.update (dropFrame R fb.frame) r (some ⟨call.ask, 0#64, some a⟩) r' = some q := by
    intro r' q j hne hq hqj
    rw [Function.update_of_ne, hq]
    rintro rfl
    have hqa := hr q (dropFrame_eq_some.mp hq).1
    rw [hqj] at hqa
    exact hne (Option.some.inj hqa)
  have hcalled : (t.suspend call).call ≠ none := by simp [Task.suspend]
  refine h.update ⟨hlife, hstatus, hcontext, fun hnone => absurd hnone hcalled, ?_, ?_, ?_⟩
    (fun u fu tu hu hfu htu hshown => ?_) (fun r' q hq => ?_)
  · intro c hc
    cases hc
    exact ⟨r, hframe, by rw [Function.update_self, hrequest]⟩
  · rw [hjoin]
    exact hself.unjoined
  · intro j hjoiner
    have hja : j ≠ a := by
      rintro rfl
      exact hj j t ht hjoiner
    obtain ⟨r', q, hr', hq, hqj⟩ := hself.joined j hjoiner
    refine ⟨r', q, hjoin.trans hr',
      hkept r' q j hja (dropFrame_eq_some.mpr ⟨hq, fun hown => hja ?_⟩) hqj, hqj⟩
    obtain ⟨q', hq', hqa⟩ := h.frame_fiber hf hown
    rw [hq] at hq'
    cases hq'
    exact Option.some.inj (hqj.symm.trans hqa)
  · have hdropped := Shown.dropFrame h hf hu hfu (hj u tu htu) hshown
    refine hdropped.requests (fun r' hr' => ?_)
      (fun r' q j hjoiner hq hqj => ⟨q, hkept r' q j ?_ hq hqj, hqj⟩)
    · refine Function.update_of_ne ?_ _ _
      rintro rfl
      obtain ⟨q, hq, hqu⟩ := h.frame_fiber hfu hr'
      exact hu (Option.some.inj (hqu.symm.trans (hr q hq)))
    · rintro rfl
      exact hj u tu htu hjoiner
  · by_cases hr' : r' = r
    · subst hr'
      rw [Function.update_self] at hq
      cases hq
      exact ⟨a, _, rfl, Function.update_self _ _ _, hframe⟩
    · rw [Function.update_of_ne hr', dropFrame_eq_some] at hq
      obtain ⟨hq, hne⟩ := hq
      obtain ⟨u, fu, hqu, hfu, hru⟩ := h.owner r' q hq
      have hu : u ≠ a := by
        rintro rfl
        rw [hf] at hfu
        cases hfu
        exact hne hru
      exact ⟨u, fu, hqu, by rw [Function.update_of_ne hu, hfu], hru⟩

end Memory

end Libuc.Scheduler
