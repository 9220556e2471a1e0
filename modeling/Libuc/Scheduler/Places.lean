import Libuc.Scheduler.Board

/-! Every fiber is in exactly one place, on the board of every legal log. The
events are cut into a few kinds of change: a fiber moves between lists, a fiber
in hand is answered, a fiber appears, a fiber disappears. Each kind keeps the
invariant, and each event is one or two of them. -/

namespace Libuc.Scheduler

namespace Task

@[simp] theorem exit_new : Task.new.exit = none := rfl

theorem exit_eq_some {t : Task} {status : CInt} :
    t.exit = some status ↔ t.call = some (.exit status) := by
  unfold exit
  split <;> simp_all

theorem exit_eq_none_of_call {t : Task} {call : Call} (h : t.call = some call)
    (hne : ∀ status, call ≠ .exit status) : t.exit = none := by
  unfold exit
  rw [h]
  cases call with
  | exit status => exact absurd rfl (hne status)
  | _ => rfl

theorem zombie_iff {t : Task} :
    t.zombie = true ↔ t.exit ≠ none ∧ t.detached = false ∧ t.joiner = none := by
  simp [zombie, Option.isSome_iff_ne_none, and_assoc]

end Task

namespace Board

@[simp] theorem modify_self (b : Board) (f : Addr) (g : Task → Task) :
    (b.modify f g).tasks f = (b.tasks f).map g := by
  simp [modify]

@[simp] theorem modify_of_ne (b : Board) {f a : Addr} (g : Task → Task) (h : a ≠ f) :
    (b.modify f g).tasks a = b.tasks a := by
  simp [modify, h]

/-- The lists partition the fibers that are not blocked and not zombies. -/
structure Inv (b : Board) : Prop where
  nodup : b.placed.Nodup
  mapped : ∀ f ∈ b.placed, ∃ t, b.tasks f = some t
  ready : ∀ f ∈ b.ready, ∀ t, b.tasks f = some t → t.answer ≠ none
  op : ∀ o ∈ b.ops, b.Asks o.fiber (.await o.sqe)
  joiner : ∀ u t j, b.tasks u = some t → t.joiner = some j →
    b.Asks j (.join u) ∧ j ∉ b.placed ∧ t.detached = false
  unplaced : ∀ f t, b.tasks f = some t → f ∉ b.placed →
    t.zombie = true ∨ ∃ u tu, b.tasks u = some tu ∧ tu.joiner = some f
  ended : ∀ f t, b.tasks f = some t → t.exit ≠ none → t.answer = none

theorem inv_empty : Inv empty where
  nodup := by simp [placed, parked, ops, empty]
  mapped := by simp [placed, parked, ops, empty]
  ready := by simp [empty]
  op := by simp [ops, empty]
  joiner := by simp [empty]
  unplaced := by simp [empty]
  ended := by simp [empty]

variable {b b' : Board}

/-- A fiber blocked in a join or ended has no answer, so it is not ready. -/
theorem Asks.exit_none {f : Addr} {call : Call} (h : b.Asks f call)
    (hne : ∀ status, call ≠ .exit status) {t : Task} (ht : b.tasks f = some t) : t.exit = none := by
  obtain ⟨t', ht', hc, -⟩ := h
  rw [ht] at ht'
  cases ht'
  exact Task.exit_eq_none_of_call hc hne

theorem Asks.congr {f : Addr} {call : Call} (h : b.Asks f call) (he : b'.tasks f = b.tasks f) :
    b'.Asks f call := by
  obtain ⟨t, ht, hc, ha⟩ := h
  exact ⟨t, he.trans ht, hc, ha⟩

theorem Asks.unique {f : Addr} {call call' : Call} (h : b.Asks f call) (h' : b.Asks f call') :
    call = call' := by
  obtain ⟨t, ht, hc, -⟩ := h
  obtain ⟨t', ht', hc', -⟩ := h'
  rw [ht] at ht'
  cases ht'
  rw [hc] at hc'
  exact Option.some.inj hc'

theorem Inv.joiner_ne (h : b.Inv) {u f : Addr} {t : Task} (ht : b.tasks u = some t)
    (hf : f ∈ b.placed) :
    t.joiner ≠ some f := fun hj => (h.joiner u t f ht hj).2.1 hf

/-- An ended fiber is a zombie, or in hand. -/
theorem Inv.zombie_of_ended (h : b.Inv) {f : Addr} {t : Task} (ht : b.tasks f = some t)
    (he : t.exit ≠ none) (hh : f ∉ b.hand) : t.zombie = true := by
  have ha := h.ended f t ht he
  have hp : f ∉ b.placed := by
    intro hp
    simp only [placed, List.mem_append] at hp
    rcases hp with (hp | hp) | hp
    · exact h.ready f hp t ht ha
    · exact hh hp
    · obtain ⟨o, ho, rfl⟩ := List.mem_map.mp hp
      exact he ((h.op o ho).exit_none (by simp) ht)
  rcases h.unplaced f t ht hp with hz | ⟨u, tu, hu, hj⟩
  · exact hz
  · exact absurd ((h.joiner u tu f hu hj).1.exit_none (by simp) ht) he

/-! ### One fiber at a time -/

structure Stands (b : Board) (f : Addr) (t : Task) : Prop where
  ready : f ∈ b.ready → t.answer ≠ none
  joiner : ∀ j, t.joiner = some j → b.Asks j (.join f) ∧ j ∉ b.placed ∧ t.detached = false
  unplaced : f ∉ b.placed → t.zombie = true ∨ ∃ u tu, b.tasks u = some tu ∧ tu.joiner = some f
  ended : t.exit ≠ none → t.answer = none

theorem Inv.stands (h : b.Inv) {f : Addr} {t : Task} (ht : b.tasks f = some t) : Stands b f t where
  ready hf := h.ready f hf t ht
  joiner j := h.joiner f t j ht
  unplaced := h.unplaced f t ht
  ended := h.ended f t ht

theorem inv_of_stands (nodup : b.placed.Nodup) (mapped : ∀ f ∈ b.placed, ∃ t, b.tasks f = some t)
    (op : ∀ o ∈ b.ops, b.Asks o.fiber (.await o.sqe)) (stands : ∀ f t, b.tasks f = some t →
      Stands b f t) : b.Inv where
  nodup := nodup
  mapped := mapped
  ready f hf t ht := (stands f t ht).ready hf
  op := op
  joiner u t j ht := (stands u t ht).joiner j
  unplaced f t ht := (stands f t ht).unplaced
  ended f t ht := (stands f t ht).ended

theorem Stands.keep {a : Addr} {t : Task} (h : Stands b a t) (hready : a ∈ b'.ready → a ∈ b.ready)
    (hjoiner : ∀ j, t.joiner = some j → b.Asks j (.join a) → j ∉ b.placed → b'.Asks j (.join a) ∧
      j ∉ b'.placed)
    (hunplaced : a ∉ b'.placed → a ∈ b.placed → ∃ u tu, b'.tasks u = some tu ∧ tu.joiner = some a)
    (hjoins : a ∉ b'.placed → ∀ u tu, b.tasks u = some tu → tu.joiner = some a →
      ∃ tu', b'.tasks u = some tu' ∧ tu'.joiner = some a) : Stands b' a t := by
  refine ⟨fun ha => h.ready (hready ha), fun j hj => ?_, fun ha => ?_, h.ended⟩
  · obtain ⟨hask, hp, hd⟩ := h.joiner j hj
    obtain ⟨hask', hp'⟩ := hjoiner j hj hask hp
    exact ⟨hask', hp', hd⟩
  · by_cases hold : a ∈ b.placed
    · exact .inr (hunplaced ha hold)
    · rcases h.unplaced hold with hz | ⟨u, tu, hu, hj⟩
      · exact .inl hz
      · obtain ⟨tu', hu', hj'⟩ := hjoins ha u tu hu hj
        exact .inr ⟨u, tu', hu', hj'⟩

theorem Asks.ne_of_none {f c : Addr} {call : Call} (h : b.Asks f call) (hc : b.tasks c = none) :
    f ≠ c := by
  rintro rfl
  obtain ⟨t, ht, -⟩ := h
  rw [hc] at ht
  cases ht

/-- A change of a task that keeps its call and its answer. -/
theorem Asks.of_kept {u : Addr} {t t' : Task} (ht : b.tasks u = some t) (hself : b'.tasks u = some t')
    (hother : ∀ a, a ≠ u → b'.tasks a = b.tasks a) (hcall : t'.call = t.call)
    (hanswer : t'.answer = t.answer)
    {f : Addr} {call : Call} (h : b.Asks f call) : b'.Asks f call := by
  by_cases hf : f = u
  · subst hf
    obtain ⟨t₀, ht₀, hc, ha⟩ := h
    rw [ht] at ht₀
    cases ht₀
    exact ⟨t', hself, hcall.trans hc, hanswer.trans ha⟩
  · exact h.congr (hother f hf)

theorem Asks.of_ended {f u : Addr} {t : Task} {call : Call} (h : b.Asks f call)
    (ht : b.tasks u = some t) (he : t.exit ≠ none)
    (hother : ∀ a, a ≠ u → b'.tasks a = b.tasks a) (hc : ∀ status, call ≠ .exit status) :
    b'.Asks f call := by
  refine h.congr (hother f ?_)
  rintro rfl
  exact he (h.exit_none hc ht)

/-- A change of a task that nobody has joined keeps who waits for whom. -/
theorem joins_kept {u : Addr} {t : Task} (ht : b.tasks u = some t) (hj : t.joiner = none)
    (hother : ∀ a, a ≠ u → b'.tasks a = b.tasks a) {a w : Addr} {tw : Task} (hw : b.tasks w = some tw)
    (hjw : tw.joiner = some a) : ∃ tw', b'.tasks w = some tw' ∧ tw'.joiner = some a := by
  have hne : w ≠ u := by
    rintro rfl
    rw [ht] at hw
    cases hw
    rw [hj] at hjw
    cases hjw
  exact ⟨tw, by rw [hother w hne, hw], hjw⟩

/-! ### Kinds of change -/

/-- Fibers move between the lists. -/
theorem Inv.move (h : b.Inv) (ht : b'.tasks = b.tasks) (hp : b'.placed.Perm b.placed)
    (hr : ∀ f ∈ b'.ready, ∀ t, b.tasks f = some t → t.answer ≠ none)
    (ho : ∀ o ∈ b'.ops, b.Asks o.fiber (.await o.sqe)) : b'.Inv where
  nodup := hp.nodup_iff.mpr h.nodup
  mapped := by
    intro f hf
    rw [ht]
    exact h.mapped f (hp.mem_iff.mp hf)
  ready := by rw [ht]; exact hr
  op := fun o hm => (ho o hm).congr (by rw [ht])
  joiner := by
    intro u t j hu hj
    rw [ht] at hu
    obtain ⟨h1, h2, h3⟩ := h.joiner u t j hu hj
    exact ⟨h1.congr (by rw [ht]), fun hm => h2 (hp.mem_iff.mp hm), h3⟩
  unplaced := by
    intro f t hf hn
    rw [ht] at hf ⊢
    exact h.unplaced f t hf (fun hm => hn (hp.mem_iff.mpr hm))
  ended := by rw [ht]; exact h.ended

/-- The record of a fiber in hand changes, the claims on it apart. -/
theorem Inv.handle (h : b.Inv) {f : Addr} {t t' : Task} (ht : b.tasks f = some t)
    (hself : b'.tasks f = some t') (hother : ∀ a, a ≠ f → b'.tasks a = b.tasks a)
    (hp : b'.placed.Perm b.placed) (hf : f ∈ b'.hand) (hr : ∀ a ∈ b'.ready, a ∈ b.ready)
    (ho : b'.ops = b.ops) (hj : t'.joiner = t.joiner) (hd : t'.detached = t.detached)
    (he : t'.exit ≠ none → t'.answer = none) : b'.Inv := by
  have hnd := hp.nodup_iff.mpr h.nodup
  have hfp : f ∈ b'.placed := by simp [placed, hf]
  have hready : f ∉ b'.ready := by
    intro hm
    simp only [placed, List.append_assoc, List.nodup_append, List.mem_append] at hnd
    exact hnd.2.2 f hm f (Or.inl hf) rfl
  have hops : ∀ o ∈ b'.ops, o.fiber ≠ f := by
    rintro o hm rfl
    simp only [placed, List.nodup_append, List.mem_append] at hnd
    exact hnd.2.2 o.fiber (Or.inr hf) o.fiber (List.mem_map_of_mem hm) rfl
  have hmem : ∀ a, a ∈ b'.placed ↔ a ∈ b.placed := fun a => hp.mem_iff
  -- a fiber in hand is nobody's joiner
  have hjoiner : ∀ {a j}, b.Asks j (.join a) → j ∉ b.placed → b'.Asks j (.join a) ∧ j ∉ b'.placed := by
    intro a j hask hn
    have hne : j ≠ f := by
      rintro rfl
      exact hn ((hmem j).mp hfp)
    exact ⟨hask.congr (hother j hne), fun hm => hn ((hmem j).mp hm)⟩
  refine inv_of_stands hnd (fun a ha => ?_)
    (fun o hm => (h.op o (ho ▸ hm)).congr (hother _ (hops o hm))) fun a ta hta => ?_
  · by_cases haf : a = f
    · exact ⟨t', by rw [haf, hself]⟩
    · rw [hother a haf]
      exact h.mapped a ((hmem a).mp ha)
  · by_cases haf : a = f
    · subst haf
      rw [hself] at hta
      cases hta
      refine ⟨fun hm => absurd hm hready, fun j hj' => ?_, fun hn => absurd hfp hn, he⟩
      rw [hj] at hj'
      obtain ⟨hask, hn, hdet⟩ := (h.stands ht).joiner j hj'
      obtain ⟨hask', hn'⟩ := hjoiner hask hn
      exact ⟨hask', hn', hd.trans hdet⟩
    · rw [hother a haf] at hta
      refine (h.stands hta).keep (hr a) (fun j _ => hjoiner)
        (fun hn hm => absurd ((hmem a).mpr hm) hn) fun _ u tu hu hju => ?_
      by_cases huf : u = f
      · subst huf
        rw [ht] at hu
        cases hu
        exact ⟨t', hself, hj.trans hju⟩
      · exact ⟨tu, by rw [hother u huf, hu], hju⟩

/-- A new fiber appears in hand. -/
theorem Inv.insert (h : b.Inv) {c : Addr} (hc : b.tasks c = none) (hself : b'.tasks c = some Task.new)
    (hother : ∀ a, a ≠ c → b'.tasks a = b.tasks a) (hp : b'.placed.Perm (c :: b.placed))
    (hr : b'.ready = b.ready) (ho : b'.ops = b.ops) : b'.Inv := by
  have hcp : c ∉ b.placed := fun hm => by
    obtain ⟨t, ht⟩ := h.mapped c hm
    rw [hc] at ht
    cases ht
  have hmem : ∀ a, a ∈ b'.placed ↔ a = c ∨ a ∈ b.placed := fun a => by
    rw [hp.mem_iff, List.mem_cons]
  have hasks : ∀ {a call}, b.Asks a call → b'.Asks a call :=
    fun hask => hask.congr (hother _ (hask.ne_of_none hc))
  refine inv_of_stands (hp.nodup_iff.mpr (List.nodup_cons.mpr ⟨hcp, h.nodup⟩)) (fun a ha => ?_)
    (fun o hm => hasks (h.op o (ho ▸ hm))) fun a ta hta => ?_
  · rcases (hmem a).mp ha with rfl | ha
    · exact ⟨Task.new, hself⟩
    · obtain ⟨ta, hta⟩ := h.mapped a ha
      have hne : a ≠ c := by
        rintro rfl
        exact hcp ha
      exact ⟨ta, by rw [hother a hne, hta]⟩
  · by_cases hac : a = c
    · subst hac
      rw [hself] at hta
      cases hta
      refine ⟨fun _ => by simp [Task.new], fun j hj => ?_,
        fun hn => absurd ((hmem a).mpr (.inl rfl)) hn, fun hx => ?_⟩
      · cases hj
      · exact absurd Task.exit_new hx
    · rw [hother a hac] at hta
      refine (h.stands hta).keep (fun hm => hr ▸ hm) (fun j _ hask hn => ⟨hasks hask, fun hm => ?_⟩)
        (fun hn hm => absurd ((hmem a).mpr (.inr hm)) hn) fun _ u tu hu hju => ?_
      · rcases (hmem j).mp hm with hjc | hm
        · exact hask.ne_of_none hc hjc
        · exact hn hm
      · have huc : u ≠ c := by
          rintro rfl
          rw [hc] at hu
          cases hu
        exact ⟨tu, by rw [hother u huc, hu], hju⟩

/-- A fiber that has not ended is given up. -/
theorem Inv.giveUp (h : b.Inv) {u : Addr} {t : Task} (ht : b.tasks u = some t) (hj : t.joiner = none)
    (hself : b'.tasks u = some { t with detached := true })
    (hother : ∀ a, a ≠ u → b'.tasks a = b.tasks a) (hp : b'.placed = b.placed)
    (hr : b'.ready = b.ready) (ho : b'.ops = b.ops) (he : t.exit = none) : b'.Inv := by
  have hasks : ∀ {a call}, b.Asks a call → b'.Asks a call :=
    fun hask => Asks.of_kept ht hself hother rfl rfl hask
  refine inv_of_stands (hp ▸ h.nodup) (fun a ha => ?_) (fun o hm => hasks (h.op o (ho ▸ hm)))
    fun a ta hta => ?_
  · by_cases hau : a = u
    · exact ⟨_, by rw [hau, hself]⟩
    · rw [hother a hau]
      exact h.mapped a (hp ▸ ha)
  · by_cases hau : a = u
    · subst hau
      rw [hself] at hta
      cases hta
      have hstands := h.stands ht
      refine ⟨fun hm => hstands.ready (hr ▸ hm), fun j hj' => ?_, fun hn => ?_, fun hx => absurd he hx⟩
      · cases hj.symm.trans hj'
      · rcases hstands.unplaced (hp ▸ hn) with hz | ⟨w, tw, hw, hjw⟩
        · exact absurd he (Task.zombie_iff.mp hz).1
        · exact .inr ⟨w, joins_kept ht hj hother hw hjw⟩
    · rw [hother a hau] at hta
      exact (h.stands hta).keep (fun hm => hr ▸ hm) (fun j _ hask hn => ⟨hasks hask, hp ▸ hn⟩)
        (fun hn hm => absurd (hp ▸ hm) hn) fun _ w tw hw hjw => joins_kept ht hj hother hw hjw

/-- The fiber in hand blocks on another one. -/
theorem Inv.wait (h : b.Inv) {f u : Addr} {t : Task} (ht : b.tasks u = some t) (hj : t.joiner = none)
    (hself : b'.tasks u = some { t with joiner := some f })
    (hother : ∀ a, a ≠ u → b'.tasks a = b.tasks a) (hp : b.placed.Perm (f :: b'.placed))
    (hr : b'.ready = b.ready) (ho : b'.ops = b.ops) (he : t.exit = none) (hd : t.detached = false)
    (hask : b.Asks f (.join u)) : b'.Inv := by
  have hmem : ∀ a, a ∈ b.placed ↔ a = f ∨ a ∈ b'.placed := fun a => by
    rw [hp.mem_iff, List.mem_cons]
  obtain ⟨hf, hnd⟩ := List.nodup_cons.mp (hp.nodup_iff.mp h.nodup)
  have hasks : ∀ {a call}, b.Asks a call → b'.Asks a call :=
    fun hask => Asks.of_kept ht hself hother rfl rfl hask
  -- the only fiber that leaves the lists is the one that now waits for `u`
  have hleft : ∀ a, a ∉ b'.placed → a ∈ b.placed → ∃ w tw, b'.tasks w = some tw ∧
      tw.joiner = some a := by
    intro a hn hm
    obtain rfl := ((hmem a).mp hm).resolve_right hn
    exact ⟨u, _, hself, rfl⟩
  refine inv_of_stands hnd (fun a ha => ?_) (fun o hm => hasks (h.op o (ho ▸ hm))) fun a ta hta => ?_
  · by_cases hau : a = u
    · exact ⟨_, by rw [hau, hself]⟩
    · rw [hother a hau]
      exact h.mapped a ((hmem a).mpr (.inr ha))
  · by_cases hau : a = u
    · subst hau
      rw [hself] at hta
      cases hta
      have hstands := h.stands ht
      refine ⟨fun hm => hstands.ready (hr ▸ hm), fun j hj' => ?_, fun hn => ?_, fun hx => absurd he hx⟩
      · cases hj'
        exact ⟨hasks hask, hf, hd⟩
      · by_cases hold : a ∈ b.placed
        · exact .inr (hleft a hn hold)
        · rcases hstands.unplaced hold with hz | ⟨w, tw, hw, hjw⟩
          · exact absurd he (Task.zombie_iff.mp hz).1
          · exact .inr ⟨w, joins_kept ht hj hother hw hjw⟩
    · rw [hother a hau] at hta
      exact (h.stands hta).keep (fun hm => hr ▸ hm)
        (fun j _ hask hn => ⟨hasks hask, fun hm => hn ((hmem j).mpr (.inr hm))⟩)
        (hleft a) fun _ w tw hw hjw => joins_kept ht hj hother hw hjw

/-- An ended fiber in hand becomes a zombie; the fiber that waited for it, if
any, takes its place in hand. -/
theorem Inv.retire (h : b.Inv) {f : Addr} {t : Task} (ht : b.tasks f = some t)
    (hself : b'.tasks f = some { t with detached := false, joiner := none })
    (hother : ∀ a, a ≠ f → b'.tasks a = b.tasks a) (hf : f ∈ b.placed)
    (hp : (f :: b'.placed).Perm (t.joiner.toList ++ b.placed))
    (hr : b'.ready = b.ready) (ho : b'.ops = b.ops) (he : t.exit ≠ none) : b'.Inv := by
  have hz : ({ t with detached := false, joiner := none } : Task).zombie = true :=
    Task.zombie_iff.mpr ⟨he, rfl, rfl⟩
  have hjoin : (t.joiner.toList ++ b.placed).Nodup := by
    rw [List.nodup_append]
    refine ⟨by cases t.joiner <;> simp, h.nodup, ?_⟩
    rintro j hj a ha rfl
    exact (h.joiner f t j ht (by simpa using hj)).2.1 ha
  obtain ⟨hfp, hnd⟩ := List.nodup_cons.mp (hp.nodup_iff.mpr hjoin)
  have hmem : ∀ a, a = f ∨ a ∈ b'.placed ↔ t.joiner = some a ∨ a ∈ b.placed := fun a => by
    rw [← List.mem_cons, hp.mem_iff, List.mem_append, Option.mem_toList]
  refine inv_of_stands hnd (fun a ha => ?_)
    (fun o hm => (h.op o (ho ▸ hm)).of_ended ht he hother (by simp)) fun a ta hta => ?_
  · have hne : a ≠ f := by
      rintro rfl
      exact hfp ha
    rw [hother a hne]
    rcases (hmem a).mp (.inr ha) with hj | ha
    · obtain ⟨⟨ta, hta, -⟩, -⟩ := h.joiner f t a ht hj
      exact ⟨ta, hta⟩
    · exact h.mapped a ha
  · by_cases haf : a = f
    · subst haf
      rw [hself] at hta
      cases hta
      have hstands := h.stands ht
      refine ⟨fun hm => hstands.ready (hr ▸ hm), fun j hj => ?_, fun _ => .inl hz, hstands.ended⟩
      cases hj
    · rw [hother a haf] at hta
      refine (h.stands hta).keep (fun hm => hr ▸ hm)
        (fun j _ hask hn => ⟨hask.of_ended ht he hother (by simp), fun hm => ?_⟩)
        (fun hn hm => ?_) fun hn u tu hu hju => ?_
      · rcases (hmem j).mp (.inr hm) with hjf | hm
        · -- it would wait for two fibers
          cases hask.unique (h.joiner f t j ht hjf).1
          exact haf rfl
        · exact hn hm
      · exact absurd (((hmem a).mpr (.inr hm)).resolve_left haf) hn
      · have huf : u ≠ f := by
          rintro rfl
          rw [ht] at hu
          cases hu
          exact hn (((hmem a).mpr (.inl hju)).resolve_left haf)
        exact ⟨tu, by rw [hother u huf, hu], hju⟩

theorem Inv.erase (h : b.Inv) {f : Addr} {t : Task} (ht : b.tasks f = some t) (hf : f ∉ b.placed)
    (hself : b'.tasks f = none) (hother : ∀ a, a ≠ f → b'.tasks a = b.tasks a)
    (hp : b'.placed = b.placed) (hr : b'.ready = b.ready) (ho : b'.ops = b.ops)
    (he : t.exit ≠ none) (hj : t.joiner = none) : b'.Inv := by
  refine inv_of_stands (hp ▸ h.nodup) (fun a ha => ?_)
    (fun o hm => (h.op o (ho ▸ hm)).of_ended ht he hother (by simp))
    fun a ta hta => ?_
  · rw [hp] at ha
    have hne : a ≠ f := by
      rintro rfl
      exact hf ha
    rw [hother a hne]
    exact h.mapped a ha
  · have hne : a ≠ f := by
      rintro rfl
      rw [hself] at hta
      cases hta
    rw [hother a hne] at hta
    exact (h.stands hta).keep (fun hm => hr ▸ hm)
      (fun j _ hask hn => ⟨hask.of_ended ht he hother (by simp), hp ▸ hn⟩)
      (fun hn hm => absurd (hp ▸ hm) hn) fun _ w tw hw hjw => joins_kept ht hj hother hw hjw

theorem setAnswer_self {f : Addr} {t : Task} (ht : b.tasks f = some t) (v : Long) :
    (b.setAnswer f v).tasks f = some { t with answer := some v } := by
  simp [setAnswer, ht]

theorem setAnswer_of_ne {f a : Addr} (v : Long) (h : a ≠ f) : (b.setAnswer f v).tasks a = b.tasks a :=
  modify_of_ne b _ h

/-- A fiber in hand that has not ended is answered. -/
theorem Inv.setAnswer (h : b.Inv) {f : Addr} (hf : f ∈ b.hand)
    (he : ∀ t, b.tasks f = some t → t.exit = none) (v : Long) : (b.setAnswer f v).Inv := by
  obtain ⟨t, ht⟩ := h.mapped f (by simp [placed, hf])
  exact h.handle ht (setAnswer_self ht v) (fun a ha => setAnswer_of_ne v ha) (.refl _) hf
    (fun a ha => ha) rfl rfl rfl (fun hx => absurd (he t ht) hx)

/-! ### Events -/

theorem Inv.resume (h : b.Inv) {f : Addr} (hh : b.hand = []) (hf : b.ready.head? = some f)
    (answer : Option Long) (call : Call) : (b.apply (.resume f answer call)).Inv := by
  obtain ⟨rest, hr⟩ := List.head?_eq_some_iff.mp hf
  obtain ⟨t, ht⟩ := h.mapped f (by simp [placed, hr])
  have h1 : Inv { b with
      tasks := Function.update b.tasks f (some (t.suspend call)), ready := rest, hand := [f] } := by
    refine h.handle ht (Function.update_self _ _ _) (fun a ha => Function.update_of_ne ha _ _) ?_
      (by simp) (fun a ha => hr ▸ List.mem_cons_of_mem f ha) rfl rfl rfl ?_
    · simp only [placed, parked, ops, hr, hh, List.append_nil]
      exact List.perm_append_singleton f rest |>.append_right _
    · intro hx
      cases call with
      | exit status => rfl
      | _ => exact absurd rfl hx
  simp only [apply, ht, hr, List.tail_cons]
  split_ifs with hz
  · obtain ⟨hx, hd, hj⟩ := Task.zombie_iff.mp hz
    have hsame : ({ t.suspend call with detached := false, joiner := none } : Task) =
        t.suspend call := by
      rw [← hd, ← hj]
    refine h1.retire (Function.update_self _ _ _) ?_ (fun a ha => rfl) (by simp [placed]) ?_ rfl rfl hx
    · rw [hsame]
      exact Function.update_self _ _ _
    · rw [hj]
      simp only [placed, List.append_nil, Option.toList_none, List.nil_append]
      exact (List.perm_append_singleton f rest).symm.append_right _
  · exact h1

/-- The fiber a destruction is for has not ended itself. -/
theorem Reclaim.asker_exit {f g : Addr} (ask : b.Asks g (.join f) ∨ b.Asks g (.detach f)) {u : Task}
    (hu : b.tasks g = some u) : u.exit = none := by
  rcases ask with ask | ask
  · exact ask.exit_none (by simp) hu
  · exact ask.exit_none (by simp) hu

theorem Inv.destroy (h : b.Inv) {f : Addr} {t : Task} (ht : b.tasks f = some t) (hx : t.exit ≠ none)
    (hre : b.Reclaim f t) : (b.apply (.destroy f)).Inv := by
  simp only [Board.apply, ht]
  cases hre with
  | detached hh hd hj =>
    have hheir : b.heir f t = none := by simp [heir, hj, hh]
    have hz : Inv { b with
        tasks := Function.update b.tasks f (some { t with detached := false, joiner := none })
        hand := [] } := by
      refine h.retire ht (Function.update_self _ _ _) (fun a ha => Function.update_of_ne ha _ _)
        (by simp [placed, hh]) ?_ rfl rfl hx
      simp only [placed, hh, hj, List.append_nil, Option.toList_none, List.nil_append]
      exact (List.perm_append_singleton f b.ready).symm.append_right _
    have hnot : f ∉ b.ready ++ b.parked := by
      have hnd := h.nodup
      rw [placed, hh, List.append_assoc, List.singleton_append, List.nodup_middle] at hnd
      exact (List.nodup_cons.mp hnd).1
    rw [hheir]
    refine hz.erase (Function.update_self _ _ _) ?_ (Function.update_self _ _ _) ?_ rfl rfl rfl hx rfl
    · simpa [placed, parked, ops] using hnot
    · intro a ha
      simp only [Function.update_of_ne ha]
  | joined j hh hd hj =>
    have hheir : b.heir f t = some j := by simp [heir, hj]
    obtain ⟨hask, hjp, -⟩ := h.joiner f t j ht hj
    have hjf : j ≠ f := by
      rintro rfl
      exact hjp (by simp [placed, hh])
    have hz : Inv { b with
        tasks := Function.update b.tasks f (some { t with detached := false, joiner := none })
        hand := [j] } := by
      refine h.retire ht (Function.update_self _ _ _) (fun a ha => Function.update_of_ne ha _ _)
        (by simp [placed, hh]) ?_ rfl rfl hx
      refine List.perm_iff_count.mpr fun a => ?_
      simp only [placed, parked, ops, hh, hj, Option.toList_some, List.map_append, List.count_append,
        List.count_cons, List.count_nil]
      omega
    have hnot : f ∉ b.ready ++ b.parked := by
      have hnd := h.nodup
      rw [placed, hh, List.append_assoc, List.singleton_append, List.nodup_middle] at hnd
      exact (List.nodup_cons.mp hnd).1
    have hza := hz.setAnswer (f := j) (by simp) (fun u hu => by
      simp only [Function.update_of_ne hjf] at hu
      exact hask.exit_none (by simp) hu) (b.bequest j t)
    rw [hheir]
    refine hza.erase (f := f) ((setAnswer_of_ne _ hjf.symm).trans (Function.update_self _ _ _)) ?_
      (Function.update_self _ _ _) ?_ rfl rfl rfl hx rfl
    · simpa [placed, parked, ops, Board.setAnswer, modify, hjf.symm] using hnot
    · intro a ha
      by_cases haj : a = j
      · subst haj
        simp [Board.setAnswer, ha]
      · simp [Board.setAnswer, ha, haj]
  | asked g hh hne hd hj ask =>
    have hheir : b.heir f t = some g := by simp [heir, hj, hh, hne]
    have hnot : f ∉ b.placed := by
      intro hm
      simp only [placed, hh, List.mem_append, List.mem_singleton] at hm
      rcases hm with (hm | hm) | hm
      · exact h.ready f hm t ht (h.ended f t ht hx)
      · exact hne hm.symm
      · obtain ⟨o, ho, rfl⟩ := List.mem_map.mp hm
        exact hx ((h.op o ho).exit_none (by simp) ht)
    have hza := h.setAnswer (f := g) (by simp [hh]) (fun u hu => Reclaim.asker_exit ask hu)
        (b.bequest g t)
    rw [hheir]
    refine hza.erase (f := f) ((setAnswer_of_ne _ hne.symm).trans ht) hnot (Function.update_self _ _ _)
      (fun a ha => Function.update_of_ne ha _ _) ?_ rfl rfl hx hj
    simp only [placed, Board.setAnswer, modify, hh]
    rfl

/-- Every enabled event keeps the invariant. -/
theorem Inv.apply (h : b.Inv) {e : Event} (he : b.Enabled e) : (b.apply e).Inv := by
  cases e with
  | launch f =>
    obtain ⟨-, hf, hh⟩ := he
    refine h.insert hf (Function.update_self _ _ _)
      (fun a ha => Function.update_of_ne ha _ _) ?_ rfl rfl
    simp only [Board.apply, placed, hh, List.append_nil]
    exact (List.perm_append_singleton f b.ready).append_right _
  | enqueue f =>
    obtain ⟨rest, t, hh, ht, ha⟩ := he
    refine h.move rfl ?_ ?_ h.op
    · simp [Board.apply, placed, hh, parked, ops]
    · intro a hm
      rcases List.mem_append.mp hm with hm | hm
      · exact h.ready a hm
      · rw [List.mem_singleton.mp hm]
        intro t' ht'
        rw [ht] at ht'
        cases ht'
        exact ha
  | resume f answer call => exact h.resume he.1 he.2.1 answer call
  | spawn p result =>
    obtain ⟨hh, ⟨argument, hask⟩, hnew⟩ := he
    have hset : ∀ v, (b.setAnswer p v).Inv :=
      h.setAnswer (by simp [hh]) (fun t ht => hask.exit_none (by simp) ht)
    cases result with
    | none => exact hset 0#64
    | some c =>
      obtain ⟨-, hc⟩ := hnew c rfl
      have hcp : c ≠ p := by
        rintro rfl
        obtain ⟨t, ht, -⟩ := hask
        rw [hc] at ht
        cases ht
      refine (hset c).insert ((setAnswer_of_ne c hcp).trans hc) (Function.update_self _ _ _)
        (fun a ha => Function.update_of_ne ha _ _) ?_ rfl rfl
      have hhand : (b.setAnswer p c).hand = [p] := hh
      simp only [Board.apply, placed, hhand]
      rw [← List.singleton_append (l := [c]), ← List.append_assoc, List.append_assoc]
      exact List.perm_middle
  | block f u =>
    obtain ⟨hh, hfu, hask, t, ht, hx, hd, hj⟩ := he
    refine h.wait (f := f) ht hj ?_ (fun a ha => modify_of_ne b _ ha) ?_ rfl rfl hx hd hask
    · exact (modify_self b u _).trans (by rw [ht]; rfl)
    · simp only [Board.apply, placed, hh, List.append_nil]
      exact (List.perm_append_singleton f b.ready).append_right _
  | detach u =>
    obtain ⟨f, hh, hask, t, ht, hx, hd, hj⟩ := he
    have h1 : Inv (b.modify u fun v => { v with detached := true }) := by
      refine h.giveUp ht hj ?_ (fun a ha => modify_of_ne b _ ha) rfl rfl rfl hx
      rw [modify_self, ht]
      rfl
    have hh' : (b.modify u fun v => { v with detached := true }).hand = [f] := hh
    simp only [Board.apply, hh']
    refine h1.setAnswer (by simp [hh']) ?_ _
    intro t' ht'
    by_cases hfu : f = u
    · subst hfu
      rw [modify_self, ht] at ht'
      cases ht'
      exact hx
    · rw [modify_of_ne _ _ hfu] at ht'
      exact hask.exit_none (by simp) ht'
  | destroy f =>
    obtain ⟨t, ht, hx, hre⟩ := he
    exact h.destroy ht hx hre
  | stage f =>
    obtain ⟨hh, sqe, t, ht, hc, ha⟩ := he
    simp only [Board.apply, ht, Option.bind_some, hc]
    refine h.move rfl ?_ h.ready ?_
    · refine List.perm_iff_count.mpr fun a => ?_
      simp only [placed, parked, ops, hh, List.map_append, List.map_cons, List.map_nil,
        List.count_append, List.count_nil]
      omega
    · intro o ho
      simp only [ops, List.append_assoc, List.mem_append, List.mem_singleton] at ho
      by_cases hnew : o = ⟨b.count, f, sqe⟩
      · subst hnew
        exact ⟨t, ht, hc, ha⟩
      · refine h.op o ?_
        simp only [ops, List.append_assoc, List.mem_append]
        tauto
  | enter call =>
    refine h.move rfl ?_ h.ready ?_
    · refine List.perm_iff_count.mpr fun a => ?_
      have hsplit := congrArg (fun l => (l.map Op.fiber).count a)
        (List.take_append_drop call.taken.length b.staged)
      simp only [List.map_append, List.count_append] at hsplit
      simp only [Board.apply, placed, parked, ops, List.map_append, List.count_append]
      omega
    · intro o ho
      refine h.op o ?_
      simp only [Board.apply, ops, List.append_assoc, List.mem_append] at ho ⊢
      rcases ho with ho | ho | ho | ho
      · exact .inl (List.mem_of_mem_drop ho)
      · exact .inr (.inl ho)
      · exact .inl (List.mem_of_mem_take ho)
      · exact .inr (.inr ho)
  | post number cqe =>
    obtain ⟨o, ho, hn⟩ := he
    obtain ⟨o, before, after, hheld, -, hfind, herase⟩ :=
      Lib.exists_split_find? (p := fun o : Op => decide (o.number = number)) ho (by simpa using hn)
    simp only [Board.apply, hfind, herase]
    refine h.move rfl ?_ h.ready ?_
    · refine List.perm_iff_count.mpr fun a => ?_
      simp only [placed, parked, ops, hheld, List.map_append, List.map_cons, List.map_nil,
        List.count_append, List.count_cons, List.count_nil]
      omega
    · intro x hm
      refine h.op x ?_
      simp only [ops, hheld, List.append_assoc, List.mem_append, List.map_append, List.map_cons,
        List.map_nil, List.mem_cons, List.not_mem_nil, or_false] at hm ⊢
      tauto
  | reap cqe =>
    obtain ⟨hh, r, rest, hr, -⟩ := he
    simp only [Board.apply, hr]
    have hop : r.op ∈ b.ops := by simp [ops, hr]
    have h1 : Inv { b with posted := rest, hand := [r.op.fiber] } := by
      refine h.move rfl ?_ h.ready ?_
      · refine List.perm_iff_count.mpr fun a => ?_
        simp only [placed, parked, ops, hh, hr, List.map_append, List.map_cons, List.count_append,
          List.count_cons, List.count_nil]
        omega
      · intro o ho
        refine h.op o ?_
        simp only [ops, hr, List.append_assoc, List.mem_append, List.map_cons, List.mem_cons] at ho ⊢
        tauto
    exact h1.setAnswer (by simp) (fun t ht => (h.op _ hop).exit_none (by simp) ht) _

end Board

end Libuc.Scheduler
