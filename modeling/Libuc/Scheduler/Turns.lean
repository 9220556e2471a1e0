import Libuc.Lib.ForkJoin
import Libuc.Scheduler.Story

/-! A turn tells the fiber the answer to its last call. The answer is the one the
program's network has for it, so the story of a run of a program agrees with the
board at every point. -/

namespace Libuc.Scheduler

open Lib

variable {b : Board} {e : Event} {f g u : Addr} {t : Task} {log : List Event} {prog : Program}
  {res : Path → ℕ → CInt} {y : Story}

/-- A program as a network of processes: a spawn makes the next child, a join waits
for its target, and an await gets the result fixed for it. -/
def network (prog : Program) (res : Path → ℕ → CInt) : ForkJoin.Network Path Answer CInt := fun q h =>
  match prog q h with
  | .yield | .detach _ => .gets .done
  | .exit status => .ends status
  | .await _ => .gets (.completed (toLong (res q (completions h))))
  | .start _ => .makes (q ++ [handles h]) (.handle (q ++ [handles h]))
  | .join target => .waits target fun status => .joined (toLong status)

/-- The fiber `q` is to be told `a` next. -/
inductive Tells (prog : Program) (res : Path → ℕ → CInt) (y : Story) (q : Path) (a : Answer) :
    Call → Prop
  | gets {call : Call} (act : network prog res q (y.received q) = .gets a) (plain : handles [a] = 0)
      (hcall : ∀ spawn, call ≠ .start spawn) : Tells prog res y q a call
  | makes {spawn : SpawnRequest}
      (act : network prog res q (y.received q) = .makes (q ++ [handles (y.received q)]) a)
      (eq : a = .handle (q ++ [handles (y.received q)])) : Tells prog res y q a (.start spawn)
  | waits {u : Addr} {target : Path} {status : CInt}
      (act : network prog res q (y.received q) = .waits target fun status => .joined (toLong status))
      (ended : y.status target = some status) (eq : a = .joined (toLong status)) :
      Tells prog res y q a (.join u)

theorem Due.tells {q : Path} {v : Long} {call : Call} (h : Due prog res y q (some v) call)
    (hx : ∀ status, call ≠ .exit status) :
    Tells prog res y q (y.answer call (Task.returned ⟨some call, some v, false, none⟩)) call := by
  cases call with
  | yield =>
    exact .gets (by simp only [network, show prog q (y.received q) = .yield from h]; rfl) rfl nofun
  | exit status => exact absurd rfl (hx status)
  | await sqe =>
    obtain ⟨hprog, hv⟩ := h
    refine .gets ?_ rfl nofun
    simp only [network, hprog, ← hv v rfl]
    rfl
  | start spawn =>
    obtain ⟨hprog, hv⟩ := h
    have hname := hv v rfl
    have heq : y.answer (.start spawn) (some v) = .handle (q ++ [handles (y.received q)]) := by
      simp [Story.answer, hname]
    refine .makes ?_ heq
    rw [show Task.returned ⟨some (.start spawn), some v, false, none⟩ = some v from rfl, heq]
    simp only [network, hprog]
  | join u =>
    obtain ⟨target, hprog, -, hv⟩ := h
    obtain ⟨status, rfl, hst⟩ := hv v rfl
    exact .waits (by simp only [network, hprog]) hst rfl
  | detach u =>
    obtain ⟨target, hprog⟩ := h
    exact .gets (by simp only [network, hprog]; rfl) rfl nofun
  | processExit status => exact h.elim

/-- A call that has just been made has no answer, a yield apart, which needs none. -/
theorem Due.asked {q : Path} {c : Call} (hprog : rename y.names c = some (prog q (y.received q)))
    (hst : ∀ status, c = .exit status → y.status q = some status) :
    Due prog res y q (Task.new.suspend c).answer c := by
  cases c with
  | yield => exact (Option.some.inj hprog).symm
  | exit status => exact ⟨(Option.some.inj hprog).symm, hst status rfl⟩
  | await sqe => exact ⟨(Option.some.inj hprog).symm, nofun⟩
  | start spawn => exact ⟨(Option.some.inj hprog).symm, nofun⟩
  | join u =>
    obtain ⟨q', hn, heq⟩ := Option.map_eq_some_iff.mp hprog
    exact ⟨q', heq.symm, fun _ => hn, nofun⟩
  | detach u =>
    obtain ⟨q', -, heq⟩ := Option.map_eq_some_iff.mp hprog
    exact ⟨q', heq.symm⟩
  | processExit status => cases hprog

theorem Due.congr {y' : Story} {q : Path} {answer : Option Long} {c : Call}
    (h : Due prog res y q answer c)
    (hnames : y'.names = y.names) (hrec : y'.received q = y.received q)
    (hst : ∀ q' status, y.status q' = some status → y'.status q' = some status) :
    Due prog res y' q answer c := by
  cases c with
  | exit status =>
    obtain ⟨hprog, hs⟩ := h
    exact ⟨by rw [hrec]; exact hprog, hst q status hs⟩
  | join u =>
    obtain ⟨q', hprog, hn, hs⟩ := h
    refine ⟨q', by rw [hrec]; exact hprog, by rw [hnames]; exact hn, ?_⟩
    intro v hv
    obtain ⟨status, heq, hended⟩ := hs v hv
    exact ⟨status, heq, hst q' status hended⟩
  | processExit status => exact h.elim
  | _ => simpa only [Due, hnames, hrec] using h

@[simp] theorem handles_append (h h' : List Answer) : handles (h ++ h') = handles h + handles h' := by
  simp [handles]

namespace Story

variable {q q' : Path} {a : Option Long} {c : Call}

theorem turn_received_of_ne (h : q' ≠ q) : (y.turn f q a c).received q' = y.received q' := by
  unfold turn
  cases y.calls f with
  | none => rfl
  | some call => exact Function.update_of_ne h _ _

theorem turn_received_none (h : y.calls f = none) : (y.turn f q a c).received = y.received := by
  simp [turn, h]

theorem turn_received_some {call : Call} (h : y.calls f = some call) :
    (y.turn f q a c).received q = y.received q ++ [y.answer call a] := by
  simp [turn, h]

theorem turn_status_of_ne (h : q' ≠ q) : (y.turn f q a c).status q' = y.status q' := by
  unfold turn
  cases c with
  | exit status => exact Function.update_of_ne h _ _
  | _ => rfl

theorem turn_status (h : y.status q = none) {status : CInt} :
    (y.turn f q a c).status q = some status ↔ c = .exit status := by
  cases c with
  | exit status' => simp [turn]
  | _ => simp [turn, h]

end Story

/-- A fiber whose turn it is has not ended. -/
theorem Board.Enabled.resume_task {a : Option Long} {c : Call} (he : b.Enabled (.resume f a c))
    (hi : b.Inv) :
    ∃ t v, b.tasks f = some t ∧ t.answer = some v ∧ a = t.returned ∧ t.exit = none := by
  obtain ⟨-, hhead, t, ht, ha⟩ := he
  have hanswer := hi.ready f (List.mem_of_mem_head? hhead) t ht
  obtain ⟨v, hv⟩ := Option.ne_none_iff_exists'.mp hanswer
  refine ⟨t, v, ht, hv, ha, ?_⟩
  by_contra hx
  exact hanswer (hi.ended f t ht hx)

namespace Told

/-- What a turn adds to the answers of the fiber: nothing if it is the first, else the
answer to its last call. -/
theorem received (h : Told prog res b y) (ht : b.tasks f = some t) {v : Long} (hv : t.answer = some v)
    (hx : t.exit = none) {q : Path} (hq : y.names f = some q) (c : Call) :
    t.call = none ∧ (y.turn f q t.returned c).received = y.received ∨
      ∃ call a, t.call = some call ∧ Tells prog res y q a call ∧
        (y.turn f q t.returned c).received q = y.received q ++ [a] := by
  have hcalls := h.calls f t ht
  cases hcall : t.call with
  | none => exact .inl ⟨rfl, Story.turn_received_none (hcalls.trans hcall)⟩
  | some call =>
    have hdue := h.due f t q call ht hq hcall
    rw [hv] at hdue
    have htells := hdue.tells (by
      rintro status rfl
      simp [Task.exit, hcall] at hx)
    have hret : t.returned = Task.returned ⟨some call, some v, false, none⟩ := by
      unfold Task.returned
      rw [hcall, hv]
    rw [← hret] at htells
    exact .inr ⟨call, _, rfl, htells, Story.turn_received_some (hcalls.trans hcall)⟩

theorem status_none (h : Told prog res b y) (ht : b.tasks f = some t) (hx : t.exit = none) {q : Path}
    (hq : y.names f = some q) : y.status q = none := by
  cases hst : y.status q with
  | none => rfl
  | some status =>
    have := (h.ended q status hst).2.2 f t ht hq
    rw [hx] at this
    cases this

/-- The answers a turn adds hold a handle only if that is the next child's. -/
theorem gains (h : Told prog res b y) (hparents : b.ParentsFirst) (ht : b.tasks f = some t) {v : Long}
    (hv : t.answer = some v) {q : Path} (hq : y.names f = some q) {y' : Story}
    (hrec : t.call = none ∧ y'.received = y.received ∨
      ∃ call a, t.call = some call ∧ Tells prog res y q a call ∧ y'.received q = y.received q ++ [a]) :
    ∃ l, y'.received q = y.received q ++ l ∧
      (∀ q', .handle q' ∈ l → q' = q ++ [handles (y.received q)] ∧ q' ∈ y.born) ∧
      (∀ j, j < handles (y'.received q) → j < handles (y.received q) ∨ .handle (q ++ [j]) ∈ l) ∧
      (∀ spawn, t.call = some (.start spawn) →
        handles (y'.received q) = handles (y.received q) + 1) := by
  rcases hrec with ⟨hcall, hsame⟩ | ⟨call, ans, hcall, htells, heq⟩
  · refine ⟨[], by rw [hsame, List.append_nil], by simp, fun j hj => .inl (hsame ▸ hj), ?_⟩
    intro spawn hs
    rw [hcall] at hs
    cases hs
  · refine ⟨[ans], heq, ?_⟩
    have hcount : handles (y'.received q) = handles (y.received q) + handles [ans] := by
      rw [heq, handles_append]
    cases htells with
    | gets act plain hns =>
      refine ⟨?_, fun j hj => .inl (by omega), ?_⟩
      · intro q' hm
        rw [← List.mem_singleton.mp hm] at plain
        cases plain
      · intro spawn hs
        rw [hcall] at hs
        cases hs
        exact absurd rfl (hns spawn)
    | @makes spawn act eq =>
      subst eq
      refine ⟨?_, ?_, fun _ _ => hcount⟩
      · intro q' hm
        cases List.mem_singleton.mp hm
        obtain ⟨-, -, tv, -, -, htv, -⟩ := hparents f t spawn v ht hcall hv
        obtain ⟨q₀, hq₀, hn⟩ := h.named v tv htv
        have hdue := h.due f t q _ ht hq hcall
        rw [hdue.2 v hv] at hn
        cases hn
        exact ⟨rfl, hq₀⟩
      · intro j hj
        have hone : handles [.handle (q ++ [handles (y.received q)])] = 1 := rfl
        rcases Nat.lt_or_ge j (handles (y.received q)) with hlt | hge
        · exact .inl hlt
        · obtain rfl : j = handles (y.received q) := by omega
          exact .inr (List.mem_singleton.mpr rfl)
    | waits act ended eq =>
      subst eq
      have hzero : ∀ st : Long, handles [.joined st] = 0 := fun _ => rfl
      refine ⟨by simp, fun j hj => .inl (by rw [hcount, hzero] at hj; exact hj), ?_⟩
      intro spawn hs
      rw [hcall] at hs
      cases hs

/-- The fiber at `f` has its turn. -/
theorem turn (h : Told prog res b y) (hi : b.Inv) (hparents : b.ParentsFirst)
    {a : Option Long} {c : Call}
    (he : b.Enabled (.resume f a c)) {q : Path} (hq : y.names f = some q)
    (hprog : rename y.names c = some (prog q ((y.turn f q a c).received q))) :
    Told prog res (b.apply (.resume f a c)) (y.turn f q a c) := by
  obtain ⟨t, v, ht, hv, rfl, hx⟩ := he.resume_task hi
  have hself : (b.apply (.resume f t.returned c)).tasks f = some (t.suspend c) := by
    simp [Board.apply, ht]
  have hother : ∀ w, w ≠ f → (b.apply (.resume f t.returned c)).tasks w = b.tasks w := by
    intro w hw
    simp [Board.apply, ht, hw]
  have hposted : (b.apply (.resume f t.returned c)).posted = b.posted := by simp [Board.apply, ht]
  have hborn : q ∈ y.born := by
    obtain ⟨q', hq', hn⟩ := h.named f t ht
    rw [hq] at hn
    cases hn
    exact hq'
  have hst := h.status_none ht hx hq
  have hne : ∀ w tw q', w ≠ f → b.tasks w = some tw → y.names w = some q' → q' ≠ q := by
    rintro w tw q' hw htw hq' rfl
    exact hw (h.unique w f tw t q' htw ht hq' hq)
  have hback : ∀ w t', (b.apply (.resume f t.returned c)).tasks w = some t' → ∃ tw,
      b.tasks w = some tw := by
    intro w t' ht'
    by_cases hw : w = f
    · exact ⟨t, hw ▸ ht⟩
    · exact ⟨t', (hother w hw).symm.trans ht'⟩
  have hended : ∀ q' status, y.status q' = some status → q' ≠ q := by
    rintro q' status hs rfl
    rw [hst] at hs
    cases hs
  have hrec := h.received ht hv hx hq c
  generalize hy' : y.turn f q t.returned c = y' at hrec hprog
  have hnames : y'.names = y.names := by rw [← hy']; rfl
  have hrec_ne : ∀ q', q' ≠ q → y'.received q' = y.received q' := by
    rw [← hy']
    exact fun q' hq' => Story.turn_received_of_ne hq'
  have hst_ne : ∀ q', q' ≠ q → y'.status q' = y.status q' := by
    rw [← hy']
    exact fun q' hq' => Story.turn_status_of_ne hq'
  have hst_self : ∀ status, y'.status q = some status ↔ c = .exit status := by
    rw [← hy']
    exact fun status => Story.turn_status hst
  have hcalls_self : y'.calls f = some c := by rw [← hy']; exact Function.update_self _ _ _
  have hcalls_ne : ∀ w, w ≠ f → y'.calls w = y.calls w := by
    rw [← hy']
    exact fun w hw => Function.update_of_ne hw _ _
  have hborn' : y'.born = y.born := by rw [← hy']; rfl
  have hroots : y'.roots = y.roots := by rw [← hy']; rfl
  obtain ⟨l, hl, hheard, hkids, hstart⟩ := h.gains hparents ht hv hq hrec
  refine ⟨?_, ?_, ?_, ?_, ?_, ?_, ?_, ?_, ?_, ?_, ?_, ?_, ?_⟩
  · intro w t' ht'
    obtain ⟨tw, htw⟩ := hback w t' ht'
    rw [hborn', hnames]
    exact h.named w tw htw
  · intro w t' ht'
    by_cases hw : w = f
    · subst hw
      rw [hself] at ht'
      cases ht'
      exact hcalls_self
    · rw [hcalls_ne w hw]
      exact h.calls w t' ((hother w hw).symm.trans ht')
  · intro w w' t₁ t₂ q' ht₁ ht₂ hq₁ hq₂
    obtain ⟨tw, htw⟩ := hback w t₁ ht₁
    obtain ⟨tw', htw'⟩ := hback w' t₂ ht₂
    rw [hnames] at hq₁ hq₂
    exact h.unique w w' tw tw' q' htw htw' hq₁ hq₂
  · intro w t' q' ht' hq' hc
    rw [hnames] at hq'
    by_cases hw : w = f
    · subst hw
      rw [hself] at ht'
      cases ht'
      cases hc
    · have htw := (hother w hw).symm.trans ht'
      rw [hrec_ne q' (hne w t' q' hw htw hq')]
      exact h.idle w t' q' htw hq' hc
  · intro w t' q' c' ht' hq' hc
    rw [hnames] at hq'
    by_cases hw : w = f
    · subst hw
      rw [hq] at hq'
      cases hq'
      rw [hself] at ht'
      cases ht'
      obtain rfl : c = c' := by simpa [Task.suspend] using hc
      exact Due.asked (by rw [hnames]; exact hprog) (fun status => (hst_self status).mpr)
    · have htw := (hother w hw).symm.trans ht'
      have hq'' := hne w t' q' hw htw hq'
      exact (h.due w t' q' c' htw hq' hc).congr hnames (hrec_ne q' hq'')
        fun q₂ status hs => (hst_ne q₂ (hended q₂ status hs)).trans hs
  · intro r hr q' hq'
    rw [hposted] at hr
    rw [hnames] at hq'
    obtain ⟨tr, hto, -, hao⟩ := hi.op r.op (by
      simp only [Board.ops, List.mem_append, List.mem_map]
      exact .inr ⟨r, hr, rfl⟩)
    have hw : r.op.fiber ≠ f := by
      intro hw
      rw [hw, ht] at hto
      cases hto
      rw [hv] at hao
      cases hao
    rw [hrec_ne q' (hne _ tr q' hw hto hq')]
    exact h.replies r hr q' hq'
  · intro q' status hs
    by_cases hqq : q' = q
    · subst hqq
      obtain rfl := (hst_self status).mp hs
      refine ⟨hborn' ▸ hborn, (Option.some.inj hprog).symm, ?_⟩
      intro w t' ht' hq'
      rw [hnames] at hq'
      obtain ⟨tw, htw⟩ := hback w t' ht'
      obtain rfl := h.unique w f tw t q' htw ht hq' hq
      rw [hself] at ht'
      cases ht'
      rfl
    · rw [hst_ne q' hqq] at hs
      obtain ⟨hb, hprog', hend⟩ := h.ended q' status hs
      refine ⟨hborn' ▸ hb, by rw [hrec_ne q' hqq]; exact hprog', ?_⟩
      intro w t' ht' hq'
      rw [hnames] at hq'
      have hw : w ≠ f := by
        rintro rfl
        rw [hq] at hq'
        cases hq'
        exact hqq rfl
      exact hend w t' ((hother w hw).symm.trans ht') hq'
  · intro q' hq'
    rw [hborn'] at hq'
    rcases h.living q' hq' with ⟨w, tw, htw, hn⟩ | ⟨status, hs⟩
    · rw [hnames]
      by_cases hw : w = f
      · subst hw
        exact .inl ⟨w, _, hself, hn⟩
      · exact .inl ⟨w, tw, (hother w hw).trans htw, hn⟩
    · exact .inr ⟨status, (hst_ne q' (hended q' status hs)).trans hs⟩
  · intro q' hq'
    rw [hborn'] at hq'
    have hqq : q' ≠ q := by
      rintro rfl
      exact hq' hborn
    rw [hrec_ne q' hqq, hst_ne q' hqq]
    exact h.unborn q' hq'
  · intro q' hq'
    rw [hborn'] at hq' ⊢
    rcases h.lineage q' hq' with ⟨i, hi, heq⟩ | ⟨q'', hb, j, heq, hj⟩
    · exact .inl ⟨i, hroots ▸ hi, heq⟩
    · refine .inr ⟨q'', hb, j, heq, ?_⟩
      by_cases hqq : q'' = q
      · subst hqq
        have hle : handles (y.received q'') ≤ handles (y'.received q'') := by
          rw [hl, handles_append]
          omega
        rcases hj with hj | ⟨hj, w, tw, spawn, v', htw, hn, hc, -⟩
        · exact .inl (lt_of_lt_of_le hj hle)
        · obtain rfl := h.unique w f tw t q'' htw ht hn hq
          rw [ht] at htw
          cases htw
          exact .inl (by rw [hstart spawn hc]; omega)
      · rw [hrec_ne q'' hqq]
        refine hj.imp_right ?_
        rintro ⟨hj, w, tw, spawn, v', htw, hn, hc, ha⟩
        have hw : w ≠ f := by
          rintro rfl
          rw [hq] at hn
          cases hn
          exact hqq rfl
        exact ⟨hj, w, tw, spawn, v', (hother w hw).trans htw, by rw [hnames]; exact hn, hc, ha⟩
  · intro i hi
    rw [hborn']
    exact h.roots i (hroots ▸ hi)
  · intro q' q'' hm
    rw [hborn']
    by_cases hqq : q' = q
    · subst hqq
      rw [hl, List.mem_append] at hm
      rcases hm with hm | hm
      · exact h.heard q' q'' hm
      · exact (hheard q'' hm).2
    · rw [hrec_ne q' hqq] at hm
      exact h.heard q' q'' hm
  · intro q' j hj
    by_cases hqq : q' = q
    · subst hqq
      rw [hl, List.mem_append]
      exact (hkids j hj).imp_left (h.kids q' j)
    · rw [hrec_ne q' hqq] at hj ⊢
      exact h.kids q' j hj

end Told

/-! ### Whole logs -/

theorem Follows.of_append {m : List Event} (h : Follows prog res (log ++ m)) :
    Follows prog res log where
  calls := by
    rintro p f a c r q rfl hq
    exact h.calls p f a c (r ++ m) q (by simp) hq
  spawns := fun f hf => h.spawns f (List.mem_append_left _ hf)
  completed := by
    rintro p n cqe r o q rfl ho hn hq
    exact h.completed p n cqe (r ++ m) o q (by simp) ho hn hq

/-- A completion that waits to be reaped was posted with the result fixed for it. -/
theorem Told.replies_apply (h : Told prog res b y) (he : b.Enabled e)
    (hpost : ∀ o cqe q, e = .post o.number cqe → o ∈ b.held → y.names o.fiber = some q →
      cqe.res = res q (completions (y.received q))) :
    ∀ r ∈ (b.apply e).posted, ∀ q, y.names r.op.fiber = some q →
    r.res = res q (completions (y.received q)) := by
  intro r hr q hq
  cases he.flow with
  | @post o cqe before after heq split staged held posted count =>
    rw [posted, List.mem_append, List.mem_singleton] at hr
    rcases hr with hr | rfl
    · exact h.replies r hr q hq
    · exact hpost o cqe q heq (by simp [split]) hq
  | reap heq split staged held count => exact h.replies r (split ▸ List.mem_cons_of_mem _ hr) q hq
  | stage heq hand asks staged held posted count => exact h.replies r (posted ▸ hr) q hq
  | enter heq le same staged held posted count => exact h.replies r (posted ▸ hr) q hq
  | still hs ht hp hrn staged held posted count => exact h.replies r (posted ▸ hr) q hq

theorem told_empty : Told prog res Board.empty Story.empty where
  named := by simp [Board.empty]
  calls := by simp [Board.empty]
  unique := by simp [Board.empty]
  idle := by simp [Board.empty]
  due := by simp [Board.empty]
  replies := by simp [Board.empty]
  ended := by simp [Story.empty]
  living := by simp [Story.empty]
  unborn := by simp [Story.empty]
  lineage := by simp [Story.empty]
  roots := by simp [Story.empty]
  heard := by simp [Story.empty]
  kids := by simp [Story.empty, handles]

/-- The story of a log of the program agrees with its board. -/
theorem Legal.told (h : Legal log) (hf : Follows prog res log) :
    Told prog res (replay log) (story log) := by
  induction h with
  | nil => exact told_empty
  | @concat log e hlog he ih =>
    have htold := ih hf.of_append
    have hi := hlog.inv
    have hparents := hlog.parentsFirst hf.of_append.spawns
    rw [replay_concat, story_concat]
    have hreplies := htold.replies_apply he (by
      rintro o cqe q rfl ho hq
      exact hf.completed log o.number cqe [] o q rfl ho rfl hq)
    have hquiet := fun hc hr hs => htold.quiet hi he hc hr hs hreplies
    cases e with
    | launch g => exact htold.launch hi hparents he
    | resume g a c =>
      obtain ⟨t, -, ht, -⟩ := he.resume_task hi
      obtain ⟨q, -, hq⟩ := htold.named g t ht
      have hnote : (story log).note (.resume g a c) = (story log).turn g q a c := by
        simp only [Story.note, hq]
      have hcalls := hf.calls log g a c [] q rfl hq
      rw [story_concat, hnote] at hcalls
      rw [hnote]
      exact htold.turn hi hparents he hq hcalls
    | spawn p result =>
      cases result with
      | none => exact absurd (by simp) (hf.spawns p)
      | some c => exact htold.spawn hi hparents he
    | _ =>
      refine hquiet ?_ rfl (by simp)
      rintro u (hc | ⟨p, hc⟩) <;> cases hc

end Libuc.Scheduler
