import Libuc.Scheduler.Line
import Libuc.Scheduler.Records

/-! The order of a parent and its child. A spawn puts the two next to each other at
the end of the line. Whatever happens until the parent is dispatched, nobody comes
between them and neither leaves the line; then the child is first. What the child
starts with is a matter of its record, which nobody but its own first dispatch
touches. -/

namespace Libuc.Scheduler

open Lib

variable {b : Board} {e : Event} {f p c : Addr} {t : Task} {v : Long} {k : Kernel} {s s' : State}

/-- A call that has its answer keeps it until its fiber runs. -/
theorem Board.Enabled.answer_kept (he : b.Enabled e) (hi : b.Inv) (ht : b.tasks f = some t)
    (ha : t.answer = some v) (hx : t.exit = none) (hr : e.resumed ≠ some f) :
    ∃ t', (b.apply e).tasks f = some t' ∧ t'.call = t.call ∧ t'.answer = some v := by
  have hev := he.evolves ht
  generalize (b.apply e).tasks f = next at hev
  cases hev with
  | destroyed _ hx' => exact absurd hx hx'
  | resumed heq =>
    subst heq
    exact absurd rfl hr
  | given hg _ _ =>
    rw [hg.answer_none hi he ht] at ha
    cases ha
  | kept _ hcall hanswer _ => exact ⟨_, rfl, hcall, hanswer.trans ha⟩

/-- The fiber has its answer and has not ended. -/
structure Board.Told (b : Board) (f : Addr) (call : Option Call) (v : Long) : Prop where
  task : ∃ t, b.tasks f = some t ∧ t.call = call ∧ t.answer = some v
  runs : ∀ status, call ≠ some (.exit status)

theorem Board.Told.apply {call : Option Call} (h : b.Told f call v) (he : b.Enabled e) (hi : b.Inv)
    (hr : e.resumed ≠ some f) : (b.apply e).Told f call v := by
  obtain ⟨⟨t, ht, hc, ha⟩, hruns⟩ := h
  have hx : t.exit = none := by
    refine Option.eq_none_iff_forall_ne_some.mpr fun status hs => ?_
    exact hruns status (hc.symm.trans (Task.exit_eq_some.mp hs))
  obtain ⟨t', ht', hc', ha'⟩ := he.answer_kept hi ht ha hx hr
  exact ⟨⟨t', ht', hc'.trans hc, ha'⟩, hruns⟩

/-- It keeps the answer until it runs. -/
theorem Legal.stays_told {log m : List Event} {call : Option Call} (h : Legal (log ++ m))
    (ht : (replay log).Told f call v)
    (hm : ∀ e ∈ m, e.resumed ≠ some f) : (replay (log ++ m)).Told f call v := by
  induction m using List.reverseRecOn with
  | nil => rwa [List.append_nil]
  | append_singleton m e ih =>
    rw [← List.append_assoc] at h ⊢
    have htold := ih h.of_append fun e' he' => hm e' (List.mem_append_left _ he')
    rw [replay_concat]
    exact htold.apply (h.enabled (q := [])) h.of_append.inv
      (hm e (List.mem_append_right _ (List.mem_singleton_self e)))

/-- Whoever is given an answer has it. -/
theorem Gives.told {call : Call} (hg : Gives b e f v) (he : b.Enabled e) (hask : b.Asks f call)
    (hruns : ∀ status, call ≠ .exit status) : ∃ w, (b.apply e).Told f (some call) w := by
  obtain ⟨t, ht, hcall, -⟩ := id hask
  have hev := he.evolves ht
  generalize hnext : (b.apply e).tasks f = next at hev
  cases hev with
  | destroyed _ hx => exact absurd (hask.exit_none hruns ht) hx
  | resumed heq =>
    subst heq
    cases hg
  | @given w t' _ hcall' ha =>
    exact ⟨w, ⟨t', hnext, hcall'.trans hcall, ha⟩, fun status hs => hruns status (Option.some.inj hs)⟩
  | kept hnone _ _ _ => exact absurd hg (hnone v)

/-- Whoever has an answer, or has not run yet, does not leave the line. -/
theorem Board.Told.ne_last {call : Option Call} {last : Addr} (h : b.Told f call v)
    (ht : b.tasks last = some t) (waits : t.answer = none) : f ≠ last := by
  rintro rfl
  obtain ⟨⟨t', ht', -, ha⟩, -⟩ := h
  rw [ht] at ht'
  cases ht'
  rw [waits] at ha
  cases ha

/-- The child stands right behind its parent, which has been told of it. -/
inductive Board.Behind (b : Board) (p c : Addr) : Prop
  | mk {spawn : SpawnRequest} (l₁ l₂ : List Addr) (line : b.line = l₁ ++ p :: c :: l₂)
      (parent : b.Told p (some (.start spawn)) c) (child : b.Told c none 0#64)

inductive Board.First (b : Board) (c : Addr) : Prop
  | mk (l : List Addr) (line : b.line = c :: l) (child : b.Told c none 0#64)

theorem Board.Enabled.spawn_behind (he : b.Enabled (.spawn p (some c))) :
    (b.apply (.spawn p (some c))).Behind p c := by
  obtain ⟨hh, ⟨spawn, t, ht, hcall, -⟩, hfresh⟩ := he
  have hpc : p ≠ c := by
    rintro rfl
    rw [(hfresh p rfl).2] at ht
    cases ht
  refine @Board.Behind.mk _ _ _ spawn b.ready [] rfl
    ⟨⟨{ t with answer := some c }, ?_, hcall, rfl⟩, nofun⟩
    ⟨⟨Task.new, Function.update_self _ _ _, rfl, rfl⟩, nofun⟩
  simp only [Board.apply, Function.update_of_ne hpc]
  exact Board.setAnswer_self ht c

/-- An event that dispatched nobody leaves the first `n` of the line where they are, if
the next to last cannot leave it. -/
theorem Moves.keeps_front {line l₁ l₂ : List Addr} (h : Moves b e line) (hq : e.resumed = none)
    (hline : b.line = l₁ ++ f :: l₂) (hf : ∀ last t, b.tasks last = some t →
      t.answer = none → f ≠ last) :
    ∃ l, line = l₁ ++ f :: l ∧ (∀ u, l₂.head? = some u →
      (∀ last t, b.tasks last = some t → t.answer = none → u ≠ last) → l.head? = some u) := by
  cases h with
  | grows n eq _ =>
    refine ⟨l₂ ++ n, by rw [eq, hline]; simp, fun u hu _ => ?_⟩
    rw [List.head?_append, hu]
    rfl
  | @leaves before new last t old eq task waits call _ =>
    rw [old] at hline
    rcases List.eq_nil_or_concat l₂ with rfl | ⟨l₂', x, rfl⟩
    · obtain ⟨-, hx⟩ := List.append_inj' hline rfl
      cases hx
      exact absurd rfl (hf _ _ task waits)
    · have hline' : before ++ [last] = (l₁ ++ f :: l₂') ++ [x] := by rw [hline]; simp
      obtain ⟨rfl, hx⟩ := List.append_inj' hline' rfl
      cases hx
      refine ⟨l₂' ++ new, by rw [eq]; simp, fun u hu hul => ?_⟩
      cases l₂' with
      | nil =>
        cases hu
        exact absurd rfl (hul _ _ task waits)
      | cons y l₂' =>
        cases hu
        rfl
  | turn rest new old eq resumed =>
    rw [hq] at resumed
    cases resumed

/-- In one event the pair stays as it is, or the parent hears of the child. -/
theorem Board.Behind.step (h : b.Behind p c) (he : b.Enabled e) (hi : b.Inv) :
    (e.resumed ≠ some p ∧ e.resumed ≠ some c ∧ (b.apply e).Behind p c) ∨
      ∃ call, e = .resume p (some c) call ∧ (b.apply e).First c := by
  obtain ⟨l₁, l₂, line, parent, child⟩ := h
  have hnd := hi.line_nodup
  rw [line] at hnd
  have hpc : p ≠ c := by
    rintro rfl
    simp [List.nodup_append] at hnd
  cases hq : e.resumed with
  | none =>
    obtain ⟨l, hl, hhead⟩ := (he.moves hi).keeps_front hq line fun last t ht hw => parent.ne_last ht hw
    have hc := hhead c rfl fun last t ht hw => child.ne_last ht hw
    obtain ⟨l', rfl⟩ := List.head?_eq_some_iff.mp hc
    exact .inl ⟨nofun, nofun,
      .mk l₁ l' hl (parent.apply he hi (by simp [hq])) (child.apply he hi (by simp [hq]))⟩
  | some g =>
    cases he.moves hi with
    | grows n eq quiet =>
      rw [quiet] at hq
      cases hq
    | leaves before new old eq task waits call quiet =>
      rw [quiet] at hq
      cases hq
    | @turn first rest new old eq resumed =>
      rw [hq] at resumed
      cases resumed
      rw [line] at old
      cases l₁ with
      | nil =>
        -- the parent is first: it hears of its child
        cases old
        cases e with
        | resume g' answer call =>
          cases hq
          obtain ⟨-, -, t, ht, hanswer⟩ := id he
          obtain ⟨t', ht', hcall, ha⟩ := parent.task
          rw [ht] at ht'
          cases ht'
          have hret : answer = some c := by rw [hanswer, Task.returned, hcall, ha]
          subst hret
          exact .inr ⟨call, rfl, .mk (l₂ ++ new) (by rw [eq]; simp)
            (child.apply he hi (by simpa [Event.resumed] using hpc))⟩
        | _ => cases hq
      | cons x l₁ =>
        cases old
        have hgp : g ≠ p := by
          rintro rfl
          simp at hnd
        have hgc : g ≠ c := by
          rintro rfl
          simp at hnd
        have hp : e.resumed ≠ some p := by rw [hq]; simpa using hgp
        have hc : e.resumed ≠ some c := by rw [hq]; simpa using hgc
        exact .inl ⟨by simpa using hgp, by simpa using hgc, .mk l₁ (l₂ ++ new) (by rw [eq]; simp)
          (parent.apply he hi hp) (child.apply he hi hc)⟩

/-- Nobody is dispatched before the child that is first. -/
theorem Board.First.step (h : b.First c) (he : b.Enabled e) (hi : b.Inv) :
    (e.resumed = none ∧ (b.apply e).First c) ∨ ∃ call, e = .resume c none call := by
  obtain ⟨l, line, child⟩ := h
  cases hq : e.resumed with
  | none =>
    have hline : b.line = [] ++ c :: l := line
    obtain ⟨l', hl, -⟩ := (he.moves hi).keeps_front hq hline fun last t ht hw => child.ne_last ht hw
    exact .inl ⟨rfl, .mk l' hl (child.apply he hi (by simp [hq]))⟩
  | some g =>
    cases e with
    | resume g' answer call =>
      obtain ⟨hh, hhead, t, ht, hanswer⟩ := he
      rw [Board.line, hh, List.append_nil] at line
      rw [line] at hhead
      cases hhead
      obtain ⟨t', ht', hcall, -⟩ := child.task
      rw [ht] at ht'
      cases ht'
      have hret : answer = none := by rw [hanswer, Task.returned, hcall]
      subst hret
      exact .inr ⟨call, rfl⟩
    | _ => cases hq

/-! ### Runs -/

/-- How far a parent and its child have come in the events that follow the spawn:
neither has run; the parent has been told and nobody has run since; or the child was
the next to run. -/
inductive SpawnOrder (p c : Addr) (post : List Event) : Prop
  | waiting (parent : p ∉ dispatched post) (child : c ∉ dispatched post)
  | told (m n : List Event) (call : Call) (split : post = m ++ .resume p (some c) call :: n)
      (parent : p ∉ dispatched m) (child : c ∉ dispatched m) (next : dispatched n = [])
  | ran (m n rest : List Event) (call call' : Call)
      (split : post = m ++ .resume p (some c) call :: n ++ .resume c none call' :: rest)
      (parent : p ∉ dispatched m) (child : c ∉ dispatched m) (next : dispatched n = [])

theorem dispatched_concat_of_none {log : List Event} (h : e.resumed = none) :
    dispatched (log ++ [e]) = dispatched log := by
  simp [h]

theorem notMem_dispatched_concat {log : List Event} (h : f ∉ dispatched log) (he : e.resumed ≠ some f) :
    f ∉ dispatched (log ++ [e]) := by
  simp only [dispatched_append, dispatched_cons, dispatched_nil, List.append_nil, List.mem_append,
    Option.mem_toList, not_or]
  exact ⟨h, he⟩

/-- The order, with what the board says at the end of the log. -/
theorem Legal.spawn_order {pre post : List Event} (h : Legal (pre ++ .spawn p (some c) :: post)) :
    SpawnOrder p c post ∧
    (c ∉ dispatched post → (replay (pre ++ .spawn p (some c) :: post)).Told c none 0#64) := by
  suffices hs : (p ∉ dispatched post ∧ c ∉ dispatched post ∧
        (replay (pre ++ .spawn p (some c) :: post)).Behind p c) ∨
      (∃ m n call, post = m ++ .resume p (some c) call :: n ∧ p ∉ dispatched m ∧ c ∉ dispatched m ∧
        dispatched n = [] ∧ (replay (pre ++ .spawn p (some c) :: post)).First c) ∨
      (∃ m n rest call call', post = m ++ .resume p (some c) call :: n ++ .resume c none call' :: rest ∧
        p ∉ dispatched m ∧ c ∉ dispatched m ∧ dispatched n = []) by
    rcases hs with ⟨hp, hc, ⟨_, _, _, _, child⟩⟩ | ⟨m, n, call, rfl, hp, hc, hn, ⟨_, _, child⟩⟩ |
      ⟨m, n, rest, call, call', rfl, hp, hc, hn⟩
    · exact ⟨.waiting hp hc, fun _ => child⟩
    · exact ⟨.told m n call rfl hp hc hn, fun _ => child⟩
    · exact ⟨.ran m n rest call call' rfl hp hc hn, fun hnot => absurd (by simp [Event.resumed]) hnot⟩
  induction post using List.reverseRecOn with
  | nil =>
    refine .inl ⟨by simp, by simp, ?_⟩
    rw [replay_concat]
    exact h.enabled.spawn_behind
  | append_singleton post e ih =>
    rw [← List.cons_append, ← List.append_assoc] at h ⊢
    have hlog := h.of_append
    have he : (replay (pre ++ .spawn p (some c) :: post)).Enabled e := h.enabled (q := [])
    rw [replay_concat]
    rcases ih hlog with ⟨hp, hc, hb⟩ | ⟨m, n, call, rfl, hp, hc, hn, hf⟩ |
      ⟨m, n, rest, call, call', rfl, hp, hc, hn⟩
    · rcases hb.step he hlog.inv with ⟨hrp, hrc, hb'⟩ | ⟨call, rfl, hf⟩
      · exact .inl ⟨notMem_dispatched_concat hp hrp, notMem_dispatched_concat hc hrc, hb'⟩
      · exact .inr (.inl ⟨post, [], call, rfl, hp, hc, rfl, hf⟩)
    · rcases hf.step he hlog.inv with ⟨hr, hf'⟩ | ⟨call', rfl⟩
      · exact .inr
          (.inl ⟨m, n ++ [e], call, by simp, hp, hc, by rw [dispatched_concat_of_none hr, hn], hf'⟩)
      · exact .inr (.inr ⟨m, n, [], call, call', rfl, hp, hc, hn⟩)
    · exact .inr (.inr ⟨m, n, rest ++ [e], call, call', by simp, hp, hc, hn⟩)

/-- A fiber whose spawn failed is next resumed with a null handle. -/
theorem Legal.spawn_failed {pre m n : List Event} {answer : Option Long} {call : Call}
    (h : Legal (pre ++ .spawn p none :: (m ++ .resume p answer call :: n))) (hm : p ∉ dispatched m) :
    answer = some 0#64 := by
  have hlegal : Legal (pre ++ [.spawn p none] ++ m) := by
    have h' : Legal (pre ++ [.spawn p none] ++ m ++ .resume p answer call :: n) := by simpa using h
    exact h'.of_append
  have htold : ∃ spawn, (replay (pre ++ [.spawn p none] ++ m)).Told p (some (.start spawn)) 0#64 := by
    obtain ⟨-, ⟨spawn, t, ht, hcall, -⟩, -⟩ := hlegal.of_append.enabled
    refine ⟨spawn, hlegal.stays_told ⟨⟨{ t with answer := some 0#64 }, ?_, hcall, rfl⟩, nofun⟩
      fun e he hr => ?_⟩
    · rw [replay_concat]
      exact Board.setAnswer_self ht 0#64
    · exact hm (List.mem_filterMap.mpr ⟨e, he, hr⟩)
  obtain ⟨spawn, ⟨t, ht, hcall, ha⟩, -⟩ := htold
  have he : (replay (pre ++ [.spawn p none] ++ m)).Enabled (.resume p answer call) := by
    refine Legal.enabled (q := n) ?_
    simpa using h
  obtain ⟨-, -, t', ht', hanswer⟩ := he
  rw [ht] at ht'
  cases ht'
  rw [hanswer, Task.returned, hcall, ha]

/-! ### What the child starts with -/

/-- Until its first dispatch the record of a child starts as its spawn request says. -/
def ChildrenStart (s : State) : Prop :=
  ∀ pre post p c, s.log = pre ++ .spawn p (some c) :: post →
    ∃ pre' a request, pre = pre' ++ [.resume p a (.start request)] ∧
      (c ∉ dispatched post → ∃ fb, s.fibers c = some fb ∧ SameStart (Fiber.spawned request) fb)

/-- Only the turn of a fiber that asks for it logs a spawn. -/
theorem Stepped.spawns {i : Input} {es : List Event} (h : Stepped k s b i s')
    (hlog : s'.log = s.log ++ es) (he : .spawn p (some c) ∈ es) :
    ∃ x request a, i = .turn x ∧ x.call = .start request ∧ x.spawned = some c ∧
      es = [.resume p a (.start request), .spawn p (some c), .enqueue p, .enqueue c] := by
  have hes : ∀ {es' c'}, Ends k s b es' c' s' → es' = es := fun ends =>
    List.append_cancel_left (ends.log.symm.trans hlog)
  cases h with
  | turn input _ _ _ _ _ served =>
    cases served with
    | spawned call hs ends =>
      rw [← hes ends] at he
      simp only [List.mem_cons, reduceCtorEq, false_or, List.not_mem_nil, or_false,
        Event.spawn.injEq, Option.some.injEq] at he
      obtain ⟨rfl, rfl⟩ := he
      exact ⟨_, _, _, input, call, hs, by rw [← hes ends, call]⟩
    | _ =>
      rename_i ends
      rw [← hes ends] at he
      simp at he
  | _ =>
    rename_i ends
    rw [← hes ends] at he
    simp at he

/-- The first ready fiber of a turn that goes well is dispatched. -/
theorem Served.dispatched {turns : U32} {x : Turn} (h : Served k s b turns f t x (.ok s')) (hi : b.Inv)
    (ht : b.tasks f = some t) : ∃ es, s'.log = s.log ++ .resume f t.returned x.call :: es := by
  rcases h.ok_cases hi ht with ⟨es, -, -, ends⟩ | ⟨_, _, _, _, _, _, ends⟩ | ⟨_, _, ends⟩
  · exact ⟨es, ends.log⟩
  · exact ⟨[], ends.log⟩
  · exact ⟨[], ends.log⟩

/-- A step that neither dispatched nor creates the fiber at `c` keeps how it starts. -/
theorem Good.keeps {i : Input} {es : List Event} (h : Good k s) (allowed : Allowed k s i)
    (hs : Scheduler.step s i = some s')
    (hlog : s'.log = s.log ++ es) (hc : s.fibers c ≠ none) (hnot : c ∉ dispatched es) :
    Keeps c s s' := by
  cases i with
  | turn x =>
    obtain ⟨turns, f, t, -, -, hhead, ht, hserved, rfl⟩ := h.served allowed hs
    refine State.settle_keeps fun s'' hd => ?_
    rw [hd, State.settle] at hlog
    rw [hd] at hserved
    obtain ⟨es', hes'⟩ := hserved.dispatched h.refines.inv ht
    obtain rfl := List.append_cancel_left (hlog.symm.trans hes')
    refine State.dispatch_keeps hd ?_ ?_
    · rw [h.refines.queue.linked.head_eq, hhead]
      rintro ⟨⟩
      simp [Event.resumed] at hnot
    · intro hx
      exact hc (allowed.2.1 c hx).2.1
  | launch g spawn =>
    refine step_keeps hs ?_ (by simp [Input.touches])
    rintro ⟨⟩
    exact hc allowed.2.1
  | run => exact step_keeps hs (by simp [Input.touches]) (by simp [Input.touches])
  | tick => exact step_keeps hs (by simp [Input.touches]) (by simp [Input.touches])
  | enter result => exact step_keeps hs (by simp [Input.touches]) (by simp [Input.touches])
  | post number res flags => exact step_keeps hs (by simp [Input.touches]) (by simp [Input.touches])

theorem Good.childrenStart {i : Input} (h : Good k s) (hc : ChildrenStart s) (allowed : Allowed k s i)
    (hs : Scheduler.step s i = some s') : ChildrenStart s' := by
  have hst := h.stepped allowed hs
  have hg' := hst.good h
  obtain ⟨es, hlog, -⟩ := hst.events h.refines.inv
  intro pre post p c hsplit
  have hlegal : Legal (pre ++ .spawn p (some c) :: post) := hsplit ▸ hg'.refines.legal
  have hmapped : c ∉ dispatched post → ∃ fb', s'.fibers c = some fb' := by
    intro hnot
    obtain ⟨t, ht, -⟩ := (hlegal.spawn_order.2 hnot).task
    exact hg'.refines.memory.exists_fiber (by rw [hsplit]; exact ht)
  rw [hlog] at hsplit
  rcases append_eq_append_cons hsplit with ⟨es₁, rfl, hes⟩ | ⟨m, hlog₀, rfl⟩
  · -- the child was created in this step
    have hmem : Event.spawn p (some c) ∈ es := by
      rw [hes]
      simp
    obtain ⟨x, request, a, rfl, hcall, hspawned, hes'⟩ := hst.spawns hlog hmem
    obtain ⟨turns, f, t, -, -, -, -, hserved, rfl⟩ := h.served allowed hs
    have hpre : es₁ = [.resume p a (.start request)] := by
      rw [hes] at hes'
      rcases es₁ with _ | ⟨e₁, _ | ⟨e₂, es₁⟩⟩
      · cases hes'
      · cases hes'
        rfl
      · simp only [List.cons_append, List.cons.injEq] at hes'
        obtain ⟨-, rfl, hrest⟩ := hes'
        have hmem : Event.spawn p (some c) ∈ [Event.enqueue p, Event.enqueue c] := by rw [← hrest]; simp
        simp at hmem
    refine ⟨s.log, a, request, by rw [hpre], fun hnot => ?_⟩
    obtain ⟨fb', hf'⟩ := hmapped hnot
    cases hd : s.dispatch turns x with
    | ok s'' =>
      rw [hd] at hf'
      exact ⟨fb', hf', State.dispatch_child hd hcall hspawned hf'⟩
    | error stop =>
      rw [hd] at hlog
      have hnil : es = [] := by simpa [State.settle] using hlog
      rw [hnil] at hes
      simp at hes
  · -- it was there before
    obtain ⟨pre', a, request, hpre, hrecord⟩ := hc pre m p c hlog₀
    refine ⟨pre', a, request, hpre, fun hnot => ?_⟩
    obtain ⟨fb, hf, hstart⟩ := hrecord fun hmem => hnot (by simp [hmem])
    obtain ⟨fb', hf'⟩ := hmapped hnot
    have hkeep : Keeps c s s' :=
      h.keeps allowed hs hlog (by simp [hf]) fun hmem => hnot (by simp [hmem])
    obtain ⟨fb₀, hf₀, hsame⟩ := hkeep fb' hf'
    rw [hf] at hf₀
    cases hf₀
    exact ⟨fb', hf', hstart.trans hsame⟩

theorem Reachable.childrenStart (h : Reachable k s) : ChildrenStart s := by
  refine h.keeps (fun g memory counter cqes pre post p c hsplit => ?_) ?_
  · simp [become] at hsplit
  · rintro s s' hreach hs ⟨i, allowed, hstep⟩
    exact hreach.good.childrenStart hs allowed hstep

/-! ### A spawn that fails -/

/-- The fiber `p` goes to the end of the ready list; the set of fibers, every other
record but for its ready link, and every operation stay as they were. -/
structure SpawnFails (s s' : State) (p : Addr) (rest : List Addr) : Prop where
  ready : LinkedQueue (links s.fibers) s.readyHead s.readyTail (p :: rest)
  requeued : LinkedQueue (links s'.fibers) s'.readyHead s'.readyTail (rest ++ [p])
  mapped : ∀ a, s'.fibers a = none ↔ s.fibers a = none
  apart : Apart p s s'

theorem Good.spawn_fails {x : Turn} {request : SpawnRequest} (h : Good k s)
    (allowed : Allowed k s (.turn x))
    (hs : Scheduler.step s (.turn x) = some s') (hcall : x.call = .start request)
    (hx : x.spawned = none) :
    ∃ p rest a, SpawnFails s s' p rest ∧
    s'.log = s.log ++ [.resume p a (.start request), .spawn p none, .enqueue p] := by
  obtain ⟨turns, f, t, -, -, hhead, ht, hserved, rfl⟩ := h.served allowed hs
  obtain ⟨rest, hr⟩ := List.head?_eq_some_iff.mp hhead
  cases hd : s.dispatch turns x with
  | error stop =>
    rw [hd] at hserved
    cases hserved <;> simp_all
  | ok s' =>
    rw [hd] at hserved
    simp only [State.settle]
    obtain ⟨g, hg, hapart⟩ := State.dispatch_apart hd hcall hx
    have hgf : g = f := by
      rw [h.refines.queue.linked.head_eq, hhead] at hg
      exact (Option.some.inj hg).symm
    subst hgf
    cases hserved with
    | spawnFailed call hs' ends =>
      have hready := h.refines.queue
      rw [hr] at hready
      have hrequeued := ends.refines.queue
      have hboard : ([.resume g t.returned x.call, .spawn g none, .enqueue g].foldl Board.apply
          (replay s.log)).ready =
          rest ++ [g] := by
        simp [Board.apply, ht, Board.setAnswer, Board.modify, hr]
      rw [hboard] at hrequeued
      refine ⟨g, rest, t.returned, ⟨hready, hrequeued, fun a => ?_, hapart⟩, by rw [ends.log, hcall]⟩
      rw [ends.refines.memory.mapped, h.refines.memory.mapped]
      by_cases ha : a = g
      · subst ha
        simp [Board.apply, ht, Board.setAnswer, Board.modify]
      · simp [Board.apply, ht, Board.setAnswer, Board.modify, Function.update_of_ne ha]
    | spawned call hs' ends =>
      rw [hx] at hs'
      cases hs'
    | _ => simp_all

/-! ### The whole statement -/

/-- Spawn ordering. A child is never dispatched before its parent has been resumed with
its handle, the dispatch that follows the parent's is the child's, and until then the
child's record starts the entry with the argument of the spawn request. After a failed
spawn the parent is resumed with a null handle; no fiber is added and every other one
stays where it is. -/
theorem spawn_ordering (k : Kernel) (s : State) (reach : Reachable k s) :
    (∀ pre post p c, s.log = pre ++ .spawn p (some c) :: post →
      SpawnOrder p c post ∧
      ∃ pre' a request, pre = pre' ++ [.resume p a (.start request)] ∧
        (c ∉ dispatched post → ∃ fb, s.fibers c = some fb ∧ fb.context = .entry ∧
          fb.entry = request.entry ∧ fb.argument = request.argument)) ∧
    (∀ pre m n p answer call, s.log = pre ++ .spawn p none :: (m ++ .resume p answer call :: n) →
      p ∉ dispatched m → answer = some 0#64) ∧
    (∀ x request s', Allowed k s (.turn x) → step s (.turn x) = some s' → x.call = .start request →
      x.spawned = none → ∃ p rest a, SpawnFails s s' p rest ∧
        s'.log = s.log ++ [.resume p a (.start request), .spawn p none, .enqueue p]) := by
  have hg := reach.good
  refine ⟨fun pre post p c hlog => ?_, fun pre m n p answer call hlog hm => ?_,
    fun x request s' allowed hs hcall hx => hg.spawn_fails allowed hs hcall hx⟩
  · have hlegal : Legal (pre ++ .spawn p (some c) :: post) := hlog ▸ hg.refines.legal
    obtain ⟨pre', a, request, hpre, hrecord⟩ := reach.childrenStart pre post p c hlog
    refine ⟨hlegal.spawn_order.1, pre', a, request, hpre, fun hnot => ?_⟩
    obtain ⟨fb, hf, hstart⟩ := hrecord hnot
    exact ⟨fb, hf, hstart.context, hstart.entry, hstart.argument⟩
  · have hlegal := hg.refines.legal
    rw [hlog] at hlegal
    exact hlegal.spawn_failed hm

/-- The sample parent starts its child, joins it, and the child runs next. -/
theorem spawn_ordering_closing :
    SpawnOrder Sample.parent Sample.child (Sample.events.drop 4) ∧
      Sample.child ∈ dispatched (Sample.events.drop 4) := by
  have hlog := Sample.log_closing
  have h := (spawn_ordering Sample.kernel _ Sample.reachable_closing).1 (Sample.events.take 3)
    (Sample.events.drop 4)
    Sample.parent Sample.child (hlog.trans rfl)
  exact ⟨h.1, by decide +kernel⟩

end Libuc.Scheduler
