import Libuc.Scheduler.Outcome
import Libuc.Scheduler.Turns

/-! Schedule independence. The story of a run of a program is a run of the program's
network of processes, and the end of the loop is where nobody can have another answer.
Such runs of a network end alike, so two runs of the reactor do. -/

namespace Libuc.Scheduler

open Lib

variable {k : Kernel} {s s' : State} {b : Board} {e : Event} {f g u : Addr} {t : Task}
  {log : List Event} {prog : Program} {res : Path → ℕ → CInt} {y : Story} {n : ℕ} {q : Path}

/-- The names of the first `n` initial fibers. -/
def rootPaths (n : ℕ) : Set Path := {q | ∃ i < n, q = [i]}

/-- How far a story has come: the processes are the initial fibers and those whose
parents have been told of them. -/
def Story.progress (n : ℕ) (y : Story) : ForkJoin.Progress Path Answer :=
  ⟨{q | q ∈ rootPaths n ∨ ∃ q', .handle q ∈ y.received q'}, y.received⟩

/-! ### One turn -/

/-- A fiber that has made a call is known: its parent heard of it first. -/
theorem Told.known (h : Told prog res b y) (hparents : b.ParentsFirst) (hn : y.roots ≤ n)
    (hq : q ∈ y.born) (hcall : ∀ u t, b.tasks u = some t → y.names u = some q → t.call ≠ none) :
    q ∈ (y.progress n).known := by
  rcases h.lineage q hq with ⟨i, hi, rfl⟩ |
    ⟨q', -, j, rfl, hj | ⟨rfl, p, t, spawn, v, ht, hname, hc, ha⟩⟩
  · exact .inl ⟨i, lt_of_lt_of_le hi hn, rfl⟩
  · exact .inr ⟨q', h.kids q' j hj⟩
  · obtain ⟨-, -, tv, -, -, htv, hnew⟩ := hparents p t spawn v ht hc ha
    have hdue := h.due p t q' _ ht hname hc
    exact absurd hnew (hcall v tv htv (hdue.2 v ha))

/-- A turn that is not the first is a step of the network. -/
theorem Told.progress_turn (h : Told prog res b y) (hi : b.Inv) (hparents : b.ParentsFirst)
    (hn : y.roots ≤ n)
    {a : Option Long} {c : Call} (he : b.Enabled (.resume f a c)) (hq : y.names f = some q) :
    Relation.ReflTransGen (ForkJoin.Step (network prog res)) (y.progress n)
      ((y.turn f q a c).progress n) := by
  obtain ⟨t, v, ht, hv, rfl, hx⟩ := he.resume_task hi
  have hborn : q ∈ y.born := by
    obtain ⟨q', hq', hname⟩ := h.named f t ht
    rw [hq] at hname
    cases hname
    exact hq'
  rcases h.received ht hv hx hq c with ⟨-, hsame⟩ | ⟨call, ans, hcall, htells, hself⟩
  · simp only [Story.progress, hsame]
    exact .refl
  · refine .single ?_
    have hadds : ForkJoin.Adds (y.progress n) ((y.turn f q t.returned c).progress n) q ans :=
      ⟨hself, fun m hm => Story.turn_received_of_ne (c := c) hm⟩
    have hknown : q ∈ (y.progress n).known := by
      refine h.known hparents hn hborn ?_
      intro w tw htw hw
      obtain rfl := h.unique w f tw t q htw ht hw hq
      rw [ht] at htw
      cases htw
      simp [hcall]
    have hhandles : ∀ q', (∃ q'', .handle q' ∈ (y.turn f q t.returned c).received q'') ↔
        (∃ q'', .handle q' ∈ y.received q'') ∨ ans = .handle q' := by
      intro q'
      constructor
      · rintro ⟨q'', hm⟩
        by_cases hqq : q'' = q
        · rw [hqq, hself, List.mem_append, List.mem_singleton] at hm
          exact hm.imp (fun hm => ⟨q, hm⟩) Eq.symm
        · rw [Story.turn_received_of_ne hqq] at hm
          exact .inl ⟨q'', hm⟩
      · rintro (⟨q'', hm⟩ | rfl)
        · by_cases hqq : q'' = q
          · exact ⟨q, by rw [hself]; exact List.mem_append_left _ (hqq ▸ hm)⟩
          · exact ⟨q'', by rw [Story.turn_received_of_ne hqq]; exact hm⟩
        · exact ⟨q, by rw [hself]; simp⟩
    cases htells with
    | gets act plain hns =>
      refine .gets hknown act hadds ?_
      ext q'
      have hne : ans ≠ .handle q' := by
        rintro rfl
        cases plain
      simp only [Story.progress, Set.mem_ofPred_eq, hhandles, hne, or_false]
    | @makes spawn act eq =>
      obtain ⟨-, -, tv, -, -, htv, hnew⟩ := hparents f t spawn v ht hcall hv
      have hname := (h.due f t q _ ht hq hcall).2 v hv
      refine .makes hknown act hadds (h.idle v tv _ htv hname hnew) ?_
      ext q'
      simp only [Story.progress, Set.mem_ofPred_eq, Set.mem_insert_iff, hhandles, eq,
        Answer.handle.injEq]
      rw [← or_assoc, or_comm, eq_comm]
    | @waits w target status act ended eq =>
      subst eq
      obtain ⟨hborn', hprog, hend⟩ := h.ended target status ended
      refine .waits hknown act ?_ ?_ hadds ?_
      · refine h.known hparents hn hborn' ?_
        intro w' tw htw hw hnone
        have hexit := hend w' tw htw hw
        simp [Task.exit, hnone] at hexit
      · show network prog res target (y.received target) = .ends status
        simp only [network, hprog]
      · ext q'
        simp only [Story.progress, Set.mem_ofPred_eq, hhandles, reduceCtorEq, or_false]

/-! ### Whole logs -/

theorem Story.roots_note (y : Story) (e : Event) : y.roots ≤ (y.note e).roots := by
  cases e with
  | launch g => exact Nat.le_succ _
  | spawn p result =>
    cases result with
    | none => exact le_rfl
    | some c =>
      simp only [note]
      split <;> exact le_rfl
  | resume g a c =>
    simp only [note]
    split <;> exact le_rfl
  | _ => exact le_rfl

/-- Only a turn gives anybody an answer. -/
theorem Story.received_note (y : Story) (he : e.resumed = none) : (y.note e).received = y.received := by
  cases e with
  | resume g a c => cases he
  | spawn p result =>
    cases result with
    | none => rfl
    | some c =>
      simp only [note]
      split <;> rfl
  | _ => rfl

/-- The story of a log of the program is a run of its network. -/
theorem Legal.network_run (h : Legal log) (hf : Follows prog res log) (hn : (story log).roots ≤ n) :
    Relation.ReflTransGen (ForkJoin.Step (network prog res)) (ForkJoin.start (rootPaths n))
      ((story log).progress n) := by
  induction h with
  | nil =>
    have hstart : (story []).progress n = ForkJoin.start (rootPaths n) := by
      simp [Story.progress, ForkJoin.start, story, Story.empty]
    rw [hstart]
  | @concat log e hlog he ih =>
    rw [story_concat] at hn ⊢
    have hle := (Story.roots_note (story log) e).trans hn
    have hrun := ih hf.of_append hle
    have htold := hlog.told hf.of_append
    cases e with
    | resume g a c =>
      obtain ⟨t, -, ht, -⟩ := he.resume_task hlog.inv
      obtain ⟨q, -, hq⟩ := htold.named g t ht
      simp only [Story.note, hq]
      exact hrun.trans (htold.progress_turn hlog.inv (hlog.parentsFirst hf.of_append.spawns) hle he hq)
    | _ =>
      rw [Story.progress, Story.received_note _ rfl]
      exact hrun

/-! ### The end -/

theorem network_eq_ends {h : List Answer} {status : CInt} :
    network prog res q h = .ends status ↔ prog q h = .exit status := by
  unfold network
  cases prog q h <;> simp

/-- When nothing is in a list, a fiber has ended or waits for another that has not. -/
theorem Told.stuck (h : Told prog res b y) (hi : b.Inv) (hp : b.placed = []) (ht : b.tasks f = some t)
    (hq : y.names f = some q) : (∃ status, y.status q = some status) ∨
      ∃ target, prog q (y.received q) = .join target ∧ y.status q = none ∧
        ∃ w tw, b.tasks w = some tw ∧ y.names w = some target ∧ tw.exit = none := by
  cases hx : t.exit with
  | some status =>
    have hcall : t.call = some (.exit status) := Task.exit_eq_some.mp hx
    exact .inl ⟨status, (h.due f t q _ ht hq hcall).2⟩
  | none =>
    obtain ⟨w, tw, hw, hj⟩ := hi.waits_of_idle hp ht hx
    obtain ⟨⟨t', ht', hcall, ha⟩, -⟩ := hi.joiner w tw f hw hj
    rw [ht] at ht'
    cases ht'
    obtain ⟨target, hprog, hname, -⟩ := h.due f t q _ ht hq hcall
    refine .inr ⟨target, hprog, h.status_none ht hx hq, w, tw, hw, hname ha, ?_⟩
    by_contra hxw
    have hhand : w ∉ b.hand := by
      intro hm
      have : w ∈ b.placed := by simp [Board.placed, hm]
      simp [hp] at this
    have hz := Task.zombie_iff.mp (hi.zombie_of_ended hw hxw hhand)
    rw [hz.2.2] at hj
    cases hj

theorem Told.status_iff (h : Told prog res b y) (hi : b.Inv) (hp : b.placed = []) (hq : q ∈ y.born)
    (status : CInt) :
    y.status q = some status ↔ prog q (y.received q) = .exit status := by
  refine ⟨fun hs => (h.ended q status hs).2.1, fun hprog => ?_⟩
  have hgot : ∃ status', y.status q = some status' := by
    rcases h.living q hq with ⟨u, t, ht, hname⟩ | hst
    · rcases h.stuck hi hp ht hname with hst | ⟨target, hjoin, -⟩
      · exact hst
      · rw [hprog] at hjoin
        cases hjoin
    · exact hst
  obtain ⟨status', hs⟩ := hgot
  have hprog' := (h.ended q status' hs).2.1
  rw [hprog] at hprog'
  cases hprog'
  exact hs

theorem Told.known_iff (h : Told prog res b y) (hi : b.Inv) (hparents : b.ParentsFirst)
    (hp : b.placed = []) :
    q ∈ (y.progress y.roots).known ↔ q ∈ y.born := by
  constructor
  · rintro (⟨i, hlt, rfl⟩ | ⟨q', hm⟩)
    · exact h.roots i hlt
    · exact h.heard q' q hm
  · intro hq
    refine h.known hparents le_rfl hq ?_
    intro u t ht _ hnone
    rcases hi.unplaced u t ht (by simp [hp]) with hz | ⟨w, tw, hw, hj⟩
    · have hx := (Task.zombie_iff.mp hz).1
      simp [Task.exit, hnone] at hx
    · obtain ⟨⟨t', ht', hcall, -⟩, -⟩ := hi.joiner w tw u hw hj
      rw [ht] at ht'
      cases ht'
      rw [hnone] at hcall
      cases hcall

theorem Told.closed (h : Told prog res b y) (hi : b.Inv) (hparents : b.ParentsFirst)
    (hp : b.placed = []) :
    ForkJoin.Closed (network prog res) (y.progress y.roots) := by
  intro q hq
  have hborn := (h.known_iff hi hparents hp).mp hq
  rcases h.living q hborn with ⟨u, t, ht, hname⟩ | ⟨status, hs⟩
  · rcases h.stuck hi hp ht hname with ⟨status, hs⟩ | ⟨target, hprog, -, w, tw, hw, htarget, hx⟩
    · exact .inl ⟨status, network_eq_ends.mpr (h.ended q status hs).2.1⟩
    · refine .inr ⟨target, fun status => .joined (toLong status), ?_, ?_⟩
      · show network prog res q (y.received q) = _
        simp only [network, hprog]
      · rintro ⟨-, status, hends⟩
        obtain ⟨q', hq', hn⟩ := h.named w tw hw
        rw [htarget] at hn
        cases hn
        have hst := (h.status_iff hi hp hq' status).mpr (network_eq_ends.mp hends)
        rw [h.status_none hw hx htarget] at hst
        cases hst
  · exact .inl ⟨status, network_eq_ends.mpr (h.ended q status hs).2.1⟩

/-- The loop is over: `return 0`, or the trap at the test of `joining_count`. -/
def Control.ended : Control → Bool
  | .drained | .stopped (.trap .joinCycle) => true
  | _ => false

/-- The trap after the loop is reached by the test alone. -/
theorem Reachable.joinCycle (h : Reachable k s) (hc : s.control = .stopped (.trap .joinCycle)) :
    (replay s.log).placed = [] ∧ joined (replay s.log).tasks ≠ ∅ := by
  obtain ⟨g, memory, counter, cqes, hrun⟩ := h
  cases hrun with
  | refl => cases hc
  | @tail s₀ _ hrun hstep =>
    have hgood : Good k s₀ := Reachable.good ⟨g, memory, counter, cqes, hrun⟩
    obtain ⟨i, allowed, hs⟩ := hstep
    cases hgood.stepped allowed hs with
    | cycle c ho hr hj ends =>
      have hh := hgood.standing
      rw [c] at hh
      rw [ends.board]
      refine ⟨?_, hj⟩
      have hh' : (replay s₀.log).hand = [] := hh
      simp [Board.placed, Board.parked, ho, hr, hh']
    | turn _ _ _ _ task _ served =>
      rcases served.ok_cases hgood.refines.inv task with ⟨es, -, -, ends⟩ | ⟨sqe, -, -, -, -, -,
        ends⟩ | ⟨status, -, ends⟩ <;>
        cases ends.control.symm.trans hc
    | turnDies _ _ _ _ _ _ served ends =>
      cases ends.control.symm.trans hc
      cases served
    | flushDies _ _ hstop ends =>
      cases ends.control.symm.trans hc
      rcases hstop with ⟨hstop, -⟩ | ⟨hstop, -⟩ <;> cases hstop
    | post _ c _ _ ends =>
      rw [ends.control.symm.trans hc] at c
      cases c
    | launch _ _ _ ends => cases ends.control.symm.trans hc
    | run _ ends => cases ends.control.symm.trans hc
    | loop _ _ ends => cases ends.control.symm.trans hc
    | drain _ _ _ _ ends => cases ends.control.symm.trans hc
    | again _ _ ends => cases ends.control.symm.trans hc
    | boundary _ _ ends => cases ends.control.symm.trans hc
    | flushAgain _ _ _ _ _ ends => cases ends.control.symm.trans hc
    | flushed _ _ _ ends => cases ends.control.symm.trans hc
    | submitAgain _ _ _ ends => cases ends.control.symm.trans hc
    | submitted _ _ _ _ ends => cases ends.control.symm.trans hc
    | submitDies _ _ _ ends => cases ends.control.symm.trans hc
    | reaped _ _ _ ends => cases ends.control.symm.trans hc
    | reapDone _ _ ends => cases ends.control.symm.trans hc
    | reapDies _ ends => cases ends.control.symm.trans hc

/-- At the end nothing is in a list, and the loop has returned 0 exactly if nobody waits. -/
theorem Reachable.ended (h : Reachable k s) (hc : s.control.ended = true) :
    (replay s.log).placed = [] ∧ (s.control = .drained ↔ joined (replay s.log).tasks = ∅) ∧
      (s.control = .drained ∨ s.control = .stopped (.trap .joinCycle)) := by
  have hcases : s.control = .drained ∨ s.control = .stopped (.trap .joinCycle) := by
    unfold Control.ended at hc
    split at hc <;> simp_all
  rcases hcases with hd | hj
  · have hstand := h.good.standing
    rw [hd] at hstand
    obtain ⟨hh, ho, hr, hjoin⟩ := hstand
    exact ⟨by simp [Board.placed, Board.parked, ho, hr, hh], by simp [hd, hjoin], .inl hd⟩
  · obtain ⟨hp, hjoin⟩ := h.joinCycle hj
    exact ⟨hp, by simp [hj, hjoin], .inr hj⟩

/-- The loop returns 0 exactly if every fiber of the story has ended. -/
theorem Told.drained_iff (h : Told prog res (replay s.log) y) (hi : (replay s.log).Inv)
    (hp : (replay s.log).placed = []) :
    joined (replay s.log).tasks = ∅ ↔ ∀ q ∈ y.born, y.status q ≠ none := by
  rw [hi.joined_empty_iff hp]
  constructor
  · intro hall q hq
    rcases h.living q hq with ⟨u, t, ht, hname⟩ | ⟨status, hs⟩
    · intro hnone
      obtain ⟨status, hstatus⟩ := Option.ne_none_iff_exists'.mp (hall u t ht)
      have hcall : t.call = some (.exit status) := Task.exit_eq_some.mp hstatus
      rw [(h.due u t q _ ht hname hcall).2] at hnone
      cases hnone
    · simp [hs]
  · intro hall u t ht hx
    obtain ⟨q, hq, hname⟩ := h.named u t ht
    exact hall q hq (h.status_none ht hx hname)

/-! ### Checking a log against a program -/

def fits (prog : Program) (res : Path → ℕ → CInt) (past : List Event) : Event → Bool
  | .resume f a c => ((story past).names f).all fun q =>
      rename (story past).names c == some (prog q ((story (past ++ [.resume f a c])).received q))
  | .spawn _ none => false
  | .post n cqe => (replay past).held.all fun o => o.number ≠ n ||
      ((story past).names o.fiber).all fun q => cqe.res = res q (completions ((story past).received q))
  | _ => true

theorem follows_of_fits (h : ∀ i < log.length, log[i]?.all (fits prog res (log.take i)) = true) :
    Follows prog res log := by
  have hfits : ∀ p e r, log = p ++ e :: r → fits prog res p e = true := by
    rintro p e r rfl
    have := h p.length (by simp)
    simpa using this
  refine ⟨?_, ?_, ?_⟩
  · intro p f a c r q hlog hq
    have := hfits p _ r hlog
    simp only [fits, hq, Option.all_some] at this
    exact eq_of_beq this
  · intro f hf
    obtain ⟨p, r, hlog⟩ := List.append_of_mem hf
    cases hfits p _ r hlog
  · intro p n cqe r o q hlog ho hn hq
    have := hfits p _ r hlog
    simp only [fits, List.all_eq_true] at this
    simpa [hn, hq] using this o ho

/-- Two runs of one program over the same number of initial fibers, on any two kernels
and with any timing, tell the same story if both reach the end of the loop: the same
fibers were born, each got the same answers and ended with the same status, and the
loop ended the same way. That each handle is joined or detached at most once is not
needed: it has been kept by a run that gets there. -/
theorem schedule_independence (k k' : Kernel) (s s' : State) (prog : Program) (res : Path → ℕ → CInt)
    (reach : Reachable k s) (reach' : Reachable k' s') (follows : Follows prog res s.log)
    (follows' : Follows prog res s'.log) (roots : (story s.log).roots = (story s'.log).roots)
    (ended : s.control.ended = true) (ended' : s'.control.ended = true) :
    (∀ q, q ∈ (story s.log).born ↔ q ∈ (story s'.log).born) ∧
      (story s.log).received = (story s'.log).received ∧ (story s.log).status = (story s'.log).status ∧
      s.control = s'.control := by
  have hl := reach.good.refines.legal
  have hl' := reach'.good.refines.legal
  obtain ⟨hp, hdrain, hend⟩ := reach.ended ended
  obtain ⟨hp', hdrain', hend'⟩ := reach'.ended ended'
  have htold := hl.told follows
  have htold' := hl'.told follows'
  have hparents := hl.parentsFirst follows.spawns
  have hparents' := hl'.parentsFirst follows'.spawns
  have hrun := hl.network_run (n := (story s.log).roots) follows le_rfl
  have hrun' := hl'.network_run (n := (story s'.log).roots) follows' le_rfl
  rw [← roots] at hrun'
  have hclosed' := htold'.closed hl'.inv hparents' hp'
  rw [← roots] at hclosed'
  obtain ⟨hknown, hhad⟩ := ForkJoin.closed_unique hrun hrun' (htold.closed hl.inv hparents hp) hclosed'
  have hborn : ∀ q, q ∈ (story s.log).born ↔ q ∈ (story s'.log).born := by
    intro q
    rw [← htold.known_iff hl.inv hparents hp, ← htold'.known_iff hl'.inv hparents' hp', hknown, roots]
  have hreceived : ∀ q, (story s.log).received q = (story s'.log).received q := by
    intro q
    by_cases hq : q ∈ (story s.log).born
    · exact hhad q ((htold.known_iff hl.inv hparents hp).mpr hq)
    · rw [(htold.unborn q hq).1, (htold'.unborn q ((hborn q).not.mp hq)).1]
  have hstatus : ∀ q, (story s.log).status q = (story s'.log).status q := by
    intro q
    by_cases hq : q ∈ (story s.log).born
    · refine Option.ext fun status => ?_
      rw [htold.status_iff hl.inv hp hq, htold'.status_iff hl'.inv hp' ((hborn q).mp hq), hreceived q]
    · rw [(htold.unborn q hq).2, (htold'.unborn q ((hborn q).not.mp hq)).2]
  refine ⟨hborn, funext hreceived, funext hstatus, ?_⟩
  have hsame : s.control = .drained ↔ s'.control = .drained := by
    rw [hdrain, hdrain', htold.drained_iff hl.inv hp, htold'.drained_iff hl'.inv hp']
    simp only [hborn, hstatus]
  rcases hend with hd | hj
  · rw [hd, hsame.mp hd]
  · rcases hend' with hd' | hj'
    · rw [hsame.mpr hd', hd']
    · rw [hj, hj']

/-- The program of the sample: the parent starts a child, joins it and ends with 0; the
child awaits a no-op and ends with 5. -/
def Sample.program : Program := fun q h =>
  match q, h.length with
  | [0], 0 => .start Sample.spawnRequest
  | [0], 1 => .join [0, 0]
  | [0], _ => .exit 0#32
  | _, 0 => .await Sample.nop
  | _, _ => .exit 5#32

/-- An ending of the sample with an interrupted enter and a late completion. -/
def Sample.closingLate : List Input :=
  [.tick, .enter Ring.eintr, .enter 1#64, .tick, .tick, .tick, .enter 0#64, .post 0 7#32 0#32,
    .tick, .tick, .tick, Sample.turn 0x201000#64 (.exit 5#32) none, .tick, .tick,
    Sample.turn 0x101000#64 (.exit 0#32) none, .tick, .tick]

/-- Two runs with the child at different places and with different timing. -/
theorem schedule_independence_late :
    let s := Sample.after (Sample.opening Sample.child ++ Sample.closing)
    let s' := Sample.after (Sample.opening 0x300000#64 ++ Sample.closingLate)
    s.log.length ≠ s'.log.length ∧ (story s.log).received [0] = [.handle [0, 0], .joined 5#64] ∧
      (story s.log).received = (story s'.log).received ∧
      (story s.log).status = (story s'.log).status := by
  have h := schedule_independence Sample.kernel Sample.kernel
    (Sample.after (Sample.opening Sample.child ++ Sample.closing))
    (Sample.after (Sample.opening 0x300000#64 ++ Sample.closingLate)) Sample.program (fun _ _ => 7#32)
    Sample.reachable_closing (Sample.reachable (by decide +kernel))
    (follows_of_fits (by decide +kernel)) (follows_of_fits (by decide +kernel))
    (by decide +kernel) (by decide +kernel) (by decide +kernel)
  exact ⟨by decide +kernel, by decide +kernel, h.2.1, h.2.2.1⟩

end Libuc.Scheduler
