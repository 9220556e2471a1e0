import Libuc.Scheduler.Rehearsal

/-! Exactly-once await. Operations are numbered in the order they are staged, which
is the order the kernel takes their SQEs in. A call to await stages one operation;
it returns when that operation, and no other, has completed, with its result. -/

namespace Libuc.Scheduler

open Lib

variable {k : Kernel} {s s' : State} {b : Board} {e : Event} {f g u : Addr} {t : Task}
  {log m : List Event} {o : Op}

def Event.staged : Event → Option Addr
  | .stage f => some f
  | _ => none

def Event.taken : Event → List Sqe
  | .enter call => call.taken
  | _ => []

def Event.posted : Event → Option ℕ
  | .post number _ => some number
  | _ => none

def stagings (log : List Event) : ℕ := (log.filterMap Event.staged).length

def consumed (log : List Event) : List Sqe := log.flatMap Event.taken

theorem consumed_append (log m : List Event) : consumed (log ++ m) = consumed log ++ consumed m :=
  List.flatMap_append

@[simp] theorem consumed_singleton (e : Event) : consumed [e] = e.taken := by simp [consumed]

@[simp] theorem stagings_concat (log : List Event) (e : Event) :
    stagings (log ++ [e]) = stagings log + e.staged.toList.length := by
  simp only [stagings, List.filterMap_append, List.length_append]
  cases he : e.staged <;> simp [he]

inductive Flow (b : Board) (e : Event) (b' : Board) : Prop
  | stage {f : Addr} {sqe : Sqe} (he : e = .stage f) (hand : b.hand = [f])
      (asks : b.Asks f (.await sqe))
      (staged : b'.staged = b.staged ++ [⟨b.count, f, sqe⟩]) (held : b'.held = b.held)
      (posted : b'.posted = b.posted) (count : b'.count = b.count + 1)
  | enter {call : Ring.Enter} (he : e = .enter call) (le : call.taken.length ≤ b.staged.length)
      (same : List.Forall₂ (fun x o => Board.SameButCookie x o.sqe) call.taken
      (b.staged.take call.taken.length))
      (staged : b'.staged = b.staged.drop call.taken.length)
      (held : b'.held = b.held ++ b.staged.take call.taken.length) (posted : b'.posted = b.posted)
      (count : b'.count = b.count)
  | post {o : Op} {cqe : Cqe} {before after : List Op} (he : e = .post o.number cqe)
      (split : b.held = before ++ o :: after) (staged : b'.staged = b.staged)
      (held : b'.held = before ++ after) (posted : b'.posted = b.posted ++ [⟨o, cqe.res, cqe.flags⟩])
      (count : b'.count = b.count)
  | reap {cqe : Cqe} {r : Reply} (he : e = .reap cqe) (split : b.posted = r :: b'.posted)
      (staged : b'.staged = b.staged) (held : b'.held = b.held) (count : b'.count = b.count)
  | still (hs : e.staged = none) (ht : e.taken = []) (hp : e.posted = none) (hr : ∀ cqe, e ≠ .reap cqe)
      (staged : b'.staged = b.staged) (held : b'.held = b.held) (posted : b'.posted = b.posted)
      (count : b'.count = b.count)

theorem Board.Enabled.flow (he : b.Enabled e) : Flow b e (b.apply e) := by
  cases e with
  | stage f =>
    obtain ⟨hh, sqe, hask⟩ := he
    rw [Board.apply_stage hask]
    exact .stage rfl hh hask rfl rfl rfl rfl
  | enter call =>
    have hlen := he.length_eq
    rw [List.length_take] at hlen
    exact .enter rfl (by omega) he rfl rfl rfl rfl
  | post number cqe =>
    obtain ⟨o, ho, hn⟩ := he
    obtain ⟨o, before, after, hheld, hn', hfind, herase⟩ :=
      exists_split_find? (p := fun o : Op => decide (o.number = number)) ho (by simpa using hn)
    have hnumber : o.number = number := by simpa using hn'
    refine .post (o := o) (by rw [hnumber]) hheld ?_ ?_ ?_ ?_ <;>
      simp only [Board.apply, hfind, herase]
  | reap cqe =>
    obtain ⟨-, r, rest, hposted, -⟩ := he
    refine .reap (r := r) rfl ?_ ?_ ?_ ?_ <;> simp only [Board.apply, hposted] <;> rfl
  | resume f answer call =>
    obtain ⟨-, -, t, ht, -⟩ := he
    refine .still rfl rfl rfl (by simp) ?_ ?_ ?_ ?_ <;> simp only [Board.apply, ht]
  | spawn p result => cases result <;> exact .still rfl rfl rfl (by simp) rfl rfl rfl rfl
  | detach u =>
    obtain ⟨g, hh, -⟩ := he
    rw [Board.apply_detach hh]
    exact .still rfl rfl rfl (by simp) rfl rfl rfl rfl
  | destroy g =>
    obtain ⟨tg, htg, -⟩ := he
    simp only [Board.apply, htg]
    cases b.heir g tg <;> exact .still rfl rfl rfl (by simp) rfl rfl rfl rfl
  | launch g => exact .still rfl rfl rfl (by simp) rfl rfl rfl rfl
  | enqueue g => exact .still rfl rfl rfl (by simp) rfl rfl rfl rfl
  | block g u => exact .still rfl rfl rfl (by simp) rfl rfl rfl rfl

theorem Flow.mem_ops {b' : Board} (h : Flow b e b') (ho : o ∈ b'.ops) :
    o ∈ b.ops ∨ e = .stage o.fiber ∧ o.number = b.count ∧ b.Asks o.fiber (.await o.sqe) := by
  cases h with
  | @stage f sqe he hand asks staged held posted count =>
    by_cases hnew : o = ⟨b.count, f, sqe⟩
    · subst hnew
      exact .inr ⟨he, rfl, asks⟩
    · simp only [Board.ops, staged, held, posted, List.append_assoc, List.mem_append,
        List.mem_singleton, hnew, false_or] at ho ⊢
      exact .inl ho
  | enter he le same staged held posted count =>
    simp only [Board.ops, staged, held, posted, List.append_assoc, List.mem_append] at ho ⊢
    rcases ho with ho | ho | ho | ho
    · exact .inl (.inl (List.mem_of_mem_drop ho))
    · exact .inl (.inr (.inl ho))
    · exact .inl (.inl (List.mem_of_mem_take ho))
    · exact .inl (.inr (.inr ho))
  | post he split staged held posted count =>
    simp only [Board.ops, staged, held, posted, split, List.map_append, List.map_cons, List.map_nil,
      List.append_assoc, List.mem_append, List.mem_cons, List.not_mem_nil, or_false] at ho ⊢
    tauto
  | reap he split staged held count =>
    simp only [Board.ops, staged, held, split, List.map_cons, List.append_assoc, List.mem_append,
      List.mem_cons] at ho ⊢
    tauto
  | still hs ht hp hr staged held posted count =>
    simp only [Board.ops, staged, held, posted] at ho ⊢
    exact .inl ho

/-- An operation leaves by being reaped, which answers its fiber. -/
theorem Flow.ops_kept {b' : Board} (h : Flow b e b') (ho : o ∈ b.ops) :
    o ∈ b'.ops ∨ ∃ v, Gives b e o.fiber v := by
  cases h with
  | stage he hand asks staged held posted count =>
    simp only [Board.ops, staged, held, posted, List.append_assoc, List.mem_append] at ho ⊢
    tauto
  | @enter call he le same staged held posted count =>
    simp only [Board.ops, staged, held, posted, List.append_assoc, List.mem_append] at ho ⊢
    rcases ho with ho | ho | ho
    · rw [← List.take_append_drop call.taken.length b.staged, List.mem_append] at ho
      tauto
    · exact .inl (.inr (.inl ho))
    · exact .inl (.inr (.inr (.inr ho)))
  | post he split staged held posted count =>
    simp only [Board.ops, staged, held, posted, split, List.map_append, List.map_cons, List.map_nil,
      List.append_assoc, List.mem_append, List.mem_cons, List.not_mem_nil, or_false] at ho ⊢
    tauto
  | @reap cqe r he split staged held count =>
    by_cases hr : o = r.op
    · subst hr
      subst he
      exact .inr ⟨_, .reap split⟩
    · simp only [Board.ops, staged, held, split, List.map_cons, List.append_assoc, List.mem_append,
        List.mem_cons, hr, false_or] at ho ⊢
      exact .inl ho
  | still hs ht hp hr staged held posted count =>
    simp only [Board.ops, staged, held, posted] at ho ⊢
    exact .inl ho

/-- The `n`-th staged operation is an await of `f` for `sqe`. -/
def Awaited (log : List Event) (n : ℕ) (f : Addr) (sqe : Sqe) : Prop :=
  ∃ p q, log = p ++ .stage f :: q ∧ stagings p = n ∧ (replay p).Asks f (.await sqe)

theorem Awaited.concat {n : ℕ} {sqe : Sqe} (h : Awaited log n f sqe) (e : Event) :
    Awaited (log ++ [e]) n f sqe := by
  obtain ⟨p, q, rfl, hn, hask⟩ := h
  exact ⟨p, q ++ [e], by simp, hn, hask⟩

structure Numbered (log : List Event) (b : Board) : Prop where
  count : b.count = stagings log
  total : (consumed log).length + b.staged.length = b.count
  staged : b.staged.map Op.number = List.range' (consumed log).length b.staged.length
  awaited : ∀ o ∈ b.ops, Awaited log o.number o.fiber o.sqe
  taken : ∀ n x, (consumed log)[n]? = some x → ∃ f sqe, Awaited log n f sqe ∧ Board.SameButCookie x sqe
  below : ∀ o ∈ b.held ++ b.posted.map Reply.op, o.number < (consumed log).length
  posts : (log.filterMap Event.posted).Nodup
  posted : ∀ n ∈ log.filterMap Event.posted, n < (consumed log).length ∧ ∀ o ∈ b.held, o.number ≠ n
  nodup : (b.held.map Op.number).Nodup

theorem filterMap_posted_concat (log : List Event) (e : Event) :
    (log ++ [e]).filterMap Event.posted = log.filterMap Event.posted ++ e.posted.toList := by
  rw [List.filterMap_append]
  cases he : e.posted <;> simp [he]

theorem Numbered.step (h : Numbered log b) {b' : Board} (hf : Flow b e b') (hb : b = replay log) :
    Numbered (log ++ [e]) b' := by
  have htotal := h.total
  have hawaited : ∀ o ∈ b'.ops, Awaited (log ++ [e]) o.number o.fiber o.sqe := by
    intro o ho
    rcases hf.mem_ops ho with ho | ⟨rfl, hn, hask⟩
    · exact (h.awaited o ho).concat _
    · exact ⟨log, [], rfl, by rw [hn, h.count], hb ▸ hask⟩
  cases hf with
  | @stage f sqe he hand asks staged held posted count =>
    subst he
    have hconsumed : consumed (log ++ [Event.stage f]) = consumed log := by
      rw [consumed_append, consumed_singleton]
      exact List.append_nil _
    have hposts : (log ++ [Event.stage f]).filterMap Event.posted = log.filterMap Event.posted := by
      rw [filterMap_posted_concat]
      exact List.append_nil _
    refine ⟨?_, ?_, ?_, ?_, ?_, ?_, ?_, ?_, ?_⟩
    · rw [count, stagings_concat, h.count]
      rfl
    · rw [hconsumed, staged, count, List.length_append, List.length_singleton]
      omega
    · rw [hconsumed, staged, List.map_append, h.staged, List.length_append, List.length_singleton,
        List.range'_1_concat, htotal]
      rfl
    · exact hawaited
    · intro n x hx
      rw [hconsumed] at hx
      obtain ⟨g, sqe', ha, hsame⟩ := h.taken n x hx
      exact ⟨g, sqe', ha.concat _, hsame⟩
    · rw [hconsumed, held, posted]
      exact h.below
    · rw [hposts]
      exact h.posts
    · rw [hposts, hconsumed, held]
      exact h.posted
    · rw [held]
      exact h.nodup
  | @enter call he le same staged held posted count =>
    subst he
    have hconsumed : consumed (log ++ [Event.enter call]) = consumed log ++ call.taken := by
      rw [consumed_append, consumed_singleton]
      rfl
    have hposts : (log ++ [Event.enter call]).filterMap Event.posted = log.filterMap Event.posted := by
      rw [filterMap_posted_concat]
      exact List.append_nil _
    have hnumber : ∀ (i : ℕ) (hi : i < b.staged.length),
        b.staged[i].number = (consumed log).length + i := by
      intro i hi
      have hget := congrArg (fun l : List ℕ => l[i]?) h.staged
      simp only [List.getElem?_map, List.getElem?_eq_getElem hi, Option.map_some,
        List.getElem?_range' hi, one_mul, Option.some.injEq] at hget
      exact hget
    have htake : ∀ o ∈ b.staged.take call.taken.length, (consumed log).length ≤ o.number ∧
        o.number < (consumed log).length + call.taken.length := by
      intro o ho
      obtain ⟨i, hi, rfl⟩ := List.getElem_of_mem ho
      simp only [List.length_take] at hi
      rw [List.getElem_take, hnumber i (by omega)]
      omega
    refine ⟨?_, ?_, ?_, ?_, ?_, ?_, ?_, ?_, ?_⟩
    · rw [count, stagings_concat, h.count]
      rfl
    · rw [hconsumed, staged, count, List.length_append, List.length_drop]
      omega
    · rw [hconsumed, staged, List.map_drop, h.staged, List.length_append, List.length_drop,
        List.drop_range']
      simp
    · exact hawaited
    · intro n x hx
      rw [hconsumed] at hx
      by_cases hn : n < (consumed log).length
      · rw [List.getElem?_append_left hn] at hx
        obtain ⟨g, sqe', ha, hsame⟩ := h.taken n x hx
        exact ⟨g, sqe', ha.concat _, hsame⟩
      · rw [List.getElem?_append_right (by omega)] at hx
        obtain ⟨hi, hxe⟩ := List.getElem?_eq_some_iff.mp hx
        have hrel := same.get hi (by rw [← same.length_eq]; exact hi)
        have hstaged : n - (consumed log).length < b.staged.length := by omega
        have ho : b.staged[n - (consumed log).length] ∈ b.ops := by
          simp only [Board.ops, List.append_assoc, List.mem_append]
          exact .inl (List.getElem_mem hstaged)
        have haw := (h.awaited _ ho).concat (Event.enter call)
        rw [hnumber _ hstaged, show (consumed log).length + (n - (consumed log).length) =
          n by omega] at haw
        refine ⟨_, _, haw, ?_⟩
        simp only [List.get_eq_getElem, List.getElem_take] at hrel
        rw [hxe] at hrel
        exact hrel
    · rw [hconsumed, held, posted]
      intro o ho
      rw [List.length_append]
      simp only [List.append_assoc, List.mem_append] at ho
      rcases ho with ho | ho | ho
      · have := h.below o (by simp [ho])
        omega
      · exact (htake o ho).2
      · have := h.below o (by simp only [List.mem_append]; exact .inr ho)
        omega
    · rw [hposts]
      exact h.posts
    · rw [hposts, hconsumed, held]
      intro n hn
      obtain ⟨hlt, hne⟩ := h.posted n hn
      refine ⟨by rw [List.length_append]; omega, fun o ho => ?_⟩
      rcases List.mem_append.mp ho with ho | ho
      · exact hne o ho
      · have := htake o ho
        omega
    · rw [held, List.map_append, List.nodup_append]
      refine ⟨h.nodup, ?_, ?_⟩
      · rw [List.map_take, h.staged]
        exact (List.nodup_range' ).sublist (List.take_sublist _ _)
      · intro n hn n' hn' hnn
        obtain ⟨o, ho, rfl⟩ := List.mem_map.mp hn
        obtain ⟨o', ho', rfl⟩ := List.mem_map.mp hn'
        have h1 := h.below o (by simp [ho])
        have h2 := htake o' ho'
        omega
  | @post o cqe before after he split staged held posted count =>
    subst he
    have hconsumed : consumed (log ++ [Event.post o.number cqe]) = consumed log := by
      rw [consumed_append, consumed_singleton]
      exact List.append_nil _
    have hposts : (log ++ [Event.post o.number cqe]).filterMap Event.posted =
        log.filterMap Event.posted ++ [o.number] := filterMap_posted_concat _ _
    have hmem : o ∈ b.held := by simp [split]
    have hnodup := h.nodup
    rw [split, List.map_append, List.map_cons, List.nodup_middle, List.nodup_cons,
      ← List.map_append] at hnodup
    refine ⟨?_, ?_, ?_, ?_, ?_, ?_, ?_, ?_, ?_⟩
    · rw [count, stagings_concat, h.count]
      rfl
    · rw [hconsumed, staged, count, htotal]
    · rw [hconsumed, staged, h.staged]
    · exact hawaited
    · intro n x hx
      rw [hconsumed] at hx
      obtain ⟨g, sqe', ha, hsame⟩ := h.taken n x hx
      exact ⟨g, sqe', ha.concat _, hsame⟩
    · intro o' ho'
      rw [hconsumed]
      refine h.below o' ?_
      simp only [held, posted, split, List.map_append, List.map_cons, List.map_nil,
        List.append_assoc, List.mem_append, List.mem_cons, List.not_mem_nil, or_false] at ho' ⊢
      tauto
    · rw [hposts, List.nodup_append]
      refine ⟨h.posts, List.nodup_singleton _, ?_⟩
      intro n hn n' hn' hnn
      rw [List.mem_singleton] at hn'
      exact (h.posted n hn).2 o hmem (by rw [hnn, hn'])
    · intro n hn
      rw [hconsumed, held]
      rw [hposts, List.mem_append, List.mem_singleton] at hn
      rcases hn with hn | rfl
      · obtain ⟨hlt, hne⟩ := h.posted n hn
        refine ⟨hlt, fun o' ho' => hne o' ?_⟩
        rw [split]
        rcases List.mem_append.mp ho' with ho' | ho' <;> simp [ho']
      · refine ⟨h.below o (by simp [hmem]), fun o' ho' heq => hnodup.1 ?_⟩
        rw [← heq]
        exact List.mem_map_of_mem ho'
    · rw [held]
      exact hnodup.2
  | @reap cqe r he split staged held count =>
    subst he
    have hconsumed : consumed (log ++ [Event.reap cqe]) = consumed log := by
      rw [consumed_append, consumed_singleton]
      exact List.append_nil _
    have hposts : (log ++ [Event.reap cqe]).filterMap Event.posted = log.filterMap Event.posted := by
      rw [filterMap_posted_concat]
      exact List.append_nil _
    refine ⟨?_, ?_, ?_, ?_, ?_, ?_, ?_, ?_, ?_⟩
    · rw [count, stagings_concat, h.count]
      rfl
    · rw [hconsumed, staged, count, htotal]
    · rw [hconsumed, staged, h.staged]
    · exact hawaited
    · intro n x hx
      rw [hconsumed] at hx
      obtain ⟨g, sqe', ha, hsame⟩ := h.taken n x hx
      exact ⟨g, sqe', ha.concat _, hsame⟩
    · intro o ho
      rw [hconsumed]
      refine h.below o ?_
      simp only [held, split, List.map_cons, List.mem_append, List.mem_cons] at ho ⊢
      tauto
    · rw [hposts]
      exact h.posts
    · rw [hposts, hconsumed, held]
      exact h.posted
    · rw [held]
      exact h.nodup
  | still hs ht hp hr staged held posted count =>
    have hconsumed : consumed (log ++ [e]) = consumed log := by
      rw [consumed_append, consumed_singleton, ht, List.append_nil]
    have hposts : (log ++ [e]).filterMap Event.posted = log.filterMap Event.posted := by
      rw [filterMap_posted_concat, hp]
      exact List.append_nil _
    refine ⟨?_, ?_, ?_, ?_, ?_, ?_, ?_, ?_, ?_⟩
    · rw [count, stagings_concat, h.count, hs]
      rfl
    · rw [hconsumed, staged, count, htotal]
    · rw [hconsumed, staged, h.staged]
    · exact hawaited
    · intro n x hx
      rw [hconsumed] at hx
      obtain ⟨g, sqe', ha, hsame⟩ := h.taken n x hx
      exact ⟨g, sqe', ha.concat _, hsame⟩
    · rw [hconsumed, held, posted]
      exact h.below
    · rw [hposts]
      exact h.posts
    · rw [hposts, hconsumed, held]
      exact h.posted
    · rw [held]
      exact h.nodup

theorem Legal.numbered (h : Legal log) : Numbered log (replay log) := by
  induction h with
  | nil => constructor <;> simp [Board.empty, Board.ops, consumed, stagings]
  | concat hlog he ih =>
    rw [replay_concat]
    exact ih.step he.flow rfl

/-! ### From a call to its operation -/

/-- The call made in the turn after `pre` stages the operation `n`. -/
def Hands (log pre : List Event) (f : Addr) (sqe : Sqe) (n : ℕ) : Prop :=
  ∃ a m q, log = pre ++ .resume f a (.await sqe) :: m ++ .stage f :: q ∧ (∀ e ∈ m, e.resumed ≠ some f) ∧
    stagings (pre ++ .resume f a (.await sqe) :: m) = n

/-- An operation was there already or has been staged since. -/
theorem Legal.op_origin (h : Legal (log ++ m)) (ho : o ∈ (replay (log ++ m)).ops) :
    o ∈ (replay log).ops ∨
      ∃ m₁ m₂, m = m₁ ++ .stage o.fiber :: m₂ ∧ stagings (log ++ m₁) = o.number ∧
        (replay (log ++ m₁)).Asks o.fiber (.await o.sqe) := by
  induction m using List.reverseRecOn with
  | nil => exact .inl (by simpa using ho)
  | append_singleton m e ih =>
    rw [← List.append_assoc] at h ho
    have hlegal := h.of_append
    have he : (replay (log ++ m)).Enabled e := Legal.enabled (q := []) h
    rw [replay_concat] at ho
    rcases he.flow.mem_ops ho with ho | ⟨rfl, hn, hask⟩
    · rcases ih hlegal ho with ho | ⟨m₁, m₂, hm, hn, hask⟩
      · exact .inl ho
      · exact .inr ⟨m₁, m₂ ++ [e], by simp [hm], hn, hask⟩
    · exact .inr ⟨m, [], rfl, by rw [hn, hlegal.numbered.count], hask⟩

/-- A completion was there already or has been posted since. -/
theorem Legal.reply_origin {r : Reply} (h : Legal (log ++ m)) (hr : r ∈ (replay (log ++ m)).posted) :
    r ∈ (replay log).posted ∨
      ∃ m₁ cqe m₂, m = m₁ ++ .post r.op.number cqe :: m₂ ∧ r.res = cqe.res ∧
      r.op ∈ (replay (log ++ m₁)).held := by
  induction m using List.reverseRecOn with
  | nil => exact .inl (by simpa using hr)
  | append_singleton m e ih =>
    rw [← List.append_assoc] at h hr
    have hold : r ∈ (replay (log ++ m)).posted → r ∈ (replay log).posted ∨
        ∃ m₁ cqe m₂, m ++ [e] = m₁ ++ .post r.op.number cqe :: m₂ ∧ r.res = cqe.res ∧
          r.op ∈ (replay (log ++ m₁)).held := by
      intro hr
      rcases ih h.of_append hr with hr | ⟨m₁, cqe, m₂, hm, hres, hheld⟩
      · exact .inl hr
      · exact .inr ⟨m₁, cqe, m₂ ++ [e], by simp [hm], hres, hheld⟩
    have he : (replay (log ++ m)).Enabled e := Legal.enabled (q := []) h
    rw [replay_concat] at hr
    cases he.flow with
    | @post o cqe before after heq split staged held posted count =>
      rw [posted, List.mem_append, List.mem_singleton] at hr
      rcases hr with hr | rfl
      · exact hold hr
      · exact .inr ⟨m, cqe, [], by rw [heq], rfl, by simp [split]⟩
    | reap heq split staged held count => exact hold (by rw [split]; exact List.mem_cons_of_mem _ hr)
    | stage heq hand asks staged held posted count => exact hold (posted ▸ hr)
    | enter heq le same staged held posted count => exact hold (posted ▸ hr)
    | still hs ht hp hne staged held posted count => exact hold (posted ▸ hr)

/-- As long as nothing answers its fiber an operation stays. -/
theorem Legal.ops_kept {c : Call} (h : Legal (log ++ m)) (hq : Quiet log o.fiber c m)
    (ho : o ∈ (replay log).ops) :
    o ∈ (replay (log ++ m)).ops := by
  induction m using List.reverseRecOn with
  | nil => simpa using ho
  | append_singleton m e ih =>
    obtain ⟨-, hg⟩ := hq m e [] rfl
    rw [← List.append_assoc] at h ⊢
    have hkept := ih h.of_append (fun p e' q hs => hq p e' (q ++ [e]) (by simp [hs]))
    have he : (replay (log ++ m)).Enabled e := Legal.enabled (q := []) h
    rw [replay_concat]
    rcases he.flow.ops_kept hkept with hkept | ⟨v, hv⟩
    · exact hkept
    · exact absurd hv (hg v)

theorem stage_unique {p q p' q' : List Event} (h : p ++ .stage f :: q = p' ++ .stage g :: q')
    (hn : stagings p = stagings p') : p = p' ∧ f = g := by
  obtain ⟨hp, he, -⟩ := split_count_unique (f := Event.staged) h (by simp [Event.staged])
    (by simp [Event.staged]) hn
  cases he
  exact ⟨hp, rfl⟩

theorem turn_unique {p q p' q' : List Event} {a a' : Option Long} {c c' : Call}
    (h : p ++ .resume f a c :: q = p' ++ .resume f a' c' :: q') (hq : ∀ e ∈ q, e.resumed ≠ some f)
    (hq' : ∀ e ∈ q', e.resumed ≠ some f) : p = p' ∧ a = a' ∧ c = c' ∧ q = q' := by
  obtain ⟨hp, he, hqq⟩ := split_last_unique (P := fun e : Event => e.resumed = some f) h rfl rfl hq hq'
  cases he
  exact ⟨hp, rfl, rfl, hqq⟩

/-- A staged operation was handed over by one call. -/
theorem Awaited.hands {n : ℕ} {sqe : Sqe} (h : Awaited log n f sqe) (hlegal : Legal log) :
    ∃ pre, Hands log pre f sqe n := by
  obtain ⟨p, q, rfl, hn, t, ht, hcall, -⟩ := h
  obtain ⟨pre, a, m, rfl, hm⟩ := hlegal.of_append.call_origin ht hcall
  exact ⟨pre, a, m, q, rfl, fun e he => (hm e he).1, hn⟩

theorem Hands.asks {pre : List Event} {n : ℕ} {sqe : Sqe} (h : Hands log pre f sqe n)
    (hlegal : Legal log) :
    Awaited log n f sqe := by
  obtain ⟨a, m, q, rfl, hm, hn⟩ := h
  obtain ⟨-, sqe', t, ht, hcall, hans⟩ := hlegal.enabled
  obtain ⟨pre', a', m', heq, hm'⟩ := hlegal.of_append.call_origin ht hcall
  obtain ⟨-, -, hc, -⟩ := turn_unique heq hm (fun e he => (hm' e he).1)
  cases hc
  exact ⟨_, q, rfl, hn, t, ht, hcall, hans⟩

theorem Awaited.unique {n : ℕ} {sqe sqe' : Sqe} (h : Awaited log n f sqe) (h' : Awaited log n g sqe') :
    f = g ∧ sqe = sqe' := by
  obtain ⟨p, q, rfl, hn, t, ht, hcall, -⟩ := h
  obtain ⟨p', q', heq, hn', t', ht', hcall', -⟩ := h'
  obtain ⟨rfl, rfl⟩ := stage_unique heq (hn.trans hn'.symm)
  rw [ht] at ht'
  cases ht'
  rw [hcall] at hcall'
  cases hcall'
  exact ⟨rfl, rfl⟩

/-- One operation belongs to one call. -/
theorem Hands.call_unique {pre pre' : List Event} {n : ℕ} {sqe sqe' : Sqe} (h : Hands log pre f sqe n)
    (h' : Hands log pre' g sqe' n) : pre = pre' ∧ f = g ∧ sqe = sqe' := by
  obtain ⟨a, m, q, rfl, hm, hn⟩ := h
  obtain ⟨a', m', q', heq, hm', hn'⟩ := h'
  obtain ⟨hp, rfl⟩ := stage_unique heq (hn.trans hn'.symm)
  obtain ⟨rfl, -, hc, -⟩ := turn_unique hp hm hm'
  cases hc
  exact ⟨rfl, rfl, rfl⟩

theorem Board.Asks.mem_ops_stage {sqe : Sqe} (h : b.Asks f (.await sqe)) :
    ⟨b.count, f, sqe⟩ ∈ (b.apply (.stage f)).ops := by
  rw [Board.apply_stage h]
  simp [Board.ops]

/-- A staged fiber cannot stage again before its next turn. -/
theorem Legal.staged_once {pre m m' q : List Event} {a : Option Long} {sqe : Sqe}
    (h : Legal (pre ++ Event.resume f a (.await sqe) :: m ++ Event.stage f :: m' ++ Event.stage f :: q))
    (hm : ∀ e ∈ m ++ Event.stage f :: m', e.resumed ≠ some f) : False := by
  have hlegal : Legal (pre ++ [Event.resume f a (.await sqe)] ++ (m ++ Event.stage f :: m')) := by
    refine Legal.of_append (q := Event.stage f :: q) ?_
    simpa using h
  have hfirst : (replay (pre ++ [Event.resume f a (.await sqe)] ++ m)).Enabled (Event.stage f) := by
    refine Legal.enabled (q := m' ++ Event.stage f :: q) ?_
    simpa using h
  have hsecond : (replay (pre ++ [Event.resume f a (.await sqe)] ++
      (m ++ Event.stage f :: m'))).Enabled (Event.stage f) := by
    refine Legal.enabled (q := q) ?_
    simpa using h
  have hpend := hlegal.pending (hlegal.of_append.asks_of_resume nofun) nofun hm
  obtain ⟨hhand, sqe', t, ht, -, hans⟩ := hsecond
  cases hpend with
  | answered split quiet asks gives task call answer enqueued =>
    rw [ht] at task
    cases task
    rw [hans] at answer
    cases answer
  | unanswered quiet asks enqueued =>
    -- the operation of the first staging is still there
    obtain ⟨o, ho, hof⟩ :
        ∃ o ∈ (replay (pre ++ [Event.resume f a (.await sqe)] ++ m ++ [Event.stage f])).ops,
        o.fiber = f := by
      obtain ⟨-, sqe₁, hask₁⟩ := hfirst
      rw [replay_concat]
      exact ⟨_, hask₁.mem_ops_stage, rfl⟩
    subst hof
    have hkept : o ∈ (replay (pre ++ [Event.resume o.fiber a (.await sqe)] ++ m ++
        [Event.stage o.fiber] ++ m')).ops := by
      refine Legal.ops_kept (c := .await sqe) (by simpa using hlegal) ?_ ho
      intro p e q' hs
      have := quiet (m ++ Event.stage o.fiber :: p) e q' (by simp [hs])
      simpa using this
    have hnodup := hlegal.inv.nodup
    rw [Board.placed, List.nodup_append] at hnodup
    refine hnodup.2.2 o.fiber (List.mem_append_right _ (by rw [hhand]; exact List.mem_singleton_self _))
      o.fiber ?_ rfl
    refine List.mem_map_of_mem ?_
    simpa using hkept

/-- One call hands over one operation at most. -/
theorem Hands.number_unique {pre : List Event} {n n' : ℕ} {sqe sqe' : Sqe} (hlegal : Legal log)
    (h : Hands log pre f sqe n) (h' : Hands log pre g sqe' n') : n = n' := by
  obtain ⟨a, m, q, rfl, hm, hn⟩ := h
  obtain ⟨a', m', q', heq, hm', hn'⟩ := h'
  simp only [List.append_assoc, List.cons_append, List.append_cancel_left_eq, List.cons.injEq] at heq
  obtain ⟨hcall, heq⟩ := heq
  cases hcall
  rcases List.append_eq_append_iff.mp heq with ⟨as, rfl, has⟩ | ⟨as, rfl, has⟩
  · cases as with
    | nil =>
      rw [← hn, ← hn', List.append_nil]
    | cons e as =>
      cases has
      exact absurd (by simpa using hlegal) fun hl => Legal.staged_once (q := q') hl hm'
  · cases as with
    | nil =>
      rw [← hn, ← hn', List.append_nil]
    | cons e as =>
      cases has
      exact absurd (by simpa using hlegal) fun hl => Legal.staged_once (q := q) hl hm

/-- What an await that has returned tells: `mid` runs from the call to the return.
The call staged one operation, the kernel took its SQE, which is the fiber's, the
cookie apart, and then completed it with the result the call returns; and the
fiber was put in the ready list once. -/
structure AwaitReturned (pre : List Event) (call : Event) (f : Addr) (sqe : Sqe) (mid : List Event)
    (v : Option Long) (n : ℕ) : Prop where
  hands : Hands (pre ++ call :: mid) pre f sqe n
  completed : ∃ m₁ cqe m₂ x, mid = m₁ ++ .post n cqe :: m₂ ∧
    (consumed (pre ++ call :: m₁))[n]? = some x ∧
    Board.SameButCookie x sqe ∧ v = some (toLong cqe.res)
  enqueued : (mid.filterMap Event.enqueued).count f = 1

theorem Legal.await_returned {pre mid post : List Event} {a v : Option Long} {sqe : Sqe} {c : Call}
    (h : Legal (pre ++ Event.resume f a (.await sqe) :: mid ++ Event.resume f v c :: post))
    (hmid : ∀ e ∈ mid, e.resumed ≠ some f) :
    ∃ n, AwaitReturned pre (Event.resume f a (.await sqe)) f sqe mid v n := by
  obtain ⟨m₁, e, m₂, w, t, rfl, quiet, asks, he, gives, call, answer, hv, enqueued⟩ :=
    h.returned nofun nofun hmid
  have hlegal : Legal (pre ++ [Event.resume f a (.await sqe)] ++ m₁) := by
    refine Legal.of_append (q := e :: m₂ ++ Event.resume f v c :: post) ?_
    simpa using h
  have hlog : pre ++ Event.resume f a (.await sqe) :: m₁ =
      pre ++ [Event.resume f a (.await sqe)] ++ m₁ := by simp
  rw [hlog] at asks he gives
  -- the answer is a completion, of an operation of this fiber
  obtain ⟨call', asks', hkind⟩ := gives.asks hlegal.inv he
  obtain rfl := asks'.unique asks
  cases gives with
  | spawn result =>
    obtain ⟨argument, h'⟩ := hkind
    cases h'
  | detach u' hand => cases hkind
  | destroy task heir => simp at hkind
  | @reap cqe r rest posted =>
    have hr : r ∈ (replay (pre ++ [Event.resume r.op.fiber a (.await sqe)] ++ m₁)).posted := by
      rw [posted]
      exact List.mem_cons_self
    have ho : r.op ∈ (replay (pre ++ [Event.resume r.op.fiber a (.await sqe)] ++ m₁)).ops := by
      simp only [Board.ops, List.mem_append]
      exact .inr (List.mem_map_of_mem hr)
    -- the fiber was running when it made the call, so all this happened since
    have hnone : ∀ o ∈ (replay (pre ++ [Event.resume r.op.fiber a (.await sqe)])).ops,
        o.fiber ≠ r.op.fiber := by
      intro o ho hof
      have hnd := hlegal.of_append.inv.nodup
      have hen : (replay pre).Enabled (Event.resume r.op.fiber a (.await sqe)) :=
        Legal.enabled (q := []) hlegal.of_append
      obtain ⟨-, -, t₀, ht₀, -⟩ := hen
      rw [Board.placed, List.nodup_append] at hnd
      refine hnd.2.2 r.op.fiber (List.mem_append_right _ ?_) o.fiber (List.mem_map_of_mem ho) hof.symm
      rw [replay_concat, Board.hand_resume ht₀ (by simp)]
      exact List.mem_singleton_self _
    have hnew : ∃ p p', m₁ = p ++ Event.stage r.op.fiber :: p' ∧
        stagings (pre ++ [Event.resume r.op.fiber a (.await sqe)] ++ p) = r.op.number := by
      rcases hlegal.op_origin ho with ho | ⟨p, p', hp, hn, -⟩
      · exact absurd rfl (hnone _ ho)
      · exact ⟨p, p', hp, hn⟩
    have hpost : ∃ q cqe' q', m₁ = q ++ Event.post r.op.number cqe' :: q' ∧ r.res = cqe'.res ∧
        r.op ∈ (replay (pre ++ [Event.resume r.op.fiber a (.await sqe)] ++ q)).held := by
      rcases hlegal.reply_origin hr with hr | hr
      · refine absurd rfl (hnone r.op ?_)
        simp only [Board.ops, List.mem_append]
        exact .inr (List.mem_map_of_mem hr)
      · exact hr
    obtain ⟨p, p', hp, hn⟩ := hnew
    obtain ⟨q, cqe', q', hq, hres, hheld⟩ := hpost
    have hhands : Hands (pre ++ Event.resume r.op.fiber a (.await sqe) ::
        (m₁ ++ Event.reap cqe :: m₂)) pre r.op.fiber sqe
        r.op.number := by
      refine ⟨a, p, p' ++ Event.reap cqe :: m₂, by simp [hp], ?_, by simpa using hn⟩
      intro e he
      exact hmid e (by simp [hp, he])
    refine ⟨r.op.number, hhands, ?_, enqueued⟩
    have hlegalq : Legal (pre ++ [Event.resume r.op.fiber a (.await sqe)] ++ q) := by
      refine Legal.of_append (q := Event.post r.op.number cqe' :: q') ?_
      rw [hq] at hlegal
      simpa using hlegal
    have hlt := hlegalq.numbered.below r.op (List.mem_append_left _ hheld)
    obtain ⟨f', sqe', haw, hsame⟩ := hlegalq.numbered.taken _ _ (List.getElem?_eq_getElem hlt)
    have hsqe : sqe' = sqe := by
      have hown :=
        hlegalq.numbered.awaited r.op (List.mem_append_left _ (List.mem_append_right _ hheld))
      have hcall := (hlegal.inv.op r.op ho).unique asks
      cases hcall
      exact (haw.unique hown).2
    subst hsqe
    refine ⟨q, cqe', q' ++ Event.reap cqe :: m₂, _, by simp [hq], ?_, hsame, ?_⟩
    · simp
    · rw [hv, Task.returned, call, answer, hres]

/-- Exactly-once await. In every run: an SQE the kernel has consumed is the one of
an await call, and of no other; a call hands over one at most; the kernel completes
none twice; what it holds under a number is the SQE consumed at that position; and
an await that returns had its SQE completed, and returns the result of that. -/
theorem await_exactly_once (k : Kernel) (s : State) (reach : Reachable k s) :
    (∀ n x, (consumed s.log)[n]? = some x →
      ∃ pre f sqe, Hands s.log pre f sqe n ∧ Board.SameButCookie x sqe) ∧
    (∀ pre pre' f f' sqe sqe' n, Hands s.log pre f sqe n → Hands s.log pre' f' sqe' n →
      pre = pre' ∧ f = f' ∧ sqe = sqe') ∧
    (∀ pre f f' sqe sqe' n n', Hands s.log pre f sqe n → Hands s.log pre f' sqe' n' → n = n') ∧
    (s.log.filterMap Event.posted).Nodup ∧
    (∀ op ∈ s.held, op.number < (consumed s.log).length ∧
      ∃ pre f sqe, Hands s.log pre f sqe op.number ∧ Board.SameButCookie op.sqe sqe) ∧
    (∀ (pre mid post : List Event) (f : Addr) (a v : Option Long) (sqe : Sqe) (c : Call),
      s.log = pre ++ .resume f a (.await sqe) :: mid ++ .resume f v c :: post →
      (∀ e ∈ mid, e.resumed ≠ some f) →
      ∃ n, AwaitReturned pre (.resume f a (.await sqe)) f sqe mid v n) := by
  have h := reach.good.refines
  refine ⟨?_, ?_, ?_, h.legal.numbered.posts, ?_, ?_⟩
  · intro n x hx
    obtain ⟨f, sqe, haw, hsame⟩ := h.legal.numbered.taken n x hx
    obtain ⟨pre, hh⟩ := haw.hands h.legal
    exact ⟨pre, f, sqe, hh, hsame⟩
  · intro pre pre' f f' sqe sqe' n h₁ h₂
    exact h₁.call_unique h₂
  · intro pre f f' sqe sqe' n n' h₁ h₂
    exact h₁.number_unique h.legal h₂
  · intro op hop
    obtain ⟨o, ho, hn, hcarries⟩ := forall₂_mem_left h.flight.held hop
    rw [hn]
    obtain ⟨pre, hh⟩ := (h.legal.numbered.awaited o (by simp [Board.ops, ho])).hands h.legal
    exact ⟨h.legal.numbered.below o (by simp [ho]), pre, _, _, hh, hcarries.same⟩
  · intro pre mid post f a v sqe c hlog hmid
    exact Legal.await_returned (hlog ▸ h.legal) hmid

/-- The child's await returns 7. -/
theorem await_exactly_once_closing :
    ∃ pre mid n, pre ++ .resume Sample.child none (.await Sample.nop) :: mid <+: Sample.events ∧
      AwaitReturned pre (.resume Sample.child none (.await Sample.nop)) Sample.child Sample.nop mid
        (some 7#64) n := by
  obtain ⟨n, hn⟩ := (await_exactly_once Sample.kernel _ Sample.reachable_closing).2.2.2.2.2
    (Sample.events.take 8) ((Sample.events.drop 9).take 5) (Sample.events.drop 15) Sample.child none
    (some 7#64) Sample.nop (.exit 5#32) Sample.log_closing (by decide)
  exact ⟨_, _, n, ⟨Sample.events.drop 14, rfl⟩, hn⟩

end Libuc.Scheduler
