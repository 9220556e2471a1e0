import Libuc.Scheduler.Simulation

/-! The life of one call. Between the turn in which a fiber makes a call and the
turn in which the call returns, one event answers it and one event puts the fiber
back in the ready list. Which event can answer depends on the call. -/

namespace Libuc.Scheduler

open Lib

/-- The event answers the fiber's call with this value. -/
inductive Gives (b : Board) : Event → Addr → Long → Prop
  | spawn {p : Addr} (result : Option Addr) : Gives b (.spawn p result) p (result.getD 0#64)
  | detach {f : Addr} (u : Addr) (hand : b.hand = [f]) : Gives b (.detach u) f 0#64
  | destroy {f j : Addr} {t : Task} (task : b.tasks f = some t) (heir : b.heir f t = some j) :
      Gives b (.destroy f) j (b.bequest j t)
  | reap {cqe : Cqe} {r : Reply} {rest : List Reply} (posted : b.posted = r :: rest) :
      Gives b (.reap cqe) r.op.fiber (toLong r.res)

variable {b : Board} {e : Event} {f g : Addr} {t : Task} {v : Long}

/-- The fiber a destruction answers joins or detaches the destroyed one. -/
theorem Board.Reclaim.heir_asks (hi : b.Inv) (ht : b.tasks f = some t) (hre : b.Reclaim f t)
    (hheir : b.heir f t = some g) : b.Asks g (.join f) ∨ b.Asks g (.detach f) ∧ b.hand = [g] := by
  cases hre with
  | detached hand h hj => simp [heir, hj, hand] at hheir
  | joined j hand h hj =>
    simp only [heir, hj, Option.some.injEq] at hheir
    subst hheir
    exact .inl (hi.joiner f t j ht hj).1
  | asked g' hand hne h hj ask =>
    simp only [heir, hj, hand, List.find?_cons, hne, ne_eq, not_false_eq_true, decide_true,
      Option.some.injEq] at hheir
    subst hheir
    rcases ask with ask | ask
    · exact .inl ask
    · exact .inr ⟨ask, hand⟩

theorem Gives.asks (h : Gives b e f v) (hi : b.Inv) (he : b.Enabled e) :
    ∃ call, b.Asks f call ∧
      match e with
      | .spawn _ _ => ∃ argument, call = .start argument
      | .detach u => call = .detach u
      | .destroy u => call = .join u ∨ call = .detach u
      | .reap _ => ∃ sqe, call = .await sqe
      | _ => False := by
  cases h with
  | spawn result =>
    obtain ⟨-, ⟨argument, hask⟩, -⟩ := he
    exact ⟨_, hask, argument, rfl⟩
  | detach u hand =>
    obtain ⟨f', hand', hask, -⟩ := he
    rw [hand] at hand'
    cases hand'
    exact ⟨_, hask, rfl⟩
  | destroy task heir =>
    obtain ⟨t', ht', -, hre⟩ := he
    rw [task] at ht'
    cases ht'
    rcases hre.heir_asks hi task heir with hask | ⟨hask, -⟩
    · exact ⟨_, hask, .inl rfl⟩
    · exact ⟨_, hask, .inr rfl⟩
  | reap posted => exact ⟨_, hi.op _ (by simp [Board.ops, posted]), _, rfl⟩

theorem Gives.answer_none (h : Gives b e f v) (hi : b.Inv) (he : b.Enabled e)
    (ht : b.tasks f = some t) :
    t.answer = none := by
  obtain ⟨call, ⟨t', ht', -, hans⟩, -⟩ := h.asks hi he
  rw [ht] at ht'
  cases ht'
  exact hans

theorem Board.apply_destroy_self (ht : b.tasks f = some t) : (b.apply (.destroy f)).tasks f = none := by
  simp only [Board.apply, ht]
  cases b.heir f t <;> simp

inductive Evolves (b : Board) (e : Event) (f : Addr) (t : Task) : Option Task → Prop
  | destroyed (he : e = .destroy f) (hx : t.exit ≠ none) : Evolves b e f t none
  | resumed {answer : Option Long} {call : Call} (he : e = .resume f answer call) :
      Evolves b e f t (some (t.suspend call))
  | given {v : Long} {t' : Task} (h : Gives b e f v) (call : t'.call = t.call)
      (answer : t'.answer = some v) :
      Evolves b e f t (some t')
  | kept {t' : Task} (h : ∀ v, ¬ Gives b e f v) (call : t'.call = t.call)
      (answer : t'.answer = t.answer)
      (he : ∀ answer call, e ≠ .resume f answer call) : Evolves b e f t (some t')

theorem Board.Enabled.evolves (he : b.Enabled e) (ht : b.tasks f = some t) :
    Evolves b e f t ((b.apply e).tasks f) := by
  cases e with
  | launch g =>
    obtain ⟨-, hg, -⟩ := he
    have hne : f ≠ g := by
      rintro rfl
      rw [hg] at ht
      cases ht
    rw [show (b.apply (.launch g)).tasks f = some t from (Function.update_of_ne hne _ _).trans ht]
    exact .kept (by rintro v ⟨⟩) rfl rfl (by simp)
  | enqueue g =>
    rw [show (b.apply (.enqueue g)).tasks f = some t from ht]
    exact .kept (by rintro v ⟨⟩) rfl rfl (by simp)
  | resume g answer call =>
    obtain ⟨-, -, t', ht', -⟩ := he
    by_cases hfg : f = g
    · subst hfg
      rw [show (b.apply (.resume f answer call)).tasks f =
        some (t.suspend call) by simp [Board.apply, ht]]
      exact .resumed rfl
    · rw [show (b.apply (.resume g answer call)).tasks f = some t by simp [Board.apply, ht', hfg, ht]]
      refine .kept (by rintro v ⟨⟩) rfl rfl ?_
      intro answer' call' h
      cases h
      exact hfg rfl
  | spawn p result =>
    obtain ⟨hh, -, hnew⟩ := he
    have hlast : (b.apply (.spawn p result)).tasks f = (b.setAnswer p (result.getD 0#64)).tasks f := by
      cases result with
      | none => rfl
      | some c =>
        have hne : f ≠ c := by
          rintro rfl
          rw [(hnew f rfl).2] at ht
          cases ht
        exact Function.update_of_ne hne _ _
    rw [hlast]
    by_cases hfp : f = p
    · subst hfp
      rw [Board.setAnswer_self ht]
      exact .given (.spawn result) rfl rfl
    · rw [Board.setAnswer_of_ne _ hfp, ht]
      refine .kept ?_ rfl rfl (by simp)
      intro v h
      cases h
      exact hfp rfl
  | block g u =>
    by_cases hfu : f = u
    · subst hfu
      rw [show (b.apply (.block g f)).tasks f = some { t with joiner := some g } by
        simp [Board.apply, ht]]
      exact .kept (by rintro v ⟨⟩) rfl rfl (by simp)
    · rw [show (b.apply (.block g u)).tasks f = some t by simp [Board.apply, hfu, ht]]
      exact .kept (by rintro v ⟨⟩) rfl rfl (by simp)
  | detach u =>
    obtain ⟨g, hh, -, -⟩ := he
    have hmod : ∃ t', (b.modify u fun v => { v with detached := true }).tasks f = some t' ∧
        t'.call = t.call ∧
        t'.answer = t.answer := by
      by_cases hfu : f = u
      · subst hfu
        exact ⟨{ t with detached := true }, by simp [ht], rfl, rfl⟩
      · exact ⟨t, by simp [hfu, ht], rfl, rfl⟩
    obtain ⟨t', ht', hcall, hans⟩ := hmod
    rw [Board.apply_detach hh]
    by_cases hfg : f = g
    · subst hfg
      rw [Board.setAnswer_self ht']
      exact .given (.detach u hh) hcall rfl
    · rw [Board.setAnswer_of_ne _ hfg, ht']
      refine .kept ?_ hcall hans (by simp)
      intro v h
      cases h with
      | detach _ hand =>
        rw [hh] at hand
        cases hand
        exact hfg rfl
  | destroy g =>
    obtain ⟨tg, htg, hx, hre⟩ := he
    by_cases hfg : f = g
    · subst hfg
      rw [ht] at htg
      cases htg
      rw [Board.apply_destroy_self ht]
      exact .destroyed rfl hx
    · cases hheir : b.heir g tg with
      | none =>
        rw [show (b.apply (.destroy g)).tasks f = some t by simp [Board.apply, htg, hheir, hfg, ht]]
        refine .kept ?_ rfl rfl (by simp)
        intro v h
        cases h with
        | destroy task heir =>
          rw [htg] at task
          cases task
          rw [hheir] at heir
          cases heir
      | some j =>
        have hlast : (b.apply (.destroy g)).tasks f = (b.setAnswer j (b.bequest j tg)).tasks f := by
          simp only [Board.apply, htg, hheir]
          exact Function.update_of_ne hfg _ _
        rw [hlast]
        by_cases hfj : f = j
        · subst hfj
          rw [Board.setAnswer_self ht]
          exact .given (.destroy htg hheir) rfl rfl
        · rw [Board.setAnswer_of_ne _ hfj, ht]
          refine .kept ?_ rfl rfl (by simp)
          intro v h
          cases h with
          | destroy task heir =>
            rw [htg] at task
            cases task
            rw [hheir] at heir
            cases heir
            exact hfj rfl
  | stage g =>
    obtain ⟨-, sqe, hask⟩ := he
    rw [Board.apply_stage hask]
    rw [show Board.tasks { b with staged := _, count := _, hand := _ } f = some t from ht]
    exact .kept (by rintro v ⟨⟩) rfl rfl (by simp)
  | enter call =>
    rw [show (b.apply (.enter call)).tasks f = some t from ht]
    exact .kept (by rintro v ⟨⟩) rfl rfl (by simp)
  | post number cqe =>
    rw [(b.apply_post number cqe).1, ht]
    exact .kept (by rintro v ⟨⟩) rfl rfl (by simp)
  | reap cqe =>
    obtain ⟨-, r, rest, hposted, -⟩ := he
    have hlast : (b.apply (.reap cqe)).tasks f = (b.setAnswer r.op.fiber (toLong r.res)).tasks f := by
      simp only [Board.apply, hposted]
    rw [hlast]
    by_cases hfr : f = r.op.fiber
    · subst hfr
      rw [Board.setAnswer_self ht]
      exact .given (.reap hposted) rfl rfl
    · rw [Board.setAnswer_of_ne _ hfr, ht]
      refine .kept ?_ rfl rfl (by simp)
      intro v h
      cases h with
      | reap posted =>
        rw [hposted] at posted
        cases posted
        exact hfr rfl

/-- A fiber that was not there has been created by the event. -/
theorem Board.Enabled.created (he : b.Enabled e) (hf : b.tasks f = none) {t' : Task}
    (ht' : (b.apply e).tasks f = some t') :
    t' = Task.new ∧ (e = .launch f ∨ ∃ p, e = .spawn p (some f)) := by
  have hset : ∀ (g : Addr) (v : Long), (b.setAnswer g v).tasks f = none := by
    intro g v
    by_cases hfg : f = g
    · subst hfg
      simp [Board.setAnswer, hf]
    · rw [Board.setAnswer_of_ne v hfg, hf]
  have hmod : ∀ (g : Addr) (h : Task → Task), (b.modify g h).tasks f = none := by
    intro g h
    by_cases hfg : f = g
    · subst hfg
      simp [hf]
    · simp [hfg, hf]
  cases e with
  | launch g =>
    by_cases hfg : f = g
    · subst hfg
      have := (Function.update_self _ _ _).symm.trans ht'
      cases this
      exact ⟨rfl, .inl rfl⟩
    · have := hf.symm.trans ((Function.update_of_ne hfg _ _).symm.trans ht')
      cases this
  | spawn p result =>
    cases result with
    | none => rw [show (b.apply (.spawn p none)).tasks f = none from hset p _] at ht'; cases ht'
    | some c =>
      by_cases hfc : f = c
      · subst hfc
        have := (Function.update_self _ _ _).symm.trans ht'
        cases this
        exact ⟨rfl, .inr ⟨p, rfl⟩⟩
      · have := (hset p c).symm.trans ((Function.update_of_ne hfc _ _).symm.trans ht')
        cases this
  | resume g answer call =>
    obtain ⟨-, -, t, ht, -⟩ := he
    have hfg : f ≠ g := by
      rintro rfl
      rw [hf] at ht
      cases ht
    simp [Board.apply, ht, hfg, hf] at ht'
  | block g u => rw [show (b.apply (.block g u)).tasks f = none from hmod u _] at ht'; cases ht'
  | detach u =>
    obtain ⟨g, hh, -, -⟩ := he
    rw [Board.apply_detach hh, Board.setAnswer] at ht'
    by_cases hfg : f = g
    · subst hfg
      simp [hmod] at ht'
    · simp [hmod, hfg] at ht'
  | destroy g =>
    obtain ⟨tg, htg, -, -⟩ := he
    simp only [Board.apply, htg] at ht'
    cases hheir : b.heir g tg with
    | none =>
      by_cases hfg : f = g <;> simp [hheir, hfg, hf] at ht'
    | some j =>
      by_cases hfg : f = g <;> simp [hheir, hfg, hset] at ht'
  | stage g =>
    obtain ⟨-, sqe, hask⟩ := he
    rw [Board.apply_stage hask] at ht'
    simp [hf] at ht'
  | post number cqe =>
    rw [(b.apply_post number cqe).1, hf] at ht'
    cases ht'
  | reap cqe =>
    obtain ⟨-, r, rest, hposted, -⟩ := he
    simp [Board.apply, hposted, hset] at ht'
  | enqueue g => rw [show (b.apply (.enqueue g)).tasks f = none from hf] at ht'; cases ht'
  | enter call => rw [show (b.apply (.enter call)).tasks f = none from hf] at ht'; cases ht'

theorem Gives.hand (h : Gives b e f v) (he : b.Enabled e) : (b.apply e).hand.count f = 1 := by
  cases h with
  | spawn result =>
    obtain ⟨hh, ⟨argument, t, ht, -⟩, hnew⟩ := he
    cases result with
    | none =>
      rw [show (b.apply (.spawn f none)).hand = [f] from hh]
      simp
    | some c =>
      have hcf : c ≠ f := by
        rintro rfl
        rw [(hnew c rfl).2] at ht
        cases ht
      rw [show (b.apply (.spawn f (some c))).hand = [f, c] from rfl]
      simp [hcf]
  | detach u hand =>
    rw [Board.hand_detach, hand]
    simp
  | destroy task heir =>
    rw [Board.hand_destroy task, heir]
    simp
  | reap posted => simp [Board.apply, posted]

/-- An answered fiber stays in hand until it is enqueued. -/
theorem Board.Enabled.hand_kept (he : b.Enabled e) (hi : b.Inv) (ht : b.tasks f = some t)
    (ha : t.answer ≠ none) (hx : t.exit = none) (hr : e.resumed ≠ some f) :
    (b.apply e).hand.count f + (e.enqueued.toList).count f = b.hand.count f := by
  have hasks : ∀ {call}, ¬ b.Asks f call := by
    rintro call ⟨t', ht', -, hans⟩
    rw [ht] at ht'
    cases ht'
    exact ha hans
  have hgives : ∀ v, ¬ Gives b e f v := fun v hg => ha (hg.answer_none hi he ht)
  cases e with
  | launch g =>
    obtain ⟨-, hg, hh⟩ := he
    have hne : g ≠ f := by
      rintro rfl
      rw [hg] at ht
      cases ht
    simp [Board.apply, Event.enqueued, hh, hne]
  | enqueue g =>
    obtain ⟨rest, -, hh, -⟩ := he
    simp only [Board.apply, Event.enqueued, hh, List.tail_cons, Option.toList_some, List.count_cons,
      List.count_nil]
    omega
  | resume g answer call =>
    obtain ⟨hh, -, t', ht', -⟩ := he
    have hne : g ≠ f := by
      rintro rfl
      exact hr rfl
    simp only [Board.apply, ht', Event.enqueued, hh]
    split_ifs <;> simp [hne]
  | spawn p result =>
    obtain ⟨hh, -, hnew⟩ := he
    have hne : p ≠ f := by
      rintro rfl
      exact hgives _ (.spawn result)
    cases result with
    | none =>
      rw [show (b.apply (.spawn p none)).hand = b.hand from rfl]
      simp [Event.enqueued]
    | some c =>
      have hcf : c ≠ f := by
        rintro rfl
        rw [(hnew c rfl).2] at ht
        cases ht
      rw [show (b.apply (.spawn p (some c))).hand = [p, c] from rfl, hh]
      simp [Event.enqueued, hne, hcf]
  | block g u =>
    obtain ⟨hh, -, hask, -⟩ := he
    have hne : g ≠ f := by
      rintro rfl
      exact hasks hask
    rw [show (b.apply (.block g u)).hand = [] from rfl, hh]
    simp [Event.enqueued, hne]
  | detach u =>
    rw [Board.hand_detach]
    simp [Event.enqueued]
  | destroy g =>
    obtain ⟨tg, htg, hxg, hre⟩ := he
    have hhand : b.hand.count f = 0 := by
      cases hre with
      | detached hh _ _ =>
        rw [hh]
        have hne : g ≠ f := by
          rintro rfl
          rw [ht] at htg
          cases htg
          exact hxg hx
        simp [hne]
      | joined j hh _ _ =>
        rw [hh]
        have hne : g ≠ f := by
          rintro rfl
          rw [ht] at htg
          cases htg
          exact hxg hx
        simp [hne]
      | asked g' hh _ _ _ ask =>
        rw [hh]
        have hne : g' ≠ f := by
          rintro rfl
          rcases ask with ask | ask
          · exact hasks ask
          · exact hasks ask
        simp [hne]
    rw [Board.hand_destroy htg, hhand]
    cases hheir : b.heir g tg with
    | none => simp [Event.enqueued]
    | some j =>
      have hne : j ≠ f := by
        rintro rfl
        exact hgives _ (.destroy htg hheir)
      simp [Event.enqueued, hne]
  | stage g =>
    obtain ⟨hh, sqe, hask⟩ := he
    have hne : g ≠ f := by
      rintro rfl
      exact hasks hask
    rw [Board.apply_stage hask, hh]
    simp [Event.enqueued, hne]
  | enter call =>
    rw [show (b.apply (.enter call)).hand = b.hand from rfl]
    simp [Event.enqueued]
  | post number cqe =>
    rw [(b.apply_post number cqe).2.2.1]
    simp [Event.enqueued]
  | reap cqe =>
    obtain ⟨hh, r, rest, hposted, -⟩ := he
    have hne : r.op.fiber ≠ f := by
      rintro rfl
      exact hgives _ (.reap hposted)
    rw [show (b.apply (.reap cqe)).hand = [r.op.fiber] by simp [Board.apply, hposted], hh]
    simp [Event.enqueued, hne]

/-! ### Where a call comes from -/

/-- A fiber that is in a call made it in its last turn, and has not been destroyed
since. -/
theorem Legal.call_origin {log : List Event} (h : Legal log) (ht : (replay log).tasks f = some t)
    {c : Call} (hc : t.call = some c) :
    ∃ p a q, log = p ++ .resume f a c :: q ∧ ∀ e ∈ q, e.resumed ≠ some f ∧ e ≠ .destroy f := by
  induction h generalizing t with
  | nil => cases ht
  | @concat log e hlog he ih =>
    rw [replay_concat] at ht
    cases hold : (replay log).tasks f with
    | none =>
      obtain ⟨rfl, -⟩ := he.created hold ht
      cases hc
    | some told =>
      have hev := he.evolves hold
      rw [ht] at hev
      have hdestroy : e ≠ .destroy f := by
        rintro rfl
        rw [Board.apply_destroy_self hold] at ht
        cases ht
      have hkeep : t.call = told.call → e.resumed ≠ some f →
          ∃ p a q, log ++ [e] = p ++ .resume f a c :: q ∧ ∀ e ∈ q, e.resumed ≠ some f ∧
          e ≠ .destroy f := by
        intro hcall hr
        obtain ⟨p, a, q, rfl, hq⟩ := ih hold (hcall.symm.trans hc)
        refine ⟨p, a, q ++ [e], by simp, ?_⟩
        intro e' he'
        rcases List.mem_append.mp he' with he' | he'
        · exact hq e' he'
        · rw [List.mem_singleton.mp he']
          exact ⟨hr, hdestroy⟩
      cases hev with
      | @resumed answer call heq =>
        subst heq
        have hcall : call = c := by simpa [Task.suspend] using hc
        exact ⟨log, answer, [], by rw [hcall], by simp⟩
      | given hg hcall _ =>
        refine hkeep hcall ?_
        cases hg <;> simp [Event.resumed]
      | kept _ hcall _ hne =>
        refine hkeep hcall ?_
        cases e with
        | resume g a' c' =>
          rintro hr
          cases hr
          exact hne a' c' rfl
        | _ => simp [Event.resumed]

/-! ### From creation to exit -/

/-- The event creates the fiber at `u`. -/
def Event.Creates (e : Event) (u : Addr) : Prop := e = .launch u ∨ ∃ p, e = .spawn p (some u)

theorem Board.Enabled.creates (he : b.Enabled e) (hc : e.Creates f) :
    b.tasks f = none ∧ (b.apply e).tasks f = some Task.new := by
  rcases hc with rfl | ⟨p, rfl⟩
  · exact ⟨he.2.1, Function.update_self _ _ _⟩
  · exact ⟨(he.2.2 f rfl).2, Function.update_self _ _ _⟩

/-- A mapped fiber has been created, and not been destroyed since. -/
theorem Legal.creation {log : List Event} (h : Legal log) (ht : (replay log).tasks f = some t) :
    ∃ p e q, log = p ++ e :: q ∧ e.Creates f ∧ ∀ e' ∈ q, e' ≠ .destroy f := by
  induction h generalizing t with
  | nil => cases ht
  | @concat log e hlog he ih =>
    rw [replay_concat] at ht
    cases hold : (replay log).tasks f with
    | none => exact ⟨log, e, [], rfl, (he.created hold ht).2, by simp⟩
    | some told =>
      obtain ⟨p, e', q, rfl, hcreates, hq⟩ := ih hold
      refine ⟨p, e', q ++ [e], by simp, hcreates, ?_⟩
      intro e'' he''
      rcases List.mem_append.mp he'' with he'' | he''
      · exact hq e'' he''
      · rw [List.mem_singleton.mp he'']
        rintro rfl
        rw [Board.apply_destroy_self hold] at ht
        cases ht

/-- A fiber that has ended stays so until it is destroyed. -/
theorem Legal.ended_stays {log m : List Event} (h : Legal (log ++ m))
    (ht : (replay log).tasks f = some t) (hx : t.exit ≠ none) (hm : ∀ e ∈ m, e ≠ .destroy f) :
    ∃ t', (replay (log ++ m)).tasks f = some t' ∧ t'.exit ≠ none := by
  induction m using List.reverseRecOn with
  | nil => exact ⟨t, by simpa using ht, hx⟩
  | append_singleton m e ih =>
    rw [← List.append_assoc] at h ⊢
    obtain ⟨t', ht', hx'⟩ := ih h.of_append (fun e' he' => hm e' (by simp [he']))
    have he : (replay (log ++ m)).Enabled e := Legal.enabled (q := []) h
    have hev := he.evolves ht'
    rw [replay_concat]
    generalize ((replay (log ++ m)).apply e).tasks f = next at hev
    have hsame : ∀ {t'' : Task}, t''.call = t'.call → t''.exit ≠ none := by
      intro t'' hcall
      rwa [Task.exit, hcall]
    cases hev with
    | destroyed heq _ => exact absurd heq (hm e (by simp))
    | resumed heq =>
      subst heq
      obtain ⟨-, hhead, -⟩ := he
      have hi := h.of_append.inv
      exact absurd (hi.ended f t' ht' hx') (hi.ready f (List.mem_of_mem_head? hhead) t' ht')
    | given _ hcall _ => exact ⟨_, rfl, hsame hcall⟩
    | kept _ hcall _ _ => exact ⟨_, rfl, hsame hcall⟩

/-- A fiber that has not ended goes on, or makes its exit before anything is
created in its place. -/
theorem Legal.life {log m : List Event} (h : Legal (log ++ m)) (ht : (replay log).tasks f = some t)
    (hx : t.exit = none) :
    (∃ t', (replay (log ++ m)).tasks f = some t' ∧ t'.exit = none ∧ ∀ e ∈ m, ¬ e.Creates f) ∨
      ∃ m₁ a status m₂, m = m₁ ++ .resume f a (.exit status) :: m₂ ∧ ∀ e ∈ m₁, ¬ e.Creates f := by
  induction m using List.reverseRecOn with
  | nil => exact .inl ⟨t, by simpa using ht, hx, by simp⟩
  | append_singleton m e ih =>
    rw [← List.append_assoc] at h ⊢
    rcases ih h.of_append with ⟨t', ht', hx', hm⟩ | ⟨m₁, a, status, m₂, rfl, hm₁⟩
    · have he : (replay (log ++ m)).Enabled e := Legal.enabled (q := []) h
      have hcreates : ∀ e' ∈ m ++ [e], ¬ e'.Creates f := by
        intro e' he' hc
        rcases List.mem_append.mp he' with he' | he'
        · exact hm e' he' hc
        · rw [List.mem_singleton.mp he'] at hc
          rw [(he.creates hc).1] at ht'
          cases ht'
      have hev := he.evolves ht'
      rw [replay_concat]
      generalize ((replay (log ++ m)).apply e).tasks f = next at hev
      have hsame : ∀ {t'' : Task}, t''.call = t'.call → t''.exit = none := by
        intro t'' hcall
        rwa [Task.exit, hcall]
      cases hev with
      | destroyed _ hx'' => exact absurd hx' hx''
      | @resumed answer call heq =>
        by_cases hexit : ∃ status, call = .exit status
        · obtain ⟨status, rfl⟩ := hexit
          exact .inr ⟨m, answer, status, [], by rw [heq], hm⟩
        · refine .inl ⟨_, rfl, Task.exit_eq_none_of_call rfl fun status hc =>
            hexit ⟨status, hc⟩, hcreates⟩
      | given _ hcall _ => exact .inl ⟨_, rfl, hsame hcall, hcreates⟩
      | kept _ hcall _ _ => exact .inl ⟨_, rfl, hsame hcall, hcreates⟩
    · exact .inr ⟨m₁, a, status, m₂ ++ [e], by simp, hm₁⟩

def AllEnded (log : List Event) : Prop :=
  ∀ p e q u, log = p ++ e :: q → e.Creates u →
    ∃ m₁ a status m₂, q = m₁ ++ .resume u a (.exit status) :: m₂ ∧ ∀ e' ∈ m₁, ¬ e'.Creates u

theorem Legal.allEnded_iff {log : List Event} (h : Legal log) :
    AllEnded log ↔ ∀ u t, (replay log).tasks u = some t → t.exit ≠ none := by
  constructor
  · intro hall u t ht
    obtain ⟨p, e, q, rfl, hcreates, hq⟩ := h.creation ht
    obtain ⟨m₁, a, status, m₂, rfl, -⟩ := hall p e q u rfl hcreates
    have hl : Legal (p ++ e :: m₁ ++ [.resume u a (.exit status)] ++ m₂) := by simpa using h
    have hen : (replay (p ++ e :: m₁)).Enabled (.resume u a (.exit status)) :=
      Legal.enabled (q := []) hl.of_append
    obtain ⟨-, -, t₀, ht₀, -⟩ := hen
    obtain ⟨t', ht', hx'⟩ := hl.ended_stays (f := u) (t := t₀.suspend (.exit status))
      (by rw [replay_concat]; simp [Board.apply, ht₀]) (by simp [Task.exit, Task.suspend])
      (fun e' he' => hq e' (by simp [he']))
    have hlog : p ++ e :: m₁ ++ [.resume u a (.exit status)] ++ m₂ =
        p ++ e :: (m₁ ++ .resume u a (.exit status) :: m₂) := by simp
    rw [hlog, ht] at ht'
    cases ht'
    exact hx'
  · intro hall p e q u hlog hcreates
    subst hlog
    have hnew : (replay (p ++ [e])).tasks u = some Task.new := by
      rw [replay_concat]
      exact (h.enabled.creates hcreates).2
    have hl : Legal (p ++ [e] ++ q) := by simpa using h
    rcases hl.life hnew rfl with ⟨t', ht', hx', -⟩ | hend
    · rw [List.append_assoc, List.singleton_append] at ht'
      exact absurd hx' (hall u t' ht')
    · exact hend

/-! ### Between two turns of one fiber -/

/-- Nothing in `mid` answers the call `c` of the fiber `f`. -/
def Quiet (log : List Event) (f : Addr) (c : Call) (mid : List Event) : Prop :=
  ∀ p e q, mid = p ++ e :: q → (replay (log ++ p)).Asks f c ∧ ∀ v, ¬ Gives (replay (log ++ p)) e f v

theorem Quiet.concat {log mid : List Event} {c : Call} (h : Quiet log f c mid)
    (hask : (replay (log ++ mid)).Asks f c) (hg : ∀ v, ¬ Gives (replay (log ++ mid)) e f v) :
    Quiet log f c (mid ++ [e]) := by
  intro p e' q hsplit
  rcases List.eq_nil_or_concat q with rfl | ⟨q', e'', rfl⟩
  · obtain ⟨rfl, he⟩ := List.append_inj' hsplit rfl
    cases he
    exact ⟨hask, hg⟩
  · have hsplit' : mid ++ [e] = p ++ e' :: q' ++ [e''] := by rw [hsplit]; simp
    obtain ⟨hmid, -⟩ := List.append_inj' hsplit' rfl
    exact h p e' q' hmid

/-- The call has not been answered, or one event answered it and the fiber is in
hand or has been enqueued once. -/
inductive Pending (log : List Event) (f : Addr) (c : Call) (mid : List Event) : Prop
  | unanswered (quiet : Quiet log f c mid) (asks : (replay (log ++ mid)).Asks f c)
      (enqueued : (mid.filterMap Event.enqueued).count f = 0)
  | answered {m₁ m₂ : List Event} {e : Event} {v : Long} {t : Task} (split : mid = m₁ ++ e :: m₂)
      (quiet : Quiet log f c m₁) (asks : (replay (log ++ m₁)).Asks f c)
      (gives : Gives (replay (log ++ m₁)) e f v)
      (task : (replay (log ++ mid)).tasks f = some t) (call : t.call = some c)
      (answer : t.answer = some v)
      (enqueued : (replay (log ++ mid)).hand.count f + (mid.filterMap Event.enqueued).count f = 1)

theorem filterMap_enqueued_concat (mid : List Event) (e : Event) :
    (mid ++ [e]).filterMap Event.enqueued = mid.filterMap Event.enqueued ++ e.enqueued.toList := by
  rw [List.filterMap_append]
  cases he : e.enqueued <;> simp [he]

/-- From the turn that makes a call on, as long as the fiber has no other turn. -/
theorem Legal.pending {log mid : List Event} {c : Call} (h : Legal (log ++ mid))
    (hstart : (replay log).Asks f c) (hc : ∀ status, c ≠ .exit status)
    (hmid : ∀ e ∈ mid, e.resumed ≠ some f) : Pending log f c mid := by
  induction mid using List.reverseRecOn with
  | nil => exact .unanswered (by intro p e q hs; simp at hs) (by simpa using hstart) (by simp)
  | append_singleton mid e ih =>
    rw [← List.append_assoc] at h
    have hlegal := h.of_append
    have he : (replay (log ++ mid)).Enabled e := Legal.enabled (q := []) h
    have hi := hlegal.inv
    have hr := hmid e (by simp)
    cases ih hlegal (fun e' he' => hmid e' (by simp [he'])) with
    | unanswered quiet asks enqueued =>
      obtain ⟨t, ht, hcall, hans⟩ := id asks
      have hnot : e.enqueued ≠ some f := by
        intro hq
        cases e <;> cases hq
        obtain ⟨rest, t', -, ht', ha'⟩ := he
        rw [ht] at ht'
        cases ht'
        exact ha' hans
      have hcount : ((mid ++ [e]).filterMap Event.enqueued).count f = 0 := by
        rw [filterMap_enqueued_concat, List.count_append, enqueued]
        cases hq : e.enqueued with
        | none => simp
        | some g =>
          have : g ≠ f := by
            rintro rfl
            exact hnot hq
          simp [this]
      have hev := he.evolves ht
      generalize hnext : ((replay (log ++ mid)).apply e).tasks f = next at hev
      cases hev with
      | destroyed _ hx => exact absurd (Task.exit_eq_none_of_call hcall hc) hx
      | resumed heq =>
        rw [heq] at hr
        exact absurd rfl hr
      | @given v t' hg hcall' hans' =>
        refine .answered rfl quiet asks hg (t := t') ?_ (hcall'.trans hcall) hans' ?_
        · rw [← List.append_assoc, replay_concat, hnext]
        · rw [hcount, ← List.append_assoc, replay_concat, hg.hand he]
      | @kept t' hg hcall' hans' hne =>
        refine .unanswered (quiet.concat asks hg) ⟨t', ?_, hcall'.trans hcall, hans'.trans hans⟩ hcount
        rw [← List.append_assoc, replay_concat, hnext]
    | @answered m₁ m₂ e' v t split quiet asks gives task call answer enqueued =>
      have hx : t.exit = none := Task.exit_eq_none_of_call call hc
      have hev := he.evolves task
      generalize hnext : ((replay (log ++ mid)).apply e).tasks f = next at hev
      have hcount : (replay (log ++ (mid ++ [e]))).hand.count f +
          ((mid ++ [e]).filterMap Event.enqueued).count f = 1 := by
        have hkept := he.hand_kept hi task (by simp [answer]) hx hr
        rw [← List.append_assoc, replay_concat, filterMap_enqueued_concat, List.count_append]
        omega
      cases hev with
      | destroyed _ hx' => exact absurd hx hx'
      | resumed heq =>
        rw [heq] at hr
        exact absurd rfl hr
      | given hg hcall' hans' =>
        rw [hg.answer_none hi he task] at answer
        cases answer
      | @kept t' hg hcall' hans' hne =>
        refine .answered (show mid ++ [e] =
          m₁ ++ e' :: (m₂ ++ [e]) by simp [split]) quiet asks gives (t := t') ?_
          (hcall'.trans call) (hans'.trans answer) hcount
        rw [← List.append_assoc, replay_concat, hnext]

theorem Legal.asks_of_resume {pre : List Event} {a : Option Long} {c : Call}
    (h : Legal (pre ++ [.resume f a c])) (hc : c ≠ .yield) :
    (replay (pre ++ [.resume f a c])).Asks f c := by
  obtain ⟨-, -, t, ht, -⟩ := Legal.enabled (q := []) h
  rw [replay_concat]
  refine ⟨t.suspend c, by simp [Board.apply, ht], rfl, ?_⟩
  cases c with
  | yield => exact absurd rfl hc
  | _ => rfl

/-- A call that has returned was answered by one event, whose value it returns,
and put its fiber in the ready list once. -/
theorem Legal.returned {pre mid post : List Event} {a v : Option Long} {c c' : Call}
    (h : Legal (pre ++ .resume f a c :: mid ++ .resume f v c' :: post)) (hy : c ≠ .yield)
    (hc : ∀ status, c ≠ .exit status) (hmid : ∀ e ∈ mid, e.resumed ≠ some f) :
    ∃ (m₁ : List Event) (e : Event) (m₂ : List Event) (w : Long) (t : Task), mid = m₁ ++ e :: m₂ ∧
      Quiet (pre ++ [.resume f a c]) f c m₁ ∧ (replay (pre ++ .resume f a c :: m₁)).Asks f c ∧
      (replay (pre ++ .resume f a c :: m₁)).Enabled e ∧
      Gives (replay (pre ++ .resume f a c :: m₁)) e f w ∧
      t.call = some c ∧ t.answer = some w ∧ v = t.returned ∧
      (mid.filterMap Event.enqueued).count f = 1 := by
  have hlegal : Legal (pre ++ [.resume f a c] ++ mid) := by
    have h' : Legal (pre ++ [.resume f a c] ++ mid ++ (.resume f v c' :: post)) := by simpa using h
    exact h'.of_append
  have he : (replay (pre ++ [.resume f a c] ++ mid)).Enabled (.resume f v c') := by
    refine Legal.enabled (q := post) ?_
    simpa using h
  obtain ⟨hhand, hhead, t', ht', hv⟩ := he
  have hpend := hlegal.pending (hlegal.of_append.asks_of_resume hy) hc hmid
  cases hpend with
  | unanswered quiet asks enqueued =>
    obtain ⟨t, ht, -, hans⟩ := asks
    exact absurd hans (hlegal.inv.ready f (List.mem_of_mem_head? hhead) t ht)
  | @answered m₁ m₂ e w t split quiet asks gives task call answer enqueued =>
    rw [ht'] at task
    cases task
    rw [hhand, List.count_nil, Nat.zero_add] at enqueued
    have hen : (replay (pre ++ [.resume f a c] ++ m₁)).Enabled e := by
      refine Legal.enabled (q := m₂) ?_
      rw [split] at hlegal
      simpa using hlegal
    simp only [List.append_assoc, List.singleton_append] at asks gives hen
    exact ⟨m₁, e, m₂, w, t', split, quiet, asks, hen, gives, call, answer, hv, enqueued⟩

end Libuc.Scheduler
