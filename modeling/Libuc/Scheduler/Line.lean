import Libuc.Scheduler.Fairness

/-! The line of fibers that will run: the ready list and then the hand. A parent
that has just spawned stands in it before its child, so it hears of the child
before the child does anything. -/

namespace Libuc.Scheduler

open Lib

variable {b : Board} {e : Event} {f g u : Addr} {t : Task} {log : List Event}

def Board.line (b : Board) : List Addr := b.ready ++ b.hand

/-- How an event moves the line: somebody joins it, the last leaves it to wait or
for good, or the first has its turn. -/
inductive Moves (b : Board) (e : Event) (line : List Addr) : Prop
  | grows (n : List Addr) (eq : line = b.line ++ n) (quiet : e.resumed = none)
  | leaves (before new : List Addr) {last : Addr} {t : Task} (old : b.line = before ++ [last])
      (eq : line = before ++ new) (task : b.tasks last = some t) (waits : t.answer = none)
      (call : t.call ≠ none) (quiet : e.resumed = none)
  | turn {first : Addr} (rest new : List Addr) (old : b.line = first :: rest) (eq : line = rest ++ new)
      (resumed : e.resumed = some first)

theorem Board.Enabled.moves (he : b.Enabled e) (hi : b.Inv) : Moves b e (b.apply e).line := by
  have hlast : ∀ {g c n}, b.hand = [g] → b.Asks g c → (b.apply e).ready = b.ready →
      (b.apply e).hand = n →
      e.resumed = none → Moves b e (b.apply e).line := by
    rintro g c n hh ⟨t, ht, hc, ha⟩ hr hnew hq
    exact .leaves b.ready n (by simp [line, hh]) (by simp [line, hr, hnew]) ht ha (by simp [hc]) hq
  cases e with
  | launch g =>
    obtain ⟨-, -, hh⟩ := he
    exact .grows [g] (by simp [line, Board.apply, hh]) rfl
  | enqueue g =>
    obtain ⟨rest, t, hh, -⟩ := he
    exact .grows [] (by simp [line, Board.apply, hh]) rfl
  | resume g answer call =>
    obtain ⟨hh, hhead, t, ht, -⟩ := he
    obtain ⟨rest, hr⟩ := List.head?_eq_some_iff.mp hhead
    refine .turn rest (b.apply (.resume g answer call)).hand (by simp [line, hh, hr]) ?_ rfl
    rw [line, Board.resume_ready _ ht, hr]
    rfl
  | spawn p result =>
    obtain ⟨hh, -, -⟩ := he
    cases result with
    | none => exact .grows [] (by simp [line, Board.apply, Board.setAnswer, Board.modify]) rfl
    | some c => exact .grows [c] (by simp [line, Board.apply, hh, Board.setAnswer, Board.modify]) rfl
  | block f u =>
    obtain ⟨hh, -, hask, -⟩ := he
    exact hlast hh hask rfl rfl rfl
  | detach u =>
    refine .grows [] ?_ rfl
    rw [line, Board.hand_detach, Board.apply_ready _ rfl]
    simp [line, Event.enqueued]
  | destroy f =>
    obtain ⟨t, ht, hx, hre⟩ := he
    have hr : (b.apply (.destroy f)).ready = b.ready := by
      rw [Board.apply_ready _ rfl]
      simp [Event.enqueued]
    have hself : b.hand = [f] → Moves b (.destroy f) (b.apply (.destroy f)).line := by
      intro hh
      obtain ⟨status, hstatus⟩ := Option.ne_none_iff_exists'.mp hx
      have hc : t.call ≠ none := by
        intro hc
        simp [Task.exit, hc] at hx
      exact .leaves b.ready _ (by simp [line, hh]) (by rw [line, hr]) ht (hi.ended f t ht hx) hc rfl
    cases hre with
    | detached hh _ _ => exact hself hh
    | joined j hh _ _ => exact hself hh
    | asked g hh _ _ _ ask =>
      rcases ask with ask | ask
      · exact hlast hh ask hr rfl rfl
      · exact hlast hh ask hr rfl rfl
  | stage f =>
    obtain ⟨hh, sqe, hask⟩ := he
    refine hlast (n := []) hh hask ?_ ?_ rfl
    · rw [Board.apply_stage hask]
    · rw [Board.apply_stage hask]
  | enter call => exact .grows [] (by simp [line, Board.apply]) rfl
  | post number cqe =>
    obtain ⟨-, hr, hh, -⟩ := b.apply_post number cqe
    exact .grows [] (by simp [line, hr, hh]) rfl
  | reap cqe =>
    obtain ⟨hh, r, rest, hposted, -⟩ := he
    exact .grows [r.op.fiber]
      (by simp [line, Board.apply, hposted, hh, Board.setAnswer, Board.modify]) rfl

/-- A fiber that has been told of its child stands before it in the line, and the
child has not run. -/
def Board.ParentsFirst (b : Board) : Prop :=
  ∀ p t spawn c, b.tasks p = some t → t.call = some (.start spawn) → t.answer = some c →
    ∃ l₁ l₂ tc, b.line = l₁ ++ p :: l₂ ∧ c ∈ l₂ ∧ b.tasks c = some tc ∧ tc.call = none

theorem Board.Inv.line_nodup (hi : b.Inv) : b.line.Nodup := by
  have hn := hi.nodup
  rw [Board.placed, List.nodup_append] at hn
  exact hn.1

theorem Board.ParentsFirst.apply (h : b.ParentsFirst) (hi : b.Inv) (he : b.Enabled e)
    (hs : ∀ f, e ≠ .spawn f none) : (b.apply e).ParentsFirst := by
  intro p t' spawn c ht' hcall hanswer
  cases hold : b.tasks p with
  | none =>
    obtain ⟨rfl, -⟩ := he.created hold ht'
    cases hcall
  | some t =>
    have hev := he.evolves hold
    rw [ht'] at hev
    cases hev with
    | @resumed answer call heq =>
      obtain rfl : call = .start spawn := by simpa [Task.suspend] using hcall
      cases hanswer
    | @given v _ hg hcall' hanswer' =>
      -- only a spawn answers it, and that is when the child appears behind it
      obtain ⟨call, ⟨t₀, ht₀, hc₀, -⟩, hkind⟩ := hg.asks hi he
      rw [hold] at ht₀
      cases ht₀
      rw [hcall'] at hcall
      rw [hcall] at hc₀
      cases hc₀
      cases hg with
      | spawn result =>
        cases result with
        | none => exact absurd rfl (hs p)
        | some c' =>
          rw [hanswer] at hanswer'
          cases hanswer'
          exact ⟨b.ready, [c'], Task.new, rfl, by simp, Function.update_self _ _ _, rfl⟩
      | detach u hand => cases hkind
      | destroy task heir => simp at hkind
      | reap posted =>
        obtain ⟨sqe, hkind⟩ := hkind
        cases hkind
    | kept hg hcall' hanswer' hne =>
      obtain ⟨l₁, l₂, tc, hline, hc, htc, hnew⟩ :=
        h p t spawn c hold (hcall' ▸ hcall) (hanswer' ▸ hanswer)
      have hnd := hi.line_nodup
      have hfirst : e.resumed ≠ some c := by
        intro hr
        cases e with
        | resume g answer call =>
          cases hr
          obtain ⟨hh, hhead, -⟩ := he
          have hhead' : b.line.head? = some c := by rw [Board.line, hh, List.append_nil, hhead]
          rw [hline] at hhead' hnd
          cases l₁ with
          | nil =>
            obtain rfl : p = c := by simpa using hhead'
            simp [hc] at hnd
          | cons x l₁ =>
            obtain rfl : x = c := by simpa using hhead'
            simp [hc] at hnd
        | _ => cases hr
      have hchild : ∃ tc', (b.apply e).tasks c = some tc' ∧ tc'.call = none := by
        have hevc := he.evolves htc
        generalize (b.apply e).tasks c = next at hevc
        cases hevc with
        | destroyed _ hx => simp [Task.exit, hnew] at hx
        | resumed heq =>
          subst heq
          exact absurd rfl hfirst
        | given hg' hcall'' _ => exact ⟨_, rfl, hcall''.trans hnew⟩
        | kept _ hcall'' _ _ => exact ⟨_, rfl, hcall''.trans hnew⟩
      obtain ⟨tc', htc', hnew'⟩ := hchild
      cases he.moves hi with
      | grows new eq quiet =>
        exact ⟨l₁, l₂ ++ new, tc', by rw [eq, hline]; simp, by simp [hc], htc', hnew'⟩
      | @leaves before new last tl old eq task waits call quiet =>
        have hpl : p ≠ last := by
          rintro rfl
          rw [hold] at task
          cases task
          rw [← hanswer', hanswer] at waits
          cases waits
        have hcl : c ≠ last := by
          rintro rfl
          rw [htc] at task
          cases task
          exact call hnew
        rw [old] at hline
        rcases List.eq_nil_or_concat l₂ with rfl | ⟨l₂', x, rfl⟩
        · cases hc
        · have hline' : before ++ [last] = (l₁ ++ p :: l₂') ++ [x] := by rw [hline]; simp
          obtain ⟨rfl, hx⟩ := List.append_inj' hline' rfl
          cases hx
          refine ⟨l₁, l₂' ++ new, tc', by rw [eq]; simp, ?_, htc', hnew'⟩
          simp only [List.concat_eq_append, List.mem_append, List.mem_singleton] at hc ⊢
          exact .inl (hc.resolve_right hcl)
      | @turn first rest new old eq resumed =>
        rw [old] at hline
        cases l₁ with
        | nil =>
          cases hline
          cases e with
          | resume g answer call =>
            cases resumed
            exact absurd rfl (hne answer call)
          | _ => cases resumed
        | cons x l₁ =>
          cases hline
          exact ⟨l₁, l₂ ++ new, tc', by rw [eq]; simp, by simp [hc], htc', hnew'⟩

/-- A fiber that waits to join is in hand or its target is there. -/
theorem Board.Inv.join_target (hi : b.Inv) (h : b.Asks f (.join u)) :
    f ∈ b.hand ∨ ∃ t, b.tasks u = some t := by
  obtain ⟨t, ht, hc, ha⟩ := id h
  by_cases hp : f ∈ b.placed
  · simp only [Board.placed, List.mem_append] at hp
    rcases hp with (hp | hp) | hp
    · exact absurd ha (hi.ready f hp t ht)
    · exact .inl hp
    · obtain ⟨o, ho, rfl⟩ := List.mem_map.mp hp
      cases h.unique (hi.op o ho)
  · rcases hi.unplaced f t ht hp with hz | ⟨w, tw, hw, hj⟩
    · exact absurd (Task.exit_eq_none_of_call hc (by simp)) (Task.zombie_iff.mp hz).1
    · cases h.unique (hi.joiner w tw f hw hj).1
      exact .inr ⟨tw, hw⟩

/-- Nobody's child runs before its parent has been told of it. -/
theorem Legal.parentsFirst (h : Legal log) (hs : ∀ f, .spawn f none ∉ log) :
    (replay log).ParentsFirst := by
  induction h with
  | nil => exact nofun
  | @concat log e hlog he ih =>
    rw [replay_concat]
    refine (ih fun f hf => hs f (List.mem_append_left _ hf)).apply hlog.inv he ?_
    rintro f rfl
    exact hs f (by simp)

end Libuc.Scheduler
