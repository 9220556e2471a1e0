import Libuc.Scheduler.Rehearsal
import Libuc.Scheduler.Location

/-! The life of a record. Every fiber has an account: whether it has ended, how
often its handle was consumed by a join or a detach, how often it was destroyed.
Programs that consume each handle at most once are disciplined, and in their runs
a record goes exactly when its fiber has ended and its handle is consumed. -/

namespace Libuc.Scheduler

open Lib

structure Account where
  exited : Bool
  consumed : ℕ
  destroyed : ℕ

/-- What an event adds to the account of the fiber at `u`. -/
def Account.note (u : Addr) (account : Option Account) : Event → Option Account
  | .launch f => if f = u then some ⟨false, 0, 0⟩ else account
  | .spawn _ (some f) => if f = u then some ⟨false, 0, 0⟩ else account
  | .resume f _ (.exit _) => if f = u then account.map fun a => { a with exited := true } else account
  | .resume _ _ (.join f) => if f = u then account.map fun a =>
    { a with consumed := a.consumed + 1 } else account
  | .resume _ _ (.detach f) => if f = u then account.map fun a =>
    { a with consumed := a.consumed + 1 } else account
  | .destroy f => if f = u then account.map fun a =>
    { a with destroyed := a.destroyed + 1 } else account
  | _ => account

/-- The account of the fiber last created at `u`. -/
def account (log : List Event) (u : Addr) : Option Account := log.foldl (Account.note u) none

@[simp] theorem account_concat (log : List Event) (e : Event) (u : Addr) :
    account (log ++ [e]) u = Account.note u (account log u) e := by
  simp [account]

/-- A handle is consumed once, and not by a fiber that joins itself. -/
def Disciplined (log : List Event) : Event → Prop
  | .resume f _ (.join u) => f ≠ u ∧ ∃ a, account log u = some a ∧ a.consumed = 0
  | .resume _ _ (.detach u) => ∃ a, account log u = some a ∧ a.consumed = 0
  | _ => True

/-- A fiber in hand is about to claim `u`. -/
def Board.Claiming (b : Board) (u : Addr) : Prop :=
  ∃ g ∈ b.hand, b.Asks g (.join u) ∨ b.Asks g (.detach u)

/-- An account fits the record of its fiber; `claiming` says that a claim is about
to be entered in the record. -/
inductive Agrees (claiming : Prop) : Option Account → Option Task → Prop
  | absent (h : ¬ claiming) : Agrees claiming none none
  | free {t : Task} (h : ¬ claiming) (detached : t.detached = false) (joiner : t.joiner = none) :
      Agrees claiming (some ⟨t.exit.isSome, 0, 0⟩) (some t)
  | claimed {t : Task} (h : t.detached = true ∨ t.joiner ≠ none ∨ claiming) :
      Agrees claiming (some ⟨t.exit.isSome, 1, 0⟩) (some t)
  | gone : Agrees claiming (some ⟨true, 1, 1⟩) none

def Accounts (log : List Event) (b : Board) : Prop :=
  ∀ u, Agrees (b.Claiming u) (account log u) (b.tasks u)

def Task.claims (t : Task) : Option CInt × Bool × Option Addr := (t.exit, t.detached, t.joiner)

variable {k : Kernel} {s s' : State} {b b' : Board} {log : List Event} {e : Event}
  {f g u : Addr} {t : Task}

theorem Agrees.congr {c c' : Prop} {a : Option Account} {t t' : Option Task}
    (h : Agrees c a t) (hc : c' ↔ c)
    (ht : t'.map Task.claims = t.map Task.claims) : Agrees c' a t' := by
  rw [propext hc]
  cases h with
  | absent hn =>
    simp only [Option.map_none, Option.map_eq_none_iff] at ht
    rw [ht]
    exact .absent hn
  | gone =>
    simp only [Option.map_none, Option.map_eq_none_iff] at ht
    rw [ht]
    exact .gone
  | @free t hn hd hj =>
    simp only [Option.map_some, Option.map_eq_some_iff, Task.claims, Prod.mk.injEq] at ht
    obtain ⟨t', rfl, hx, hd', hj'⟩ := ht
    rw [← hx]
    exact .free hn (hd'.trans hd) (hj'.trans hj)
  | @claimed t hn =>
    simp only [Option.map_some, Option.map_eq_some_iff, Task.claims, Prod.mk.injEq] at ht
    obtain ⟨t', rfl, hx, hd', hj'⟩ := ht
    rw [← hx]
    exact .claimed (by rw [hd', hj']; exact hn)

namespace Board

theorem not_claiming_nil (hh : b.hand = []) : ¬ b.Claiming u := by
  simp [Claiming, hh]

theorem claiming_iff (hh : b.hand = [f]) (ht : b.tasks f = some t) :
    b.Claiming u ↔ t.answer = none ∧ (t.call = some (.join u) ∨ t.call = some (.detach u)) := by
  simp only [Claiming, hh, List.mem_singleton, exists_eq_left, Asks, ht, Option.some.injEq,
    exists_eq_left']
  tauto

theorem Asks.claiming_iff {c : Call} (h : b.Asks f c) (hh : b.hand = [f]) :
    b.Claiming u ↔ c = .join u ∨ c = .detach u := by
  obtain ⟨t, ht, hc, ha⟩ := h
  rw [Board.claiming_iff hh ht, hc]
  simp [ha]

theorem not_claiming_answered (hh : ∀ g ∈ b.hand, ∀ t, b.tasks g = some t → t.answer ≠ none) :
    ¬ b.Claiming u := by
  rintro ⟨g, hg, ⟨t, ht, -, ha⟩ | ⟨t, ht, -, ha⟩⟩
  · exact hh g hg t ht ha
  · exact hh g hg t ht ha

theorem setAnswer_claims (b : Board) (f : Addr) (v : Long) (u : Addr) :
    ((b.setAnswer f v).tasks u).map Task.claims = (b.tasks u).map Task.claims := by
  by_cases huf : u = f
  · subst huf
    cases ht : b.tasks u with
    | none => simp [setAnswer, ht]
    | some t =>
      rw [setAnswer_self ht]
      rfl
  · rw [setAnswer_of_ne v huf]

end Board

namespace Accounts

/-- An event that concerns nobody's claims. -/
theorem keep (h : Accounts log b) (hn : ∀ u a, Account.note u a e = a)
    (hc : ∀ u, b'.Claiming u ↔ b.Claiming u)
    (ht : ∀ u, (b'.tasks u).map Task.claims = (b.tasks u).map Task.claims) :
    Accounts (log ++ [e]) b' := by
  intro u
  rw [account_concat, hn]
  exact (h u).congr (hc u) (ht u)

/-- An event that concerns the claims on one fiber. -/
theorem change (h : Accounts log b) (hn : ∀ u a, u ≠ g → Account.note u a e = a)
    (hc : ∀ u, u ≠ g → (b'.Claiming u ↔ b.Claiming u))
    (ht : ∀ u, u ≠ g → (b'.tasks u).map Task.claims = (b.tasks u).map Task.claims)
    (hg : Agrees (b'.Claiming g) (Account.note g (account log g) e) (b'.tasks g)) :
    Accounts (log ++ [e]) b' := by
  intro u
  rw [account_concat]
  by_cases hu : u = g
  · rw [hu]
    exact hg
  · rw [hn u _ hu]
    exact (h u).congr (hc u hu) (ht u hu)

/-- The turn of a fiber, which enters a claim or an exit in the accounts. -/
theorem resume (h : Accounts log b) (hi : b.Inv) {answer : Option Long} {call : Call}
    (he : b.Enabled (.resume f answer call)) (hd : Disciplined log (.resume f answer call)) :
    Accounts (log ++ [.resume f answer call]) (b.apply (.resume f answer call)) := by
  obtain ⟨hh, hhead, t, ht, -⟩ := he
  have hself : (b.apply (.resume f answer call)).tasks f = some (t.suspend call) := by
    simp [Board.apply, ht]
  have hother : ∀ u, u ≠ f → (b.apply (.resume f answer call)).tasks u = b.tasks u := by
    intro u hu
    simp [Board.apply, ht, hu]
  have hx : t.exit = none := by
    by_contra hx
    exact hi.ready f (List.mem_of_mem_head? hhead) t ht (hi.ended f t ht hx)
  have hclaims : (∀ status, call ≠ .exit status) → ∀ u,
      ((b.apply (.resume f answer call)).tasks u).map Task.claims = (b.tasks u).map Task.claims := by
    intro hc u
    by_cases huf : u = f
    · subst huf
      rw [hself, ht]
      have hx' : (t.suspend call).exit = none := Task.exit_eq_none_of_call rfl hc
      simp only [Option.map_some, Task.claims, hx', hx]
      rfl
    · rw [hother u huf]
  have hclaiming : (∀ status, call ≠ .exit status) → ∀ u, (b.apply (.resume f answer call)).Claiming u ↔
      call = .join u ∨ call = .detach u := by
    intro hc u
    rw [Board.claiming_iff (Board.hand_resume ht hc) hself]
    cases call <;> simp [Task.suspend]
  have hclaim : ∀ u, (∀ status, call ≠ .exit status) →
      (∀ w, call = .join w ∨ call = .detach w ↔ w = u) →
      (∀ a, Account.note u a (.resume f answer call) = a.map fun a =>
        { a with consumed := a.consumed + 1 }) →
      (∀ w a, w ≠ u → Account.note w a (.resume f answer call) = a) →
      (∃ a, account log u = some a ∧ a.consumed = 0) →
      Accounts (log ++ [.resume f answer call]) (b.apply (.resume f answer call)) := by
    rintro u hc hw hnote hnote' ⟨a, ha, hzero⟩
    refine h.change (g := u) hnote' ?_ (fun w _ => hclaims hc w) ?_
    · intro w hwu
      rw [hclaiming hc, hw]
      exact iff_of_false hwu (Board.not_claiming_nil hh)
    · have hu := h u
      have hcl := hclaims hc u
      rw [hnote]
      have hyes : (b.apply (.resume f answer call)).Claiming u := (hclaiming hc u).mpr ((hw u).mpr rfl)
      generalize (b.apply (.resume f answer call)).tasks u = next at hcl
      rw [ha] at hu ⊢
      generalize b.tasks u = now at hu hcl
      cases hu with
      | free hn hd hj =>
        simp only [Option.map_some, Option.map_eq_some_iff, Task.claims, Prod.mk.injEq] at hcl
        obtain ⟨t', rfl, hx', -⟩ := hcl
        rw [← hx']
        exact .claimed (.inr (.inr hyes))
      | claimed _ => cases hzero
      | gone => cases hzero
  have hquiet : (∀ status, call ≠ .exit status) → (∀ u, ¬ (call = .join u ∨ call = .detach u)) →
      (∀ u a, Account.note u a (.resume f answer call) = a) →
      Accounts (log ++ [.resume f answer call]) (b.apply (.resume f answer call)) := by
    intro hc hw hnote
    refine h.keep hnote ?_ (hclaims hc)
    intro u
    rw [hclaiming hc]
    exact iff_of_false (hw u) (Board.not_claiming_nil hh)
  cases call with
  | exit status =>
    have hnone : ∀ u, ¬ (b.apply (.resume f answer (.exit status))).Claiming u := by
      intro u
      by_cases hz : (t.suspend (.exit status)).zombie = true
      · exact Board.not_claiming_nil (by simp [Board.apply, ht, hz])
      · rw [Board.claiming_iff (f := f) (by simp [Board.apply, ht, hz]) hself]
        simp [Task.suspend]
    refine h.change (g := f) ?_ ?_ (fun u hu => by rw [hother u hu]) ?_
    · intro u a hu
      simp [Account.note, hu.symm]
    · intro u _
      exact iff_of_false (hnone u) (Board.not_claiming_nil hh)
    · have hf := h f
      rw [ht] at hf
      rw [hself]
      simp only [Account.note, if_true]
      generalize account log f = a at hf
      cases hf with
      | free _ hd hj => exact Agrees.free (t := t.suspend (.exit status)) (hnone f) hd hj
      | claimed hcl =>
        refine Agrees.claimed (t := t.suspend (.exit status)) ?_
        rcases hcl with hcl | hcl | hcl
        · exact .inl hcl
        · exact .inr (.inl hcl)
        · exact absurd hcl (Board.not_claiming_nil hh)
  | join u =>
    refine hclaim u (by simp) ?_ ?_ ?_ hd.2
    · intro w
      simp [eq_comm]
    · intro a
      simp [Account.note]
    · intro w a hw
      simp [Account.note, hw.symm]
  | detach u =>
    refine hclaim u (by simp) ?_ ?_ ?_ hd
    · intro w
      simp [eq_comm]
    · intro a
      simp [Account.note]
    · intro w a hw
      simp [Account.note, hw.symm]
  | yield => exact hquiet (by simp) (by simp) (fun _ _ => rfl)
  | await sqe => exact hquiet (by simp) (by simp) (fun _ _ => rfl)
  | start argument => exact hquiet (by simp) (by simp) (fun _ _ => rfl)
  | processExit status => exact hquiet (by simp) (by simp) (fun _ _ => rfl)

/-- A record goes once its fiber has ended and its handle is consumed. -/
theorem destroy (h : Accounts log b) (he : b.Enabled (.destroy f)) :
    Accounts (log ++ [.destroy f]) (b.apply (.destroy f)) := by
  obtain ⟨t, ht, hx, hre⟩ := he
  have hother : ∀ u, u ≠ f → ((b.apply (.destroy f)).tasks u).map Task.claims =
      (b.tasks u).map Task.claims := by
    intro u hu
    simp only [Board.apply, ht]
    cases b.heir f t with
    | none => simp [hu]
    | some j => simp [hu, Board.setAnswer_claims]
  have hnone : ∀ u, ¬ (b.apply (.destroy f)).Claiming u := by
    intro u
    refine Board.not_claiming_answered ?_
    rw [Board.hand_destroy ht]
    intro g hg t' ht'
    cases hheir : b.heir f t with
    | none => simp [hheir] at hg
    | some j =>
      obtain rfl : g = j := by simpa [hheir] using hg
      simp only [Board.apply, ht, hheir] at ht'
      by_cases hgf : g = f
      · simp [hgf] at ht'
      · simp only [Function.update_of_ne hgf, Board.setAnswer, Board.modify_self,
          Option.map_eq_some_iff] at ht'
        obtain ⟨t'', -, rfl⟩ := ht'
        simp
  have hclaiming : ∀ u, u ≠ f → ¬ b.Claiming u := by
    intro u hu
    cases hre with
    | asked g hand _ _ _ ask =>
      rcases ask with ask | ask <;> rw [ask.claiming_iff hand] <;> simp [hu.symm]
    | detached hand _ _ =>
      rw [Board.claiming_iff hand ht]
      rintro ⟨-, hc | hc⟩ <;> exact hx (Task.exit_eq_none_of_call hc (by simp))
    | joined j hand _ _ =>
      rw [Board.claiming_iff hand ht]
      rintro ⟨-, hc | hc⟩ <;> exact hx (Task.exit_eq_none_of_call hc (by simp))
  refine h.change (g := f) ?_ (fun u hu => iff_of_false (hnone u) (hclaiming u hu)) hother ?_
  · intro u a hu
    simp [Account.note, hu.symm]
  · have hf := h f
    rw [ht] at hf
    rw [Board.apply_destroy_self ht]
    simp only [Account.note, if_true]
    obtain ⟨status, hstatus⟩ := Option.ne_none_iff_exists'.mp hx
    generalize account log f = a at hf
    cases hf with
    | free hn hd hj =>
      -- nobody claims it, so nobody may destroy it
      cases hre with
      | detached _ hd' _ => simp [hd] at hd'
      | joined j _ _ hj' => simp [hj] at hj'
      | asked g hand _ _ _ ask => exact absurd ⟨g, by simp [hand], ask⟩ hn
    | claimed _ =>
      rw [hstatus]
      exact .gone

/-- Every disciplined event keeps the accounts. -/
theorem apply (h : Accounts log b) (hi : b.Inv) (he : b.Enabled e) (hd : Disciplined log e) :
    Accounts (log ++ [e]) (b.apply e) := by
  cases e with
  | launch g =>
    obtain ⟨-, hg, hh⟩ := he
    have hnone : ∀ u, ¬ (b.apply (.launch g)).Claiming u := by
      intro u
      rw [Board.claiming_iff (f := g) rfl (Function.update_self _ _ _)]
      simp [Task.new]
    refine h.change (g := g) ?_ (fun u _ => iff_of_false (hnone u) (Board.not_claiming_nil hh)) ?_ ?_
    · intro u a hu
      simp [Account.note, hu.symm]
    · intro u hu
      simp [Board.apply, hu]
    · rw [show (b.apply (.launch g)).tasks g = some Task.new from Function.update_self _ _ _]
      simp only [Account.note, if_true]
      exact Agrees.free (t := Task.new) (hnone g) rfl rfl
  | spawn p result =>
    obtain ⟨hh, ⟨argument, hask⟩, hnew⟩ := he
    have hbefore : ∀ u, ¬ b.Claiming u := by
      intro u
      rw [hask.claiming_iff hh]
      simp
    obtain ⟨tp, htp, -⟩ := hask
    cases result with
    | none =>
      refine h.keep (fun _ _ => rfl) (fun u => iff_of_false ?_ (hbefore u)) (b.setAnswer_claims p _)
      rw [Board.claiming_iff (b := b.apply (.spawn p none)) (f := p) hh (Board.setAnswer_self htp _)]
      simp
    | some c =>
      obtain ⟨-, hc⟩ := hnew c rfl
      have hpc : p ≠ c := by
        rintro rfl
        rw [hc] at htp
        cases htp
      have hnone : ∀ u, ¬ (b.apply (.spawn p (some c))).Claiming u := by
        intro u
        refine Board.not_claiming_answered ?_
        intro g hg t' ht'
        rw [show (b.apply (.spawn p (some c))).hand = [p, c] from rfl] at hg
        by_cases hgc : g = c
        · subst hgc
          have := (Function.update_self _ _ _).symm.trans ht'
          cases this
          simp [Task.new]
        · obtain rfl : g = p := by simpa [hgc] using hg
          have := (Board.setAnswer_self htp c).symm.trans ((Function.update_of_ne hpc _ _).symm.trans ht')
          cases this
          simp
      refine h.change (g := c) ?_ (fun u _ => iff_of_false (hnone u) (hbefore u)) ?_ ?_
      · intro u a hu
        simp [Account.note, hu.symm]
      · intro u hu
        rw [show (b.apply (.spawn p (some c))).tasks u = (b.setAnswer p c).tasks u from
          Function.update_of_ne hu _ _]
        exact b.setAnswer_claims p c u
      · rw [show (b.apply (.spawn p (some c))).tasks c = some Task.new from Function.update_self _ _ _]
        simp only [Account.note, if_true]
        exact Agrees.free (t := Task.new) (hnone c) rfl rfl
  | enqueue g =>
    obtain ⟨rest, t, hh, ht, ha⟩ := he
    refine h.keep (fun _ _ => rfl) ?_ (fun _ => rfl)
    intro u
    simp only [Board.Claiming, Board.apply, hh, List.tail_cons, List.mem_cons]
    constructor
    · rintro ⟨g', hg', hask⟩
      exact ⟨g', .inr hg', hask⟩
    · rintro ⟨g', rfl | hg', hask⟩
      · rcases hask with ⟨t', ht', -, ha'⟩ | ⟨t', ht', -, ha'⟩ <;>
        · rw [ht] at ht'
          cases ht'
          exact absurd ha' ha
      · exact ⟨g', hg', hask⟩
  | resume f answer call => exact h.resume hi he hd
  | block f u =>
    obtain ⟨hh, hfu, hask, t, ht, hx, hdt, hj⟩ := he
    have hnone : ∀ w, ¬ (b.apply (.block f u)).Claiming w := fun w => Board.not_claiming_nil rfl
    refine h.change (g := u) (fun _ _ _ => rfl) ?_ ?_ ?_
    · intro w hw
      rw [hask.claiming_iff hh]
      simp [hnone w, hw.symm]
    · intro w hw
      simp [Board.apply, hw]
    · have hu := h u
      rw [ht] at hu
      have hyes : b.Claiming u := (hask.claiming_iff hh).mpr (.inl rfl)
      rw [show (b.apply (.block f u)).tasks u =
        some { t with joiner := some f } by simp [Board.apply, ht]]
      simp only [Account.note]
      generalize account log u = a at hu
      cases hu with
      | free hn _ _ => exact absurd hyes hn
      | claimed _ => exact Agrees.claimed (t := { t with joiner := some f }) (.inr (.inl (by simp)))
  | detach u =>
    obtain ⟨f, hh, hask, t, ht, hx, hdt, hj⟩ := he
    have hhand : (b.apply (.detach u)).hand = [f] := (b.hand_detach u).trans hh
    have hnone : ∀ w, ¬ (b.apply (.detach u)).Claiming w := by
      intro w
      refine Board.not_claiming_answered ?_
      rw [hhand, Board.apply_detach hh]
      intro g hg t' ht'
      obtain rfl : g = f := by simpa using hg
      simp only [Board.setAnswer, Board.modify_self, Option.map_eq_some_iff] at ht'
      obtain ⟨t'', -, rfl⟩ := ht'
      simp
    refine h.change (g := u) (fun _ _ _ => rfl) ?_ ?_ ?_
    · intro w hw
      rw [hask.claiming_iff hh]
      simp [hnone w, hw.symm]
    · intro w hw
      rw [Board.apply_detach hh, Board.setAnswer_claims, Board.modify_of_ne _ _ hw]
    · have hu := h u
      rw [ht] at hu
      have hyes : b.Claiming u := (hask.claiming_iff hh).mpr (.inr rfl)
      have hclaims : ((b.apply (.detach u)).tasks u).map Task.claims =
          some ({ t with detached := true } : Task).claims := by
        rw [Board.apply_detach hh, Board.setAnswer_claims, Board.modify_self, ht]
        rfl
      simp only [Account.note]
      generalize account log u = a at hu
      cases hu with
      | free hn _ _ => exact absurd hyes hn
      | claimed _ =>
        exact (Agrees.claimed (t := { t with detached := true }) (.inl rfl)).congr Iff.rfl hclaims
  | destroy f => exact h.destroy he
  | stage f =>
    obtain ⟨hh, sqe, hask⟩ := he
    refine h.keep (fun _ _ => rfl) ?_ ?_
    · intro u
      rw [hask.claiming_iff hh]
      refine iff_of_false (Board.not_claiming_nil ?_) (by simp)
      rw [Board.apply_stage hask]
    · intro u
      rw [Board.apply_stage hask]
  | enter call => exact h.keep (fun _ _ => rfl) (fun _ => Iff.rfl) (fun _ => rfl)
  | post number cqe =>
    obtain ⟨htasks, -, hhand, -⟩ := b.apply_post number cqe
    refine h.keep (fun _ _ => rfl) ?_ (fun u => by rw [htasks])
    intro u
    simp only [Board.Claiming, Board.Asks, htasks, hhand]
  | reap cqe =>
    obtain ⟨hh, r, rest, hposted, -⟩ := he
    refine h.keep (fun _ _ => rfl) ?_ ?_
    · intro u
      refine iff_of_false (Board.not_claiming_answered ?_) (Board.not_claiming_nil hh)
      simp only [Board.apply, hposted, List.mem_singleton]
      rintro g rfl t' ht'
      simp only [Board.setAnswer, Board.modify_self, Option.map_eq_some_iff] at ht'
      obtain ⟨t'', -, rfl⟩ := ht'
      simp
    · intro u
      simp only [Board.apply, hposted]
      exact b.setAnswer_claims _ _ u

end Accounts

/-! ### Disciplined runs -/

/-- The program side of the bargain: only a turn can break it. -/
def Tidy (s : State) : Input → Prop
  | .turn x => ∀ f, s.readyHead = some f → Disciplined s.log (.resume f none x.call)
  | _ => True

inductive TidyStep (k : Kernel) (s s' : State) : Prop
  | mk (i : Input) (allowed : Allowed k s i) (tidy : Tidy s i) (h : step s i = some s')

def TidyReachable (k : Kernel) (s : State) : Prop :=
  ∃ (g : Geometry) (memory : Mem) (counter : U32) (cqes : ℕ → Cqe),
    Relation.ReflTransGen (TidyStep k) (become (Ring.created g memory counter cqes)) s

/-- The deaths that a bad claim on a fiber leads to: a trap of the `EXIT`, `JOIN`
and `DETACH` arms, or the use of a record or request that is gone. -/
def Stop.ofClaim : Stop → Bool
  | .fault => true
  | .trap .exitDetached | .trap .exitJoined | .trap .joinRefused | .trap .joinReclaim
  | .trap .detachRefused | .trap .detachReclaim => true
  | .trap _ => false

theorem TidyStep.step (h : TidyStep k s s') : Step k s s' := by
  obtain ⟨i, allowed, -, h⟩ := h
  exact ⟨i, allowed, h⟩

theorem TidyReachable.reachable (h : TidyReachable k s) : Reachable k s := by
  obtain ⟨g, memory, counter, cqes, hrun⟩ := h
  exact ⟨g, memory, counter, cqes, hrun.lift id fun _ _ hs => hs.step⟩

theorem Disciplined.answer {call : Call} {a a' : Option Long} (h : Disciplined log (.resume f a call)) :
    Disciplined log (.resume f a' call) := by
  cases call <;> exact h

theorem disciplined_of_resumed (h : e.resumed = none) : Disciplined log e := by
  cases e <;> trivial

theorem Accounts.run {m : List Event} (h : Accounts log (replay log)) (hl : Legal (log ++ m))
    (hd : ∀ p e q, m = p ++ e :: q → Disciplined (log ++ p) e) {p q : List Event} (hm : m = p ++ q) :
    Accounts (log ++ p) (replay (log ++ p)) := by
  induction p using List.reverseRecOn generalizing q with
  | nil => simpa using h
  | append_singleton p e ih =>
    have hm' : m = p ++ e :: q := by simp [hm]
    have hen : (replay (log ++ p)).Enabled e := Legal.enabled (q := q) (by simpa [hm'] using hl)
    have hinv : (replay (log ++ p)).Inv := (Legal.of_append (q := e :: q) (by simpa [hm'] using hl)).inv
    rw [← List.append_assoc, replay_concat]
    exact (ih hm').apply hinv hen (hd p e q hm')

/-- What a disciplined run keeps: every account along its log fits, and no bad
claim has stopped it. -/
structure Sound (s : State) : Prop where
  accounts : ∀ p q, s.log = p ++ q → Accounts p (replay p)
  spared : ∀ stop, s.control = .stopped stop → stop.ofClaim = false

/-- A turn of a disciplined program does not die of a bad claim. -/
theorem Served.spared {turns : U32} {x : Turn} {stop : Stop}
    (h : Served k s b turns f t x (.error stop))
    (hk : k.unmaps = true) (allowed : Allowed k s (.turn x)) (ha : Accounts log b)
    (hd : Disciplined log (.resume f t.returned x.call)) : stop.ofClaim = false := by
  have hum : x.unmapped = true := allowed.2.2 hk
  -- the target of a claim is mapped and unclaimed
  have hfree : ∀ u, (∃ a, account log u = some a ∧ a.consumed = 0) →
      ∃ tu, b.tasks u = some tu ∧ tu.joiner = none ∧ tu.detached = false := by
    rintro u ⟨a, hacc, hzero⟩
    have hu := ha u
    rw [hacc] at hu
    generalize htu : b.tasks u = now at hu
    cases hu with
    | free hn hd hj => exact ⟨_, rfl, hj, hd⟩
    | claimed _ => cases hzero
    | gone => cases hzero
  cases h with
  | exitDetachedTrap call hd hu => simp [hum] at hu
  | exitJoinedTrap call hd hj hu => simp [hum] at hu
  | joinZombieTrap call hne ht hz hu => simp [hum] at hu
  | detachZombieTrap call hne ht hz hu => simp [hum] at hu
  | parkRefused call hr => rfl
  | @joinRefused u call hr =>
    rw [call] at hd
    obtain ⟨tu, htu, hj, hdt⟩ := hfree u hd.2
    rcases hr with hr | ⟨tu', htu', hr⟩
    · exact absurd hr.symm hd.1
    · rw [htu] at htu'
      cases htu'
      simp [hj, hdt] at hr
  | @joinFault u call hne hu =>
    rw [call] at hd
    obtain ⟨tu, htu, -⟩ := hfree u hd.2
    rw [hu] at htu
    cases htu
  | @detachRefused u call hr =>
    rw [call] at hd
    obtain ⟨tu, htu, hj, hdt⟩ := hfree u hd
    obtain ⟨tu', htu', hr⟩ := hr
    rw [htu] at htu'
    cases htu'
    simp [hj, hdt] at hr
  | @detachFault u call hu =>
    rw [call] at hd
    obtain ⟨tu, htu, -⟩ := hfree u hd
    rw [hu] at htu
    cases htu

namespace Sound

theorem become (g : Geometry) (memory : Mem) (counter : U32) (cqes : ℕ → Cqe) :
    Sound (become (Ring.created g memory counter cqes)) where
  accounts := by
    intro p q hpq
    obtain ⟨rfl, -⟩ := List.append_eq_nil_iff.mp hpq.symm
    intro u
    exact .absent (Board.not_claiming_nil rfl)
  spared := nofun

theorem step (h : Sound s) (hg : Good k s) (hk : k.unmaps = true) (hs : TidyStep k s s') :
    Sound s' := by
  obtain ⟨i, allowed, tidy, hs⟩ := hs
  have hstep := hg.stepped allowed hs
  have hnext := hstep.good hg
  have hnow := h.accounts s.log [] (List.append_nil _).symm
  constructor
  · obtain ⟨es, hlog, hes⟩ := hstep.events hg.refines.inv
    have hd : ∀ p e q, es = p ++ e :: q → Disciplined (s.log ++ p) e := by
      intro p e q hsplit
      rcases hes with hes | ⟨x, f, t, es', rfl, hhead, -, rfl, hes, -⟩
      · exact disciplined_of_resumed (hes e (by simp [hsplit]))
      · cases p with
        | nil =>
          cases hsplit
          rw [List.append_nil]
          exact (tidy f (by rw [hg.refines.queue.head_eq, hhead])).answer
        | cons e' p =>
          cases hsplit
          exact disciplined_of_resumed (hes e (by simp))
    intro p q hpq
    rw [hlog] at hpq
    rcases List.append_eq_append_iff.mp hpq with ⟨p', rfl, hes'⟩ | ⟨q', hp, -⟩
    · exact hnow.run (hlog ▸ hnext.refines.legal) hd hes'
    · exact h.accounts p q' hp
  · intro stop hstop
    cases hstep with
    | turnDies input c hturns head task allowed' served ends =>
      rw [ends.control] at hstop
      cases hstop
      subst input
      refine served.spared hk allowed hnow ?_
      exact (tidy _ (by rw [hg.refines.queue.head_eq, head])).answer
    | turn input c hturns head task allowed' served =>
      rcases served.ok_cases hg.refines.inv task with ⟨_, _, _, ends⟩ | ⟨_, _, _, _, _, _, ends⟩ |
        ⟨_, _, ends⟩ <;>
      · rw [ends.control] at hstop
        cases hstop
    | cycle c ho hr hj ends =>
      rw [ends.control] at hstop
      cases hstop
      rfl
    | flushDies input c hwhy ends =>
      rw [ends.control] at hstop
      cases hstop
      rcases hwhy with ⟨rfl, -⟩ | ⟨rfl, -⟩ <;> rfl
    | submitDies input c failed ends =>
      rw [ends.control] at hstop
      cases hstop
      rfl
    | reapDies c ends =>
      rw [ends.control] at hstop
      cases hstop
      rfl
    | post input c fibers geometry ends =>
      rw [ends.control] at hstop
      rw [hstop] at c
      cases c
    | launch input c fresh ends => simp [ends.control] at hstop
    | run c ends => simp [ends.control] at hstop
    | loop c hne ends => simp [ends.control] at hstop
    | drain c ho hr hj ends => simp [ends.control] at hstop
    | again c ho ends => simp [ends.control] at hstop
    | boundary c ho ends => simp [ends.control] at hstop
    | flushAgain input c answers fibers geometry ends => simp [ends.control] at hstop
    | flushed input c answers ends => simp [ends.control] at hstop
    | submitAgain input c answers ends => simp [ends.control] at hstop
    | submitted input c answers all ends => simp [ends.control] at hstop
    | reaped c hb res ends => simp [ends.control] at hstop
    | reapDone c hb ends => simp [ends.control] at hstop

end Sound

theorem TidyReachable.sound (h : TidyReachable k s) (hk : k.unmaps = true) : Sound s := by
  obtain ⟨g, memory, counter, cqes, hrun⟩ := h
  induction hrun with
  | refl => exact Sound.become g memory counter cqes
  | tail hrun hstep ih =>
    have hreach : TidyReachable k _ := ⟨g, memory, counter, cqes, hrun⟩
    exact ih.step hreach.reachable.good hk hstep

/-! ### The moment of destruction -/

/-- Nothing but the turn it is dispatched for leads to `u`: it is not in the rest
of the ready list, its request is no operation's cookie and in no joiner slot. -/
structure Loose (s : State) (ready : List Addr) (unreaped : List Cqe) (u : Addr) : Prop where
  queue : LinkedQueue (links s.fibers) s.readyHead s.readyTail ready
  completions : s.ring.Unreaped unreaped
  notReady : u ∉ ready.tail
  notParked : ¬ s.At ready unreaped u .parked
  notJoining : ¬ s.At ready unreaped u .joining

/-- A turn that destroys does so right after the switch back. -/
theorem Served.destroy_second {turns : U32} {x : Turn} {es : List Event}
    (h : Served k s b turns f t x (.ok s')) (hlog : s'.log = s.log ++ es) (hu : .destroy u ∈ es) :
    ∃ rest, es = .resume f t.returned x.call :: .destroy u :: rest := by
  have key : ∀ {es' : List Event} {c : Control}, Ends k s b es' c s' → es = es' := by
    intro es' c ends
    rw [ends.log] at hlog
    exact (List.append_cancel_left hlog).symm
  cases h <;> rename_i ends <;> obtain rfl := key ends <;> simp at hu <;> simp [hu]

/-- The only event that unmaps a record is its destruction. -/
theorem Legal.destroy_mem {m : List Event} (h : Legal (log ++ m)) (ht : (replay log).tasks u = some t)
    (hn : (replay (log ++ m)).tasks u = none) : .destroy u ∈ m := by
  induction m using List.reverseRecOn with
  | nil =>
    rw [List.append_nil, ht] at hn
    cases hn
  | append_singleton m e ih =>
    rw [← List.append_assoc] at h hn
    rw [replay_concat] at hn
    cases hold : (replay (log ++ m)).tasks u with
    | none => exact List.mem_append_left _ (ih h.of_append hold)
    | some t' =>
      have hev := (Legal.enabled (q := []) h).evolves hold
      rw [hn] at hev
      cases hev with
      | destroyed he hx =>
        rw [he]
        exact List.mem_append_right _ (List.mem_singleton_self _)

/-- When a step unmaps a record nothing leads to it. -/
theorem Good.loose (h : Good k s) (hs : Step k s s') (hu : s.fibers u ≠ none)
    (hu' : s'.fibers u = none) :
    ∃ ready unreaped, Loose s ready unreaped u := by
  obtain ⟨i, allowed, hs⟩ := hs
  have hstep := h.stepped allowed hs
  have hnext := hstep.good h
  obtain ⟨fu, hfu⟩ := Option.ne_none_iff_exists'.mp hu
  obtain ⟨tu, htu⟩ := h.refines.memory.exists_task hfu
  have hgone := (hnext.refines.memory.mapped u).mp hu'
  have hdestroy : ∀ {es}, s'.log = s.log ++ es → .destroy u ∈ es := by
    intro es hlog
    refine Legal.destroy_mem (hlog ▸ hnext.refines.legal) htu ?_
    rw [← hlog]
    exact hgone
  cases hstep with
  | @turn turns f t x input c hturns head task allowed' served =>
    obtain ⟨es, hlog, -⟩ := (Stepped.turn input c hturns head task allowed' served).events h.refines.inv
    obtain ⟨rest, rfl⟩ := served.destroy_second hlog (hdestroy hlog)
    have hlegal : Legal (s.log ++ [.resume f t.returned x.call] ++ .destroy u :: rest) := by
      have := hnext.refines.legal
      rw [hlog] at this
      simpa using this
    obtain ⟨t', ht', hx, -⟩ := hlegal.enabled
    obtain ⟨hready, hparked, hjoin⟩ := Refines.ended_notMem hlegal.of_append.inv ht' hx
    rw [replay_concat] at hready hparked hjoin
    obtain ⟨q, hq, hall⟩ := h.refines.flight.posted
    refine ⟨(replay s.log).ready, q, h.refines.queue, hq, ?_, ?_, ?_⟩
    · rwa [Board.resume_ready _ task] at hready
    · rw [h.refines.parked_iff hall]
      simpa [Board.apply, task, Board.parked, Board.ops] using hparked
    · rw [h.refines.joining_iff]
      rintro ⟨w, tw, htw, hj⟩
      by_cases hwf : w = f
      · subst hwf
        rw [task] at htw
        cases htw
        exact hjoin w (t.suspend x.call) (by simp [Board.apply, task]) hj
      · exact hjoin w tw (by simp [Board.apply, task, hwf, htw]) hj
  | launch input c fresh ends => simpa using hdestroy ends.log
  | run c ends => simpa using hdestroy ends.log
  | loop c hne ends => simpa using hdestroy ends.log
  | cycle c ho hr hj ends => simpa using hdestroy ends.log
  | drain c ho hr hj ends => simpa using hdestroy ends.log
  | turnDies input c hturns head task allowed' served ends => simpa using hdestroy ends.log
  | again c ho ends => simpa using hdestroy ends.log
  | boundary c ho ends => simpa using hdestroy ends.log
  | flushAgain input c answers fibers geometry ends => simpa using hdestroy ends.log
  | flushed input c answers ends => simpa using hdestroy ends.log
  | flushDies input c hwhy ends => simpa using hdestroy ends.log
  | submitAgain input c answers ends => simpa using hdestroy ends.log
  | submitted input c answers all ends => simpa using hdestroy ends.log
  | submitDies input c failed ends => simpa using hdestroy ends.log
  | reaped c hb res ends => simpa using hdestroy ends.log
  | reapDone c hb ends => simpa using hdestroy ends.log
  | reapDies c ends => simpa using hdestroy ends.log
  | post input c fibers geometry ends => simpa using hdestroy ends.log

/-! ### Record lifetime -/

/-- Between two steps a mapped fiber has not both ended and been claimed. -/
theorem Good.not_ended_claimed (h : Good k s) (ht : (replay s.log).tasks u = some t)
    (hcl : t.detached = true ∨ t.joiner ≠ none ∨ (replay s.log).Claiming u) : t.exit = none := by
  by_contra hx
  by_cases hu : u ∈ (replay s.log).hand
  · obtain ⟨c, hask, ⟨sqe, rfl⟩ | ⟨status, rfl⟩⟩ := h.hand_asks hu
    · exact hx (hask.exit_none nofun ht)
    · exact hx (hask.exit_none nofun ht)
  · obtain ⟨-, hd, hj⟩ := Task.zombie_iff.mp (h.refines.inv.zombie_of_ended ht hx hu)
    rcases hcl with hcl | hcl | ⟨g, hg, hclaim⟩
    · simp [hd] at hcl
    · exact hcl hj
    · obtain ⟨c, hask, hc⟩ := h.hand_asks hg
      rcases hclaim with hclaim | hclaim <;>
      · obtain rfl := hask.unique hclaim
        simp at hc

def tidies (s : State) : Input → Bool
  | .turn x =>
    match x.call with
    | .join u => s.readyHead.all (· ≠ u) && (account s.log u).any (·.consumed = 0)
    | .detach u => (account s.log u).any (·.consumed = 0)
    | _ => true
  | _ => true

theorem tidy_of_tidies {i : Input} (h : tidies s i = true) : Tidy s i := by
  cases i with
  | turn x =>
    intro f hf
    have hunclaimed : ∀ u, (account s.log u).any (·.consumed = 0) = true → ∃ a,
        account s.log u = some a ∧ a.consumed = 0 := by
      intro u hu
      simpa [Option.any_eq_true] using hu
    cases hx : x.call with
    | join u =>
      simp only [tidies, hx, hf, Bool.and_eq_true, Option.all_some, decide_eq_true_eq] at h
      exact ⟨h.1, hunclaimed u h.2⟩
    | detach u =>
      simp only [tidies, hx] at h
      exact hunclaimed u h
    | _ => trivial
  | _ => trivial

theorem rehearse_tidyReachable {g : Geometry} {memory : Mem} {counter : U32} {cqes : ℕ → Cqe}
    {inputs : List Input} (h : rehearse step (fun s i => permits k s i && tidies s i)
      (become (Ring.created g memory counter cqes)) inputs = some s) :
    TidyReachable k s := by
  refine ⟨g, memory, counter, cqes, rehearse_run (P := Good k) ?_ (Good.become g memory counter cqes) h⟩
  intro s i s' hg hi hs
  rw [Bool.and_eq_true] at hi
  exact ⟨⟨i, hg.permits hi.1, tidy_of_tidies hi.2, hs⟩, hg.step ⟨i, hg.permits hi.1, hs⟩⟩

/-- Record lifetime. In every run of a program that consumes each handle at most
once, on a kernel that unmaps what is mapped: a fiber is destroyed at most once,
never before it has ended and its handle has been consumed, and when a step is
over it is gone if and only if both have happened. When a record goes, its fiber
is in no list and in no joiner slot; afterwards it is in no ready list and has no
request; and the run neither faults nor takes a trap of the arms that claim. -/
theorem record_lifetime (k : Kernel) (s : State) (unmaps : k.unmaps = true)
    (reach : TidyReachable k s) :
    (∀ p q u a, s.log = p ++ q → account p u = some a →
      a.destroyed ≤ 1 ∧ a.consumed ≤ 1 ∧ (a.destroyed = 1 → a.exited = true ∧ a.consumed = 1)) ∧
    (∀ u a, account s.log u = some a →
      (a.destroyed = 1 ↔ a.exited = true ∧ a.consumed = 1) ∧ (s.fibers u = none ↔ a.destroyed = 1)) ∧
    (∀ p u q, s.log = p ++ .destroy u :: q → u ∉ (replay p).ready ∧ u ∉ (replay p).parked ∧
      ∀ w t, (replay p).tasks w = some t → t.joiner ≠ some u) ∧
    (∀ s' u, Step k s s' → s.fibers u ≠ none → s'.fibers u = none →
      ∃ ready unreaped, Loose s ready unreaped u) ∧
    (∃ ready, LinkedQueue (links s.fibers) s.readyHead s.readyTail ready ∧
      ∀ u, s.fibers u = none → u ∉ ready ∧ ∀ r q, s.requests r = some q → q.fiber ≠ some u) ∧
    (∀ stop, s.control = .stopped stop → stop.ofClaim = false) := by
  have hg := reach.reachable.good
  have hsound := reach.sound unmaps
  refine ⟨?_, ?_, ?_, ?_, ?_, hsound.spared⟩
  · intro p q u a hpq hacc
    have hu := hsound.accounts p q hpq u
    rw [hacc] at hu
    generalize (replay p).tasks u = now at hu
    cases hu <;> simp
  · intro u a hacc
    rw [hg.refines.memory.mapped u]
    have hu := hsound.accounts s.log [] (List.append_nil _).symm u
    rw [hacc] at hu
    cases htu : (replay s.log).tasks u with
    | none =>
      rw [htu] at hu
      cases hu
      simp
    | some t =>
      rw [htu] at hu
      cases hu with
      | free hn hd hj => simp
      | claimed hcl => simp [hg.not_ended_claimed htu hcl]
  · intro p u q hlog
    have hlegal := hg.refines.legal
    rw [hlog] at hlegal
    obtain ⟨t, ht, hx, -⟩ := hlegal.enabled
    exact Refines.ended_notMem hlegal.of_append.inv ht hx
  · intro s' u hs hu hu'
    exact hg.loose hs hu hu'
  · refine ⟨(replay s.log).ready, hg.refines.queue, ?_⟩
    intro u hu
    refine ⟨fun hm => ?_, fun r q hq hqu => ?_⟩
    · obtain ⟨t, ht⟩ := hg.refines.inv.mapped u (by simp [Board.placed, hm])
      rw [(hg.refines.memory.mapped u).mp hu] at ht
      cases ht
    · obtain ⟨a, fb, ha, hfa, -⟩ := hg.refines.memory.owner r q hq
      rw [hqu] at ha
      cases ha
      rw [hu] at hfa
      cases hfa

/-- The child of the sample has ended and been joined, and its record is gone. -/
theorem record_lifetime_closing :
    ∃ s, TidyReachable Sample.kernel s ∧ (∃ a, account s.log Sample.child = some a ∧ a.destroyed = 1) ∧
      s.fibers Sample.child = none := by
  let run := rehearse step (fun s i => permits Sample.kernel s i && tidies s i) Sample.scheduler
    (Sample.opening Sample.child ++ Sample.closing)
  have hsome : run.isSome = true := by decide +kernel
  have haccount : run.all (fun s => (account s.log Sample.child).any (·.destroyed = 1)) = true := by
    decide +kernel
  obtain ⟨s, hs⟩ := Option.isSome_iff_exists.mp hsome
  rw [hs] at haccount
  obtain ⟨a, ha, hd⟩ : ∃ a, account s.log Sample.child = some a ∧ a.destroyed = 1 := by
    simpa [Option.any_eq_true] using haccount
  have htidy : TidyReachable Sample.kernel s := rehearse_tidyReachable hs
  exact ⟨s, htidy, ⟨a, ha, hd⟩,
    ((record_lifetime Sample.kernel s rfl htidy).2.1 Sample.child a ha).2.mpr hd⟩

end Libuc.Scheduler
