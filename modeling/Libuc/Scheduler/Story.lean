import Libuc.Scheduler.Line

/-! The story a log tells of each fiber, with fibers named by spawn path instead of
address: the initial fibers are `[0]`, `[1]`, and so on, and the `j`-th fiber that
`q` spawns is `q ++ [j]`. A story keeps what every fiber was answered and how it
ended, and forgets when. -/

namespace Libuc.Scheduler

open Lib

abbrev Path := List ℕ

/-- What a fiber is answered, with handles as names. -/
inductive Answer where
  | done
  | completed (res : Long)
  | joined (status : Long)
  | handle (path : Path)
  deriving DecidableEq

inductive Demand where
  | yield
  | exit (status : CInt)
  | await (sqe : Sqe)
  | start (spawn : SpawnRequest)
  | join (target : Path)
  | detach (target : Path)
  deriving BEq, ReflBEq, LawfulBEq

/-- A program: what each fiber does next, from the answers it has received. -/
abbrev Program := Path → List Answer → Demand

def handles (h : List Answer) : ℕ := h.countP fun a => match a with | .handle _ => true | _ => false

def completions (h : List Answer) : ℕ :=
  h.countP fun a => match a with | .completed _ => true | _ => false

/-- Who is where, and what has happened to each so far. -/
structure Story where
  names : Addr → Option Path
  calls : Addr → Option Call
  roots : ℕ
  born : List Path
  received : Path → List Answer
  status : Path → Option CInt

namespace Story

def empty : Story := ⟨fun _ => none, fun _ => none, 0, [], fun _ => [], fun _ => none⟩

def birth (y : Story) (u : Addr) (q : Path) : Story :=
  { y with
    names := Function.update y.names u (some q)
    calls := Function.update y.calls u none
    born := y.born ++ [q] }

/-- What a fiber is told when its call returns `a`. -/
def answer (y : Story) (call : Call) (a : Option Long) : Answer :=
  match call, a with
  | .await _, some v => .completed v
  | .join _, some v => .joined v
  | .start _, some u =>
    match y.names u with
    | some q => .handle q
    | none => .done
  | _, _ => .done

/-- The fiber `q` at `f` gets the answer to its last call, if it made one, and makes
the next. -/
def turn (y : Story) (f : Addr) (q : Path) (a : Option Long) (c : Call) : Story :=
  { y with
    calls := Function.update y.calls f (some c)
    received := match y.calls f with
      | none => y.received
      | some call => Function.update y.received q (y.received q ++ [y.answer call a])
    status := match c with
      | .exit status => Function.update y.status q (some status)
      | _ => y.status }

def note (y : Story) : Event → Story
  | .launch f => { y.birth f [y.roots] with roots := y.roots + 1 }
  | .spawn p (some c) =>
    match y.names p with
    | some q => y.birth c (q ++ [handles (y.received q)])
    | none => y
  | .resume f a c =>
    match y.names f with
    | some q => y.turn f q a c
    | none => y
  | _ => y

end Story

def story (log : List Event) : Story := log.foldl Story.note Story.empty

@[simp] theorem story_concat (log : List Event) (e : Event) :
    story (log ++ [e]) = (story log).note e := by
  simp [story]

/-- A call as a demand, if its handle has a name. -/
def rename (names : Addr → Option Path) : Call → Option Demand
  | .yield => some .yield
  | .exit status => some (.exit status)
  | .await sqe => some (.await sqe)
  | .start spawn => some (.start spawn)
  | .join u => (names u).map .join
  | .detach u => (names u).map .detach
  | .processExit _ => none

/-- The log is one of a program: every call is what the program asks for after the
answers received, no process exit among them; every spawn succeeds; and an await is
completed with a result fixed by the fiber and the number of its earlier awaits. -/
structure Follows (prog : Program) (res : Path → ℕ → CInt) (log : List Event) : Prop where
  calls : ∀ p f a c r q, log = p ++ .resume f a c :: r → (story p).names f = some q →
    rename (story p).names c = some (prog q ((story (p ++ [.resume f a c])).received q))
  spawns : ∀ f, .spawn f none ∉ log
  completed : ∀ p n cqe r o q, log = p ++ .post n cqe :: r → o ∈ (replay p).held → o.number = n →
    (story p).names o.fiber = some q → cqe.res = res q (completions ((story p).received q))

variable {b : Board} {e : Event} {f g u : Addr} {t : Task} {log : List Event}

/-! ### The story agrees with the board -/

/-- The call the fiber `q` is in is what the program asks for, and its answer, if it
has one, is the one the program will see. -/
def Due (prog : Program) (res : Path → ℕ → CInt) (y : Story) (q : Path) (answer : Option Long) :
    Call → Prop
  | .yield => prog q (y.received q) = .yield
  | .exit status => prog q (y.received q) = .exit status ∧ y.status q = some status
  | .await sqe => prog q (y.received q) = .await sqe ∧
      ∀ v, answer = some v → v = toLong (res q (completions (y.received q)))
  | .start spawn => prog q (y.received q) = .start spawn ∧
      ∀ v, answer = some v → y.names v = some (q ++ [handles (y.received q)])
  | .join u => ∃ q', prog q (y.received q) = .join q' ∧ (answer = none → y.names u = some q') ∧
      ∀ v, answer = some v → ∃ status, v = toLong status ∧ y.status q' = some status
  | .detach _ => ∃ q', prog q (y.received q) = .detach q'
  | .processExit _ => False

/-- A fiber has its child but has not been told. -/
def Expects (b : Board) (y : Story) (q : Path) : Prop :=
  ∃ u t spawn v, b.tasks u = some t ∧ y.names u = some q ∧ t.call = some (.start spawn) ∧
  t.answer = some v

/-- What the story says of every fiber is so. -/
structure Told (prog : Program) (res : Path → ℕ → CInt) (b : Board) (y : Story) : Prop where
  named : ∀ u t, b.tasks u = some t → ∃ q ∈ y.born, y.names u = some q
  calls : ∀ u t, b.tasks u = some t → y.calls u = t.call
  unique : ∀ u w t t' q, b.tasks u = some t → b.tasks w = some t' → y.names u = some q →
    y.names w = some q → u = w
  idle : ∀ u t q, b.tasks u = some t → y.names u = some q → t.call = none → y.received q = []
  due : ∀ u t q c, b.tasks u = some t → y.names u = some q → t.call = some c →
    Due prog res y q t.answer c
  replies : ∀ r ∈ b.posted, ∀ q, y.names r.op.fiber = some q →
    r.res = res q (completions (y.received q))
  ended : ∀ q status, y.status q = some status → q ∈ y.born ∧ prog q (y.received q) = .exit status ∧
    ∀ u t, b.tasks u = some t → y.names u = some q → t.exit = some status
  living : ∀ q ∈ y.born, (∃ u t, b.tasks u = some t ∧ y.names u = some q) ∨ ∃ status,
    y.status q = some status
  unborn : ∀ q, q ∉ y.born → y.received q = [] ∧ y.status q = none
  lineage : ∀ q ∈ y.born, (∃ i < y.roots, q = [i]) ∨ ∃ q' ∈ y.born, ∃ j, q = q' ++ [j] ∧
    (j < handles (y.received q') ∨ j = handles (y.received q') ∧ Expects b y q')
  roots : ∀ i < y.roots, [i] ∈ y.born
  heard : ∀ q q', .handle q' ∈ y.received q → q' ∈ y.born
  kids : ∀ q j, j < handles (y.received q) → .handle (q ++ [j]) ∈ y.received q

theorem Task.exit_congr {t t' : Task} (h : t'.call = t.call) : t'.exit = t.exit := by
  unfold Task.exit
  rw [h]

variable {prog : Program} {res : Path → ℕ → CInt} {y : Story}

namespace Told

/-- An answer that is given is the one the program will see. -/
theorem due_given (h : Told prog res b y) (hi : b.Inv) (he : b.Enabled e) {v : Long}
    (hg : Gives b e u v) (hs : ∀ result, e ≠ .spawn u result) (ht : b.tasks u = some t) {q : Path}
    (hq : y.names u = some q) {c : Call} (hc : t.call = some c) : Due prog res y q (some v) c := by
  have hdue := h.due u t q c ht hq hc
  obtain ⟨call, hask, hkind⟩ := hg.asks hi he
  obtain ⟨t₀, ht₀, hc₀, ha₀⟩ := hask
  rw [ht] at ht₀
  cases ht₀
  rw [hc] at hc₀
  cases hc₀
  rw [ha₀] at hdue
  cases hg with
  | spawn result => exact absurd rfl (hs result)
  | detach w hand =>
    cases hkind
    exact hdue
  | @destroy w _ tw task heir =>
    rcases hkind with rfl | rfl
    · -- the status the join returns is the one the target is known to have ended with
      obtain ⟨q', hprog, hname, -⟩ := hdue
      obtain ⟨tw', htw', hx, -⟩ := he
      rw [task] at htw'
      cases htw'
      obtain ⟨status, hstatus⟩ := Option.ne_none_iff_exists'.mp hx
      have hcall : tw.call = some (.exit status) := Task.exit_eq_some.mp hstatus
      have hended := h.due w tw q' _ task (hname rfl) hcall
      refine ⟨q', hprog, nofun, ?_⟩
      rintro v' hv'
      cases hv'
      exact ⟨status, by simp [Board.bequest, ht, hc, hstatus], hended.2⟩
    · exact hdue
  | @reap cqe r rest posted =>
    obtain ⟨sqe, rfl⟩ := hkind
    refine ⟨hdue.1, ?_⟩
    rintro v' hv'
    cases hv'
    rw [h.replies r (by simp [posted]) q hq]

theorem quiet (h : Told prog res b y) (hi : b.Inv) (he : b.Enabled e) (hcreates : ∀ u, ¬ e.Creates u)
    (hr : e.resumed = none) (hspawn : ∀ f result, e ≠ .spawn f result)
    (hreplies : ∀ r ∈ (b.apply e).posted, ∀ q, y.names r.op.fiber = some q →
      r.res = res q (completions (y.received q))) : Told prog res (b.apply e) y := by
  have hback : ∀ u t', (b.apply e).tasks u = some t' → ∃ t, b.tasks u = some t ∧ t'.call = t.call ∧
      (t'.answer = t.answer ∨ ∃ v, Gives b e u v ∧ t'.answer = some v) := by
    intro u t' ht'
    cases hold : b.tasks u with
    | none => exact absurd (he.created hold ht').2 (hcreates u)
    | some t =>
      have hev := he.evolves hold
      rw [ht'] at hev
      cases hev with
      | resumed heq =>
        subst heq
        cases hr
      | @given v _ hg hcall hanswer => exact ⟨t, rfl, hcall, .inr ⟨v, hg, hanswer⟩⟩
      | kept _ hcall hanswer _ => exact ⟨t, rfl, hcall, .inl hanswer⟩
  have hforth : ∀ u t, b.tasks u = some t → (∃ t', (b.apply e).tasks u = some t' ∧ t'.call = t.call ∧
      (t.answer ≠ none → t'.answer = t.answer)) ∨ t.exit ≠ none := by
    intro u t ht
    have hev := he.evolves ht
    generalize hnext : (b.apply e).tasks u = next at hev
    cases hev with
    | destroyed _ hx => exact .inr hx
    | resumed heq =>
      subst heq
      cases hr
    | given hg hcall _ => exact .inl ⟨_, rfl, hcall, fun ha => absurd (hg.answer_none hi he ht) ha⟩
    | kept _ hcall hanswer _ => exact .inl ⟨_, rfl, hcall, fun _ => hanswer⟩
  refine ⟨?_, ?_, ?_, ?_, ?_, hreplies, ?_, ?_, h.unborn, ?_, h.roots, h.heard, h.kids⟩
  · intro u t' ht'
    obtain ⟨t, ht, -⟩ := hback u t' ht'
    exact h.named u t ht
  · intro u t' ht'
    obtain ⟨t, ht, hcall, -⟩ := hback u t' ht'
    rw [hcall]
    exact h.calls u t ht
  · intro u w t' t'' q hu hw hqu hqw
    obtain ⟨t, ht, -⟩ := hback u t' hu
    obtain ⟨tw, htw, -⟩ := hback w t'' hw
    exact h.unique u w t tw q ht htw hqu hqw
  · intro u t' q ht' hq hc
    obtain ⟨t, ht, hcall, -⟩ := hback u t' ht'
    exact h.idle u t q ht hq (hcall ▸ hc)
  · intro u t' q c ht' hq hc
    obtain ⟨t, ht, hcall, hanswer | ⟨v, hg, hanswer⟩⟩ := hback u t' ht'
    · rw [hanswer]
      exact h.due u t q c ht hq (hcall ▸ hc)
    · rw [hanswer]
      exact h.due_given hi he hg (hspawn u) ht hq (hcall ▸ hc)
  · intro q status hst
    obtain ⟨hborn, hprog, hlive⟩ := h.ended q status hst
    refine ⟨hborn, hprog, fun u t' ht' hq => ?_⟩
    obtain ⟨t, ht, hcall, -⟩ := hback u t' ht'
    rw [Task.exit_congr hcall]
    exact hlive u t ht hq
  · intro q hborn
    rcases h.living q hborn with ⟨u, t, ht, hq⟩ | hst
    · rcases hforth u t ht with ⟨t', ht', -⟩ | hx
      · exact .inl ⟨u, t', ht', hq⟩
      · obtain ⟨status, hstatus⟩ := Option.ne_none_iff_exists'.mp hx
        have hcall : t.call = some (.exit status) := Task.exit_eq_some.mp hstatus
        exact .inr ⟨status, (h.due u t q _ ht hq hcall).2⟩
    · exact .inr hst
  · intro q hborn
    rcases h.lineage q hborn with hroot | ⟨q', hborn', j, hq, hj⟩
    · exact .inl hroot
    · refine .inr ⟨q', hborn', j, hq, hj.imp_right ?_⟩
      rintro ⟨hj, u, t, spawn, v, ht, hname, hc, ha⟩
      refine ⟨hj, ?_⟩
      rcases hforth u t ht with ⟨t', ht', hcall, hanswer⟩ | hx
      · exact ⟨u, t', spawn, v, ht', hname, hcall.trans hc, (hanswer (by simp [ha])).trans ha⟩
      · exact absurd (Task.exit_eq_none_of_call hc nofun) hx

/-! ### Births -/

theorem born_ne_nil (h : Told prog res b y) {q : Path} (hq : q ∈ y.born) : q ≠ [] := by
  rcases h.lineage q hq with ⟨i, -, rfl⟩ | ⟨q', -, j, rfl, -⟩
  · simp
  · simp

theorem root_notMem (h : Told prog res b y) : [y.roots] ∉ y.born := by
  intro hq
  rcases h.lineage _ hq with ⟨i, hi, heq⟩ | ⟨q', hq', j, heq, -⟩
  · cases heq
    exact absurd hi (lt_irrefl _)
  · have hnil : q' = [] := by
      obtain ⟨hnil, -⟩ := List.append_inj' (show [] ++ [y.roots] = q' ++ [j] from heq) rfl
      exact hnil.symm
    exact h.born_ne_nil hq' hnil

/-- The name of the next child is free until the parent is given the child. -/
theorem child_notMem (h : Told prog res b y) {p : Addr} {q : Path} {argument : SpawnRequest}
    (hask : b.Asks p (.start argument)) (hq : y.names p = some q) :
    q ++ [handles (y.received q)] ∉ y.born := by
  obtain ⟨t, ht, -, ha⟩ := hask
  obtain ⟨q₀, hborn, hq₀⟩ := h.named p t ht
  rw [hq] at hq₀
  cases hq₀
  intro hmem
  rcases h.lineage _ hmem with ⟨i, -, heq⟩ | ⟨q', hq', j, heq, hj⟩
  · obtain ⟨hnil, -⟩ := List.append_inj' (show q ++ [handles (y.received q)] = [] ++ [i] from heq) rfl
    exact h.born_ne_nil hborn hnil
  · obtain ⟨rfl, hjeq⟩ := List.append_inj' heq rfl
    cases hjeq
    rcases hj with hj | ⟨-, w, tw, spawn, v, hw, hname, -, haw⟩
    · exact absurd hj (lt_irrefl _)
    · obtain rfl := h.unique w p tw t q hw ht hname hq
      rw [ht] at hw
      cases hw
      rw [ha] at haw
      cases haw

/-- A fiber appears at `u` under a name of its own; if it has a parent, the parent is
given the child. -/
theorem birth (h : Told prog res b y) (hi : b.Inv) (hparents : b.ParentsFirst) {c : Board}
    {q : Path} {n : ℕ} (hq : q ∉ y.born) (hu : b.tasks u = none) (hself : c.tasks u = some Task.new)
    (hposted : c.posted = b.posted) (hjoins : ∀ w v, b.Asks w (.join v) → ∃ t, b.tasks v = some t)
    (hback : ∀ w t', w ≠ u → c.tasks w = some t' → ∃ t, b.tasks w = some t ∧ t'.call = t.call ∧
      (t'.answer = t.answer ∨ t'.answer = some u ∧ (∃ spawn, t.call = some (.start spawn)) ∧
        ∀ q', y.names w = some q' → q = q' ++ [handles (y.received q')]))
    (hforth : ∀ w t, b.tasks w = some t → ∃ t', c.tasks w = some t' ∧ t'.call = t.call ∧
      (t.answer ≠ none → t'.answer = t.answer))
    (hfrom : q = [y.roots] ∧ n = y.roots + 1 ∨ n = y.roots ∧ ∃ p t spawn q', c.tasks p = some t ∧
      t.call = some (.start spawn) ∧ t.answer = some u ∧ p ≠ u ∧ y.names p = some q' ∧ q' ∈ y.born ∧
      q = q' ++ [handles (y.received q')]) :
    Told prog res c { y.birth u q with roots := n } := by
  have hnames : ∀ w, w ≠ u → (y.birth u q).names w = y.names w :=
    fun w hw => Function.update_of_ne hw _ _
  have hname : (y.birth u q).names u = some q := Function.update_self _ _ _
  have hlive : ∀ w t, b.tasks w = some t → w ≠ u := by
    rintro w t hw rfl
    rw [hu] at hw
    cases hw
  have hborn : ∀ q', q' ∈ y.born → q' ∈ (y.birth u q).born := fun q' hq' => List.mem_append_left _ hq'
  have hne : ∀ w t q', b.tasks w = some t → y.names w = some q' → q' ≠ q := by
    rintro w t q' hw hq' rfl
    obtain ⟨q₀, hq₀, hn⟩ := h.named w t hw
    rw [hq'] at hn
    cases hn
    exact hq hq₀
  refine ⟨?_, ?_, ?_, ?_, ?_, ?_, ?_, ?_, ?_, ?_, ?_, ?_, h.kids⟩
  · intro w t' ht'
    by_cases hw : w = u
    · subst hw
      exact ⟨q, by simp [Story.birth], hname⟩
    · obtain ⟨t, ht, -⟩ := hback w t' hw ht'
      obtain ⟨q', hq', hn⟩ := h.named w t ht
      exact ⟨q', hborn q' hq', (hnames w hw).trans hn⟩
  · intro w t' ht'
    by_cases hw : w = u
    · subst hw
      rw [hself] at ht'
      cases ht'
      exact Function.update_self _ _ _
    · obtain ⟨t, ht, hcall, -⟩ := hback w t' hw ht'
      exact (Function.update_of_ne hw _ _).trans ((h.calls w t ht).trans hcall.symm)
  · intro w w' t₁ t₂ q' ht₁ ht₂ hq₁ hq₂
    by_cases hw : w = u
    · by_cases hw' : w' = u
      · rw [hw, hw']
      · subst hw
        obtain ⟨t, ht, -⟩ := hback w' t₂ hw' ht₂
        obtain rfl : q = q' := Option.some.inj (hname.symm.trans hq₁)
        exact absurd rfl (hne w' t q ht ((hnames w' hw').symm.trans hq₂))
    · obtain ⟨t, ht, -⟩ := hback w t₁ hw ht₁
      have hn := (hnames w hw).symm.trans hq₁
      by_cases hw' : w' = u
      · subst hw'
        obtain rfl : q = q' := Option.some.inj (hname.symm.trans hq₂)
        exact absurd rfl (hne w t q ht hn)
      · obtain ⟨t', ht', -⟩ := hback w' t₂ hw' ht₂
        exact h.unique w w' t t' q' ht ht' hn ((hnames w' hw').symm.trans hq₂)
  · intro w t' q' ht' hq' hc
    by_cases hw : w = u
    · subst hw
      obtain rfl : q = q' := Option.some.inj (hname.symm.trans hq')
      exact (h.unborn q hq).1
    · obtain ⟨t, ht, hcall, -⟩ := hback w t' hw ht'
      exact h.idle w t q' ht ((hnames w hw).symm.trans hq') (hcall.symm.trans hc)
  · intro w t' q' call ht' hq' hc
    by_cases hw : w = u
    · subst hw
      rw [hself] at ht'
      cases ht'
      cases hc
    · obtain ⟨t, ht, hcall, hanswer⟩ := hback w t' hw ht'
      have hn := (hnames w hw).symm.trans hq'
      have hdue := h.due w t q' call ht hn (hcall.symm.trans hc)
      -- what the call refers to is there still, so it keeps its name
      cases call with
      | start spawn =>
        refine ⟨hdue.1, ?_⟩
        intro v hv
        rcases hanswer with hanswer | ⟨hanswer, -, hchild⟩
        · rw [hanswer] at hv
          obtain ⟨-, -, tv, -, -, htv, -⟩ := hparents w t spawn v ht (hcall.symm.trans hc) hv
          exact (hnames v (hlive v tv htv)).trans (hdue.2 v hv)
        · rw [hanswer] at hv
          cases hv
          exact hname.trans (congrArg some (hchild q' hn))
      | join v =>
        obtain ⟨q'', hprog, hnone, hsome⟩ := hdue
        rcases hanswer with hanswer | ⟨-, ⟨spawn, hstart⟩, -⟩
        · refine ⟨q'', hprog, ?_, ?_⟩
          · intro ha
            rw [hanswer] at ha
            obtain ⟨tv, htv⟩ := hjoins w v ⟨t, ht, hcall.symm.trans hc, ha⟩
            exact (hnames v (hlive v tv htv)).trans (hnone ha)
          · rw [hanswer]
            exact hsome
        · rw [← hcall, hc] at hstart
          cases hstart
      | await sqe =>
        rcases hanswer with hanswer | ⟨-, ⟨spawn, hstart⟩, -⟩
        · rw [hanswer]
          exact hdue
        · rw [← hcall, hc] at hstart
          cases hstart
      | yield => exact hdue
      | exit status => exact hdue
      | detach v => exact hdue
      | processExit status => exact hdue
  · intro r hr q' hq'
    rw [hposted] at hr
    obtain ⟨t, ht, -⟩ :=
      hi.op r.op (by simp only [Board.ops, List.mem_append, List.mem_map]; exact .inr ⟨r, hr, rfl⟩)
    exact h.replies r hr q' ((hnames _ (hlive _ t ht)).symm.trans hq')
  · intro q' status hst
    obtain ⟨hb, hprog, hend⟩ := h.ended q' status hst
    refine ⟨hborn q' hb, hprog, fun w t' ht' hq' => ?_⟩
    by_cases hw : w = u
    · subst hw
      obtain rfl : q = q' := Option.some.inj (hname.symm.trans hq')
      exact absurd hb hq
    · obtain ⟨t, ht, hcall, -⟩ := hback w t' hw ht'
      rw [Task.exit_congr hcall]
      exact hend w t ht ((hnames w hw).symm.trans hq')
  · intro q' hq'
    rcases List.mem_append.mp hq' with hq' | hq'
    · refine (h.living q' hq').imp_left ?_
      rintro ⟨w, t, ht, hn⟩
      obtain ⟨t', ht', -⟩ := hforth w t ht
      exact ⟨w, t', ht', (hnames w (hlive w t ht)).trans hn⟩
    · rw [List.mem_singleton.mp hq']
      exact .inl ⟨u, Task.new, hself, hname⟩
  · intro q' hq'
    exact h.unborn q' fun hb => hq' (hborn q' hb)
  · intro q' hq'
    rcases List.mem_append.mp hq' with hq' | hq'
    · have hle : y.roots ≤ n := by
        rcases hfrom with ⟨-, hr⟩ | ⟨hr, -⟩ <;> omega
      rcases h.lineage q' hq' with ⟨i, hi, heq⟩ | ⟨q'', hb, j, heq, hj⟩
      · exact .inl ⟨i, lt_of_lt_of_le hi hle, heq⟩
      · refine .inr ⟨q'', hborn q'' hb, j, heq, hj.imp_right ?_⟩
        rintro ⟨hj, w, t, spawn, v, ht, hn, hc, ha⟩
        obtain ⟨t', ht', hcall, hanswer⟩ := hforth w t ht
        exact ⟨hj, w, t', spawn, v, ht', (hnames w (hlive w t ht)).trans hn, hcall.trans hc,
          (hanswer (by simp [ha])).trans ha⟩
    · rw [List.mem_singleton.mp hq']
      rcases hfrom with ⟨heq, hr⟩ | ⟨-, p, t, spawn, q'', ht, hc, ha, hp, hn, hb, heq⟩
      · exact .inl ⟨y.roots, by simp [hr], heq⟩
      · exact .inr ⟨q'', hborn q'' hb, _, heq,
          .inr ⟨rfl, p, t, spawn, u, ht, (hnames p hp).trans hn, hc, ha⟩⟩
  · intro i hi
    by_cases hlt : i < y.roots
    · exact hborn _ (h.roots i hlt)
    · rcases hfrom with ⟨heq, hr⟩ | ⟨hr, -⟩
      · obtain rfl : i = y.roots := by
          have hi' : i < n := hi
          omega
        exact List.mem_append_right _ (by simp [heq])
      · exact absurd (hr ▸ hi) hlt
  · intro q' q'' hm
    exact hborn q'' (h.heard q' q'' hm)

theorem launch (h : Told prog res b y) (hi : b.Inv) (hparents : b.ParentsFirst)
    (he : b.Enabled (.launch f)) :
    Told prog res (b.apply (.launch f)) (y.note (.launch f)) := by
  obtain ⟨-, hf, hh⟩ := he
  have hother : ∀ w, w ≠ f → (b.apply (.launch f)).tasks w = b.tasks w :=
    fun w hw => Function.update_of_ne hw _ _
  refine h.birth hi hparents h.root_notMem hf (Function.update_self _ _ _) rfl ?_ ?_ ?_
    (.inl ⟨rfl, rfl⟩)
  · intro w v hask
    rcases hi.join_target hask with hw | hv
    · simp [hh] at hw
    · exact hv
  · intro w t' hw ht'
    exact ⟨t', (hother w hw).symm.trans ht', rfl, .inl rfl⟩
  · intro w t ht
    have hw : w ≠ f := by
      rintro rfl
      rw [hf] at ht
      cases ht
    exact ⟨t, (hother w hw).trans ht, rfl, fun _ => rfl⟩

theorem spawn (h : Told prog res b y) (hi : b.Inv) (hparents : b.ParentsFirst) {p c : Addr}
    (he : b.Enabled (.spawn p (some c))) :
    Told prog res (b.apply (.spawn p (some c))) (y.note (.spawn p (some c))) := by
  obtain ⟨hh, ⟨argument, hask⟩, hnew⟩ := he
  obtain ⟨-, hc⟩ := hnew c rfl
  obtain ⟨t, ht, hcall, ha⟩ := id hask
  obtain ⟨q, hborn, hq⟩ := h.named p t ht
  have hpc : p ≠ c := by
    rintro rfl
    rw [hc] at ht
    cases ht
  have hparent : (b.apply (.spawn p (some c))).tasks p = some { t with answer := some c } :=
    (Function.update_of_ne hpc _ _).trans (Board.setAnswer_self ht c)
  have hother : ∀ w, w ≠ c → w ≠ p → (b.apply (.spawn p (some c))).tasks w = b.tasks w :=
    fun w hwc hwp => (Function.update_of_ne hwc _ _).trans (Board.setAnswer_of_ne c hwp)
  have htold := h.birth (c := b.apply (.spawn p (some c))) (n := y.roots) hi hparents
    (h.child_notMem hask hq) hc
    (Function.update_self _ _ _) rfl ?_ ?_ ?_
    (.inr ⟨rfl, p, _, argument, q, hparent, hcall, rfl, hpc, hq, hborn, rfl⟩)
  · simp only [Story.note, hq]
    exact htold
  · intro w v hjoin
    rcases hi.join_target hjoin with hw | hv
    · rw [hh, List.mem_singleton] at hw
      subst hw
      cases hjoin.unique hask
    · exact hv
  · intro w t' hw ht'
    by_cases hwp : w = p
    · subst hwp
      rw [hparent] at ht'
      cases ht'
      refine ⟨t, ht, rfl, .inr ⟨rfl, ⟨argument, hcall⟩, ?_⟩⟩
      intro q' hq'
      rw [hq] at hq'
      cases hq'
      rfl
    · exact ⟨t', (hother w hw hwp).symm.trans ht', rfl, .inl rfl⟩
  · intro w tw htw
    by_cases hwp : w = p
    · subst hwp
      rw [ht] at htw
      cases htw
      exact ⟨_, hparent, rfl, fun hne => absurd ha hne⟩
    · have hwc : w ≠ c := by
        rintro rfl
        rw [hc] at htw
        cases htw
      exact ⟨tw, (hother w hwc hwp).trans htw, rfl, fun _ => rfl⟩

end Told

end Libuc.Scheduler
