import Libuc.Fiber.Control
import Libuc.Lib.Runs

/-! Control and the thread pointer under nesting. The fibers with a pending resume form
a stack whose top runs with its own thread pointer; each was resumed by the one below
it, and what its `return_to` names is that resume, with the thread pointer to put back. -/

namespace Libuc.Control

def party : List Addr → Party
  | [] => .control
  | fiber :: _ => .fiber fiber

def threadPointerOf (original : Addr) (s : State) : Party → Addr
  | .control => original
  | .fiber fiber => ((s.records fiber).map Record.threadPointer).getD 0#64

def resumption (log : List Event) (fiber : Addr) : Continuation :=
  match latestSuspend log fiber with
  | none => .entry fiber
  | some (request, call) => .suspend fiber request call

structure Pending (original : Addr) (s : State) (caller : Party) (fiber : Addr) (record : Record)
    (call : ℕ) : Prop where
  found : s.records fiber = some record
  returnTo : record.returnTo ≠ 0#64
  context : s.contexts record.returnTo =
    some (.resume caller fiber (threadPointerOf original s caller) call)
  latest : latestResume s.log fiber = some (caller, threadPointerOf original s caller, call)

/-- Each fiber of the stack was resumed by the one below it. -/
def Linked (original : Addr) (s : State) : List Addr → Prop
  | [] => True
  | fiber :: rest => (∃ record call, Pending original s (party rest) fiber record call) ∧
      Linked original s rest

/-- The stack, and what is saved for the fibers beside it. -/
structure Stacked (original : Addr) (s : State) : Prop where
  linked : Linked original s (active s.log)
  nodup : (active s.log).Nodup
  running : s.running = party (active s.log)
  null : s.records 0#64 = none
  tcb : ∀ f record, s.records f = some record → record.threadPointer ≠ 0#64 ∧
    s.tcb record.threadPointer = f
  frames : ∀ f record, s.records f = some record → record.returnTo ≠ 0#64 →
    s.records record.returnTo = none ∧
    ∀ g record', s.records g = some record' → record'.returnTo = record.returnTo → g = f
  idle : ∀ f record, s.records f = some record → f ∉ active s.log →
    record.returnTo = 0#64 ∧ (ended s.log f = false → s.contexts f = some (resumption s.log f))

/-- Between the steps the party that runs has its own thread pointer installed. -/
structure Inv (original : Addr) (s : State) : Prop extends Stacked original s where
  installed : s.threadPointer = threadPointerOf original s (party (active s.log))

variable {original : Addr} {s s' : State} {fiber request here foreign : Addr} {call : Call}
  {record : Record} {l : List Addr}

theorem initial_inv (h : Initial original s) : Inv original s := by
  have hactive : active s.log = [] := by rw [h.log, active]
  have hnone : ∀ f record, s.records f ≠ some record := by
    intro f record hf
    rw [h.records f] at hf
    cases hf
  refine ⟨⟨?_, ?_, ?_, h.records _, fun f record hf => absurd hf (hnone f record),
    fun f record hf => absurd hf (hnone f record), fun f record hf => absurd hf (hnone f record)⟩, ?_⟩
  · rw [hactive]
    trivial
  · rw [hactive]
    exact List.nodup_nil
  · rw [hactive]
    exact h.running
  · rw [hactive]
    exact h.threadPointer

/-! ### What the calls compute -/

def Record.afterCall (record : Record) (call : Call) : Record :=
  match call with
  | .exit _ =>
    { record with returnTo := 0#64, life := if record.life = .live then .exited else record.life }
  | _ => { record with returnTo := 0#64 }

/-- What a call leaves in its fiber's context: an exit is zeroed by the resume. -/
def leaves (call : Call) (here : Continuation) : Option Continuation :=
  match call with
  | .exit _ => none
  | _ => some here

def goneBack (s : State) (fiber : Addr) (record : Record) (call : Call) (request : Addr)
    (here : Continuation) (caller : Party) (callerThreadPointer : Addr) (n : ℕ) : State where
  threadPointer := callerThreadPointer
  running := caller
  records := Function.update s.records fiber (some (record.afterCall call))
  tcb := s.tcb
  contexts := Function.update s.contexts fiber (leaves call here)
  requests := Function.update s.requests request ⟨call.ask, 0#64, some fiber⟩
  log := .returned caller fiber request n :: .suspend fiber request call :: s.log

theorem switchOut_eq {caller : Party} {threadPointer : Addr} {n : ℕ} {k : Continuation}
    (hf : s.records fiber = some record) (hreturn : record.returnTo ≠ fiber) (hr : request ≠ 0#64)
    (hc : s.contexts record.returnTo = some (.resume caller fiber threadPointer n)) :
    switchOut s fiber call request k =
      some (goneBack s fiber record call request k caller threadPointer n) := by
  have hc' : Function.update s.contexts fiber (some k) record.returnTo =
      some (.resume caller fiber threadPointer n) := by
    rw [Function.update_of_ne hreturn, hc]
  simp only [switchOut, fiberSwitch, hf, hc', continueWith, finishResume, hr, if_false,
    bind, Option.bind, Function.update_self]
  cases call <;> simp [Call.ask, goneBack, Record.afterCall, leaves, setRecord, hf]

def goesOn (s : State) (fiber : Addr) : Event :=
  match latestSuspend s.log fiber with
  | none => .entered fiber
  | some (request, call) => .continued fiber request call (s.requests request).answer

def goneIn (s : State) (fiber : Addr) (record : Record) (here : Addr) : State where
  threadPointer := record.threadPointer
  running := .fiber fiber
  records := Function.update s.records fiber (some { record with returnTo := here })
  tcb := s.tcb
  contexts := Function.update s.contexts here
    (some (.resume s.running fiber s.threadPointer s.log.length))
  requests := s.requests
  log := goesOn s fiber :: .resume s.running fiber s.threadPointer :: s.log

theorem fiberResume_eq (hf : s.records fiber = some record) (hhere : fiber ≠ here)
    (hc : s.contexts fiber = some (resumption s.log fiber)) :
    fiberResume s fiber here = some (goneIn s fiber record here) := by
  have hc' : Function.update s.contexts here
      (some (.resume s.running fiber s.threadPointer s.log.length)) fiber =
      some (resumption s.log fiber) := by
    rw [Function.update_of_ne hhere, hc]
  simp only [fiberResume, fiberSwitch, hf, bind, Option.bind, setRecord, hc']
  unfold resumption goneIn goesOn
  cases latestSuspend s.log fiber <;> rfl

/-! ### Lists of active fibers -/

/-- Each fiber was resumed last by the one below it. -/
theorem Linked.below {above rest : List Addr} (h : Linked original s (above ++ fiber :: rest)) :
    ∃ record n, Pending original s (party rest) fiber record n := by
  induction above with
  | nil => exact h.1
  | cons g above ih => exact ih h.2

/-- The thread pointer of a party whose record keeps it. -/
theorem Linked.threadPointerOf_eq (h : Linked original s l)
    (hrecords : ∀ f ∈ l, ∀ record, s.records f = some record → ∃ record', s'.records f = some record' ∧
      record'.threadPointer = record.threadPointer) :
    threadPointerOf original s' (party l) = threadPointerOf original s (party l) := by
  cases l with
  | nil => rfl
  | cons f rest =>
    obtain ⟨⟨record, n, hp⟩, -⟩ := h
    obtain ⟨record', hf', htp⟩ := hrecords f List.mem_cons_self record hp.found
    simp only [party, threadPointerOf, hp.found, hf', Option.map_some, Option.getD_some, htp]

/-- A state that keeps the records and contexts of pending resumes. -/
structure Carries (s s' : State) (l : List Addr) : Prop where
  records : ∀ f ∈ l, ∀ record, s.records f = some record → ∃ record', s'.records f = some record' ∧
    record'.threadPointer = record.threadPointer ∧ record'.returnTo = record.returnTo ∧
    (record.returnTo ≠ 0#64 → s'.contexts record.returnTo = s.contexts record.returnTo)
  latest : ∀ f ∈ l, latestResume s'.log f = latestResume s.log f

theorem Carries.tail {f : Addr} (h : Carries s s' (f :: l)) : Carries s s' l :=
  ⟨fun g hg => h.records g (List.mem_cons_of_mem _ hg),
    fun g hg => h.latest g (List.mem_cons_of_mem _ hg)⟩

theorem Carries.threadPointerOf_eq (h : Carries s s' l) (hl : Linked original s l) :
    threadPointerOf original s' (party l) = threadPointerOf original s (party l) := by
  refine hl.threadPointerOf_eq fun f hf record hr => ?_
  obtain ⟨record', hf', htp, -⟩ := h.records f hf record hr
  exact ⟨record', hf', htp⟩

theorem Carries.linked (h : Carries s s' l) (hl : Linked original s l) : Linked original s' l := by
  induction l with
  | nil => trivial
  | cons f rest ih =>
    obtain ⟨⟨record, n, hp⟩, hrest⟩ := hl
    obtain ⟨record', hf', htp, hreturn, hcontext⟩ := h.records f List.mem_cons_self record hp.found
    have hparty := h.tail.threadPointerOf_eq hrest
    refine ⟨⟨record', n, hf', ?_, ?_, ?_⟩, ih h.tail hrest⟩
    · rw [hreturn]
      exact hp.returnTo
    · rw [hreturn, hcontext hp.returnTo, hparty]
      exact hp.context
    · rw [h.latest f List.mem_cons_self, hparty]
      exact hp.latest

/-! ### The steps -/

/-- A pending resume's context is nobody's record. -/
theorem Stacked.returnTo_ne (h : Stacked original s) {f : Addr} {record' : Record}
    (hf : s.records f = some record')
    (hne : record'.returnTo ≠ 0#64) (hg : s.records fiber = some record) :
    record'.returnTo ≠ fiber := by
  intro he
  have hnone := (h.frames f record' hf hne).1
  rw [he, hg] at hnone
  cases hnone

theorem Stacked.ne_null (h : Stacked original s) (hf : s.records fiber = some record) :
    fiber ≠ 0#64 := by
  rintro rfl
  rw [h.null] at hf
  cases hf

structure Stacked.Fits (s s' : State) (fiber : Addr) (record : Record) : Prop where
  tcb : record.threadPointer ≠ 0#64 ∧ s'.tcb record.threadPointer = fiber
  frame : record.returnTo = 0#64 ∨ record.returnTo ≠ fiber ∧ s.records record.returnTo = none ∧
    ∀ g record', s.records g = some record' → record'.returnTo ≠ record.returnTo
  idle : fiber ∉ active s'.log →
    record.returnTo = 0#64 ∧
    (ended s'.log fiber = false → s'.contexts fiber = some (resumption s'.log fiber))

/-- A step that changes one fiber's record and nothing about the others. -/
theorem Stacked.change (h : Stacked original s) (hlinked : Linked original s' (active s'.log))
    (hnodup : (active s'.log).Nodup) (hrunning : s'.running = party (active s'.log))
    (hne : fiber ≠ 0#64) (hother : ∀ f ≠ fiber, s'.records f = s.records f)
    (hfits : ∀ record, s'.records fiber = some record → Fits s s' fiber record)
    (hfree : ∀ f record, s.records f = some record → record.returnTo ≠ 0#64 → record.returnTo ≠ fiber)
    (htcb : ∀ f record, f ≠ fiber → s.records f = some record →
      s'.tcb record.threadPointer = s.tcb record.threadPointer)
    (hidle : ∀ f record, f ≠ fiber → s.records f = some record → f ∉ active s'.log → f ∉ active s.log ∧
      ended s'.log f = ended s.log f ∧ latestSuspend s'.log f = latestSuspend s.log f ∧
      s'.contexts f = s.contexts f) :
    Stacked original s' := by
  refine ⟨hlinked, hnodup, hrunning, ?_, fun f record hf => ?_, fun f record hf hreturn => ?_,
    fun f record hf hnot => ?_⟩
  · rw [hother _ hne.symm]
    exact h.null
  · by_cases he : f = fiber
    · subst he
      exact (hfits record hf).tcb
    · rw [hother f he] at hf
      rw [htcb f record he hf]
      exact h.tcb f record hf
  · by_cases he : f = fiber
    · subst he
      obtain ⟨hne', hnone, hunique⟩ := (hfits record hf).frame.resolve_left hreturn
      rw [hother _ hne']
      refine ⟨hnone, fun g record' hg hsame => ?_⟩
      by_contra hgf
      rw [hother g hgf] at hg
      exact hunique g record' hg hsame
    · rw [hother f he] at hf
      obtain ⟨hnone, hunique⟩ := h.frames f record hf hreturn
      rw [hother _ (hfree f record hf hreturn)]
      refine ⟨hnone, fun g record' hg hsame => ?_⟩
      by_cases hgf : g = fiber
      · subst hgf
        rcases (hfits record' hg).frame with h0 | ⟨-, -, hunique'⟩
        · rw [h0] at hsame
          exact absurd hsame.symm hreturn
        · exact absurd hsame.symm (hunique' f record hf)
      · rw [hother g hgf] at hg
        exact hunique g record' hg hsame
  · by_cases he : f = fiber
    · subst he
      exact (hfits record hf).idle hnot
    · rw [hother f he] at hf
      obtain ⟨hnot', hended, hsuspend, hcontext⟩ := hidle f record he hf hnot
      rw [hended, hcontext, resumption, hsuspend]
      exact h.idle f record hf hnot'

theorem goneBack_active {rest : List Addr} {k : Continuation} {caller : Party}
    {threadPointer : Addr} {n : ℕ} (hactive : active s.log = fiber :: rest) :
    active (goneBack s fiber record call request k caller threadPointer n).log = rest := by
  simp only [goneBack, active, hactive, List.erase_cons_head]

theorem Record.afterCall_threadPointer (record : Record) (call : Call) :
    (record.afterCall call).threadPointer = record.threadPointer := by
  cases call <;> rfl

theorem Record.afterCall_returnTo (record : Record) (call : Call) :
    (record.afterCall call).returnTo = 0#64 := by
  cases call <;> rfl

theorem leaves_of_not_ends {k : Continuation} (h : ends call = false) : leaves call k = some k := by
  cases call <;> first | rfl | cases h

/-- Going back pops the stack. -/
theorem Stacked.goneBack (h : Stacked original s) {rest : List Addr} {n : ℕ} {k : Continuation}
    (hactive : active s.log = fiber :: rest) (hp : Pending original s (party rest) fiber record n)
    (hk : ends call = false → k = .suspend fiber request s.log.length) :
    Inv original (goneBack s fiber record call request k (party rest)
      (threadPointerOf original s (party rest)) n) := by
  set s' := Control.goneBack s fiber record call request k (party rest)
    (threadPointerOf original s (party rest)) n with hs'
  have hactive' : active s'.log = rest := goneBack_active hactive
  have hnodup := h.nodup
  have hlinked := h.linked
  rw [hactive] at hnodup hlinked
  obtain ⟨hnot, hnodup⟩ := List.nodup_cons.mp hnodup
  have hother : ∀ f ≠ fiber, s'.records f = s.records f := fun f hf => Function.update_of_ne hf _ _
  have hself : s'.records fiber = some (record.afterCall call) := Function.update_self _ _ _
  have hcontext : ∀ a ≠ fiber, s'.contexts a = s.contexts a := fun a ha => Function.update_of_ne ha _ _
  have hcarries : Carries s s' rest := by
    refine ⟨fun f hf record' hr => ⟨record', ?_, rfl, rfl, fun hne => ?_⟩, fun f _ => rfl⟩
    · rw [hother f (fun he => hnot (he ▸ hf)), hr]
    · exact hcontext _ (h.returnTo_ne hr hne hp.found)
  have hstacked : Stacked original s' := by
    refine h.change ?_ ?_ ?_ (h.ne_null hp.found) hother ?_ ?_ ?_ ?_
    · rw [hactive']
      exact hcarries.linked hlinked.2
    · rw [hactive']
      exact hnodup
    · rw [hactive']
      rfl
    · intro record' hr
      rw [hself, Option.some.injEq] at hr
      subst hr
      refine ⟨?_, .inl (record.afterCall_returnTo call),
        fun _ => ⟨record.afterCall_returnTo call, fun hended => ?_⟩⟩
      · rw [record.afterCall_threadPointer]
        exact h.tcb fiber record hp.found
      · -- a fiber that has not ended left its suspension in its context
        have hends : ends call = false := by
          simp only [hs', Control.goneBack, ended, decide_true, Bool.true_and,
            Bool.or_eq_false_iff] at hended
          exact hended.1
        have hleft : s'.contexts fiber = leaves call k := Function.update_self _ _ _
        rw [hleft, leaves_of_not_ends hends, hk hends, resumption, hs', Control.goneBack]
        simp only [latestSuspend, if_true]
    · intro f record' hf hne
      exact h.returnTo_ne hf hne hp.found
    · intro f record' _ _
      rfl
    · intro f record' hf hr hnot'
      rw [hactive'] at hnot'
      refine ⟨?_, ?_, ?_, hcontext f hf⟩
      · rw [hactive, List.mem_cons, not_or]
        exact ⟨hf, hnot'⟩
      · simp only [hs', Control.goneBack, ended, Ne.symm hf, decide_false, Bool.false_and,
          Bool.false_or]
      · simp only [hs', Control.goneBack, latestSuspend, Ne.symm hf, if_false]
  refine ⟨hstacked, ?_⟩
  rw [hactive', hcarries.threadPointerOf_eq hlinked.2]
  rfl

theorem goesOn_log (s : State) (fiber f : Addr) (l : List Event) :
    active (goesOn s fiber :: l) = active l ∧ latestResume (goesOn s fiber :: l) f = latestResume l f ∧
      ended (goesOn s fiber :: l) f = ended l f ∧
      latestSuspend (goesOn s fiber :: l) f = latestSuspend l f := by
  unfold goesOn
  cases latestSuspend s.log fiber <;> exact ⟨rfl, rfl, rfl, rfl⟩

/-- Going in pushes the fiber on the stack. -/
theorem Inv.goneIn (h : Inv original s) (hr : Resumable s fiber here)
    (hf : s.records fiber = some record) :
    Inv original (goneIn s fiber record here) := by
  obtain ⟨hnone, hunique⟩ := hr.here_new
  have hhere : here ≠ fiber := by
    rintro rfl
    rw [hf] at hnone
    cases hnone
  set s' := Control.goneIn s fiber record here with hs'
  have hactive' : active s'.log = fiber :: active s.log := (goesOn_log s fiber fiber _).1
  have hother : ∀ f ≠ fiber, s'.records f = s.records f := fun f hf => Function.update_of_ne hf _ _
  have hself : s'.records fiber = some { record with returnTo := here } := Function.update_self _ _ _
  have hcontext : ∀ a ≠ here, s'.contexts a = s.contexts a := fun a ha => Function.update_of_ne ha _ _
  have hlatest : ∀ f, latestResume s'.log f =
      if fiber = f then some (s.running, s.threadPointer, s.log.length) else latestResume s.log f :=
    fun f => (goesOn_log s fiber f _).2.1
  have hcarries : Carries s s' (active s.log) := by
    refine ⟨fun f hf' record' hr' =>
      ⟨record', ?_, rfl, rfl, fun hne => hcontext _ (hunique f record' hr')⟩, fun f hf' => ?_⟩
    · rw [hother f (fun he => hr.idle (he ▸ hf')), hr']
    · have hne : fiber ≠ f := fun he => hr.idle (he ▸ hf')
      rw [hlatest, if_neg hne]
  have hparty : threadPointerOf original s' (party (active s.log)) = s.threadPointer := by
    rw [hcarries.threadPointerOf_eq h.linked, h.installed]
  have hpending : Pending original s' (party (active s.log)) fiber
      { record with returnTo := here } s.log.length := by
    refine ⟨hself, hr.here_ne, ?_, ?_⟩
    · rw [hparty, ← h.running]
      exact Function.update_self _ _ _
    · rw [hlatest, if_pos rfl, hparty, h.running]
  have hstacked : Stacked original s' := by
    refine h.toStacked.change ?_ ?_ ?_ (h.ne_null hf) hother ?_ ?_ ?_ ?_
    · rw [hactive']
      exact ⟨⟨_, _, hpending⟩, hcarries.linked h.linked⟩
    · rw [hactive']
      exact List.nodup_cons.mpr ⟨hr.idle, h.nodup⟩
    · rw [hactive']
      rfl
    · intro record' hr'
      rw [hself, Option.some.injEq] at hr'
      subst hr'
      refine ⟨h.tcb fiber record hf, .inr ⟨hhere, hnone, hunique⟩, fun hnot => absurd ?_ hnot⟩
      rw [hactive']
      exact List.mem_cons_self
    · intro f record' hf' hne
      exact h.returnTo_ne hf' hne hf
    · intro f record' _ _
      rfl
    · intro f record' hf' hr' hnot
      rw [hactive', List.mem_cons, not_or] at hnot
      obtain ⟨-, -, hended, hsuspend⟩ :=
        goesOn_log s fiber f (.resume s.running fiber s.threadPointer :: s.log)
      refine ⟨hnot.2, hended, hsuspend, hcontext f ?_⟩
      rintro rfl
      rw [hnone] at hr'
      cases hr'
  refine ⟨hstacked, ?_⟩
  rw [hactive', party, threadPointerOf, hself]
  rfl

theorem Inv.created (h : Inv original s) {threadPointer : Addr} (hn : Fresh s fiber threadPointer) :
    Inv original (fiberSpawned s fiber threadPointer) := by
  obtain ⟨hnone, hfree⟩ := hn.record_new
  set s' := fiberSpawned s fiber threadPointer with hs'
  have hother : ∀ f ≠ fiber, s'.records f = s.records f := fun f hf => Function.update_of_ne hf _ _
  have hself : s'.records fiber = some ⟨threadPointer, 0#64, 0#32, .live⟩ := Function.update_self _ _ _
  have hcontext : ∀ a ≠ fiber, s'.contexts a = s.contexts a := fun a ha => Function.update_of_ne ha _ _
  have hknown : ∀ f record, s.records f = some record → f ≠ fiber := by
    rintro f record hf rfl
    rw [hnone] at hf
    cases hf
  have hcarries : Carries s s' (active s.log) := by
    refine ⟨fun f _ record' hr' =>
      ⟨record', ?_, rfl, rfl, fun _ => hcontext _ (hfree f record' hr')⟩, fun f _ => rfl⟩
    rw [hother f (hknown f record' hr'), hr']
  have hstacked : Stacked original s' := by
    refine h.toStacked.change
      (hcarries.linked h.linked) h.nodup h.running hn.record_ne hother ?_ ?_ ?_ ?_
    · intro record' hr'
      rw [hself, Option.some.injEq] at hr'
      subst hr'
      refine ⟨⟨hn.block_ne, Function.update_self _ _ _⟩, .inl rfl, fun _ => ⟨rfl, fun _ => ?_⟩⟩
      have hentry : s'.contexts fiber = some (.entry fiber) := Function.update_self _ _ _
      refine hentry.trans ?_
      simp only [resumption, hs', fiberSpawned, latestSuspend, if_true]
    · intro f record' hf' _
      exact hfree f record' hf'
    · intro f record' hf' hr'
      exact Function.update_of_ne (hn.block_new f record' hr') _ _
    · intro f record' hf' hr' hnot
      refine ⟨hnot, ?_, ?_, hcontext f hf'⟩
      · simp only [hs', fiberSpawned, ended, ne_eq, Ne.symm hf', not_false_eq_true, decide_true,
          Bool.true_and]
      · simp only [hs', fiberSpawned, latestSuspend, Ne.symm hf', if_false]
  refine ⟨hstacked, h.installed.trans ?_⟩
  exact (hcarries.threadPointerOf_eq h.linked).symm

theorem Inv.destroyed (h : Inv original s) (hf : s.records fiber = some record)
    (hidle : fiber ∉ active s.log) :
    Inv original { s with
      records := Function.update s.records fiber none
      contexts := Function.update s.contexts fiber none } := by
  set s' : State := { s with
    records := Function.update s.records fiber none
    contexts := Function.update s.contexts fiber none } with hs'
  have hother : ∀ f ≠ fiber, s'.records f = s.records f := fun f hf => Function.update_of_ne hf _ _
  have hself : s'.records fiber = none := Function.update_self _ _ _
  have hcontext : ∀ a ≠ fiber, s'.contexts a = s.contexts a := fun a ha => Function.update_of_ne ha _ _
  have hcarries : Carries s s' (active s.log) := by
    refine ⟨fun f hf' record' hr' =>
      ⟨record', ?_, rfl, rfl, fun hne => hcontext _ (h.returnTo_ne hr' hne hf)⟩, fun f _ => rfl⟩
    rw [hother f (fun he => hidle (he ▸ hf')), hr']
  have hstacked : Stacked original s' := by
    refine h.toStacked.change (hcarries.linked h.linked) h.nodup h.running
      (h.ne_null hf) hother ?_ ?_ ?_ ?_
    · intro record' hr'
      rw [hself] at hr'
      cases hr'
    · intro f record' hf' hne
      exact h.returnTo_ne hf' hne hf
    · intro f record' _ _
      rfl
    · intro f record' hf' _ hnot
      exact ⟨hnot, rfl, rfl, hcontext f hf'⟩
  exact ⟨hstacked, h.installed.trans (hcarries.threadPointerOf_eq h.linked).symm⟩

def Record.key (record : Record) : Addr × Addr := (record.threadPointer, record.returnTo)

theorem key_found {a b : Option Record} (h : b.map Record.key = a.map Record.key)
    (ha : a = some record) :
    ∃ record', b = some record' ∧ record'.threadPointer = record.threadPointer ∧
    record'.returnTo = record.returnTo := by
  rw [ha, Option.map_some, Option.map_eq_some_iff] at h
  obtain ⟨record', hb, hkey⟩ := h
  exact ⟨record', hb, (Prod.ext_iff.mp hkey).1, (Prod.ext_iff.mp hkey).2⟩

/-- A step that writes a status, a mark, an answer or the thread register. -/
theorem Stacked.carried (h : Stacked original s) (s' : State) (hlog : s'.log = s.log)
    (hrunning : s'.running = s.running)
    (hcontexts : s'.contexts = s.contexts) (htcb : s'.tcb = s.tcb)
    (hkey : ∀ f, (s'.records f).map Record.key = (s.records f).map Record.key) :
    Stacked original s' ∧ Carries s s' (active s.log) := by
  have hcarries : Carries s s' (active s.log) := by
    refine ⟨fun f _ r hr => ?_, fun f _ => by rw [hlog]⟩
    obtain ⟨r', hr', hthread, hreturn⟩ := key_found (hkey f) hr
    exact ⟨r', hr', hthread, hreturn, fun _ => by rw [hcontexts]⟩
  have hnone : ∀ f, s.records f = none → s'.records f = none := by
    intro f hf
    have hk := hkey f
    rw [hf] at hk
    exact Option.map_eq_none_iff.mp hk
  refine ⟨⟨?_, ?_, ?_, hnone _ h.null, fun f r hr => ?_, fun f r hr hne => ?_,
    fun f r hr hnot => ?_⟩, hcarries⟩
  · rw [hlog]
    exact hcarries.linked h.linked
  · rw [hlog]
    exact h.nodup
  · rw [hlog, hrunning]
    exact h.running
  · obtain ⟨r₀, hr₀, hthread, -⟩ := key_found (hkey f).symm hr
    rw [htcb, ← hthread]
    exact h.tcb f r₀ hr₀
  · obtain ⟨r₀, hr₀, -, hreturn⟩ := key_found (hkey f).symm hr
    rw [← hreturn] at hne ⊢
    obtain ⟨hfree, hunique⟩ := h.frames f r₀ hr₀ hne
    refine ⟨hnone _ hfree, fun g r' hg hsame => ?_⟩
    obtain ⟨r₁, hr₁, -, hreturn'⟩ := key_found (hkey g).symm hg
    exact hunique g r₁ hr₁ (hreturn'.trans hsame)
  · obtain ⟨r₀, hr₀, -, hreturn⟩ := key_found (hkey f).symm hr
    rw [hlog] at hnot ⊢
    rw [hcontexts, ← hreturn]
    exact h.idle f r₀ hr₀ hnot

theorem Inv.carried (h : Inv original s) (s' : State) (hthread : s'.threadPointer = s.threadPointer)
    (hlog : s'.log = s.log)
    (hrunning : s'.running = s.running) (hcontexts : s'.contexts = s.contexts) (htcb : s'.tcb = s.tcb)
    (hkey : ∀ f, (s'.records f).map Record.key = (s.records f).map Record.key) : Inv original s' := by
  obtain ⟨hstacked, hcarries⟩ := h.toStacked.carried s' hlog hrunning hcontexts htcb hkey
  refine ⟨hstacked, ?_⟩
  rw [hthread, hlog, hcarries.threadPointerOf_eq h.linked]
  exact h.installed

theorem key_update {records : Addr → Option Record} (hf : records fiber = some record)
    {record' : Record} (hkey : record'.key = record.key) (f : Addr) :
    (Function.update records fiber (some record') f).map Record.key = (records f).map Record.key := by
  by_cases he : f = fiber
  · subst he
    rw [Function.update_self, hf, Option.map_some, Option.map_some, hkey]
  · rw [Function.update_of_ne he]

/-! ### Suspensions and exits -/

/-- A suspension returns from the latest resume of its fiber, to whoever called it and
with the thread pointer that was installed at that call. The request handed back is the
fiber's own and names it, and nothing is pending for the fiber any more. -/
structure GoesBack (s : State) (fiber : Addr) (call : Call) (request : Addr) (s' : State) : Prop where
  stack : active s.log = fiber :: active s'.log
  latest : ∃ n, latestResume s.log fiber = some (s'.running, s'.threadPointer, n) ∧
    s'.log = .returned s'.running fiber request n :: .suspend fiber request call :: s.log
  request : s'.requests request = ⟨call.ask, 0#64, some fiber⟩
  returnTo : ∃ record, s'.records fiber = some record ∧ record.returnTo = 0#64

theorem Stacked.switchOut (h : Stacked original s) {rest : List Addr}
    (hactive : active s.log = fiber :: rest)
    (hr : request ≠ 0#64) {k : Continuation} (hk : ends call = false →
      k = .suspend fiber request s.log.length) :
    ∃ s', switchOut s fiber call request k = some s' ∧ Inv original s' ∧
    GoesBack s fiber call request s' := by
  have hlinked := h.linked
  rw [hactive] at hlinked
  obtain ⟨⟨record, n, hp⟩, -⟩ := hlinked
  have hne := h.returnTo_ne hp.found hp.returnTo hp.found
  refine ⟨_, switchOut_eq hp.found hne hr hp.context, h.goneBack hactive hp hk, ?_,
    ⟨n, hp.latest, rfl⟩, ?_, ?_⟩
  · rw [goneBack_active hactive, hactive]
  · exact Function.update_self _ _ _
  · exact ⟨_, Function.update_self _ _ _, record.afterCall_returnTo call⟩

/-- The top of the stack is the current fiber. -/
theorem Inv.fiberCurrent_eq (h : Inv original s) {rest : List Addr}
    (hactive : active s.log = fiber :: rest) :
    fiberCurrent s = fiber := by
  have hlinked := h.linked
  have hinstalled := h.installed
  rw [hactive] at hlinked hinstalled
  obtain ⟨⟨record, n, hp⟩, -⟩ := hlinked
  obtain ⟨hne, htcb⟩ := h.tcb fiber record hp.found
  rw [party, threadPointerOf, hp.found, Option.map_some, Option.getD_some] at hinstalled
  rw [fiberCurrent, hinstalled, if_neg hne, htcb]

/-- An exit finds its way by the record, whatever thread pointer is installed. -/
theorem Stacked.exitFiber (h : Stacked original s) {rest : List Addr}
    (hactive : active s.log = fiber :: rest)
    (hr : request ≠ 0#64) (status : CInt) (foreign : Addr) :
    ∃ s', exitFiber { s with threadPointer := foreign } fiber status request = some s' ∧
    Inv original s' ∧
      GoesBack s fiber (.exit status) request s' := by
  have hlinked := h.linked
  rw [hactive] at hlinked
  obtain ⟨⟨record, n, hp⟩, -⟩ := hlinked
  have hstacked := (h.carried
      (setRecord { s with threadPointer := foreign } fiber { record with status := status })
    rfl rfl rfl rfl (key_update hp.found rfl)).1
  have hk : ends (.exit status) = false → Continuation.trap = .suspend fiber request s.log.length :=
    nofun
  obtain ⟨s', hs', hinv, hback⟩ := hstacked.switchOut hactive hr hk
  refine ⟨s', ?_, hinv, hback.stack, hback.latest, hback.request, hback.returnTo⟩
  simp only [Control.exitFiber, hp.found, bind, Option.bind]
  exact hs'

theorem Stacked.fiberProcessExit (h : Stacked original s) {rest : List Addr}
    (hactive : active s.log = fiber :: rest)
    (hr : request ≠ 0#64) (status : CInt) (foreign : Addr) :
    ∃ s', fiberProcessExit { s with threadPointer := foreign } fiber status request = some s' ∧
    Inv original s' ∧
      GoesBack s fiber (.processExit status) request s' := by
  have hstacked := (h.carried { s with threadPointer := foreign } rfl rfl rfl rfl fun _ => rfl).1
  have hk : ends (.processExit status) = false →
      Continuation.trap = .suspend fiber request s.log.length := nofun
  obtain ⟨s', hs', hinv, hback⟩ := hstacked.switchOut hactive hr hk
  exact ⟨s', hs', hinv, hback.stack, hback.latest, hback.request, hback.returnTo⟩

/-- Every call of the running fiber goes back. -/
theorem Inv.perform (h : Inv original s) {rest : List Addr} (hactive : active s.log = fiber :: rest)
    (hr : request ≠ 0#64) (call : Call) :
    ∃ s', perform s call request = some s' ∧ Inv original s' ∧ GoesBack s fiber call request s' := by
  have hcurrent := h.fiberCurrent_eq hactive
  have hsuspend : ∀ call, ends call = false →
      ∃ s', suspendCurrent s call request = some s' ∧ Inv original s' ∧
      GoesBack s fiber call request s' := by
    intro call _
    rw [suspendCurrent, hcurrent]
    exact h.toStacked.switchOut hactive hr fun _ => rfl
  cases call with
  | yield => exact hsuspend .yield rfl
  | await sqe => exact hsuspend (.await sqe) rfl
  | start spawn => exact hsuspend (.start spawn) rfl
  | join target => exact hsuspend (.join target) rfl
  | detach target => exact hsuspend (.detach target) rfl
  | exit status =>
    rw [Control.perform, fiberExit, hcurrent]
    exact h.toStacked.exitFiber hactive hr status s.threadPointer
  | processExit status =>
    rw [Control.perform, hcurrent]
    exact h.toStacked.fiberProcessExit hactive hr status s.threadPointer

/-! ### Resumes -/

/-- A resume runs its fiber on, from its entry or from its latest suspension, with its
own thread pointer. -/
structure GoesIn (s : State) (fiber : Addr) (s' : State) : Prop where
  stack : active s'.log = fiber :: active s.log
  running : s'.running = .fiber fiber
  installed : ∃ record, s.records fiber = some record ∧ s'.threadPointer = record.threadPointer
  log : s'.log = goesOn s fiber :: .resume s.running fiber s.threadPointer :: s.log

theorem Inv.fiberResume (h : Inv original s) (hr : Resumable s fiber here) :
    ∃ s', fiberResume s fiber here = some s' ∧ Inv original s' ∧ GoesIn s fiber s' := by
  obtain ⟨record, hf⟩ := hr.exists_record
  have hhere : fiber ≠ here := by
    rintro rfl
    rw [hr.here_new.1] at hf
    cases hf
  have hcontext := (h.idle fiber record hf hr.idle).2 hr.live
  exact ⟨_, fiberResume_eq hf hhere hcontext, h.goneIn hr hf, (goesOn_log s fiber fiber _).1, rfl,
    ⟨record, hf, rfl⟩, rfl⟩

/-! ### Whole executions -/

theorem Inv.running_fiber (h : Inv original s) (hrun : s.running = .fiber fiber) :
    ∃ rest, active s.log = fiber :: rest := by
  have hr := h.running
  cases hactive : active s.log with
  | nil =>
    rw [hactive, hrun] at hr
    cases hr
  | cons f rest =>
    rw [hactive, hrun] at hr
    cases hr
    exact ⟨rest, rfl⟩

theorem Inv.step (h : Inv original s) (hs : Step s s') : Inv original s' := by
  cases hs with
  | created hn => exact h.created hn
  | destroyed hf hidle => exact h.destroyed hf hidle
  | answered => exact h.carried _ rfl rfl rfl rfl rfl fun _ => rfl
  | marked hf => exact h.carried _ rfl rfl rfl rfl rfl (key_update hf rfl)
  | resumed hr hs =>
    obtain ⟨s₁, hs₁, hinv, -⟩ := h.fiberResume hr
    rw [hs, Option.some.injEq] at hs₁
    exact hs₁ ▸ hinv
  | suspended hrun hr hs =>
    obtain ⟨rest, hactive⟩ := h.running_fiber hrun
    obtain ⟨s₁, hs₁, hinv, -⟩ := h.perform hactive hr _
    rw [hs, Option.some.injEq] at hs₁
    exact hs₁ ▸ hinv
  | exited hrun hr hs =>
    obtain ⟨rest, hactive⟩ := h.running_fiber hrun
    obtain ⟨s₁, hs₁, hinv, -⟩ := h.toStacked.exitFiber hactive hr _ _
    rw [hs, Option.some.injEq] at hs₁
    exact hs₁ ▸ hinv
  | processExited hrun hr hs =>
    obtain ⟨rest, hactive⟩ := h.running_fiber hrun
    obtain ⟨s₁, hs₁, hinv, -⟩ := h.toStacked.fiberProcessExit hactive hr _ _
    rw [hs, Option.some.injEq] at hs₁
    exact hs₁ ▸ hinv

theorem inv_run {s₀ : State} (hstart : Initial original s₀)
    (hrun : Relation.ReflTransGen Step s₀ s) : Inv original s :=
  Lib.keeps_run (fun _ _ h hs => h.step hs) (initial_inv hstart) hrun

/-- Control and thread pointer under nesting, in every execution: the active fibers form
a stack and its top runs as the current fiber with its own thread pointer; a suspension
or exit pops it, back to the latest resume of that fiber; a resume pushes a fiber, which
goes on at its entry or at its own latest suspension. -/
theorem control_discipline {original : Addr} {s₀ s : State} (hstart : Initial original s₀)
    (hrun : Relation.ReflTransGen Step s₀ s) :
    ((active s.log).Nodup ∧ s.running = party (active s.log) ∧
      s.threadPointer = threadPointerOf original s (party (active s.log)) ∧
      (∀ fiber rest, active s.log = fiber :: rest → fiberCurrent s = fiber) ∧
      ∀ above fiber rest, active s.log = above ++ fiber :: rest →
        ∃ n, latestResume s.log fiber = some (party rest, threadPointerOf original s (party rest), n)) ∧
    (∀ fiber, s.running = .fiber fiber → ∀ request, request ≠ 0#64 →
      (∀ call, ∃ s', perform s call request = some s' ∧ GoesBack s fiber call request s') ∧
      (∀ foreign status, ∃ s',
        exitFiber { s with threadPointer := foreign } fiber status request = some s' ∧
        GoesBack s fiber (.exit status) request s') ∧
      ∀ foreign status, ∃ s',
      fiberProcessExit { s with threadPointer := foreign } fiber status request = some s' ∧
        GoesBack s fiber (.processExit status) request s') ∧
    (∀ fiber here, Resumable s fiber here → ∃ s', fiberResume s fiber here = some s' ∧
      GoesIn s fiber s') := by
  have h := inv_run hstart hrun
  refine ⟨⟨h.nodup, h.running, h.installed,
    fun fiber rest hactive => h.fiberCurrent_eq hactive, ?_⟩, ?_, ?_⟩
  · intro above fiber rest hactive
    have hlinked := h.linked
    rw [hactive] at hlinked
    obtain ⟨record, n, hp⟩ := hlinked.below
    exact ⟨n, hp.latest⟩
  · intro fiber hfiber request hr
    obtain ⟨rest, hactive⟩ := h.running_fiber hfiber
    refine ⟨fun call => ?_, fun foreign status => ?_, fun foreign status => ?_⟩
    · obtain ⟨s', hs', -, hback⟩ := h.perform hactive hr call
      exact ⟨s', hs', hback⟩
    · obtain ⟨s', hs', -, hback⟩ := h.toStacked.exitFiber hactive hr status foreign
      exact ⟨s', hs', hback⟩
    · obtain ⟨s', hs', -, hback⟩ := h.toStacked.fiberProcessExit hactive hr status foreign
      exact ⟨s', hs', hback⟩
  · intro fiber here hr
    obtain ⟨s', hs', -, hin⟩ := h.fiberResume hr
    exact ⟨s', hs', hin⟩

/-- Control code before anything is called, with a thread pointer of its own. -/
def sampleStart : State where
  threadPointer := 0x7000#64
  running := .control
  records := fun _ => none
  tcb := fun _ => 0#64
  contexts := fun _ => none
  requests := fun _ => ⟨.yield, 0#64, none⟩
  log := []

def sampleFibers : State :=
  fiberSpawned (fiberSpawned sampleStart 0x1000#64 0x5000#64) 0x2000#64 0x6000#64

theorem sampleFibers_run : Relation.ReflTransGen Step sampleStart sampleFibers := by
  have hfirst : Fresh sampleStart 0x1000#64 0x5000#64 := ⟨by decide, ⟨rfl, nofun⟩, by decide, nofun⟩
  have hone : ∀ f record, (fiberSpawned sampleStart 0x1000#64 0x5000#64).records f = some record →
      record = ⟨0x5000#64, 0#64, 0#32, .live⟩ := by
    intro f record hf
    simp only [fiberSpawned, setRecord, sampleStart, Function.update_apply] at hf
    split_ifs at hf
    exact (Option.some.inj hf).symm
  have hsecond : Fresh (fiberSpawned sampleStart 0x1000#64 0x5000#64) 0x2000#64 0x6000#64 := by
    refine ⟨by decide, ⟨rfl, fun f record hf => ?_⟩, by decide, fun f record hf => ?_⟩
    · rw [hone f record hf]
      decide
    · rw [hone f record hf]
      decide
  exact (Relation.ReflTransGen.single (.created hfirst)).tail (.created hsecond)

/-- The first fiber, resumed by control code, resumes the second, which yields: the
first goes on with the second's request. -/
theorem control_discipline_nested :
    ∃ s s' : State, Relation.ReflTransGen Step sampleStart s ∧ s.running = .fiber 0x2000#64 ∧
      perform s .yield 0x8000#64 = some s' ∧ GoesBack s 0x2000#64 .yield 0x8000#64 s' := by
  have hstart : Initial 0x7000#64 sampleStart := ⟨rfl, rfl, fun _ => rfl, rfl⟩
  have hreturn : ∀ f record, sampleFibers.records f = some record → record.returnTo = 0#64 := by
    intro f record hf
    simp only [sampleFibers, fiberSpawned, setRecord, sampleStart, Function.update_apply] at hf
    split_ifs at hf
    · rw [← Option.some.inj hf]
    · rw [← Option.some.inj hf]
  have hfirst : Resumable sampleFibers 0x1000#64 0x9000#64 := by
    refine ⟨⟨_, rfl⟩, by decide, rfl, by decide, rfl, fun f record hf => ?_⟩
    rw [hreturn f record hf]
    decide
  have hrun := sampleFibers_run.tail (.resumed hfirst (fiberResume_eq rfl (by decide) rfl))
  have hsecond : Resumable (goneIn sampleFibers 0x1000#64 ⟨0x5000#64, 0#64, 0#32,
      .live⟩ 0x9000#64) 0x2000#64 0x9100#64 := by
    refine ⟨⟨_, rfl⟩, by decide, rfl, by decide, rfl, fun f record hf => ?_⟩
    simp only [goneIn, Function.update_apply] at hf
    split_ifs at hf
    · rw [← Option.some.inj hf]
      decide
    · rw [hreturn f record hf]
      decide
  have hrun' := hrun.tail (.resumed hsecond (fiberResume_eq rfl (by decide) rfl))
  obtain ⟨-, hsuspend, -⟩ := control_discipline hstart hrun'
  obtain ⟨s', hs', hback⟩ := (hsuspend 0x2000#64 rfl 0x8000#64 (by decide)).1 .yield
  exact ⟨_, s', hrun', rfl, hs', hback⟩

end Libuc.Control
