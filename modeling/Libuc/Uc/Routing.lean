import Libuc.Uc.Reactor

/-! Where completions go. The ring is a FIFO of operation addresses, each appended once, and
a record moves from prepared to in flight to complete; this holds of every run. Whom a CQE
resumes is another matter: `handle_completion` resumes the owner wherever it is, so the
owner is where it should be only as long as it keeps waiting for what it has in flight. -/

namespace Libuc

open Lib

namespace SchedulerRing

def BatchFits (ring : SchedulerRing) : Prop := ring.batchCount.toNat ≤ ring.sqEntries.toNat

def Pass.ring : Pass → SchedulerRing
  | .again next => next
  | .done _ next => next

variable {ring next : SchedulerRing}

theorem append_writeSqe {slot : Addr} (hf : ring.BatchFits)
    (h : ring.append = some (slot, next)) (sqe : Sqe) :
    (next.writeSqe slot sqe).staged = ring.staged ++ [sqe] ∧ (next.writeSqe slot sqe).BatchFits := by
  let plain : Ring := { ring.toGeometry with
    batchCount := ring.batchCount, memory := ring.memory, cqHead := ring.cqHead, cqTail := ring.cqTail, cqes := ring.cqes }
  have hagree : plain.Agree ring.descriptor ring := ⟨rfl, rfl, rfl, rfl, rfl, rfl, rfl⟩
  have hplain : plain.BatchFits := hf
  rcases hagree.append hplain with ⟨-, hnone⟩ | ⟨slot', other, next', hother, hsome, hnext, -⟩
  · rw [h] at hnone
    cases hnone
  · rw [h] at hsome
    obtain ⟨rfl, rfl⟩ := Prod.mk.inj (Option.some.inj hsome)
    obtain ⟨hstaged, hfits, -⟩ := Ring.appendSqe_writeSqe hplain hother sqe
    have hwrite := hnext.writeSqe slot sqe
    refine ⟨hwrite.staged.trans hstaged, ?_⟩
    rw [BatchFits, hwrite.batchCount, hwrite.geometry]
    exact hfits

/-- One round hands over a prefix of the batch and keeps the rest. -/
theorem submitPass_staged {result : Long} (hf : ring.BatchFits)
    (ha : Ring.Admits ring.batchCount.toNat result) :
    (ring.submitPass result).ring.staged = ring.staged.drop (Ring.takes result) ∧
      (ring.submitPass result).ring.BatchFits := by
  have hbatch := ring.batchCount.isLt
  by_cases hi : result = Ring.eintr
  · have hpass : ring.submitPass result = .again ring := if_pos hi
    rw [hpass, hi, Ring.takes_of_failed Ring.syscallFailed_eintr]
    exact ⟨rfl, hf⟩
  cases hfail : syscallFailed result with
  | true =>
    have hpass : ring.submitPass result = .done result ring := by
      simp only [submitPass, hi, hfail, if_true, if_false]
    rw [hpass, Ring.takes_of_failed hfail]
    exact ⟨rfl, hf⟩
  | false =>
    have hle : result.toNat ≤ ring.batchCount.toNat := by
      rcases ha with ⟨h₁, h₂⟩ | h₁
      · simp [syscallFailed, h₁, h₂] at hfail
      · exact h₁
    have htakes : Ring.takes result = result.toNat := by
      have hint := Ring.toInt_nonneg_of_le hle hbatch
      rw [Ring.takes, if_neg (by omega)]
    have hsub : (result.setWidth 32).toNat = result.toNat := by
      rw [BitVec.toNat_setWidth, Nat.mod_eq_of_lt (by omega)]
    rw [htakes]
    by_cases hall : result.setWidth 32 = ring.batchCount
    · have hpass : ring.submitPass result = .done result { ring with batchCount := 0#32 } := by
        simp only [submitPass, hi, hfail, hall, if_true, if_false, Bool.false_eq_true]
      have hcount : result.toNat = ring.batchCount.toNat := by rw [← hsub, hall]
      rw [hpass, hcount, List.drop_of_length_le (by rw [staged_length])]
      exact ⟨rfl, Nat.zero_le _⟩
    · have hpass : ring.submitPass result = .again (ring.shiftUnsubmitted (result.setWidth 32)) := by
        simp only [submitPass, hi, hfail, hall, if_false, Bool.false_eq_true]
      rw [hpass, Pass.ring, staged_shiftUnsubmitted ring hf (by omega), hsub]
      refine ⟨rfl, ?_⟩
      have hrest : (ring.batchCount - result.setWidth 32).toNat =
          ring.batchCount.toNat - (result.setWidth 32).toNat :=
        BitVec.toNat_sub_of_le (BitVec.le_def.mpr (by omega))
      unfold BatchFits at hf ⊢
      simp only [shiftUnsubmitted, hrest]
      omega

/-- The whole loop loses no SQE and changes no order. -/
theorem taken_append_staged (minComplete : U32) (answers : List Long) (hf : ring.BatchFits)
    (ha : ring.AdmitsAll answers) :
    ring.taken answers ++ (ring.submit minComplete answers).ring.staged = ring.staged ∧
      (ring.submit minComplete answers).ring.BatchFits := by
  induction answers generalizing ring with
  | nil => exact ⟨rfl, hf⟩
  | cons result answers ih =>
    obtain ⟨hresult, hrest⟩ := ha
    obtain ⟨hstaged, hfits⟩ := submitPass_staged hf hresult
    cases hpass : ring.submitPass result with
    | done value next =>
      rw [hpass, Pass.ring] at hstaged hfits
      simp only [taken, submit, hpass, List.append_nil, hstaged, List.take_append_drop]
      exact ⟨trivial, hfits⟩
    | again next =>
      rw [hpass, Pass.ring] at hstaged hfits
      rw [hpass] at hrest
      obtain ⟨htaken, hfits'⟩ := ih hfits hrest
      simp only [taken, submit, hpass, List.append_assoc, htaken, hstaged, List.take_append_drop]
      exact ⟨trivial, hfits'⟩

end SchedulerRing

namespace Reactor

open State

/-- What holds of every run: the operations taken and those still staged are the ones
appended, in that order and once each, and the records say so. -/
structure Sound (owns : Addr → Addr) (s : State) : Prop where
  fits : s.ring.BatchFits
  queue : s.taken ++ s.ring.staged.map Sqe.userData = s.appended
  once : s.appended.Nodup
  appended : ∀ x, x ∈ s.appended ↔ ∃ op, s.operations x = some op ∧ op.state ≠ .prepared
  owner : ∀ x op, s.operations x = some op → op.state ≠ .prepared → op.owner = owns x
  finished : ∀ x, x ∈ s.finished ↔ stateOf s x = some .complete

variable {owns : Addr → Addr} {s s' mid : State} {i : Input} {f x y : Addr}

/-- A submission: only the ring and what is taken of it change, and possibly the reactor
stops. -/
structure Kept (s mid : State) : Prop where
  operations : mid.operations = s.operations
  received : mid.received = s.received
  latest : mid.latest = s.latest
  appended : mid.appended = s.appended
  finished : mid.finished = s.finished
  wakes : mid.wakes = s.wakes
  queue : mid.taken ++ mid.ring.staged.map Sqe.userData = s.taken ++ s.ring.staged.map Sqe.userData
  fits : mid.ring.BatchFits

theorem Kept.sound (hk : Kept s mid) (h : Sound owns s) : Sound owns mid := by
  refine ⟨hk.fits, ?_, ?_, ?_, ?_, ?_⟩
  · rw [hk.queue, hk.appended]
    exact h.queue
  · rw [hk.appended]
    exact h.once
  · intro x
    rw [hk.appended, hk.operations]
    exact h.appended x
  · intro x op
    rw [hk.operations]
    exact h.owner x op
  · intro x
    rw [hk.finished, stateOf, hk.operations]
    exact h.finished x

theorem Kept.refl (hf : s.ring.BatchFits) : Kept s s := ⟨rfl, rfl, rfl, rfl, rfl, rfl, rfl, hf⟩

theorem Kept.trap (h : Kept s mid) : Kept s mid.trap :=
  ⟨h.operations, h.received, h.latest, h.appended, h.finished, h.wakes, h.queue, h.fits⟩

theorem kept_submit (minComplete : U32) {answers : List Long} (hf : s.ring.BatchFits)
    (ha : s.ring.AdmitsAll answers) :
    Kept s (s.submit minComplete answers) := by
  obtain ⟨hstaged, hfits⟩ := SchedulerRing.taken_append_staged minComplete answers hf ha
  refine ⟨rfl, rfl, rfl, rfl, rfl, rfl, ?_, hfits⟩
  simp only [State.submit]
  rw [List.append_assoc, ← List.map_append, hstaged]

/-- What `handle_next` can do: nothing to the records, or append the one it was given. -/
theorem handleNext_cases {answers : List Long} (hf : s.ring.BatchFits) (ha : s.ring.AdmitsAll answers)
    (h : s.handleNext f x answers = some s') :
    Kept s s' ∨
      ∃ mid op slot ring, Kept s mid ∧ s.operations x = some op ∧ op.state = .prepared ∧
        mid.ring.append = some (slot, ring) ∧ s' = mid.fill f x op slot ring := by
  unfold State.handleNext at h
  split at h
  · obtain rfl := Option.some.inj h
    exact .inl (Kept.refl hf).trap
  rename_i op hop
  split_ifs at h with hstate
  · obtain rfl := Option.some.inj h
    exact .inl (.refl hf)
  have hprepared : op.state = .prepared := not_ne_iff.mp hstate
  split at h
  · rename_i slot ring hslot
    exact .inr ⟨s, op, slot, ring, .refl hf, hop, hprepared, hslot, (Option.some.inj h).symm⟩
  split at h
  · exact absurd h nofun
  have hkept := kept_submit 0#32 hf ha
  simp only at h
  split_ifs at h with hfail
  · obtain rfl := Option.some.inj h
    exact .inl hkept.trap
  split at h
  · obtain rfl := Option.some.inj h
    exact .inl hkept.trap
  · rename_i slot ring hslot
    exact .inr ⟨_, op, slot, ring, hkept, hop, hprepared, hslot, (Option.some.inj h).symm⟩

def Records (s : State) (f : Addr) (result : Result) (s' : State) : Prop :=
  (s'.operations = s.operations ∧ s'.appended = s.appended) ∨
    ∃ x op, result = .suspended (.next x) ∧ s.operations x = some op ∧ op.state = .prepared ∧
      s'.operations = Function.update s.operations x (some { op with owner := f, state := .inFlight }) ∧
      s'.appended = s.appended ++ [x]

structure Resumed (s : State) (f value : Addr) (result : Result) (s' : State) : Prop where
  received : s'.received = Function.update s.received f (some value)
  latest : s'.latest = Function.update s.latest f (some result)
  finished : s'.finished = s.finished
  wakes : s'.wakes = s.wakes
  records : Records s f result s'

/-- The SQE of a prepared operation goes to the end of the queue. -/
theorem Sound.fill {op : Operation} {slot : Addr} {ring : SchedulerRing} (h : Sound owns s)
    (howns : owns x = f) (hop : s.operations x = some op) (hprepared : op.state = .prepared)
    (hslot : s.ring.append = some (slot, ring)) :
    Sound owns (s.fill f x op slot ring) := by
  obtain ⟨hstaged, hfits⟩ := SchedulerRing.append_writeSqe h.fits hslot (op.submission.setUserData x)
  have hnew : x ∉ s.appended := by
    intro hx
    obtain ⟨op', hop', hne⟩ := (h.appended x).mp hx
    rw [hop] at hop'
    rw [← Option.some.inj hop'] at hne
    exact hne hprepared
  refine ⟨hfits, ?_, ?_, ?_, ?_, ?_⟩
  · simp only [State.fill]
    rw [hstaged, List.map_append, ← List.append_assoc, h.queue, List.map_singleton,
      Sqe.userData_setUserData]
  · simp only [State.fill]
    exact h.once.append (List.nodup_singleton x) (List.disjoint_singleton.mpr hnew)
  · intro y
    simp only [State.fill, List.mem_append, List.mem_singleton]
    by_cases hy : y = x
    · subst hy
      simp [Function.update_self]
    · rw [Function.update_of_ne hy, h.appended y]
      simp [hy]
  · intro y op' hop' hne
    simp only [State.fill] at hop'
    by_cases hy : y = x
    · subst hy
      rw [Function.update_self] at hop'
      rw [← Option.some.inj hop']
      exact howns.symm
    · rw [Function.update_of_ne hy] at hop'
      exact h.owner y op' hop' hne
  · intro y
    simp only [State.fill, stateOf]
    by_cases hy : y = x
    · subst hy
      rw [Function.update_self, h.finished y, stateOf, hop, Option.map_some, Option.map_some, hprepared]
      simp
    · rw [Function.update_of_ne hy]
      exact h.finished y

theorem dispatch_spec {value : Addr} {result : Result} {answers : List Long} (h : Sound owns s)
    (ha : s.ring.AdmitsAll answers) (hnames : ∀ x, result = .suspended (.next x) → owns x = f)
    (hd : s.dispatch f value result answers = some s') :
    Sound owns s' ∧ Resumed s f value result s' := by
  have hresume : Sound owns { s with
      received := Function.update s.received f (some value)
      latest := Function.update s.latest f (some result) } :=
    ⟨h.fits, h.queue, h.once, h.appended, h.owner, h.finished⟩
  unfold State.dispatch at hd
  simp only at hd
  split at hd
  · obtain rfl := Option.some.inj hd
    exact ⟨hresume, rfl, rfl, rfl, rfl, .inl ⟨rfl, rfl⟩⟩
  · obtain rfl := Option.some.inj hd
    exact ⟨hresume, rfl, rfl, rfl, rfl, .inl ⟨rfl, rfl⟩⟩
  · rename_i x
    rcases handleNext_cases hresume.fits ha hd with hkept | ⟨mid, op, slot, ring, hkept, hop,
      hprepared, hslot, rfl⟩
    · exact ⟨hkept.sound hresume, hkept.received, hkept.latest, hkept.finished, hkept.wakes,
        .inl ⟨hkept.operations, hkept.appended⟩⟩
    · have hop' : mid.operations x = some op := by
        rw [hkept.operations]
        exact hop
      refine ⟨(hkept.sound hresume).fill (hnames x rfl) hop' hprepared hslot,
        hkept.received, hkept.latest,
        hkept.finished, hkept.wakes, .inr ⟨x, op, rfl, hop, hprepared, ?_, ?_⟩⟩
      · simp only [State.fill, hkept.operations]
      · simp only [State.fill, hkept.appended]

/-- An operation that may get a CQE is in flight, and its record names its owner. -/
theorem Sound.posted (h : Sound owns s) (htaken : x ∈ s.taken) (hlive : x ∉ s.finished) :
    ∃ op, s.operations x = some op ∧ op.state = .inFlight ∧ op.owner = owns x := by
  have hmem : x ∈ s.appended := by
    rw [← h.queue]
    exact List.mem_append_left _ htaken
  obtain ⟨op, hop, hne⟩ := (h.appended x).mp hmem
  refine ⟨op, hop, ?_, h.owner x op hop hne⟩
  cases hstate : op.state with
  | prepared => exact absurd hstate hne
  | inFlight => rfl
  | complete =>
    refine absurd ((h.finished x).mpr ?_) hlive
    rw [stateOf, hop, Option.map_some, hstate]

/-- `handle_completion` before it dispatches. -/
def noted (s : State) (cqe : Cqe) (op : Operation) : State :=
  { s with
    operations := Function.update s.operations cqe.userData (some (completed op cqe))
    finished := if cqe.flags &&& cqeFMore = 0#32 then s.finished ++ [cqe.userData] else s.finished
    wakes := s.wakes ++ [⟨cqe.userData, s.latest op.owner⟩] }

theorem Sound.noted {cqe : Cqe} {op : Operation} (h : Sound owns s)
    (hop : s.operations cqe.userData = some op)
    (hstate : op.state = .inFlight) : Sound owns (noted s cqe op) := by
  have hne : (completed op cqe).state ≠ .prepared := by
    simp only [completed]
    split_ifs
    · decide
    · rw [hstate]
      decide
  have hmem : cqe.userData ∈ s.appended := (h.appended _).mpr ⟨op, hop, by rw [hstate]; decide⟩
  refine ⟨h.fits, h.queue, h.once, ?_, ?_, ?_⟩
  · intro y
    simp only [Reactor.noted]
    by_cases hy : y = cqe.userData
    · subst hy
      rw [Function.update_self]
      exact ⟨fun _ => ⟨_, rfl, hne⟩, fun _ => hmem⟩
    · rw [Function.update_of_ne hy]
      exact h.appended y
  · intro y op' hop' hne'
    simp only [Reactor.noted] at hop'
    by_cases hy : y = cqe.userData
    · subst hy
      rw [Function.update_self] at hop'
      rw [← Option.some.inj hop']
      exact h.owner _ op hop (by rw [hstate]; decide)
    · rw [Function.update_of_ne hy] at hop'
      exact h.owner y op' hop' hne'
  · intro y
    simp only [Reactor.noted, stateOf]
    by_cases hy : y = cqe.userData
    · subst hy
      have hold : cqe.userData ∉ s.finished := by
        rw [h.finished, stateOf, hop, Option.map_some, hstate]
        simp
      rw [Function.update_self, Option.map_some]
      simp only [completed]
      split_ifs with hmore
      · simp
      · rw [hstate]
        simp [hold]
    · rw [Function.update_of_ne hy]
      have hrest := h.finished y
      rw [stateOf] at hrest
      split_ifs with hmore
      · rw [List.mem_append, List.mem_singleton, ← hrest]
        simp [hy]
      · exact hrest

theorem step_cases (h : Sound owns s) (ha : Allowed owns s i) (hs : step s i = some s') :
    Sound owns s' ∧
      ((∃ f value result answers, i = .dispatch f value result answers ∧ Resumed s f value result s') ∨
        (∃ cqe result answers op, i = .completion cqe result answers ∧
          s.operations cqe.userData = some op ∧
          op.state = .inFlight ∧ op.owner = owns cqe.userData ∧
          Resumed (noted s cqe op) op.owner (completionAt cqe.userData) result s') ∨
        ∃ minComplete answers, i = .submit minComplete answers ∧ Kept s s') := by
  cases i with
  | dispatch f value result answers =>
    simp only [step] at hs
    split_ifs at hs
    obtain ⟨hsound, hresumed⟩ :=
      dispatch_spec h ha.answers (fun x hx => (ha.names f x (by rw [← hx]; rfl)).1) hs
    exact ⟨hsound, .inl ⟨f, value, result, answers, rfl, hresumed⟩⟩
  | completion cqe result answers =>
    obtain ⟨htaken, hlive⟩ := ha.posted cqe result answers rfl
    obtain ⟨op, hop, hstate, howner⟩ := h.posted htaken hlive
    simp only [step] at hs
    split_ifs at hs
    simp only [State.handleCompletion, hop] at hs
    have hnames : ∀ x, result = .suspended (.next x) → owns x = op.owner := by
      intro x hx
      refine (ha.names op.owner x ?_).1
      rw [← hx]
      simp only [resumes, hop, Option.map_some]
    obtain ⟨hsound, hresumed⟩ := dispatch_spec (h.noted hop hstate) ha.answers hnames hs
    exact ⟨hsound, .inr (.inl ⟨cqe, result, answers, op, rfl, hop, hstate, howner, hresumed⟩)⟩
  | submit minComplete answers =>
    simp only [step] at hs
    split_ifs at hs
    obtain rfl := Option.some.inj hs
    have hkept := kept_submit minComplete h.fits ha.answers
    exact ⟨hkept.sound h, .inr (.inr ⟨minComplete, answers, rfl, hkept⟩)⟩

theorem initial_sound (h : Initial s) : Sound owns s := by
  obtain ⟨happended, htaken, hfinished, -⟩ := h.history
  have hprepared : ∀ x op, s.operations x = some op → ¬op.state ≠ .prepared :=
    fun x op hop => not_ne_iff.mpr (h.prepared x op hop)
  refine ⟨?_, ?_, ?_, ?_, ?_, ?_⟩
  · rw [SchedulerRing.BatchFits, h.batchCount]
    exact Nat.zero_le _
  · rw [htaken, happended, SchedulerRing.staged, h.batchCount]
    rfl
  · rw [happended]
    exact List.nodup_nil
  · intro x
    rw [happended]
    refine ⟨fun hx => absurd hx List.not_mem_nil, ?_⟩
    rintro ⟨op, hop, hne⟩
    exact absurd hne (hprepared x op hop)
  · exact fun x op hop hne => absurd hne (hprepared x op hop)
  · intro x
    rw [hfinished, stateOf]
    refine ⟨fun hx => absurd hx List.not_mem_nil, fun hx => ?_⟩
    obtain ⟨op, hop, hcomplete⟩ := Option.map_eq_some_iff.mp hx
    have hprep := h.prepared x op hop
    rw [hcomplete] at hprep
    cases hprep

theorem run_sound {condition : State → Input → Prop} (h : Sound owns s)
    (hrun : Run owns condition s s') :
    Sound owns s' := by
  refine keeps_run ?_ h hrun
  rintro s s' hsound ⟨i, ha, -, hs⟩
  exact (step_cases hsound ha hs).1

/-! ### States of a record -/

/-- A resume moves at most the operation it names, from prepared to in flight. -/
theorem Resumed.moves {value : Addr} {result : Result} (h : Resumed s f value result s') (y : Addr) :
    stateOf s' y = stateOf s y ∨
      (stateOf s y = some .prepared ∧ stateOf s' y = some .inFlight ∧
        result = .suspended (.next y)) := by
  rcases h.records with ⟨hoperations, -⟩ | ⟨x, op, hresult, hop, hprepared, hoperations, -⟩
  · rw [stateOf, hoperations]
    exact .inl rfl
  · simp only [stateOf, hoperations]
    by_cases hy : y = x
    · subst hy
      rw [Function.update_self, hop, Option.map_some, Option.map_some, hprepared]
      exact .inr ⟨rfl, rfl, hresult⟩
    · rw [Function.update_of_ne hy]
      exact .inl rfl

theorem stateOf_noted {cqe : Cqe} {op : Operation} (hstate : op.state = .inFlight) (y : Addr) :
    stateOf (noted s cqe op) y =
      if y = cqe.userData then
      some (if cqe.flags &&& cqeFMore = 0#32 then .complete else .inFlight) else stateOf s y := by
  simp only [stateOf, noted]
  by_cases hy : y = cqe.userData
  · subst hy
    rw [Function.update_self, if_pos rfl, Option.map_some]
    simp only [completed, hstate]
  · rw [Function.update_of_ne hy, if_neg hy]

structure Moves (s : State) (i : Input) (s' : State) (x : Addr) : Prop where
  moves : stateOf s' x = stateOf s x ∨ (stateOf s x = some .prepared ∧ stateOf s' x = some .inFlight) ∨
    (stateOf s x = some .inFlight ∧ stateOf s' x = some .complete)
  completes : (stateOf s x ≠ some .complete ∧ stateOf s' x = some .complete) ↔ Ends x i

theorem step_moves (h : Sound owns s) (ha : Allowed owns s i) (hs : step s i = some s') (x : Addr) :
    Moves s i s' x := by
  rcases (step_cases h ha hs).2 with ⟨f, value, result, answers, rfl, hresumed⟩ |
    ⟨cqe, result, answers, op, rfl, hop, hstate, -, hresumed⟩ | ⟨minComplete, answers, rfl, hkept⟩
  · have hends : ¬Ends x (.dispatch f value result answers) := by
      rintro ⟨_, _, _, hi, -⟩
      cases hi
    rcases hresumed.moves x with hsame | ⟨hbefore, hafter, -⟩
    · exact ⟨.inl hsame, fun ⟨hne, he⟩ => absurd (hsame.symm.trans he) hne, fun he => absurd he hends⟩
    · refine ⟨.inr (.inl ⟨hbefore, hafter⟩), fun ⟨_, he⟩ => ?_, fun he => absurd he hends⟩
      rw [hafter] at he
      cases he
  · have hbefore : stateOf s cqe.userData = some .inFlight := by
      rw [stateOf, hop, Option.map_some, hstate]
    have hnoted : stateOf (noted s cqe op) x = _ := stateOf_noted hstate x
    by_cases hx : x = cqe.userData
    · subst hx
      rw [if_pos rfl] at hnoted
      have hafter : stateOf s' cqe.userData = stateOf (noted s cqe op) cqe.userData := by
        rcases hresumed.moves cqe.userData with hsame | ⟨hprepared, -, -⟩
        · exact hsame
        · rw [hnoted] at hprepared
          split_ifs at hprepared <;> cases hprepared
      rw [hnoted] at hafter
      by_cases hmore : cqe.flags &&& cqeFMore = 0#32
      · rw [if_pos hmore] at hafter
        refine ⟨.inr (.inr ⟨hbefore, hafter⟩), fun _ => ⟨cqe, result, answers, rfl, rfl, hmore⟩,
          fun _ => ⟨?_, hafter⟩⟩
        rw [hbefore]
        simp
      · rw [if_neg hmore] at hafter
        refine ⟨.inl (hafter.trans hbefore.symm), fun ⟨_, he⟩ => ?_, ?_⟩
        · rw [hafter] at he
          cases he
        · rintro ⟨_, _, _, hi, -, hfinal⟩
          cases hi
          exact absurd hfinal hmore
    · rw [if_neg hx] at hnoted
      have hends : ¬Ends x (.completion cqe result answers) := by
        rintro ⟨_, _, _, hi, hx', -⟩
        cases hi
        exact hx hx'.symm
      rcases hresumed.moves x with hsame | ⟨hprepared, hafter, -⟩
      · rw [hnoted] at hsame
        exact ⟨.inl hsame, fun ⟨hne, he⟩ => absurd (hsame.symm.trans he) hne, fun he => absurd he hends⟩
      · rw [hnoted] at hprepared
        refine ⟨.inr (.inl ⟨hprepared, hafter⟩), fun ⟨_, he⟩ => ?_, fun he => absurd he hends⟩
        rw [hafter] at he
        cases he
  · have hsame : stateOf s' x = stateOf s x := by rw [stateOf, hkept.operations, stateOf]
    refine ⟨.inl hsame, fun ⟨hne, he⟩ => absurd (hsame.symm.trans he) hne, ?_⟩
    rintro ⟨_, _, _, hi, -⟩
    cases hi

/-! ### Whom a completion resumes -/

/-- A CQE is written into the record of its operation, and the owner is resumed with the
record, whatever it waits for. -/
structure Delivers (owns : Addr → Addr) (s : State) (cqe : Cqe) (result : Result) (s' : State) :
    Prop where
  completion : (s'.operations cqe.userData).map Operation.completion = some ⟨cqe.res, cqe.flags⟩
  received : s'.received = Function.update s.received (owns cqe.userData)
    (some (completionAt cqe.userData))
  latest : s'.latest = Function.update s.latest (owns cqe.userData) (some result)
  wakes : s'.wakes = s.wakes ++ [⟨cqe.userData, s.latest (owns cqe.userData)⟩]

theorem step_delivers {cqe : Cqe} {result : Result} {answers : List Long} (h : Sound owns s)
    (ha : Allowed owns s (.completion cqe result answers))
    (hs : step s (.completion cqe result answers) = some s') :
    Delivers owns s cqe result s' := by
  rcases (step_cases h ha hs).2 with ⟨f, value, result', answers', hi, -⟩ |
    ⟨cqe', result', answers', op, hi, hop, hstate, howner, hresumed⟩ | ⟨minComplete, answers', hi, -⟩
  · cases hi
  · cases hi
    refine ⟨?_, by rw [hresumed.received, howner]; rfl, by rw [hresumed.latest, howner]; rfl, by
      rw [hresumed.wakes, ← howner]; rfl⟩
    have hnoted : (noted s cqe op).operations cqe.userData = some (completed op cqe) :=
      Function.update_self _ _ _
    rcases hresumed.records with ⟨hoperations, -⟩ | ⟨x, op', -, hop', hprepared, hoperations, -⟩
    · rw [hoperations, hnoted]
      rfl
    · -- the operation that the owner asks for next is a prepared one, so another
      have hne : cqe.userData ≠ x := by
        rintro rfl
        rw [hnoted] at hop'
        rw [← Option.some.inj hop', completed, hstate] at hprepared
        simp only at hprepared
        split_ifs at hprepared
      rw [hoperations, Function.update_of_ne hne, hnoted]
      rfl
  · cases hi

def Waiting (owns : Addr → Addr) (s : State) : Prop :=
  ∀ x, stateOf s x = some .inFlight → s.latest (owns x) = some (.suspended (.next x))

/-- After a resume that keeps to the discipline. -/
theorem Resumed.waiting {value : Addr} {result : Result} (h : Resumed s f value result s')
    (hothers : ∀ x, stateOf s x = some .inFlight → owns x ≠ f →
      s.latest (owns x) = some (.suspended (.next x)))
    (hown : ∀ x, stateOf s x = some .inFlight → owns x = f → result = .suspended (.next x))
    (hnames : ∀ x, result = .suspended (.next x) → owns x = f) : Waiting owns s' := by
  intro x hx
  rw [h.latest]
  rcases h.moves x with hsame | ⟨-, -, hresult⟩
  · rw [hsame] at hx
    by_cases hf : owns x = f
    · rw [hf, Function.update_self, hown x hx hf]
    · rw [Function.update_of_ne hf]
      exact hothers x hx hf
  · rw [hnames x hresult, Function.update_self, hresult]

theorem step_waiting (h : Sound owns s) (hw : Waiting owns s) (hrule : WakeRule s)
    (ha : Allowed owns s i)
    (hd : Disciplined owns s i) (hs : step s i = some s') : Waiting owns s' ∧ WakeRule s' := by
  rcases (step_cases h ha hs).2 with ⟨f, value, result, answers, rfl, hresumed⟩ |
    ⟨cqe, result, answers, op, rfl, hop, hstate, howner, hresumed⟩ | ⟨minComplete, answers, rfl, hkept⟩
  · refine ⟨hresumed.waiting (fun x hx _ => hw x hx) (fun x hx hf => ?_) fun x hx => ?_, ?_⟩
    · refine hd f result rfl x hf hx ?_
      rintro ⟨_, _, _, hi, -⟩
      cases hi
    · exact (ha.names f x (by rw [← hx]; rfl)).1
    · rw [WakeRule, hresumed.wakes]
      exact hrule
  · have hresumes : resumes s (.completion cqe result answers) = some (op.owner, result) := by
      simp only [resumes, hop, Option.map_some]
    have hcurrent : stateOf s cqe.userData = some .inFlight := by
      rw [stateOf, hop, Option.map_some, hstate]
    -- an operation in flight after the CQE was so before, and is not ended by it
    have hbefore : ∀ x, stateOf (noted s cqe op) x = some .inFlight →
        stateOf s x = some .inFlight ∧ ¬Ends x (.completion cqe result answers) := by
      intro x hx
      rw [stateOf_noted hstate] at hx
      split_ifs at hx with hxe hmore
      · cases hx
      · subst hxe
        refine ⟨hcurrent, ?_⟩
        rintro ⟨_, _, _, hi, -, hfinal⟩
        cases hi
        exact hmore hfinal
      · refine ⟨hx, ?_⟩
        rintro ⟨_, _, _, hi, hx', -⟩
        cases hi
        exact hxe hx'.symm
    refine ⟨hresumed.waiting (fun x hx _ => hw x (hbefore x hx).1) (fun x hx hf => ?_)
      fun x hx => ?_, ?_⟩
    · exact hd op.owner result hresumes x hf (hbefore x hx).1 (hbefore x hx).2
    · exact (ha.names op.owner x (by rw [← hx]; exact hresumes)).1
    · intro w hwake
      rw [hresumed.wakes] at hwake
      rcases List.mem_append.mp hwake with hold | hnew
      · exact hrule w hold
      · rw [List.mem_singleton.mp hnew]
        simp only
        rw [howner]
        exact hw cqe.userData hcurrent
  · refine ⟨fun x hx => ?_, ?_⟩
    · rw [stateOf, hkept.operations] at hx
      rw [hkept.latest]
      exact hw x hx
    · rw [WakeRule, hkept.wakes]
      exact hrule

theorem run_waiting (h : Sound owns s) (hw : Waiting owns s) (hrule : WakeRule s)
    (hrun : Run owns (Disciplined owns) s s') : Waiting owns s' ∧ WakeRule s' := by
  induction hrun with
  | refl => exact ⟨hw, hrule⟩
  | tail hbefore hstep ih =>
    obtain ⟨i, ha, hd, hs⟩ := hstep
    exact step_waiting (run_sound h hbefore) ih.1 ih.2 ha hd hs

/-! ### A fiber that looks away -/

theorem submit_all (ring : SchedulerRing) (minComplete : U32) :
    ring.AdmitsAll [ring.batchCount.setWidth 64] ∧
    ring.taken [ring.batchCount.setWidth 64] = ring.staged ∧
      (ring.submit minComplete [ring.batchCount.setWidth 64]).result =
        some (ring.batchCount.setWidth 64) := by
  have hlt := ring.batchCount.isLt
  have hnat : (ring.batchCount.setWidth 64).toNat = ring.batchCount.toNat := by
    rw [BitVec.toNat_setWidth, Nat.mod_eq_of_lt (by omega)]
  have hint : (ring.batchCount.setWidth 64).toInt = ring.batchCount.toNat := by
    rw [BitVec.toInt_eq_toNat_of_lt (by omega), hnat]
  have hok : syscallFailed (ring.batchCount.setWidth 64) = false := by
    have hneg : ¬(ring.batchCount.setWidth 64).toInt < 0 := by omega
    simp only [syscallFailed, hneg, decide_false, Bool.false_and]
  have hne : ring.batchCount.setWidth 64 ≠ Ring.eintr := by
    intro he
    rw [he, Ring.syscallFailed_eintr] at hok
    cases hok
  have hback : (ring.batchCount.setWidth 64).setWidth 32 = ring.batchCount := by
    rw [← BitVec.toNat_inj, BitVec.toNat_setWidth, hnat, Nat.mod_eq_of_lt hlt]
  have hpass : ring.submitPass (ring.batchCount.setWidth 64) =
      .done (ring.batchCount.setWidth 64) { ring with batchCount := 0#32 } := by
    simp only [SchedulerRing.submitPass, hne, hok, hback, if_true, if_false, Bool.false_eq_true]
  have htakes : Ring.takes (ring.batchCount.setWidth 64) = ring.batchCount.toNat := by
    rw [Ring.takes, if_neg (by omega), hnat]
  refine ⟨⟨.inr hnat.le, ?_⟩, ?_, ?_⟩
  · simp only [hpass]
  · simp only [SchedulerRing.taken, hpass, htakes, List.append_nil]
    rw [← SchedulerRing.staged_length, List.take_length]
  · simp only [SchedulerRing.submit, hpass]

/-- As soon as the owner of an operation in flight waits for something else, the next CQE
of the operation finds it there. -/
theorem wakeRule_breaks (h : Sound owns s) (hstopped : s.stopped = false)
    (hx : stateOf s x = some .inFlight)
    (hlatest : s.latest (owns x) ≠ some (.suspended (.next x))) :
    ∃ s', Run owns (fun _ _ => True) s s' ∧ ¬WakeRule s' := by
  obtain ⟨op, hop, hstate⟩ := Option.map_eq_some_iff.mp hx
  have hne : op.state ≠ .prepared := by
    rw [hstate]
    decide
  have howner := h.owner x op hop hne
  obtain ⟨hadmits, htaken, hresult⟩ := submit_all s.ring 0#32
  let answer : List Long := [s.ring.batchCount.setWidth 64]
  -- the ring is submitted, so that the kernel has taken `x`
  have hsubmit : Step owns (fun _ _ => True) s (s.submit 0#32 answer) := by
    refine ⟨.submit 0#32 answer, ⟨fun f y hf => ?_, hadmits, fun _ _ _ hi => ?_⟩, trivial, ?_⟩
    · cases hf
    · cases hi
    · simp only [step, answer, hstopped, hresult, Bool.false_eq_true, if_false, reduceCtorEq]
  have hmem : x ∈ (s.submit 0#32 answer).taken := by
    have hall : (s.submit 0#32 answer).taken = s.appended := by
      simp only [State.submit, answer, htaken]
      exact h.queue
    rw [hall]
    exact (h.appended x).mpr ⟨op, hop, hne⟩
  have hlive : x ∉ (s.submit 0#32 answer).finished := by
    intro hfin
    have hcomplete := (h.finished x).mp hfin
    rw [hx] at hcomplete
    cases hcomplete
  have hcqe : Step owns (fun _ _ => True) (s.submit 0#32 answer)
      { noted (s.submit 0#32 answer) ⟨x, 0#32, 0#32⟩ op with
        received := Function.update s.received op.owner (some (completionAt x))
        latest := Function.update s.latest op.owner (some (.suspended .yield)) } := by
    have hop' : (s.submit 0#32 answer).operations x = some op := hop
    have hstopped' : (s.submit 0#32 answer).stopped = false := hstopped
    refine ⟨.completion ⟨x, 0#32, 0#32⟩ (.suspended .yield) [],
      ⟨fun f y hf => ?_, trivial, fun cqe result answers hi => ?_⟩,
      trivial, ?_⟩
    · simp only [resumes, hop', Option.map_some, Option.some.injEq, Prod.mk.injEq] at hf
      exact absurd hf.2 nofun
    · cases hi
      exact ⟨hmem, hlive⟩
    · simp only [step, noted, hstopped', State.handleCompletion, hop', State.dispatch,
        Bool.false_eq_true, if_false]
      rfl
  refine ⟨_, (Relation.ReflTransGen.single hsubmit).tail hcqe, fun hrule => hlatest ?_⟩
  have hwake := hrule ⟨x, s.latest op.owner⟩ (List.mem_append_right _ (List.mem_singleton_self _))
  rw [howner] at hwake
  exact hwake

/-- A call that breaks the discipline leaves an operation in flight that nobody waits for. -/
theorem undisciplined_unawaited (h : Sound owns s) (ha : Allowed owns s i) (hs : step s i = some s')
    (hd : ¬Disciplined owns s i) :
    ∃ x, stateOf s' x = some .inFlight ∧ s'.latest (owns x) ≠ some (.suspended (.next x)) := by
  unfold Disciplined at hd
  push Not at hd
  obtain ⟨f, result, hresumes, x, howns, hx, hends, hresult⟩ := hd
  have hmoves := step_moves h ha hs x
  have hafter : stateOf s' x = some .inFlight := by
    rcases hmoves.moves with hsame | ⟨hprepared, -⟩ | ⟨-, hcomplete⟩
    · exact hsame.trans hx
    · rw [hx] at hprepared
      cases hprepared
    · refine absurd (hmoves.completes.mp ⟨?_, hcomplete⟩) hends
      rw [hx]
      simp
  have hlatest : s'.latest f = some result := by
    rcases (step_cases h ha hs).2 with ⟨f', value, result', answers, rfl, hresumed⟩ |
      ⟨cqe, result', answers, op, rfl, hop, -, -, hresumed⟩ | ⟨minComplete, answers, rfl, -⟩
    · cases hresumes
      rw [hresumed.latest, Function.update_self]
    · simp only [resumes, hop, Option.map_some, Option.some.injEq, Prod.mk.injEq] at hresumes
      obtain ⟨rfl, rfl⟩ := hresumes
      rw [hresumed.latest, Function.update_self]
    · cases hresumes
  refine ⟨x, hafter, fun hwait => hresult ?_⟩
  rw [howns, hlatest] at hwait
  exact Option.some.inj hwait

/-- Completion routing. In every run an operation is appended at most once and its record
moves from prepared to in flight to complete, to complete exactly at the CQE without
`F_MORE`; and every CQE is written into its record and resumes the owner with it, wherever
the owner is. In every run whose fibers keep waiting for what they have in flight, that is
where the owner waits for this operation. Once a fiber does otherwise, the kernel can make
a completion resume it where it is not waiting. -/
theorem completion_routing (owns : Addr → Addr) (s₀ : State) (h₀ : Initial s₀) :
    (∀ s, Run owns (fun _ _ => True) s₀ s →
      s.appended.Nodup ∧ (∀ x, x ∈ s.appended ↔ ∃ op, s.operations x = some op ∧ op.state ≠ .prepared) ∧
        ∀ i s', Allowed owns s i → step s i = some s' → ∀ x, Moves s i s' x) ∧
    (∀ s, Run owns (Disciplined owns) s₀ s → WakeRule s) ∧
    (∀ s i s', Run owns (fun _ _ => True) s₀ s → Allowed owns s i → step s i = some s' →
      s'.stopped = false → ¬Disciplined owns s i →
      ∃ s'', Run owns (fun _ _ => True) s' s'' ∧ ¬WakeRule s'') ∧
    ∀ s cqe result answers s', Run owns (fun _ _ => True) s₀ s →
      Allowed owns s (.completion cqe result answers) →
      step s (.completion cqe result answers) = some s' → Delivers owns s cqe result s' := by
  have hsound : Sound owns s₀ := initial_sound h₀
  refine ⟨fun s hrun => ?_, fun s hrun => ?_, fun s i s' hrun ha hs hstopped hd => ?_,
    fun s cqe result answers s' hrun ha hs => step_delivers (run_sound hsound hrun) ha hs⟩
  · have h := run_sound hsound hrun
    exact ⟨h.once, h.appended, fun i s' ha hs x => step_moves h ha hs x⟩
  · have hwaiting : Waiting owns s₀ := by
      intro x hx
      obtain ⟨op, hop, hstate⟩ := Option.map_eq_some_iff.mp hx
      have hprepared := h₀.prepared x op hop
      rw [hstate] at hprepared
      cases hprepared
    have hrule : WakeRule s₀ := by
      intro w hw
      rw [h₀.history.2.2.2] at hw
      exact absurd hw List.not_mem_nil
    exact (run_waiting hsound hwaiting hrule hrun).2
  · have h := run_sound hsound hrun
    obtain ⟨x, hx, hlatest⟩ := undisciplined_unawaited h ha hs hd
    exact wakeRule_breaks (step_cases h ha hs).1 hstopped hx hlatest

/-! ### Two runs -/

/-- One multishot operation at `0x1000`, owned by the fiber at `0x2000`. -/
def sampleState : State where
  ring := { Geometry.small with
    descriptor := 3#32, batchCount := 0#32, memory := fun _ => 0#8, cqHead := 0#32, cqTail := 0#32,
    cqes := fun _ => ⟨0#64, 0#32, 0#32⟩ }
  operations :=
    fun x => if x = 0x1000#64 then some ⟨0#64, fun _ => 0#8, ⟨0#32, 0#32⟩, .prepared⟩ else none
  received := fun _ => none
  latest := fun _ => none
  stopped := false
  appended := []
  taken := []
  finished := []
  wakes := []

def sampleOwns : Addr → Addr := fun _ => 0x2000#64

theorem sampleState_initial : Initial sampleState := by
  refine ⟨rfl, fun x op hop => ?_, fun _ => rfl, rfl, ⟨rfl, rfl, rfl, rfl⟩⟩
  simp only [sampleState] at hop
  split_ifs at hop
  obtain rfl := Option.some.inj hop
  rfl

def after (s : State) (i : Input) : State := (step s i).getD s

/-- The fiber asks for the operation, and the ring is submitted. -/
def sampleTaken : State :=
  after (after sampleState (.dispatch 0x2000#64 0#64 (.suspended (.next 0x1000#64)) []))
    (.submit 1#32 [1#64])

/-- A CQE with `F_MORE`. -/
def sampleCqe : Cqe := ⟨0x1000#64, 1#32, 2#32⟩

theorem after_eq {i : Input} (h : (step s i).isSome = true) : step s i = some (after s i) := by
  obtain ⟨next, hnext⟩ := Option.isSome_iff_exists.mp h
  rw [after, hnext, Option.getD_some]

theorem allowed_completion (hop : ∀ op, s.operations 0x1000#64 = some op → op.owner = 0x2000#64)
    (hsome : (s.operations 0x1000#64).isSome = true) (htaken : 0x1000#64 ∈ s.taken)
    (hlive : 0x1000#64 ∉ s.finished)
    {result : Result} (hresult : ∀ x, result = .suspended (.next x) → x = 0x1000#64) :
    Allowed sampleOwns s (.completion sampleCqe result []) := by
  refine ⟨fun f x hf => ?_, trivial, fun cqe result answers hi => ?_⟩
  · obtain ⟨op, hop', hpair⟩ := Option.map_eq_some_iff.mp hf
    obtain ⟨rfl, hnext⟩ := Prod.mk.inj hpair
    rw [hresult x hnext]
    exact ⟨(hop op hop').symm, hsome⟩
  · cases hi
    exact ⟨htaken, hlive⟩

/-- Both runs start so; nothing is in flight before, so there is nothing to wait for. -/
theorem sampleTaken_run : Run sampleOwns (Disciplined sampleOwns) sampleState sampleTaken := by
  have hdispatch : Step sampleOwns (Disciplined sampleOwns) sampleState
      (after sampleState (.dispatch 0x2000#64 0#64 (.suspended (.next 0x1000#64)) [])) := by
    refine ⟨.dispatch 0x2000#64 0#64 (.suspended (.next 0x1000#64)) [],
      ⟨fun f x hf => ?_, trivial, fun _ _ _ hi => by cases hi⟩, ?_, after_eq rfl⟩
    · cases hf
      exact ⟨rfl, rfl⟩
    · intro f result hf x howns hx
      obtain ⟨op, hop, hstate⟩ := Option.map_eq_some_iff.mp hx
      have hprepared := sampleState_initial.prepared x op hop
      rw [hstate] at hprepared
      cases hprepared
  have hsubmit : Step sampleOwns (Disciplined sampleOwns)
      (after sampleState (.dispatch 0x2000#64 0#64 (.suspended (.next 0x1000#64)) [])) sampleTaken := by
    refine ⟨.submit 1#32 [1#64], ⟨fun f x hf => ?_, ⟨.inr (by decide), trivial⟩,
      fun _ _ _ hi => by cases hi⟩, ?_, after_eq rfl⟩
    · cases hf
    · intro f result hf
      cases hf
  exact (Relation.ReflTransGen.single hdispatch).tail hsubmit

theorem sampleTaken_owner (op : Operation) (h : sampleTaken.operations 0x1000#64 = some op) :
    op.owner = 0x2000#64 := by
  obtain rfl := Option.some.inj h
  rfl

/-- The fiber yields when it is given the first CQE; the second one resumes it all the
same. -/
theorem completion_resumes_yielded_fiber :
    Initial sampleState ∧ ∃ s, Run sampleOwns (fun _ _ => True) sampleState s ∧ ¬WakeRule s := by
  let yielded := after sampleTaken (.completion sampleCqe (.suspended .yield) [])
  have hyield : ∀ x, Result.suspended .yield = .suspended (.next x) → x = 0x1000#64 := by
    intro x hx
    cases hx
  have hfirst : Step sampleOwns (fun _ _ => True) sampleTaken yielded :=
    ⟨_, allowed_completion sampleTaken_owner rfl (by decide) (by decide) hyield, trivial, after_eq rfl⟩
  have howner : ∀ op, yielded.operations 0x1000#64 = some op → op.owner = 0x2000#64 := by
    intro op h
    obtain rfl := Option.some.inj h
    rfl
  have hsecond : Step sampleOwns (fun _ _ => True) yielded
      (after yielded (.completion sampleCqe (.suspended .yield) [])) :=
    ⟨_, allowed_completion howner rfl (by decide) (by decide) hyield, trivial, after_eq rfl⟩
  have hstart : Run sampleOwns (fun _ _ => True) sampleState sampleTaken :=
    sampleTaken_run.lift id fun _ _ ⟨i, ha, _, hs⟩ => ⟨i, ha, trivial, hs⟩
  refine ⟨sampleState_initial, _, (hstart.tail hfirst).tail hsecond, fun hrule => ?_⟩
  have hwake := hrule ⟨0x1000#64, some (.suspended .yield)⟩
      (List.mem_append_right _ (List.mem_singleton_self _))
  cases hwake

/-- A fiber that goes on waiting is resumed where it waits, with the CQE in the record. -/
theorem completion_routing_sample :
    Initial sampleState ∧ ∃ s, Run sampleOwns (Disciplined sampleOwns) sampleState s ∧
    s.wakes.length = 1 ∧ WakeRule s ∧
      Delivers sampleOwns sampleTaken sampleCqe (.suspended (.next 0x1000#64)) s := by
  have hrouting := completion_routing sampleOwns sampleState sampleState_initial
  have hsound : Sound sampleOwns sampleTaken :=
    run_sound (initial_sound sampleState_initial) sampleTaken_run
  have hallowed :
      Allowed sampleOwns sampleTaken (.completion sampleCqe (.suspended (.next 0x1000#64)) []) := by
    refine allowed_completion sampleTaken_owner rfl (by decide) (by decide) fun x hx => ?_
    cases hx
    rfl
  have hstep : Step sampleOwns (Disciplined sampleOwns) sampleTaken
      (after sampleTaken (.completion sampleCqe (.suspended (.next 0x1000#64)) [])) := by
    refine ⟨_, hallowed, ?_, after_eq rfl⟩
    · intro f result hf x howns hx hends
      obtain ⟨op, hop, hstate⟩ := Option.map_eq_some_iff.mp hx
      have hmem : x ∈ sampleTaken.appended := (hsound.appended x).mpr ⟨op, hop, by rw [hstate]; decide⟩
      obtain rfl : x = 0x1000#64 := List.mem_singleton.mp hmem
      cases hf
      rfl
  have hrun := sampleTaken_run.tail hstep
  have htaken : Run sampleOwns (fun _ _ => True) sampleState sampleTaken :=
    sampleTaken_run.lift id fun _ _ ⟨i, ha, _, hs⟩ => ⟨i, ha, trivial, hs⟩
  exact ⟨sampleState_initial, _, hrun, rfl, hrouting.2.1 _ hrun,
    hrouting.2.2.2 _ _ _ _ _ htaken hallowed (after_eq rfl)⟩

end Reactor

end Libuc
