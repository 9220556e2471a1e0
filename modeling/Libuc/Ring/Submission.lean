import Libuc.Lib.Runs
import Libuc.Ring.Basic

/-! The submission side as a FIFO queue. A round of the submit loop drops from
the batch exactly the SQEs the kernel took, whichever way it answers; the whole
loop therefore hands over a prefix and leaves the rest, in order, from slot zero
on. The short case rests on `memmove` over overlapping slots. -/

namespace Libuc.Ring

open Lib

def BatchFits (ring : Ring) : Prop := ring.batchCount.toNat ≤ ring.sqEntries.toNat

/-- `next` differs from `ring` in the SQE memory and the batch count only. -/
structure SubmitOnly (ring next : Ring) : Prop where
  geometry : next.toGeometry = ring.toGeometry
  cqHead : next.cqHead = ring.cqHead
  cqTail : next.cqTail = ring.cqTail
  cqes : next.cqes = ring.cqes

theorem SubmitOnly.refl (ring : Ring) : SubmitOnly ring ring := ⟨rfl, rfl, rfl, rfl⟩

theorem SubmitOnly.trans {a b c : Ring} (h : SubmitOnly a b) (h' : SubmitOnly b c) : SubmitOnly a c :=
  ⟨h'.geometry.trans h.geometry, h'.cqHead.trans h.cqHead, h'.cqTail.trans h.cqTail,
    h'.cqes.trans h.cqes⟩

theorem SubmitOnly.unreaped {ring next : Ring} (h : SubmitOnly ring next) {q : List Cqe}
    (hq : ring.Unreaped q) : next.Unreaped q := by
  rw [Unreaped, h.geometry, h.cqHead, h.cqTail, h.cqes]
  exact hq

@[simp] theorem staged_length (ring : Ring) : ring.staged.length = ring.batchCount.toNat := by
  simp [staged]

theorem staged_getElem (ring : Ring) {i : ℕ} (hi : i < ring.staged.length) :
    ring.staged[i] = slot ring.memory ring.sqes 64 i := by
  simp [staged]

theorem staged_eq_nil {ring : Ring} (h : ring.batchCount = 0#32) : ring.staged = [] := by
  simp [staged, h]

theorem slots_le (ring : Ring) : 64 * ring.sqEntries.toNat ≤ 2 ^ 64 := by
  have := ring.sqes_fit
  omega

/-! ### Appending -/

theorem appendSqe_eq_none (ring : Ring) : ring.appendSqe = none ↔ ring.batchCount = ring.sqEntries := by
  simp [appendSqe]

/-- An appended slot, once filled, is the last SQE of the batch. -/
theorem appendSqe_writeSqe {ring next : Ring} {slot : Addr} (hf : ring.BatchFits)
    (h : ring.appendSqe = some (slot, next)) (sqe : Sqe) :
    (next.writeSqe slot sqe).staged = ring.staged ++ [sqe] ∧
      (next.writeSqe slot sqe).BatchFits ∧ SubmitOnly ring (next.writeSqe slot sqe) := by
  unfold appendSqe at h
  split_ifs at h with hfull
  simp only [Option.some.injEq, Prod.mk.injEq] at h
  obtain ⟨rfl, rfl⟩ := h
  have hlt : ring.batchCount.toNat < ring.sqEntries.toNat :=
    lt_of_le_of_ne hf fun he => hfull (BitVec.eq_of_toNat_eq he)
  have hcount : (ring.batchCount + 1#32).toNat = ring.batchCount.toNat + 1 :=
    toNat_succ (by have := ring.sqEntries.isLt; omega)
  refine ⟨?_, ?_, ⟨rfl, rfl, rfl, rfl⟩⟩
  · apply List.ext_getElem
    · simp only [staged_length, writeSqe, hcount, List.length_append, List.length_singleton]
    · intro i h₁ h₂
      simp only [staged_length, writeSqe, hcount] at h₁
      rw [staged_getElem]
      simp only [writeSqe, sqeAt]
      by_cases hi : i < ring.batchCount.toNat
      · rw [slot_store_ne _ _ ring.slots_le hlt (by omega) (by omega),
          slot_store_ne _ _ ring.slots_le hlt (by omega) (by omega),
          List.getElem_append_left (by simpa using hi), staged_getElem]
      · have he : i = ring.batchCount.toNat := by omega
        subst he
        rw [slot_store_self _ _ ring.slots_le hlt, List.getElem_append_right (by simp)]
        simp
  · simp only [BatchFits, writeSqe, hcount]
    omega

/-! ### One round of the submit loop -/

theorem toInt_nonneg_of_le {result : Long} {n : ℕ} (h : result.toNat ≤ n) (hn : n < 2 ^ 32) :
    result.toInt = result.toNat :=
  BitVec.toInt_eq_toNat_of_lt (by omega)

theorem takes_of_failed {result : Long} (h : syscallFailed result = true) : takes result = 0 := by
  simp only [syscallFailed, Bool.and_eq_true, decide_eq_true_eq] at h
  simp [takes, h.1]

theorem syscallFailed_eintr : syscallFailed eintr = true := by decide

/-- An answer that is not an error number counts the SQEs taken. -/
theorem Answers.of_not_failed {batch : ℕ} {result : Long} (hb : batch < 2 ^ 32)
    (h : Answers batch result) (hok : syscallFailed result = false) :
    result.toNat ≤ batch ∧ (0 < batch → 0 < result.toNat) ∧ takes result = result.toNat := by
  rcases h with ⟨h1, h2⟩ | ⟨h1, h2⟩
  · simp [syscallFailed, h1, h2] at hok
  · refine ⟨h1, h2, ?_⟩
    have h0 := toInt_nonneg_of_le h1 hb
    have : ¬ result.toInt < 0 := by omega
    simp only [takes, this, ↓reduceIte]

/-- A count below the batch moves the remainder down to slot zero. -/
theorem submitPass_short {ring : Ring} {result : Long} (hf : ring.BatchFits)
    (hok : syscallFailed result = false) (hlt : result.toNat < ring.batchCount.toNat) :
    ∃ next, ring.submitPass result = .again next ∧ next.BatchFits ∧ SubmitOnly ring next ∧
      next.batchCount = ring.batchCount - result.setWidth 32 ∧
      next.batchCount.toNat = ring.batchCount.toNat - result.toNat ∧
      next.staged = ring.staged.drop result.toNat := by
  have hbatch := ring.batchCount.isLt
  have hi : result ≠ eintr := by
    rintro rfl
    rw [syscallFailed_eintr] at hok
    cases hok
  have hsub : (result.setWidth 32).toNat = result.toNat := by
    rw [BitVec.toNat_setWidth, Nat.mod_eq_of_lt (by omega)]
  have hall : result.setWidth 32 ≠ ring.batchCount := by
    intro he
    rw [he] at hsub
    omega
  have hrest : (ring.batchCount - result.setWidth 32).toNat =
      ring.batchCount.toNat - result.toNat := by
    rw [BitVec.toNat_sub_of_le (by rw [BitVec.le_def, hsub]; omega), hsub]
  have hlen : ((ring.batchCount - result.setWidth 32).setWidth 64 * 64#64).toNat =
      64 * (ring.batchCount.toNat - result.toNat) := by
    rw [BitVec.toNat_mul, BitVec.toNat_setWidth, hrest, BitVec.toNat_ofNat,
      Nat.mod_eq_of_lt (a := ring.batchCount.toNat - result.toNat) (by omega), mul_comm]
    exact Nat.mod_eq_of_lt (by omega)
  refine ⟨{ ring with
    memory := (String.memmove ring.memory ring.sqes (ring.sqeAt (result.setWidth 32))
      ((ring.batchCount - result.setWidth 32).setWidth 64 * 64#64)).1
    batchCount := ring.batchCount - result.setWidth 32 }, ?_, ?_, ⟨rfl, rfl, rfl, rfl⟩, rfl, hrest, ?_⟩
  · simp only [submitPass, hi, hok, hall, ↓reduceIte, Bool.false_eq_true]
  · simp only [BatchFits] at hf ⊢
    omega
  · have hfit := ring.sqes_fit
    have hb : ring.batchCount.toNat ≤ ring.sqEntries.toNat := hf
    have hsrc : (ring.sqeAt (result.setWidth 32)).toNat = ring.sqes.toNat + 64 * result.toNat := by
      rw [sqeAt, hsub, toNat_add_of_fits (by omega)]
    rw [String.memmove_eq_moved _ (by omega) (by omega), hlen]
    apply List.ext_getElem
    · simp only [staged_length, hrest, List.length_drop]
    · intro i h₁ h₂
      simp only [staged_length, hrest] at h₁
      rw [staged_getElem, List.getElem_drop, staged_getElem]
      simp only [sqeAt, hsub]
      exact slot_moved _ _ ring.slots_le (by omega) h₁

/-- What one round can do. Only the last two cases take anything: the whole
batch, or a proper part of it with the remainder moved down. -/
theorem submitPass_cases {ring : Ring} {result : Long} (hf : ring.BatchFits)
    (ha : Answers ring.batchCount.toNat result) :
    (result = eintr ∧ ring.submitPass result = .again ring) ∨
    (result ≠ eintr ∧ syscallFailed result = true ∧ ring.submitPass result = .done result ring) ∨
    (syscallFailed result = false ∧ takes result = ring.batchCount.toNat ∧
      ring.submitPass result = .done result { ring with batchCount := 0#32 }) ∨
    (syscallFailed result = false ∧ 0 < takes result ∧ takes result < ring.batchCount.toNat ∧
      ∃ next, ring.submitPass result = .again next ∧ next.BatchFits ∧ SubmitOnly ring next ∧
        next.batchCount.toNat = ring.batchCount.toNat - takes result ∧
        next.staged = ring.staged.drop (takes result)) := by
  by_cases hi : result = eintr
  · exact .inl ⟨hi, by simp only [submitPass, hi, ↓reduceIte]⟩
  by_cases hfail : syscallFailed result = true
  · exact .inr (.inl ⟨hi, hfail, by simp only [submitPass, hi, hfail, ↓reduceIte]⟩)
  have hok : syscallFailed result = false := by simpa using hfail
  have hbatch := ring.batchCount.isLt
  obtain ⟨hle, hpos, htakes⟩ := ha.of_not_failed hbatch hok
  have hsub : (result.setWidth 32).toNat = result.toNat := by
    rw [BitVec.toNat_setWidth, Nat.mod_eq_of_lt (by omega)]
  by_cases hall : result.setWidth 32 = ring.batchCount
  · refine .inr (.inr (.inl ⟨hok, ?_, by
      simp only [submitPass, hi, hok, hall, ↓reduceIte, Bool.false_eq_true]⟩))
    rw [htakes, ← hsub, hall]
  · have hlt : result.toNat < ring.batchCount.toNat :=
      lt_of_le_of_ne hle fun he => hall (BitVec.eq_of_toNat_eq (hsub.trans he))
    obtain ⟨next, hp, hnf, hs, -, hcount, hd⟩ := submitPass_short hf hok hlt
    exact .inr (.inr (.inr ⟨hok, by omega, by omega, next, hp, hnf, hs, by omega, by rw [hd, htakes]⟩))

def Pass.ring : Pass → Ring
  | .again ring => ring
  | .done _ ring => ring

/-- A round drops from the batch what the kernel took and touches nothing else. -/
theorem submitPass_spec {ring : Ring} {result : Long} (hf : ring.BatchFits)
    (ha : Answers ring.batchCount.toNat result) :
    (ring.submitPass result).ring.staged = ring.staged.drop (takes result) ∧
      (ring.submitPass result).ring.BatchFits ∧ SubmitOnly ring (ring.submitPass result).ring := by
  rcases submitPass_cases hf ha with ⟨hr, hp⟩ | ⟨-, hfail, hp⟩ | ⟨-, ht, hp⟩ |
    ⟨-, -, -, next, hp, hnf, hs, -, hd⟩
  · rw [hp, hr, takes_of_failed syscallFailed_eintr]
    exact ⟨rfl, hf, .refl ring⟩
  · rw [hp, takes_of_failed hfail]
    exact ⟨rfl, hf, .refl ring⟩
  · rw [hp, ht]
    refine ⟨?_, Nat.zero_le _, ⟨rfl, rfl, rfl, rfl⟩⟩
    rw [Pass.ring, staged_eq_nil rfl, List.drop_of_length_le (by simp)]
  · rw [hp]
    exact ⟨hd, hnf, hs⟩

/-- A round that ends the loop returns the kernel's answer; unless that is an
error the batch is gone. -/
theorem submitPass_done {ring next : Ring} {result value : Long} (hf : ring.BatchFits)
    (ha : Answers ring.batchCount.toNat result) (h : ring.submitPass result = .done value next) :
    value = result ∧ value ≠ eintr ∧
      (syscallFailed value = false → next.batchCount = 0#32 ∧
        takes result = ring.batchCount.toNat) := by
  rcases submitPass_cases hf ha with ⟨-, hp⟩ | ⟨hne, hfail, hp⟩ | ⟨hok, ht, hp⟩ | ⟨-, -, -, next, hp, -⟩
  · rw [hp] at h; cases h
  · rw [hp] at h; cases h
    exact ⟨rfl, hne, fun h => absurd h (by simp [hfail])⟩
  · rw [hp] at h; cases h
    refine ⟨rfl, ?_, fun _ => ⟨rfl, ht⟩⟩
    rintro rfl
    rw [syscallFailed_eintr] at hok
    cases hok
  · rw [hp] at h; cases h

/-! ### The whole loop -/

def consumed (enters : List Enter) : List Sqe := enters.flatMap Enter.taken

def completed (enters : List Enter) : List Enter := enters.filter (fun e => e.result ≠ eintr)

@[simp] theorem consumed_nil : consumed [] = [] := rfl

@[simp] theorem consumed_cons (e : Enter) (es : List Enter) :
    consumed (e :: es) = e.taken ++ consumed es := rfl

@[simp] theorem completed_cons (e : Enter) (es : List Enter) :
    completed (e :: es) = if e.result = eintr then completed es else e :: completed es := by
  by_cases h : e.result = eintr <;> simp [completed, h]

/-- The loop hands over a prefix of the batch and keeps the rest from slot zero
on, wherever it stands. -/
theorem submit_spec (minComplete : U32) (answers : List Long) {ring : Ring} (hf : ring.BatchFits)
    (ha : ring.Admissible answers) :
    consumed (ring.submit minComplete answers).enters ++ (ring.submit minComplete answers).ring.staged =
        ring.staged ∧
      (ring.submit minComplete answers).ring.BatchFits ∧
      SubmitOnly ring (ring.submit minComplete answers).ring := by
  induction answers generalizing ring with
  | nil => exact ⟨rfl, hf, .refl ring⟩
  | cons result answers ih =>
    obtain ⟨ha₁, ha₂⟩ := ha
    obtain ⟨hd, hnf, hs⟩ := submitPass_spec hf ha₁
    unfold submit
    cases hp : ring.submitPass result with
    | done value next =>
      simp only [hp, Pass.ring] at hd hnf hs
      refine ⟨?_, hnf, hs⟩
      simp only [consumed_cons, consumed_nil, enter, List.append_nil, hd, List.take_append_drop]
    | again next =>
      simp only [hp, Pass.ring] at hd hnf hs ha₂
      obtain ⟨hq, hnf', hs'⟩ := ih hnf ha₂
      refine ⟨?_, hnf', hs.trans hs'⟩
      simp only [consumed_cons, enter, List.append_assoc, hq, hd, List.take_append_drop]

/-- A loop that returned either failed, or consumed the whole batch. -/
theorem submit_result (minComplete : U32) (answers : List Long) {ring : Ring} (hf : ring.BatchFits)
    (ha : ring.Admissible answers) {value : Long}
    (h : (ring.submit minComplete answers).result = some value) (hok : syscallFailed value = false) :
    (ring.submit minComplete answers).ring.batchCount = 0#32 := by
  induction answers generalizing ring with
  | nil => simp [submit] at h
  | cons result answers ih =>
    obtain ⟨ha₁, ha₂⟩ := ha
    obtain ⟨-, hnf, -⟩ := submitPass_spec hf ha₁
    unfold submit at h ⊢
    cases hp : ring.submitPass result with
    | done value' next =>
      rw [hp] at h
      simp only [Option.some.injEq] at h
      subst h
      exact ((submitPass_done hf ha₁ hp).2.2 hok).1
    | again next =>
      rw [hp] at h hnf ha₂
      exact ih hnf ha₂ h

/-- Every uninterrupted round that does not end the loop shrinks the batch. -/
theorem submit_completed_le (minComplete : U32) (answers : List Long) {ring : Ring}
    (hf : ring.BatchFits) (ha : ring.Admissible answers) :
    (completed (ring.submit minComplete answers).enters).length ≤ ring.batchCount.toNat + 1 ∧
      ((ring.submit minComplete answers).result = none →
        (completed (ring.submit minComplete answers).enters).length ≤ ring.batchCount.toNat ∧
        (ring.submit minComplete answers).enters.map Enter.result = answers) := by
  induction answers generalizing ring with
  | nil => simp [submit, completed]
  | cons result answers ih =>
    obtain ⟨ha₁, ha₂⟩ := ha
    unfold submit
    rcases submitPass_cases hf ha₁ with ⟨hr, hp⟩ | ⟨hne, -, hp⟩ | ⟨hok, -, hp⟩ |
      ⟨-, hpos, hlt, next, hp, hnf, -, hcount, -⟩
    · -- an interrupted round is not counted and changes nothing
      rw [hp] at ha₂ ⊢
      obtain ⟨h1, h2⟩ := ih hf ha₂
      simp only [completed_cons, enter, hr, ↓reduceIte]
      refine ⟨h1, fun hn => ?_⟩
      obtain ⟨h3, h4⟩ := h2 hn
      exact ⟨h3, by simp [h4]⟩
    · rw [hp]
      simp [completed, enter, hne]
    · rw [hp]
      have hne : result ≠ eintr := by
        rintro rfl
        rw [syscallFailed_eintr] at hok
        cases hok
      simp [completed, enter, hne]
    · rw [hp] at ha₂ ⊢
      obtain ⟨h1, h2⟩ := ih hnf ha₂
      have hne : result ≠ eintr := by
        rintro rfl
        rw [takes_of_failed syscallFailed_eintr] at hpos
        omega
      simp only [completed_cons, enter, hne, ↓reduceIte, List.length_cons]
      refine ⟨by omega, fun hn => ?_⟩
      obtain ⟨h3, h4⟩ := h2 hn
      exact ⟨by omega, by simp [h4]⟩

/-- Interruptions apart, more answers than staged SQEs always bring the loop to
its return. -/
theorem submit_returns (minComplete : U32) (answers : List Long) {ring : Ring} (hf : ring.BatchFits)
    (ha : ring.Admissible answers)
    (hlong : ring.batchCount.toNat < (answers.filter (fun r => r ≠ eintr)).length) :
    (ring.submit minComplete answers).result ≠ none := by
  intro hn
  obtain ⟨hle, hmap⟩ := (submit_completed_le minComplete answers hf ha).2 hn
  rw [← hmap, List.filter_map, List.length_map] at hlong
  exact absurd hlong (Nat.not_lt.mpr hle)

/-- A submit uses the answers one by one, asks for the whole batch in each enter, and
returns the last answer it used. -/
structure Submission.Uses (s : Submission) (minComplete : U32) (answers : List Long) : Prop where
  used : s.enters.map Enter.result <+: answers
  all : s.result = none → s.enters.map Enter.result = answers
  last : ∀ value, s.result = some value → (s.enters.map Enter.result).getLast? = some value
  enters : ∀ e ∈ s.enters, e.minComplete = minComplete ∧ e.taken.length = takes e.result ∧
    e.taken.length ≤ e.toSubmit.toNat

theorem enter_taken (ring : Ring) (minComplete : U32) {result : Long}
    (ha : Answers ring.batchCount.toNat result) :
    (ring.enter minComplete result).taken.length = takes result ∧
    takes result ≤ ring.batchCount.toNat := by
  have hle : takes result ≤ ring.batchCount.toNat := by
    unfold takes
    split_ifs with hneg
    · exact Nat.zero_le _
    · rcases ha with ⟨-, hlt⟩ | ⟨hle, -⟩
      · exact absurd hlt hneg
      · exact hle
  rw [enter, List.length_take, staged_length, Nat.min_eq_left hle]
  exact ⟨rfl, hle⟩

theorem submit_uses (minComplete : U32) (answers : List Long) {ring : Ring} (hf : ring.BatchFits)
    (ha : ring.Admissible answers) :
    (ring.submit minComplete answers).Uses minComplete answers := by
  induction answers generalizing ring with
  | nil => exact ⟨List.prefix_rfl, fun _ => rfl, nofun, nofun⟩
  | cons result answers ih =>
    obtain ⟨ha₁, ha₂⟩ := ha
    obtain ⟨hlength, hle⟩ := enter_taken ring minComplete ha₁
    have hfirst : (ring.enter minComplete result).minComplete = minComplete ∧
        (ring.enter minComplete result).taken.length = takes result ∧
        (ring.enter minComplete result).taken.length ≤ (ring.enter minComplete result).toSubmit.toNat :=
      ⟨rfl, hlength, hlength.trans_le hle⟩
    unfold submit
    cases hp : ring.submitPass result with
    | done value next =>
      refine ⟨⟨answers, rfl⟩, nofun, fun v hv => ?_, fun e he => ?_⟩
      · rw [← Option.some.inj hv]
        exact congrArg some (submitPass_done hf ha₁ hp).1.symm
      · rw [List.mem_singleton.mp he]
        exact hfirst
    | again next =>
      obtain ⟨-, hnf, -⟩ := submitPass_spec hf ha₁
      rw [hp, Pass.ring] at hnf
      rw [hp] at ha₂
      obtain ⟨hused, hall, hlast, henters⟩ := ih hnf ha₂
      refine ⟨List.cons_prefix_cons.mpr ⟨rfl, hused⟩, fun hn => congrArg _ (hall hn),
        fun v hv => ?_, fun e he => ?_⟩
      · rw [List.map_cons, List.getLast?_cons, hlast v hv]
        rfl
      · rcases List.mem_cons.mp he with rfl | he
        · exact hfirst
        · exact henters e he

/-! ### Runs -/

/-- A ring, the SQEs appended to it so far and those the kernel took so far. -/
structure Traffic where
  ring : Ring
  appended : List Sqe
  taken : List Sqe

/-- One call on the ring. A submit on a list of answers that does not bring it
to its return is a submit still in its loop. -/
inductive Call : Traffic → Traffic → Prop
  | append {t : Traffic} {slot : Addr} {next : Ring} (sqe : Sqe)
      (h : t.ring.appendSqe = some (slot, next)) :
      Call t ⟨next.writeSqe slot sqe, t.appended ++ [sqe], t.taken⟩
  | appendFull {t : Traffic} (h : t.ring.appendSqe = none) : Call t t
  | submit {t : Traffic} (minComplete : U32) (answers : List Long) (h : t.ring.Admissible answers) :
      Call t ⟨(t.ring.submit minComplete answers).ring, t.appended,
        t.taken ++ consumed (t.ring.submit minComplete answers).enters⟩

abbrev Calls : Traffic → Traffic → Prop := Relation.ReflTransGen Call

/-- Taken and staged together are what was appended. -/
def Traffic.Fifo (t : Traffic) : Prop := t.ring.BatchFits ∧ t.taken ++ t.ring.staged = t.appended

theorem Call.fifo {t t' : Traffic} (h : Call t t') (hi : t.Fifo) : t'.Fifo := by
  obtain ⟨hf, hq⟩ := hi
  cases h with
  | append sqe h =>
    obtain ⟨hs, hnf, -⟩ := appendSqe_writeSqe hf h sqe
    refine ⟨hnf, ?_⟩
    simp only
    rw [hs, ← List.append_assoc, hq]
  | appendFull h => exact ⟨hf, hq⟩
  | submit minComplete answers h =>
    obtain ⟨hs, hnf, -⟩ := submit_spec minComplete answers hf h
    refine ⟨hnf, ?_⟩
    simp only
    rw [List.append_assoc, hs, hq]

theorem Calls.fifo {t t' : Traffic} (h : Calls t t') (hi : t.Fifo) : t'.Fifo :=
  keeps_run (fun _ _ hi hstep => hstep.fifo hi) hi h

theorem created_fifo (g : Geometry) (memory : Mem) (counter : U32) (cqes : ℕ → Cqe) :
    Traffic.Fifo ⟨created g memory counter cqes, [], []⟩ :=
  ⟨Nat.zero_le _, by simp [staged, created]⟩

/-- The submission side is a FIFO queue under every admissible kernel: nothing
is lost, duplicated, reordered or altered between append and consumption, a
failed submit keeps the remainder ready for the next one, and a submit returns
after at most one uninterrupted enter more than it had SQEs to hand over. The enters of a
submit are answered one by one, and the last answer is what it returns. -/
theorem submission_refines_fifo (g : Geometry) (memory : Mem) (counter : U32) (cqes : ℕ → Cqe)
    (t : Traffic) (run : Calls ⟨created g memory counter cqes, [], []⟩ t) :
    t.taken ++ t.ring.staged = t.appended ∧
    t.ring.batchCount.toNat ≤ t.ring.sqEntries.toNat ∧
    (t.ring.appendSqe = none ↔ t.ring.batchCount = t.ring.sqEntries) ∧
    ∀ (minComplete : U32) (answers : List Long), t.ring.Admissible answers →
      let s := t.ring.submit minComplete answers
      consumed s.enters ++ s.ring.staged = t.ring.staged ∧
      (∀ value, s.result = some value → syscallFailed value = false → s.ring.batchCount = 0#32) ∧
      (completed s.enters).length ≤ t.ring.batchCount.toNat + 1 ∧
      (t.ring.batchCount.toNat < (answers.filter (fun r => r ≠ eintr)).length → s.result ≠ none) ∧
      s.Uses minComplete answers := by
  obtain ⟨hf, hq⟩ := run.fifo (created_fifo g memory counter cqes)
  refine ⟨hq, hf, appendSqe_eq_none t.ring, ?_⟩
  intro minComplete answers ha
  exact ⟨(submit_spec minComplete answers hf ha).1,
    fun value hv hok => submit_result minComplete answers hf ha hv hok,
    (submit_completed_le minComplete answers hf ha).1, submit_returns minComplete answers hf ha,
    submit_uses minComplete answers hf ha⟩

/-- Two SQEs, of which the kernel takes one at a time, with an interruption between; the
third is refused to a later submit and stays. -/
theorem submission_refines_fifo_short :
    ∃ t, Calls ⟨created .small (fun _ => 0#8) 0#32 (fun _ => ⟨0#64, 0#32, 0#32⟩), [], []⟩ t ∧
      t.appended = [fun _ => 1#8, fun _ => 2#8, fun _ => 3#8] ∧ t.taken ++ t.ring.staged = t.appended ∧
      (t.ring.submit 0#32 [BitVec.ofInt 64 (-11)]).Uses 0#32 [BitVec.ofInt 64 (-11)] := by
  have h₁ : Calls ⟨created .small (fun _ => 0#8) 0#32 (fun _ => ⟨0#64, 0#32, 0#32⟩), [], []⟩ _ :=
    .single (.append (fun _ => 1#8) rfl)
  have h₂ := h₁.tail (.append (fun _ => 2#8) rfl)
  have h₃ := h₂.tail (.submit 1#32 [1#64, eintr, 1#64]
    ⟨.inr (by decide), .inl (by decide), .inr (by decide), trivial⟩)
  have hrun := h₃.tail (.append (fun _ => 3#8) rfl)
  have hfifo := submission_refines_fifo _ _ _ _ _ hrun
  exact ⟨_, hrun, rfl, hfifo.1,
    (hfifo.2.2.2 0#32 [BitVec.ofInt 64 (-11)] ⟨.inl (by decide), trivial⟩).2.2.2.2⟩

end Libuc.Ring
