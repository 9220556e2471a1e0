import Libuc.Image.Operations

/-! The fiber's side of the switch. What a suspending call stores is its request, what the
request points to, and the status it ends with; the switch saves the context, and the
reactor's side closes an exit and stamps the request. -/

namespace Libuc

open Lib FiberRecord

def Suspension.ends : Suspension → Option CInt
  | .exit status => some status
  | .returned status => some status
  | _ => none

/-- The request, and what it points to, are on the fiber's own stack. -/
structure Suspension.Fits (h : Holding) (frame : Addr) (call : Suspension) : Prop where
  low : h.stack.base.toNat ≤ frame.toNat
  high : frame.toNat + 32 ≤ h.fiber.toNat
  argument : RequestRecord.extent call.kind ≠ 0 → h.stack.base.toNat ≤ call.argument.toNat ∧
    call.argument.toNat + RequestRecord.extent call.kind ≤ h.fiber.toNat ∧
    Separate frame 32 call.argument (RequestRecord.extent call.kind)

variable {pf : Platform} {arch : Arch} {m m' : Mem} {h : Holding} {call : Suspension}
  {frame : Addr} {fb : Fiber}

/-- What the call stores before its request. -/
def Suspension.prepare (arch : Arch) (m : Mem) (self : Addr) : Suspension → Mem
  | .exit status => setStatus arch m self status
  | .returned status => setStatus arch m self status
  | .start spawn spawnAt => storeWords m spawnAt [spawn.stackLength, spawn.entry, spawn.argument]
  | _ => m

theorem Suspension.perform_eq (arch : Arch) (m : Mem) (self frame : Addr) (call : Suspension) :
    call.perform arch m self frame =
      storeWords (call.prepare arch m self) frame [call.kind, call.argument, 0#64, 0#64] := by
  cases call <;> rfl

theorem spawnAt_storeWords (m : Mem) {a : Addr} (spawn : SpawnRequest) (ha : a.toNat + 24 ≤ 2 ^ 64) :
    RequestRecord.spawnAt (storeWords m a [spawn.stackLength, spawn.entry, spawn.argument]) a =
      spawn := by
  have hroom : a.toNat + 8 * [spawn.stackLength, spawn.entry, spawn.argument].length ≤ 2 ^ 64 := ha
  have hwords := holdsWords_storeWords m hroom
  have h0 := hwords 0 (by simp)
  have h1 := hwords 1 (by simp)
  have h2 := hwords 2 (by simp)
  rw [Nat.mul_zero, BitVec.add_zero] at h0
  exact SpawnRequest.mk.injEq _ _ _ _ _ _ ▸ ⟨h0, h1, h2⟩

namespace Suspension.Fits

theorem frame_fits (hf : call.Fits h frame) : frame.toNat + 32 ≤ 2 ^ 64 := by
  have hhigh := hf.high
  have hlt := h.fiber.isLt
  omega

theorem argument_fits (hf : call.Fits h frame) (hn : RequestRecord.extent call.kind ≠ 0) :
    call.argument.toNat + RequestRecord.extent call.kind ≤ 2 ^ 64 := by
  have hhigh := (hf.argument hn).2.1
  have hlt := h.fiber.isLt
  omega

theorem words (hf : call.Fits h frame) :
    RequestRecord.kind (call.perform arch m h.fiber frame) frame = call.kind ∧
    RequestRecord.argument (call.perform arch m h.fiber frame) frame = call.argument ∧
    RequestRecord.result (call.perform arch m h.fiber frame) frame = 0#64 ∧
    RequestRecord.fiber (call.perform arch m h.fiber frame) frame = 0#64 := by
  have hroom : frame.toNat + 8 * [call.kind, call.argument, 0#64, 0#64].length ≤ 2 ^ 64 := hf.frame_fits
  rw [Suspension.perform_eq]
  have h0 := load64_storeWords (i := 0) (call.prepare arch m h.fiber) hroom (by simp)
  rw [Nat.mul_zero, BitVec.add_zero] at h0
  exact ⟨h0, load64_storeWords (i := 1) _ hroom (by simp), load64_storeWords (i := 2) _ hroom (by simp),
    load64_storeWords (i := 3) _ hroom (by simp)⟩

/-- The request on the frame, before the reactor has stamped it. -/
theorem shows (hf : call.Fits h frame) : RequestRecord.Shows (call.perform arch m h.fiber frame) frame
      ⟨(call.call m).ask, 0#64, some 0#64⟩ ∧
      RequestRecord.Lodged (call.perform arch m h.fiber frame) h frame := by
  obtain ⟨hkind, hargument, hresult, hfiber⟩ :
      RequestRecord.kind (call.perform arch m h.fiber frame) frame = call.kind ∧ _ ∧ _ ∧ _ := hf.words
  have htouch : Touches frame 32 (call.prepare arch m h.fiber) (call.perform arch m h.fiber frame) := by
    rw [Suspension.perform_eq]
    exact touches_storeWords _ [call.kind, call.argument, 0#64, 0#64] hf.frame_fits
  refine ⟨⟨?_, hresult, by rw [hfiber]⟩, hf.low, hf.high, fun hn => ?_⟩
  · cases call with
    | await sqe =>
      have hextent : RequestRecord.extent 3#64 = 64 := by decide
      obtain ⟨-, hhigh, hapart⟩ : _ ∧ sqe.toNat + RequestRecord.extent 3#64 ≤ h.fiber.toNat ∧
        Separate frame 32 sqe (RequestRecord.extent 3#64) :=
        hf.argument (by rw [Suspension.kind, hextent]; decide)
      rw [hextent] at hhigh hapart
      have hlt := h.fiber.isLt
      refine ⟨hkind, ?_⟩
      rw [hargument]
      exact (htouch.keeps hapart.symm).block (by omega)
    | start spawn spawnAt =>
      have hextent : RequestRecord.extent 4#64 = 24 := by decide
      obtain ⟨-, hhigh, hapart⟩ : _ ∧ spawnAt.toNat + RequestRecord.extent 4#64 ≤ h.fiber.toNat ∧
        Separate frame 32 spawnAt (RequestRecord.extent 4#64) :=
        hf.argument (by rw [Suspension.kind, hextent]; decide)
      rw [hextent] at hhigh hapart
      have hlt := h.fiber.isLt
      have hroom : spawnAt.toNat + 24 ≤ 2 ^ 64 := by omega
      have hkept := RequestRecord.spawnAt_keeps hroom (htouch.keeps hapart.symm)
      simp only [Suspension.prepare, spawnAt_storeWords m spawn hroom] at hkept
      refine ⟨hkind, ?_⟩
      rw [hargument]
      exact hkept
    | yield => exact hkind
    | exit status => exact hkind
    | returned status => exact hkind
    | join target => exact ⟨hkind, hargument⟩
    | detach target => exact ⟨hkind, hargument⟩
    | processExit fiber status => exact ⟨hkind, hargument⟩
  · rw [hkind] at hn
    rw [hkind, hargument]
    exact hf.argument hn

/-- What the call stores in the record. -/
theorem contents (hfits : h.fiber.toNat + FiberRecord.size arch ≤ 2 ^ 64) (hf : call.Fits h frame) :
    FiberRecord.contents arch (call.perform arch m h.fiber frame) h.fiber =
      { FiberRecord.contents arch m h.fiber with
        status := call.ends.getD (FiberRecord.contents arch m h.fiber).status } := by
  have htouch : Touches frame 32 (call.prepare arch m h.fiber) (call.perform arch m h.fiber frame) := by
    rw [Suspension.perform_eq]
    exact touches_storeWords _ [call.kind, call.argument, 0#64, 0#64] hf.frame_fits
  rw [contents_keeps hfits (htouch.keeps (.inr hf.high))]
  cases call with
  | exit status => exact contents_setStatus hfits status
  | returned status => exact contents_setStatus hfits status
  | start spawn spawnAt =>
    have hextent : RequestRecord.extent 4#64 = 24 := by decide
    obtain ⟨-, hhigh, -⟩ : _ ∧ spawnAt.toNat + RequestRecord.extent 4#64 ≤ h.fiber.toNat ∧ _ :=
      hf.argument (by rw [Suspension.kind, hextent]; decide)
    rw [hextent] at hhigh
    have hwords : Touches spawnAt (8 * [spawn.stackLength, spawn.entry, spawn.argument].length) m
        (storeWords m spawnAt [spawn.stackLength, spawn.entry, spawn.argument]) :=
      touches_storeWords m _ (show spawnAt.toNat + 24 ≤ 2 ^ 64 by omega)
    exact contents_keeps hfits (hwords.keeps (.inr hhigh))
  | _ => rfl

theorem touches (hin : Inside arch h.fiber h.stack)
    (hend : h.stack.base.toNat + h.stack.length.toNat ≤ 2 ^ 64) (hf : call.Fits h frame) :
    Touches h.stack.base h.stack.length.toNat m (call.perform arch m h.fiber frame) := by
  obtain ⟨hlow, hhigh⟩ := hin
  have hf₁ := hf.low
  have hf₂ := hf.high
  have hfits : h.fiber.toNat + FiberRecord.size arch ≤ 2 ^ 64 := hhigh.trans hend
  have hprepare : Touches h.stack.base h.stack.length.toNat m (call.prepare arch m h.fiber) := by
    cases call with
    | exit status => exact (touches_setStatus hfits status).mono hlow hhigh
    | returned status => exact (touches_setStatus hfits status).mono hlow hhigh
    | start spawn spawnAt =>
      have hextent : RequestRecord.extent 4#64 = 24 := by decide
      obtain ⟨hs₁, hs₂, -⟩ : h.stack.base.toNat ≤ spawnAt.toNat ∧
          spawnAt.toNat + RequestRecord.extent 4#64 ≤ h.fiber.toNat ∧ _ :=
        hf.argument (by rw [Suspension.kind, hextent]; decide)
      rw [hextent] at hs₂
      have hwords : Touches spawnAt (8 * [spawn.stackLength, spawn.entry, spawn.argument].length) m
          (storeWords m spawnAt [spawn.stackLength, spawn.entry, spawn.argument]) :=
        touches_storeWords m _ (show spawnAt.toNat + 24 ≤ 2 ^ 64 by omega)
      exact hwords.mono hs₁ (show spawnAt.toNat + 24 ≤ _ by omega)
    | _ => exact fun _ _ => rfl
  rw [Suspension.perform_eq]
  have hwords : Touches frame (8 * [call.kind, call.argument, 0#64, 0#64].length)
      (call.prepare arch m h.fiber)
      (storeWords (call.prepare arch m h.fiber) frame [call.kind, call.argument, 0#64, 0#64]) :=
    touches_storeWords _ _ hf.frame_fits
  exact hprepare.trans (hwords.mono hf₁ (show frame.toNat + 32 ≤ _ by omega))

end Suspension.Fits

/-! ### Back in the reactor -/

theorem Suspension.kind_eq_exit (call : Suspension) : call.kind = 2#64 ↔ call.ends ≠ none := by
  cases call <;> simp [Suspension.kind, Suspension.ends]

/-- Memory once the fiber has switched out and `__libuc_fiber_resume` returned. -/
def switched (arch : Arch) (m : Mem) (fiber frame : Addr) (call : Suspension)
    (saved : List (BitVec 64)) : Mem :=
  Image.finishResume arch (storeWords (call.perform arch m fiber frame) fiber saved) fiber frame

def FiberRecord.Contents.exited (c : Contents) : Contents :=
  { c with stackPointer := 0#64, life := if c.life = Life.live.word then Life.exited.word else c.life }

def FiberRecord.Contents.suspended (c : Contents) (arch : Arch) (call : Suspension)
    (saved : List (BitVec 64)) : Contents :=
  let c := { c with
    stackPointer := saved.getD (stackPointerIndex arch) 0#64
    status := call.ends.getD c.status }
  let c := if call.ends = none then c else c.exited
  { c with words := Function.update c.words .returnTo 0#64 }

theorem getD_replicate_zero (n i : ℕ) : (List.replicate n 0#64).getD i 0#64 = 0#64 := by
  rw [List.getD_eq_getElem?_getD, List.getElem?_replicate]
  split <;> rfl

/-- The reactor closes an exit, in the record only. -/
theorem contents_closeExit (hfits : h.fiber.toNat + FiberRecord.size arch ≤ 2 ^ 64) :
    contents arch (Image.closeExit arch m h.fiber) h.fiber = (contents arch m h.fiber).exited ∧
      Touches h.fiber (FiberRecord.size arch) m (Image.closeExit arch m h.fiber) := by
  unfold Image.closeExit
  extract_lets zeroed
  have hlen : (List.replicate (contextWords arch) 0#64).length = contextWords arch :=
    List.length_replicate
  have hzeroed : contents arch zeroed h.fiber =
      { contents arch m h.fiber with stackPointer := 0#64 } := by
    rw [contents_context hfits hlen, getD_replicate_zero]
  have htouch : Touches h.fiber (FiberRecord.size arch) m zeroed := touches_context hfits hlen
  have hlife : FiberRecord.life arch zeroed h.fiber = (contents arch m h.fiber).life :=
    congrArg Contents.life hzeroed
  simp only [hlife, Contents.exited]
  split_ifs with hlive
  · rw [contents_setLife hfits, hzeroed]
    exact ⟨rfl, htouch.trans (touches_setLife hfits _)⟩
  · exact ⟨hzeroed, htouch⟩

/-- The record, the request on the frame and everything else, at the end of a turn. -/
structure Switched (arch : Arch) (h : Holding) (frame : Addr) (call : Suspension)
    (saved : List (BitVec 64)) (m m' : Mem) :
    Prop where
  contents : contents arch m' h.fiber = (contents arch m h.fiber).suspended arch call saved
  shows : RequestRecord.Shows m' frame ⟨(call.call m).ask, 0#64, some h.fiber⟩
  lodged : RequestRecord.Lodged m' h frame
  touches : Touches h.stack.base h.stack.length.toNat m m'

theorem switched_spec {saved : List (BitVec 64)} (hin : Inside arch h.fiber h.stack)
    (hend : h.stack.base.toNat + h.stack.length.toNat ≤ 2 ^ 64) (hf : call.Fits h frame)
    (hlen : saved.length = contextWords arch) :
    Switched arch h frame call saved m (switched arch m h.fiber frame call saved) := by
  have hfits : h.fiber.toNat + FiberRecord.size arch ≤ 2 ^ 64 := hin.2.trans hend
  have hrequest : Separate frame 32 h.fiber (FiberRecord.size arch) := .inl hf.high
  have ht₃ := hf.touches (m := m) hin hend
  have ht₄ : Touches h.fiber (FiberRecord.size arch) (call.perform arch m h.fiber frame)
      (storeWords (call.perform arch m h.fiber frame) h.fiber saved) := touches_context hfits hlen
  have hc₄ : contents arch (storeWords (call.perform arch m h.fiber frame) h.fiber saved) h.fiber =
      { contents arch m h.fiber with
        stackPointer := saved.getD (stackPointerIndex arch) 0#64
        status := call.ends.getD (contents arch m h.fiber).status } := by
    rw [contents_context hfits hlen, hf.contents hfits]
  have hkind : RequestRecord.kind
      (storeWords (call.perform arch m h.fiber frame) h.fiber saved) frame = call.kind :=
    (RequestRecord.kind_argument_keeps hf.frame_fits
      ((ht₄.keeps hrequest).sub le_rfl (by omega))).1.trans hf.words.1
  unfold switched
  generalize storeWords (call.perform arch m h.fiber frame) h.fiber saved = m₄ at ht₄ hc₄ hkind ⊢
  unfold Image.finishResume
  extract_lets m₅ m₆
  have hc₅ : contents arch m₅ h.fiber =
      (if call.ends = none then contents arch m₄ h.fiber else (contents arch m₄ h.fiber).exited) ∧
      Touches h.fiber (FiberRecord.size arch) m₄ m₅ := by
    simp only [m₅, hkind]
    by_cases hends : call.ends = none
    · rw [if_neg (fun hk => call.kind_eq_exit.mp hk hends), if_pos hends]
      exact ⟨rfl, fun _ _ => rfl⟩
    · rw [if_pos (call.kind_eq_exit.mpr hends), if_neg hends]
      exact contents_closeExit hfits
  have hc₆ := contents_set (m := m₅) hfits (show Field.returnTo ≠ .statusLife by decide) 0#64
  have ht₆ : Touches h.fiber (FiberRecord.size arch) (call.perform arch m h.fiber frame) m₆ :=
    (ht₄.trans hc₅.2).trans (touches_set hfits _ _)
  obtain ⟨hshows, hlodged⟩ :
      RequestRecord.Shows (call.perform arch m h.fiber frame) frame ⟨(call.call m).ask, 0#64,
        some 0#64⟩ ∧ _ := hf.shows
  obtain ⟨hshows₆, hlodged₆⟩ := hshows.keeps hlodged (ht₆.keeps hrequest) fun hn =>
    ht₆.keeps (.inl (hlodged.argument hn).2.1)
  obtain ⟨hshows₇, hlodged₇⟩ := hshows₆.setFiber hlodged₆ h.fiber
  obtain ⟨-, -, h24⟩ := RequestRecord.word_toNat hf.frame_fits
  have hframe := hf.frame_fits
  have hf₁ := hf.low
  have hf₂ := hf.high
  obtain ⟨hlow, hhigh⟩ := hin
  have ht₇ : Touches (frame + 24#64) 8 m₆ (RequestRecord.setFiber m₆ frame h.fiber) :=
    touches_store64 _ _ (by omega)
  refine ⟨?_, hshows₇, hlodged₇,
    (ht₃.trans (ht₆.mono hlow hhigh)).trans (ht₇.mono (by omega) (by omega))⟩
  rw [contents_keeps hfits (ht₇.keeps (.inr (by omega)))]
  simp only [m₆, hc₆, hc₅.1, hc₄, Contents.suspended]

/-- The record of a fiber at the end of its turn. -/
theorem FiberRecord.Contents.Shows.suspend {c : Contents} {saved : List (BitVec 64)} (hs : c.Shows fb)
    (hsaved : saved.getD (stackPointerIndex arch) 0#64 ≠ 0#64) :
    (c.suspended arch call saved).Shows (fb.suspend (call.call m) frame) := by
  obtain ⟨hcontext, hentry, hargument, hnext, hjoiner, hstatus, hlife⟩ := hs
  have hword : ∀ field, field ≠ .returnTo →
      (c.suspended arch call saved).words field = c.words field := by
    intro field hne
    simp only [Contents.suspended]
    rw [Function.update_of_ne hne]
    split_ifs <;> rfl
  have hlive : c.life = Life.live.word ↔ fb.life = .live := by
    rw [hlife]
    exact ⟨Life.word_injective, congrArg Life.word⟩
  have hends : ∀ st, call.ends = some st → call.call m = .exit st := by
    intro st hst
    cases call <;> cases hst <;> rfl
  have hstays : call.ends = none →
      fb.suspend (call.call m) frame = { fb with context := .saved, frame := some frame } := by
    intro hnone
    cases call <;> first | rfl | cases hnone
  cases he : call.ends with
  | none =>
    rw [hstays he]
    refine ⟨?_, ?_, ?_, ?_, ?_, ?_, ?_⟩
    · simp only [Contents.suspended, he, if_true]
      exact ⟨fun h0 => absurd h0 hsaved, fun h0 => by cases h0⟩
    · rw [hword _ (by decide)]
      exact hentry
    · rw [hword _ (by decide)]
      exact hargument
    · rw [hword _ (by decide)]
      exact hnext
    · rw [hword _ (by decide)]
      exact hjoiner
    · simp only [Contents.suspended, he, if_true]
      exact hstatus
    · simp only [Contents.suspended, he, if_true]
      exact hlife
  | some st =>
    rw [hends st he]
    refine ⟨?_, ?_, ?_, ?_, ?_, ?_, ?_⟩
    · simp only [Contents.suspended, he]
      exact ⟨fun _ => rfl, fun _ => rfl⟩
    · rw [hword _ (by decide)]
      exact hentry
    · rw [hword _ (by decide)]
      exact hargument
    · rw [hword _ (by decide)]
      exact hnext
    · rw [hword _ (by decide)]
      exact hjoiner
    · simp only [Contents.suspended, he]
      rfl
    · simp only [Contents.suspended, he, Contents.exited, Fiber.suspend]
      by_cases hl : fb.life = .live
      · rw [if_neg (by simp), if_pos (hlive.mpr hl), if_pos hl]
      · rw [if_neg (by simp), if_neg (fun h => hl (hlive.mp h)), if_neg hl]
        exact hlife

end Libuc
