import Libuc.Image.Record

/-! One fiber in memory. Its record, the pointer in its TCB and, while it is suspended,
its request and what the request points to lie in its own two mappings; as long as these
ranges are kept, the bytes stand for the same fiber. -/

namespace Libuc

open Lib FiberRecord ThreadLocal

variable {pf : Platform} {arch : Arch} {m m' : Mem} {a r v : Addr} {o : Option Addr} {n : ℕ}

/-- A pointer and what it points to; null points to nothing. -/
def Points (v : Addr) (o : Option Addr) : Prop := v = o.getD 0#64 ∧ o ≠ some 0#64

theorem Points.eq_zero (h : Points v o) : v = 0#64 ↔ o = none := by
  obtain ⟨rfl, hne⟩ := h
  cases o with
  | none => simp
  | some a => simpa using hne

theorem Points.eq_some (h : Points v o) (hv : v ≠ 0#64) : o = some v := by
  obtain ⟨rfl, hne⟩ := h
  cases o with
  | none => exact absurd rfl hv
  | some a => rfl

theorem Points.of_some (h : Points v (some a)) : v = a := h.1

theorem points_none : Points 0#64 none := ⟨rfl, by simp⟩

theorem points_some (h : a ≠ 0#64) : Points a (some a) := ⟨rfl, by simpa using h⟩

/-! ### Records -/

namespace FiberRecord.Contents

def holding (c : Contents) (fiber : Addr) : Holding :=
  ⟨fiber, ⟨c.words .stack, c.words .stackLength⟩, ⟨c.words .mapping, c.words .mappingLength⟩⟩

def block (c : Contents) : Block :=
  ⟨c.words .mapping, c.words .mappingLength, c.words .block, c.words .threadPointer⟩

/-- The record says what `fb` says. `return_to` is left out: it is dead between resumes. -/
structure Shows (c : Contents) (fb : Fiber) : Prop where
  context : c.stackPointer = 0#64 ↔ fb.context = .zeroed
  entry : c.words .entry = fb.entry
  argument : c.words .argument = fb.argument
  readyNext : Points (c.words .readyNext) fb.readyNext
  joiner : Points (c.words .joiner) fb.joiner
  status : c.status = fb.status
  life : c.life = fb.life.word

end FiberRecord.Contents

theorem holding_read (arch : Arch) (m : Mem) (fiber : Addr) :
    Holding.read arch m fiber = (contents arch m fiber).holding fiber := by
  simp [Holding.read, Contents.holding, contents]

theorem Life.word_injective {l l' : Life} (h : l.word = l'.word) : l = l' := by
  cases l <;> cases l' <;> first | rfl | cases h

/-! ### Requests -/

namespace RequestRecord

/-- How many bytes a request of this kind points to: an SQE or a spawn request. -/
def extent (kind : BitVec 64) : ℕ := if kind = 3#64 then 64 else if kind = 4#64 then 24 else 0

def Asks (m : Mem) (r : Addr) : Ask → Prop
  | .yield => kind m r = 1#64
  | .exit => kind m r = 2#64
  | .await sqe => kind m r = 3#64 ∧ block m (argument m r) 64 = sqe
  | .spawn spawn => kind m r = 4#64 ∧ spawnAt m (argument m r) = spawn
  | .join target => kind m r = 5#64 ∧ argument m r = target
  | .detach target => kind m r = 6#64 ∧ argument m r = target
  | .processExit status => kind m r = 7#64 ∧ argument m r = status

structure Shows (m : Mem) (r : Addr) (q : Request) : Prop where
  ask : Asks m r q.ask
  result : result m r = q.result
  fiber : q.fiber = some (fiber m r)

/-- The four words are in the fiber's stack below its record, and so is what they point
to. -/
structure Lodged (m : Mem) (h : Holding) (r : Addr) : Prop where
  low : h.stack.base.toNat ≤ r.toNat
  high : r.toNat + 32 ≤ h.fiber.toNat
  argument : extent (kind m r) ≠ 0 → h.stack.base.toNat ≤ (argument m r).toNat ∧
    (argument m r).toNat + extent (kind m r) ≤ h.fiber.toNat ∧
    Separate r 32 (RequestRecord.argument m r) (extent (kind m r))

theorem word_toNat (hfits : r.toNat + 32 ≤ 2 ^ 64) :
    (r + 8#64).toNat = r.toNat + 8 ∧ (r + 16#64).toNat = r.toNat + 16 ∧
    (r + 24#64).toNat = r.toNat + 24 :=
  ⟨toNat_add_of_fits (i := 8) (by omega), toNat_add_of_fits (i := 16) (by omega),
    toNat_add_of_fits (i := 24) (by omega)⟩

/-- The words before the result depend on nothing else. -/
theorem kind_argument_keeps (hfits : r.toNat + 32 ≤ 2 ^ 64) (h : Keeps r 16 m m') :
    kind m' r = kind m r ∧ argument m' r = argument m r := by
  obtain ⟨h8, -, -⟩ := word_toNat hfits
  exact ⟨load64_keeps (h.sub (by omega) (by omega)) (by omega),
    load64_keeps (h.sub (by omega) (by omega)) (by omega)⟩

theorem spawnAt_keeps (hfits : a.toNat + 24 ≤ 2 ^ 64) (h : Keeps a 24 m m') :
    spawnAt m' a = spawnAt m a := by
  have h8 : (a + 8#64).toNat = a.toNat + 8 := toNat_add_of_fits (i := 8) (by omega)
  have h16 : (a + 16#64).toNat = a.toNat + 16 := toNat_add_of_fits (i := 16) (by omega)
  simp only [spawnAt, load64_keeps (h.sub (b := a) (k := 8) le_rfl (by omega)) (by omega),
    load64_keeps (h.sub (b := a + 8#64) (k := 8) (by omega) (by omega)) (by omega),
    load64_keeps (h.sub (b := a + 16#64) (k := 8) (by omega) (by omega)) (by omega)]

theorem Lodged.fits {h : Holding} (hl : Lodged m h r) : r.toNat + 32 ≤ 2 ^ 64 := by
  have hhigh := hl.high
  have hlt := h.fiber.isLt
  omega

theorem Lodged.argument_fits {h : Holding} (hl : Lodged m h r) (hn : extent (kind m r) ≠ 0) :
    (RequestRecord.argument m r).toNat + extent (kind m r) ≤ 2 ^ 64 := by
  have hhigh := (hl.argument hn).2.1
  have hlt := h.fiber.isLt
  omega

/-- What is asked depends on the first two words and on what they point to. -/
theorem Asks.keeps {ask : Ask} {h : Holding} (ha : Asks m r ask) (hl : Lodged m h r)
    (hwords : Keeps r 16 m m')
    (hargument : extent (kind m r) ≠ 0 → Keeps (argument m r) (extent (kind m r)) m m') :
    Asks m' r ask ∧ Lodged m' h r := by
  obtain ⟨hkind, harg⟩ := kind_argument_keeps hl.fits hwords
  refine ⟨?_, hl.low, hl.high, fun hn => ?_⟩
  · have hroom := hl.argument_fits
    cases ask with
    | await sqe =>
      obtain ⟨hk, hsqe⟩ := ha
      rw [hk] at hroom hargument
      refine ⟨hkind.trans hk, ?_⟩
      rw [harg, ← hsqe]
      exact (hargument (by decide)).block (hroom (by decide))
    | spawn spawn =>
      obtain ⟨hk, hspawn⟩ := ha
      rw [hk] at hroom hargument
      refine ⟨hkind.trans hk, ?_⟩
      rw [harg, ← hspawn]
      exact spawnAt_keeps (hroom (by decide)) (hargument (by decide))
    | yield => exact hkind.trans ha
    | exit => exact hkind.trans ha
    | join target => exact ⟨hkind.trans ha.1, harg.trans ha.2⟩
    | detach target => exact ⟨hkind.trans ha.1, harg.trans ha.2⟩
    | processExit status => exact ⟨hkind.trans ha.1, harg.trans ha.2⟩
  · rw [hkind] at hn
    rw [hkind, harg]
    exact hl.argument hn

theorem Shows.keeps {q : Request} {h : Holding} (hs : Shows m r q) (hl : Lodged m h r)
    (hwords : Keeps r 32 m m')
    (hargument : extent (kind m r) ≠ 0 → Keeps (RequestRecord.argument m r) (extent (kind m r)) m m') :
    Shows m' r q ∧ Lodged m' h r := by
  obtain ⟨-, h16, h24⟩ := word_toNat hl.fits
  have hfits := hl.fits
  obtain ⟨hask, hlodged⟩ := hs.ask.keeps hl (hwords.sub le_rfl (by omega)) hargument
  refine ⟨⟨hask, ?_, ?_⟩, hlodged⟩
  · exact (load64_keeps (hwords.sub (by omega) (by omega)) (by omega)).trans hs.result
  · refine hs.fiber.trans (congrArg some ?_)
    exact (load64_keeps (hwords.sub (by omega) (by omega)) (by omega)).symm

theorem Shows.setResult {q : Request} {h : Holding} (hs : Shows m r q) (hl : Lodged m h r) (v : Long) :
    Shows (setResult m r v) r { q with result := v } ∧ Lodged (RequestRecord.setResult m r v) h r := by
  obtain ⟨-, h16, h24⟩ := word_toNat hl.fits
  have hfits := hl.fits
  have htouch : Touches (r + 16#64) 8 m (RequestRecord.setResult m r v) :=
    touches_store64 m v (by omega)
  have hrest : Touches r 32 m (RequestRecord.setResult m r v) := htouch.mono (by omega) (by omega)
  obtain ⟨hask, hlodged⟩ := hs.ask.keeps hl (htouch.keeps (.inl (by omega))) fun hn =>
    hrest.keeps (hl.argument hn).2.2.symm
  refine ⟨⟨hask, load64_store64 m _ v, ?_⟩, hlodged⟩
  refine hs.fiber.trans (congrArg some ?_)
  exact (load64_keeps (htouch.keeps (.inr (by omega))) (by omega)).symm

theorem Shows.setFiber {q : Request} {h : Holding} (hs : Shows m r q) (hl : Lodged m h r) (v : Addr) :
    Shows (setFiber m r v) r { q with fiber := some v } ∧
    Lodged (RequestRecord.setFiber m r v) h r := by
  obtain ⟨-, h16, h24⟩ := word_toNat hl.fits
  have hfits := hl.fits
  have htouch : Touches (r + 24#64) 8 m (RequestRecord.setFiber m r v) := touches_store64 m v (by omega)
  have hrest : Touches r 32 m (RequestRecord.setFiber m r v) := htouch.mono (by omega) (by omega)
  obtain ⟨hask, hlodged⟩ := hs.ask.keeps hl (htouch.keeps (.inl (by omega))) fun hn =>
    hrest.keeps (hl.argument hn).2.2.symm
  refine ⟨⟨hask, ?_, congrArg some (load64_store64 m _ v).symm⟩, hlodged⟩
  exact (load64_keeps (htouch.keeps (.inl (by omega))) (by omega)).trans hs.result

end RequestRecord

/-! ### Seats -/

/-- What the runtime keeps of a fiber in memory, as ranges. -/
def guarded (arch : Arch) (m : Mem) (h : Holding) (frame : Option Addr) : List (Addr × ℕ) :=
  (h.fiber, FiberRecord.size arch) :: (get arch m h.fiber .threadPointer + 8#64, 8) ::
    frame.elim [] fun r =>
    [(r, 32), (RequestRecord.argument m r, RequestRecord.extent (RequestRecord.kind m r))]

theorem forall_guarded {P : Addr → ℕ → Prop} {h : Holding} {frame : Option Addr} :
    (∀ range ∈ guarded arch m h frame, P range.1 range.2) ↔ P h.fiber (FiberRecord.size arch) ∧
      P (get arch m h.fiber .threadPointer + 8#64) 8 ∧ ∀ r, frame = some r →
        P r 32 ∧ P (RequestRecord.argument m r) (RequestRecord.extent (RequestRecord.kind m r)) := by
  unfold guarded
  rw [List.forall_mem_cons, List.forall_mem_cons]
  cases frame with
  | none => simp
  | some r => simp

/-- The bytes of the fiber's mappings stand for `fb`. -/
structure Seated (pf : Platform) (m : Mem) (requests : Addr → Option Request) (h : Holding)
    (fb : Fiber) : Prop where
  inside : Inside pf.arch h.fiber h.stack
  ends : h.stack.base.toNat + h.stack.length.toNat ≤ 2 ^ 64
  nonnull : 0 < h.stack.base.toNat
  holding : (contents pf.arch m h.fiber).holding h.fiber = h
  shows : (contents pf.arch m h.fiber).Shows fb
  fits : ∃ l, pf.layout = some l ∧ Fits (contents pf.arch m h.fiber).block pf.arch l
  blockEnds : h.block.base.toNat + h.block.length.toNat ≤ 2 ^ 64
  apart : Separate h.stack.base h.stack.length.toNat h.block.base h.block.length.toNat
  threadPointer : get pf.arch m h.fiber .threadPointer ≠ 0#64
  tcb : load64 m (get pf.arch m h.fiber .threadPointer + 8#64) = h.fiber
  request : ∀ r, fb.frame = some r → ∃ q, requests r = some q ∧ q.fiber = some h.fiber ∧
    RequestRecord.Shows m r q ∧ RequestRecord.Lodged m h r

namespace Seated

variable {requests requests' : Addr → Option Request} {h : Holding} {fb fb' : Fiber}

theorem record_fits (hs : Seated pf m requests h fb) :
    h.fiber.toNat + FiberRecord.size pf.arch ≤ 2 ^ 64 :=
  hs.inside.2.trans hs.ends

theorem fiber_ne_zero (hs : Seated pf m requests h fb) : h.fiber ≠ 0#64 := by
  have hlow := hs.inside.1
  have hpos := hs.nonnull
  intro h0
  rw [h0] at hlow
  simp only [BitVec.toNat_ofNat, Nat.zero_mod] at hlow
  omega

theorem tcb_inside (hs : Seated pf m requests h fb) :
    h.block.base.toNat ≤ (get pf.arch m h.fiber .threadPointer).toNat ∧
      (get pf.arch m h.fiber .threadPointer).toNat + 16 ≤
        h.block.base.toNat + h.block.length.toNat := by
  obtain ⟨l, -, hf⟩ := hs.fits
  have hblock := congrArg Holding.block hs.holding
  have h₁ := congrArg Mapping.base hblock
  have h₂ := congrArg Mapping.length hblock
  rw [← h₁, ← h₂]
  exact hf.tcb_inside

theorem tcb_toNat (hs : Seated pf m requests h fb) :
    (get pf.arch m h.fiber .threadPointer + 8#64).toNat =
      (get pf.arch m h.fiber .threadPointer).toNat + 8 := by
  have hin := hs.tcb_inside
  have hend := hs.blockEnds
  exact toNat_add_of_fits (i := 8) (by omega)

theorem keeps (hs : Seated pf m requests h fb)
    (hkeeps : ∀ range ∈ guarded pf.arch m h fb.frame, Keeps range.1 range.2 m m') :
    Seated pf m' requests h fb := by
  obtain ⟨hrecord, htcb, hrequest⟩ := (forall_guarded (P := fun a n => Keeps a n m m')).mp hkeeps
  have hcontents := contents_keeps hs.record_fits hrecord
  have hpointer : get pf.arch m' h.fiber .threadPointer = get pf.arch m h.fiber .threadPointer :=
    get_congr hs.record_fits (fun x hlow hhigh => hrecord x (by unfold Outside; omega)) .threadPointer
  have hat := hs.tcb_toNat
  have hin := hs.tcb_inside
  have hend := hs.blockEnds
  refine ⟨hs.inside, hs.ends, hs.nonnull, ?_, ?_, ?_, hs.blockEnds, hs.apart, ?_, ?_, fun r hr => ?_⟩
  · rw [hcontents]
    exact hs.holding
  · rw [hcontents]
    exact hs.shows
  · rw [hcontents]
    exact hs.fits
  · rw [hpointer]
    exact hs.threadPointer
  · rw [hpointer, load64_keeps htcb (by omega)]
    exact hs.tcb
  · obtain ⟨q, hq, hown, hshows, hlodged⟩ := hs.request r hr
    obtain ⟨hwords, hargument⟩ := hrequest r hr
    exact ⟨q, hq, hown, hshows.keeps hlodged hwords fun _ => hargument⟩

theorem requests_congr (hs : Seated pf m requests h fb) (hr : ∀ r, fb.frame = some r →
    requests' r = requests r) :
    Seated pf m requests' h fb := by
  refine ⟨hs.inside, hs.ends, hs.nonnull, hs.holding, hs.shows, hs.fits, hs.blockEnds, hs.apart,
    hs.threadPointer, hs.tcb, fun r hframe => ?_⟩
  obtain ⟨q, hq, hrest⟩ := hs.request r hframe
  exact ⟨q, (hr r hframe).trans hq, hrest⟩

/-- Everything the runtime keeps of a fiber is in the fiber's two mappings. -/
theorem guarded_inside (hs : Seated pf m requests h fb) :
    ∀ range ∈ guarded pf.arch m h fb.frame, range.2 ≠ 0 →
    (h.stack.base.toNat ≤ range.1.toNat ∧
      range.1.toNat + range.2 ≤ h.stack.base.toNat + h.stack.length.toNat) ∨
      (h.block.base.toNat ≤ range.1.toNat ∧
        range.1.toNat + range.2 ≤ h.block.base.toNat + h.block.length.toNat) := by
  obtain ⟨hlow, hhigh⟩ := hs.inside
  refine (forall_guarded (P := fun a n => n ≠ 0 → (h.stack.base.toNat ≤ a.toNat ∧
    a.toNat + n ≤ h.stack.base.toNat + h.stack.length.toNat) ∨ (h.block.base.toNat ≤ a.toNat ∧
      a.toNat + n ≤ h.block.base.toNat + h.block.length.toNat))).mpr ⟨fun _ => .inl ⟨hlow, hhigh⟩,
      fun _ => .inr ?_, ?_⟩
  · have hat := hs.tcb_toNat
    have htcb := hs.tcb_inside
    omega
  · intro r hr
    obtain ⟨q, -, -, -, hlodged⟩ := hs.request r hr
    have hr₁ := hlodged.low
    have hr₂ := hlodged.high
    refine ⟨fun _ => .inl ⟨hr₁, by omega⟩, fun hn => ?_⟩
    obtain ⟨h₁, h₂, -⟩ := hlodged.argument hn
    exact .inl ⟨h₁, by omega⟩

/-! ### Writes of the reactor -/

/-- The words of a record that are not assigned after its creation. -/
def Fixed (c c' : Contents) : Prop :=
  ∀ field, field ≠ .readyNext → field ≠ .joiner → field ≠ .returnTo → c'.words field = c.words field

/-- The record and the request are written anew, somewhere in the fiber's stack. -/
theorem renew (hs : Seated pf m requests h fb) (ht : Touches h.stack.base h.stack.length.toNat m m')
    (hfixed : Fixed (contents pf.arch m h.fiber) (contents pf.arch m' h.fiber))
    (hshows : (contents pf.arch m' h.fiber).Shows fb')
    (hrequest : ∀ r, fb'.frame = some r → ∃ q, requests' r = some q ∧ q.fiber = some h.fiber ∧
      RequestRecord.Shows m' r q ∧ RequestRecord.Lodged m' h r) : Seated pf m' requests' h fb' := by
  have hpointer : get pf.arch m' h.fiber .threadPointer = get pf.arch m h.fiber .threadPointer :=
    hfixed .threadPointer (by decide) (by decide) (by decide)
  have hat := hs.tcb_toNat
  have hin := hs.tcb_inside
  have hend := hs.blockEnds
  have hword :
      Separate (get pf.arch m h.fiber .threadPointer + 8#64) 8 h.stack.base h.stack.length.toNat :=
    hs.apart.symm.sub (by omega) (by omega)
  refine ⟨hs.inside, hs.ends, hs.nonnull, ?_, hshows, ?_, hs.blockEnds, hs.apart, ?_, ?_, hrequest⟩
  · refine Eq.trans ?_ hs.holding
    simp only [Contents.holding, hfixed .stack (by decide) (by decide) (by decide),
      hfixed .stackLength (by decide) (by decide) (by decide),
      hfixed .mapping (by decide) (by decide) (by decide),
      hfixed .mappingLength (by decide) (by decide) (by decide)]
  · obtain ⟨l, hl, hf⟩ := hs.fits
    refine ⟨l, hl, ?_⟩
    simp only [Contents.block, hfixed .mapping (by decide) (by decide) (by decide),
      hfixed .mappingLength (by decide) (by decide) (by decide),
      hfixed .block (by decide) (by decide) (by decide),
      hfixed .threadPointer (by decide) (by decide) (by decide)]
    exact hf
  · rw [hpointer]
    exact hs.threadPointer
  · rw [hpointer, load64_keeps (ht.keeps hword) (by omega)]
    exact hs.tcb

theorem request_apart (hs : Seated pf m requests h fb) (hr : fb.frame = some r) :
    Separate r 32 h.fiber (FiberRecord.size pf.arch) ∧
      (RequestRecord.extent (RequestRecord.kind m r) ≠ 0 → Separate (RequestRecord.argument m r)
        (RequestRecord.extent (RequestRecord.kind m r)) h.fiber (FiberRecord.size pf.arch)) := by
  obtain ⟨q, -, -, -, hlodged⟩ := hs.request r hr
  exact ⟨.inl hlodged.high, fun hn => .inl (hlodged.argument hn).2.1⟩

/-- The reactor writes into the record. -/
theorem record (hs : Seated pf m requests h fb) (ht : Touches h.fiber (FiberRecord.size pf.arch) m m')
    (hfixed : Fixed (contents pf.arch m h.fiber) (contents pf.arch m' h.fiber))
    (hshows : (contents pf.arch m' h.fiber).Shows fb') (hframe : fb'.frame = fb.frame) :
    Seated pf m' requests h fb' := by
  refine hs.renew (ht.mono hs.inside.1 hs.inside.2) hfixed hshows fun r hr => ?_
  rw [hframe] at hr
  obtain ⟨q, hq, hown, hsh, hlodged⟩ := hs.request r hr
  obtain ⟨hr₁, hr₂⟩ := hs.request_apart hr
  exact ⟨q, hq, hown, hsh.keeps hlodged (ht.keeps hr₁) fun hn => ht.keeps (hr₂ hn)⟩

/-- The reactor answers the request. -/
theorem setResult (hs : Seated pf m requests h fb) (hr : fb.frame = some r) {q : Request}
    (hq : requests r = some q) (v : Long) : Seated pf (RequestRecord.setResult m r v)
    (Function.update requests r (some { q with result := v })) h fb := by
  obtain ⟨q', hq', hown, hshows, hlodged⟩ := hs.request r hr
  rw [hq] at hq'
  cases hq'
  obtain ⟨hrequest, -⟩ := hs.request_apart hr
  obtain ⟨-, h16, -⟩ := RequestRecord.word_toNat hlodged.fits
  have hfits := hlodged.fits
  have htouch : Touches r 32 m (RequestRecord.setResult m r v) :=
    (touches_store64 m v (by omega)).mono (by omega) (by omega)
  have hcontents := contents_keeps hs.record_fits (htouch.keeps hrequest.symm)
  obtain ⟨hlow, hhigh⟩ := hs.inside
  have hr₁ := hlodged.low
  have hr₂ := hlodged.high
  refine hs.renew (htouch.mono hr₁ (by omega)) (fun field _ _ _ => by rw [hcontents]) ?_
    fun r' hr' => ?_
  · rw [hcontents]
    exact hs.shows
  · rw [hr] at hr'
    cases hr'
    obtain ⟨hshows', hlodged'⟩ := hshows.setResult hlodged v
    exact ⟨{ q with result := v }, Function.update_self _ _ _, hown, hshows', hlodged'⟩

end Seated

end Libuc
