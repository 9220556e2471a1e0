import Libuc.Fiber.Spawn
import Libuc.Ring.Create
import Libuc.Scheduler.Basic
import Libuc.Sys.Auxv

/-! Startup. The kernel leaves the argument count, the arguments, the environment and the
auxiliary vector on the initial stack, one after the other and each ended by a null word;
`__libuc_start` finds them by walking. It then decodes the thread-local layout, creates the
ring and the root fiber, and hands the root its arguments through a structure in its own
frame. The initialisers that run before `main` are code of the program: they are any
functions on memory. -/

namespace Libuc

open Lib ThreadLocal FiberRecord

/-- The entry points of a program: those of every fiber, and `root_entry`. -/
structure StartCode extends Code where
  rootEntry : Addr

structure StartAnswers where
  ring : RingAnswers
  stack : Long
  block : Long

/-- Where startup stands when the reactor takes over: the root fiber is on the ready
queue, alone. -/
structure Boot where
  task : Task
  auxiliaryVector : Addr
  layout : Layout
  ring : RingRecord
  root : Addr

/-- How `__libuc_start` goes: it returns before anything is enqueued, or runs the
reactor. -/
inductive Outcome where
  | returned (status : CInt) (task : Task)
  | running (boot : Boot)

namespace Start

/-- `__INT_MAX__`. -/
def intMax : ℕ := 2 ^ 31 - 1

/-- `root_stack_length`. -/
def rootStackLength : BitVec 64 := 8#64 <<< 20

/-- `__libuc_scheduler_ring_entries`. -/
def ringEntries : U32 := 1#32 <<< 10

/-- The ring of a scheduler that `__libuc_scheduler_become` has just cleared. -/
def clearedRing : RingRecord := ⟨0#64, 0#64, 0#64, 0#64, 0#64, 0#64, 0#64, 0#32, 0#32, 0#32, 0#32, 0#32⟩

/-- The words of `struct root_arguments`. The last holds the count and padding. -/
def rootArguments (argv envp fiber : Addr) (argumentCount : CInt) : List (BitVec 64) :=
  [argv, envp, fiber, argumentCount.setWidth 64]

/-- `&words[i]`. -/
def wordAt (words : Addr) (i : BitVec 64) : Addr := words + i * 8#64

/-- The `while` loop over the environment: where it ends, and what it reads. -/
def environmentEnd (m : Mem) : ℕ → Addr → Option (Addr × List Addr)
  | 0, _ => none
  | fuel + 1, a =>
    if load64 m a = 0#64 then some (a, [a])
    else (environmentEnd m fuel (a + 8#64)).map fun r => (r.1, a :: r.2)

/-- `__libuc_start` after `__libuc_auxv_init`, with `arguments` in its frame at `frame`. -/
def boot (arch : Arch) (code : StartCode) (k : StartAnswers) (frame argv envp : Addr)
    (argumentCount : BitVec 64)
    (auxiliaryVector : Addr) (entries : List AuxvEntry) (t : Task) : Outcome :=
  match (ThreadLocal.layout t.memory entries none).1 with
  | none => .returned 127#32 t
  | some l =>
    match RingCreate.create k.ring clearedRing ringEntries t with
    | (false, _, t) => .returned 127#32 t
    | (true, ring, t) =>
      let p := { t.toProcess with memory := storeWords t.memory frame (rootArguments argv envp 0#64 (toInt argumentCount)) }
      match fiberSpawn arch code.toCode
        (some l) rootStackLength code.rootEntry frame k.stack k.block p with
      | (none, p) => .returned 127#32 { t with toProcess := p }
      | (some root, p) =>
        .running ⟨{ t with toProcess := { p with memory := store64 p.memory (frame + 16#64) root } }, auxiliaryVector, l, ring, root⟩

/-- `__libuc_start`: how it goes, and the words its own walk reads. Absent when `fuel` does
not suffice for the walk. -/
def start (arch : Arch) (code : StartCode) (k : StartAnswers) (frame initialStack : Addr)
    (fuel : ℕ) (t : Task) :
    Option (Outcome × List Addr) :=
  let words := initialStack
  let argumentCount := load64 t.memory words
  if intMax < argumentCount.toNat then some (.returned 127#32 t, [words])
  else
    let argv := wordAt words 1#64
    let terminator := wordAt argv argumentCount
    if load64 t.memory terminator ≠ 0#64 then some (.returned 127#32 t, [words, terminator])
    else do
      let envp := wordAt argv (argumentCount + 1#64)
      let (finish, reads) ← environmentEnd t.memory fuel envp
      let entries ← Auxv.entries t.memory fuel (finish + 8#64)
      some (boot arch code k frame argv envp argumentCount (finish + 8#64) entries t,
        words :: terminator :: reads)

/-! ### The root fiber -/

structure MainCall where
  argc : CInt
  argv : Addr
  envp : Addr
  memory : Mem

/-- The loop over `__libuc_init_array`. -/
def initialise (inits : List (Mem → Mem)) (m : Mem) : Mem := inits.foldl (fun m init => init m) m

/-- `root_entry`, up to its call of `main`. -/
def rootEntry (inits : List (Mem → Mem)) (m : Mem) (argument : Addr) : MainCall :=
  let m := initialise inits m
  ⟨load32 m (argument + 24#64), load64 m argument, load64 m (argument + 8#64), m⟩

/-- `run_fiber` on the root, which is what the reactor's first turn resumes. -/
def runRoot (arch : Arch) (code : StartCode) (inits : List (Mem → Mem)) (b : Boot) : Option MainCall :=
  let m := b.task.memory
  if get arch m b.root .entry = code.rootEntry then
    some (rootEntry inits m (get arch m b.root .argument)) else none

/-! ### The initial stack -/

/-- What the kernel writes: the count, the arguments, null, the environment, null, and the
auxiliary vector. -/
def stackWords (args env : List Addr) (aux : List AuxvEntry) : List (BitVec 64) :=
  BitVec.ofNat 64 args.length :: (args ++ 0#64 :: (env ++ 0#64 :: Auxv.words aux))

/-- The words at `a` are the kernel's encoding of these arguments, environment and
auxiliary pairs. -/
structure Encodes (m : Mem) (a : Addr) (args env : List Addr) (aux : List AuxvEntry) : Prop where
  count_le : args.length ≤ intMax
  env_ne : ∀ e ∈ env, e ≠ 0#64
  aux_ne : ∀ e ∈ aux, e.type ≠ atNull
  words : HoldsWords m a (stackWords args env aux)

variable {arch : Arch} {code : StartCode} {k : StartAnswers} {frame a argv envp auxv : Addr}
  {t : Task} {m : Mem} {args env : List Addr} {aux : List AuxvEntry} {fuel : ℕ} {b : Boot}

def envpAt (a : Addr) (args : List Addr) : Addr := a + BitVec.ofNat 64 (8 * (args.length + 2))

def auxvAt (a : Addr) (args env : List Addr) : Addr :=
  a + BitVec.ofNat 64 (8 * (args.length + env.length + 3))

theorem wordAt_ofNat (a : Addr) (i : ℕ) :
    wordAt a (BitVec.ofNat 64 i) = a + BitVec.ofNat 64 (8 * i) := by
  rw [wordAt, Nat.mul_comm 8 i, BitVec.ofNat_mul]

theorem add_words (a : Addr) (i j : ℕ) :
    a + BitVec.ofNat 64 (8 * i) + BitVec.ofNat 64 (8 * j) = a + BitVec.ofNat 64 (8 * (i + j)) := by
  rw [Nat.mul_add, BitVec.ofNat_add, add_assoc]

structure Parts (m : Mem) (a : Addr) (args env : List Addr) (aux : List AuxvEntry) : Prop where
  count : load64 m a = BitVec.ofNat 64 args.length
  argv : HoldsWords m (a + BitVec.ofNat 64 (8 * 1)) (args ++ [0#64])
  envp : HoldsWords m (envpAt a args) (env ++ [0#64])
  auxv : HoldsWords m (auxvAt a args env) (Auxv.words aux)

theorem parts_of_words (h : HoldsWords m a (stackWords args env aux)) : Parts m a args env aux := by
  have happend : stackWords args env aux =
      [BitVec.ofNat 64 args.length] ++ ((args ++ [0#64]) ++ ((env ++ [0#64]) ++ Auxv.words aux)) := by
    simp only [stackWords, List.append_assoc, List.cons_append, List.nil_append]
  rw [happend] at h
  obtain ⟨hcount, hafter⟩ := holdsWords_append.mp h
  obtain ⟨hargv, hafter⟩ := holdsWords_append.mp hafter
  obtain ⟨henvp, hauxv⟩ := holdsWords_append.mp hafter
  have henvpAt : a + BitVec.ofNat 64 (8 * [BitVec.ofNat 64 args.length].length) +
      BitVec.ofNat 64 (8 * (args ++ [0#64]).length) = envpAt a args := by
    have hsum : [BitVec.ofNat 64 args.length].length + (args ++ [0#64]).length = args.length + 2 := by
      simp only [List.length_append, List.length_singleton]
      omega
    rw [add_words, hsum, envpAt]
  have hauxvAt : envpAt a args + BitVec.ofNat 64 (8 * (env ++ [0#64]).length) = auxvAt a args env := by
    have hsum : args.length + 2 + (env ++ [0#64]).length = args.length + env.length + 3 := by
      simp only [List.length_append, List.length_singleton]
      omega
    rw [envpAt, add_words, hsum, auxvAt]
  rw [henvpAt] at henvp hauxv
  rw [hauxvAt] at hauxv
  exact ⟨(holdsWords_cons.mp hcount).1, hargv, henvp, hauxv⟩

theorem stackWords_length :
    (stackWords args env aux).length = args.length + env.length + 3 + (Auxv.words aux).length := by
  simp only [stackWords, List.length_cons, List.length_append]
  omega

/-- The walk stops at the null word that ends the environment. -/
theorem environmentEnd_eq (h : HoldsWords m a (env ++ [0#64])) (hne : ∀ e ∈ env, e ≠ 0#64)
    (hfuel : env.length < fuel) :
    ∃ reads, environmentEnd m fuel a = some (a + BitVec.ofNat 64 (8 * env.length), reads) ∧
      Auxv.Within a (env.length + 1) reads := by
  induction env generalizing a fuel with
  | nil =>
    obtain ⟨fuel, rfl⟩ : ∃ n, fuel = n + 1 := ⟨fuel - 1, by omega⟩
    have hend : load64 m a = 0#64 := (holdsWords_cons.mp h).1
    have hself : a + BitVec.ofNat 64 (8 * 0) = a := by rw [Nat.mul_zero, BitVec.add_zero]
    refine ⟨[a], ?_, fun r hr => ⟨0, Nat.zero_lt_one, ?_⟩⟩
    · rw [environmentEnd, if_pos hend, List.length_nil, hself]
    · rw [List.mem_singleton.mp hr, hself]
  | cons e env ih =>
    rw [List.length_cons] at hfuel
    obtain ⟨fuel, rfl⟩ : ∃ n, fuel = n + 1 := ⟨fuel - 1, by omega⟩
    rw [List.cons_append, holdsWords_cons] at h
    obtain ⟨hhead, hrest⟩ := h
    have hgo : load64 m a ≠ 0#64 := by
      rw [hhead]
      exact hne e List.mem_cons_self
    obtain ⟨reads, hwalk, hwithin⟩ :=
      ih hrest (fun e he => hne e (List.mem_cons_of_mem _ he)) (by omega : env.length < fuel)
    have hend : a + 8#64 + BitVec.ofNat 64 (8 * env.length) =
        a + BitVec.ofNat 64 (8 * (e :: env).length) := by
      rw [List.length_cons, Nat.add_comm env.length 1]
      exact add_words a 1 env.length
    refine ⟨a :: reads, by rw [environmentEnd, if_neg hgo, hwalk, Option.map_some, hend], ?_⟩
    intro r hr
    rcases List.mem_cons.mp hr with rfl | hr
    · exact ⟨0, by omega, by rw [Nat.mul_zero, BitVec.add_zero]⟩
    · rw [List.length_cons]
      exact Auxv.Within.of_part (k := 1) hwithin (by omega) r hr

/-- Startup finds every part of the stack, and reads no word that is not part of it. -/
theorem start_walk (arch : Arch) (code : StartCode) (k : StartAnswers) (frame : Addr)
    (h : Encodes t.memory a args env aux) (hfuel : (stackWords args env aux).length ≤ fuel) :
    ∃ reads, start arch code k frame a fuel t =
        some (boot arch code k frame (a + BitVec.ofNat 64 (8 * 1)) (envpAt a args)
          (BitVec.ofNat 64 args.length) (auxvAt a args env) aux t, reads) ∧
      Auxv.Within a (stackWords args env aux).length reads := by
  obtain ⟨hle, henv, haux, hwords⟩ := h
  obtain ⟨hcount, hargv, henvp, hauxv⟩ := parts_of_words hwords
  have hlength : (stackWords args env aux).length = _ := stackWords_length
  have hauxlen := Auxv.words_length aux
  have hmax : intMax = 2 ^ 31 - 1 := rfl
  have hnat : (BitVec.ofNat 64 args.length).toNat = args.length := by
    rw [BitVec.toNat_ofNat, Nat.mod_eq_of_lt (by omega)]
  have hone : wordAt a 1#64 = a + BitVec.ofNat 64 (8 * 1) := wordAt_ofNat a 1
  have hterm : wordAt (wordAt a 1#64) (BitVec.ofNat 64 args.length) =
      a + BitVec.ofNat 64 (8 * (1 + args.length)) := by
    rw [hone, wordAt_ofNat, add_words]
  have hnull : load64 t.memory (wordAt (wordAt a 1#64) (BitVec.ofNat 64 args.length)) = 0#64 := by
    rw [holdsWords_append, add_words] at hargv
    rw [hterm]
    exact (holdsWords_cons.mp hargv.2).1
  have henvpAt : wordAt (wordAt a 1#64) (BitVec.ofNat 64 args.length + 1#64) = envpAt a args := by
    rw [← BitVec.ofNat_add, hone, wordAt_ofNat, add_words, envpAt,
      show 1 + (args.length + 1) = args.length + 2 by omega]
  have hfuelenv : env.length < fuel := by omega
  obtain ⟨reads, hwalk, hwithin⟩ := environmentEnd_eq henvp henv hfuelenv
  have hauxvAt : envpAt a args + BitVec.ofNat 64 (8 * env.length) + 8#64 = auxvAt a args env := by
    have hsum := add_words a (args.length + 2 + env.length) 1
    rw [envpAt, add_words, auxvAt,
      show args.length + env.length + 3 = args.length + 2 + env.length + 1 by omega]
    exact hsum
  have hentries : Auxv.entries t.memory fuel (auxvAt a args env) = some aux :=
    Auxv.entries_eq hauxv haux (by omega)
  refine ⟨a :: wordAt (wordAt a 1#64) (BitVec.ofNat 64 args.length) :: reads, ?_, ?_⟩
  · have hbound : ¬intMax < args.length := by omega
    simp only [start, hcount, hnat, hbound, if_false, hnull, ne_eq, not_true_eq_false, henvpAt, hwalk, hauxvAt, hentries,
      Option.bind_eq_bind, Option.bind_some]
    rw [hone]
  · intro r hr
    rcases List.mem_cons.mp hr with rfl | hr
    · exact ⟨0, by omega, by rw [Nat.mul_zero, BitVec.add_zero]⟩
    rcases List.mem_cons.mp hr with rfl | hr
    · exact ⟨1 + args.length, by omega, hterm⟩
    · exact hwithin.of_part (by omega) r hr

/-! ### The later steps -/

/-- The frame of `__libuc_start` lies below the initial stack, in the one mapping the
kernel made for both. -/
def StackPlaced (t : Task) (frame a : Addr) (n : ℕ) : Prop :=
  ∃ s ∈ t.mappings, s.base.toNat ≤ frame.toNat ∧ frame.toNat + 32 ≤ a.toNat ∧
    a.toNat + 8 * n ≤ s.base.toNat + s.length.toNat ∧ s.base.toNat + s.length.toNat ≤ 2 ^ 64

structure Answered (arch : Arch) (k : StartAnswers) (aux : List AuxvEntry) (t : Task) : Prop where
  ring : RingCreate.Answered k.ring ringEntries t
  root : ∀ l m, (ThreadLocal.layout t.memory aux none).1 = some l →
    SpawnAnswers arch (some l) rootStackLength
    ⟨m, (RingCreate.create k.ring clearedRing ringEntries t).2.2.mappings⟩ k.stack k.block

def rootProcess (k : StartAnswers) (frame argv envp : Addr) (argumentCount : BitVec 64) (t : Task) :
    Process :=
  let created := (RingCreate.create k.ring clearedRing ringEntries t).2.2
  { created.toProcess with memory := storeWords created.memory frame (rootArguments argv envp 0#64 (toInt argumentCount)) }

/-- The layout, the ring and the root fiber are all to be had. -/
structure Succeeds (arch : Arch) (code : StartCode) (k : StartAnswers) (aux : List AuxvEntry)
    (frame : Addr) (t : Task) (p : Process) (l : Layout) : Prop where
  layout : (ThreadLocal.layout t.memory aux none).1 = some l
  ring : (RingCreate.create k.ring clearedRing ringEntries t).1 = true
  root : (fiberSpawn arch code.toCode
    (some l) rootStackLength code.rootEntry frame k.stack k.block p).1.isSome = true

/-- The root fiber is created, the arguments are in the frame, and the initial stack is as
it was. -/
structure Ready (arch : Arch) (code : StartCode) (frame a argv envp auxv : Addr) (n : ℕ)
    (argumentCount : BitVec 64) (m : Mem) (b : Boot) : Prop where
  auxiliaryVector : b.auxiliaryVector = auxv
  entry : get arch b.task.memory b.root .entry = code.rootEntry
  argument : get arch b.task.memory b.root .argument = frame
  arguments : HoldsWords b.task.memory frame (rootArguments argv envp b.root (toInt argumentCount))
  stack : ∀ x : Addr, a.toNat ≤ x.toNat → x.toNat < a.toNat + 8 * n → b.task.memory x = m x

theorem fiberSpawn_some_mapped {c : Code} {layout : Option Layout} {stackLength : BitVec 64}
    {entry argument root : Addr} {stackAnswer blockAnswer : Long} {p : Process}
    (h : (fiberSpawn arch c layout stackLength entry argument stackAnswer blockAnswer p).1 =
      some root) :
    syscallFailed stackAnswer = false := by
  by_contra hfail
  have hfail : syscallFailed stackAnswer = true := by simpa using hfail
  simp only [fiberSpawn, hfail, if_true] at h
  split_ifs at h

/-- Filling in the root's address leaves the other three words of the structure. -/
theorem rootArguments_fill {root : Addr} {count : CInt} (hfits : frame.toNat + 32 ≤ 2 ^ 64)
    (h : HoldsWords m frame (rootArguments argv envp 0#64 count)) :
    HoldsWords (store64 m (frame + 16#64) root) frame (rootArguments argv envp root count) := by
  have hat : (frame + 16#64).toNat = frame.toNat + 16 := toNat_add_of_fits (i := 16) (by omega)
  have hother : ∀ i < 4, i ≠ 2 →
      load64 (store64 m (frame + 16#64) root) (frame + BitVec.ofNat 64 (8 * i)) =
      load64 m (frame + BitVec.ofNat 64 (8 * i)) := by
    intro i hi hne
    have hi' : (frame + BitVec.ofNat 64 (8 * i)).toNat = frame.toNat + 8 * i :=
      toNat_add_of_fits (by omega)
    refine load64_store64_separate m root (by omega) (by omega) ?_
    unfold Separate
    omega
  intro i hi
  have hi4 : i < 4 := hi
  by_cases h2 : i = 2
  · subst h2
    exact load64_store64 m _ root
  · rw [hother i hi4 h2, h i hi]
    have hcases : i = 0 ∨ i = 1 ∨ i = 3 := by omega
    rcases hcases with rfl | rfl | rfl <;> rfl

/-- What the reactor takes over. -/
theorem boot_running {n : ℕ} {argumentCount : BitVec 64} (hplaced : StackPlaced t frame a n)
    (hanswered : Answered arch k aux t)
    (h : boot arch code k frame argv envp argumentCount auxv aux t = .running b) :
    Ready arch code frame a argv envp auxv n argumentCount t.memory b := by
  obtain ⟨s, hs, hlow, hbelow, hhigh, hend⟩ := hplaced
  unfold boot at h
  split at h
  · exact absurd h nofun
  rename_i l hl
  split at h
  · exact absurd h nofun
  rename_i ring t' hcreate
  have htrue : (RingCreate.create k.ring clearedRing ringEntries t).1 = true := by rw [hcreate]
  obtain ⟨hmemory, hmappings⟩ := RingCreate.create_true hanswered.ring htrue
  have hroot := hanswered.root l
      (storeWords t'.memory frame (rootArguments argv envp 0#64 (toInt argumentCount))) hl
  rw [hcreate] at hmemory hmappings hroot
  simp only at hmemory hmappings hroot h
  split at h
  · exact absurd h nofun
  rename_i root p' hspawn
  obtain ⟨hcase, hkept⟩ := fiberSpawn_cases arch code.toCode
      (some l) rootStackLength code.rootEntry frame k.stack k.block _ hroot
  have hmapped : syscallFailed k.stack = false := fiberSpawn_some_mapped (congrArg Prod.fst hspawn)
  rw [hspawn] at hcase hkept
  obtain ⟨hnone, -⟩ | ⟨g, hg, hstack, hcreated⟩ := hcase
  · exact absurd hnone nofun
  obtain rfl : root = g.fiber := Option.some.inj hg
  obtain ⟨-, hapart⟩ := hroot.1.resolve_left (by rw [hmapped]; decide)
  have hsep : Separate s.base s.length.toNat g.stack.base g.stack.length.toNat := by
    rw [hstack]
    exact hapart s (hmappings hs)
  simp only [Outcome.running.injEq] at h
  subst h
  have hframe : (frame + 16#64).toNat = frame.toNat + 16 := toNat_add_of_fits (i := 16) (by omega)
  -- the mapping of the initial stack is left alone by the creation of the root
  have hsame : ∀ x : Addr, s.base.toNat ≤ x.toNat → x.toNat < s.base.toNat + s.length.toNat →
      p'.memory x =
        storeWords t.memory frame (rootArguments argv envp 0#64 (toInt argumentCount)) x := by
    intro x hx hx'
    rw [← hmemory]
    exact hkept s (hmappings hs) x hx hx'
  have hfits :
      frame.toNat + 8 * (rootArguments argv envp 0#64 (toInt argumentCount)).length ≤ 2 ^ 64 := by
    simp only [rootArguments, List.length_cons, List.length_nil]
    omega
  have hfield : ∀ field, get arch (store64 p'.memory (frame + 16#64) g.fiber) g.fiber field =
      get arch p'.memory g.fiber field := by
    obtain ⟨hin, hin'⟩ := hcreated.inside
    have hends := hcreated.ends
    refine get_congr (by omega) fun x hx hx' => store64_outside _ _ (by omega) ?_
    have hout : Outside s.base s.length.toNat x := hsep.symm.cell (by omega) (by omega)
    exact hout.imp (fun h => by omega) fun h => by omega
  refine ⟨rfl, ?_, ?_, ?_, ?_⟩
  · exact (hfield .entry).trans hcreated.start.1
  · exact (hfield .argument).trans hcreated.start.2
  · refine rootArguments_fill (by omega)
      ((holdsWords_storeWords t.memory hfits).congr hfits fun x hx hx' => ?_)
    simp only [rootArguments, List.length_cons, List.length_nil] at hx'
    exact hsame x (by omega) (by omega)
  · intro x hx hx'
    simp only
    rw [store64_outside _ _ (by omega) (.inr (by omega)), hsame x (by omega) (by omega)]
    refine storeWords_outside _ _ hfits (.inr ?_)
    simp only [rootArguments, List.length_cons, List.length_nil]
    omega

theorem boot_of_succeeds {argumentCount : BitVec 64} {l : Layout}
    (h : Succeeds arch code k aux frame t (rootProcess k frame argv envp argumentCount t) l) :
    ∃ b, boot arch code k frame argv envp argumentCount auxv aux t = .running b := by
  obtain ⟨hlayout, hring, hroot⟩ := h
  unfold boot
  rw [hlayout]
  simp only
  split
  · rename_i hcreate
    rw [hcreate] at hring
    exact absurd hring Bool.false_ne_true
  · rename_i ring t' hcreate
    simp only [rootProcess, hcreate] at hroot
    split
    · rename_i hspawn
      rw [hspawn] at hroot
      exact absurd hroot Bool.false_ne_true
    · exact ⟨_, rfl⟩

/-! ### What `main` is handed -/

/-- The initialisers leave alone the frame of `__libuc_start` and the initial stack, of
which they are given no address. -/
def Spares (inits : List (Mem → Mem)) (frame a : Addr) (n : ℕ) : Prop :=
  ∀ init ∈ inits, ∀ (m : Mem) (x : Addr), frame.toNat ≤ x.toNat ∧ x.toNat < frame.toNat + 32 ∨
    a.toNat ≤ x.toNat ∧ x.toNat < a.toNat + 8 * n → init m x = m x

theorem initialise_spared {inits : List (Mem → Mem)} {n : ℕ} (h : Spares inits frame a n)
    (m : Mem) {x : Addr}
    (hx : frame.toNat ≤ x.toNat ∧ x.toNat < frame.toNat + 32 ∨ a.toNat ≤ x.toNat ∧
      x.toNat < a.toNat + 8 * n) :
    initialise inits m x = m x := by
  induction inits generalizing m with
  | nil => rfl
  | cons init inits ih =>
    have hrest : Spares inits frame a n := fun init hinit => h init (List.mem_cons_of_mem _ hinit)
    exact (ih hrest (init m)).trans (h init List.mem_cons_self m x hx)

/-- `main` is called with the count, the arguments and the environment. -/
structure Handed (call : MainCall) (args env : List Addr) : Prop where
  argc : call.argc.toInt = args.length
  argv : HoldsWords call.memory call.argv (args ++ [0#64])
  envp : HoldsWords call.memory call.envp (env ++ [0#64])

/-- Both lookups give the value of the first pair of a type and fail exactly when there is
none, reading no word but the `n` from `a` on. -/
structure Decodes (m : Mem) (auxiliaryVector a : Addr) (n fuel : ℕ) (aux : List AuxvEntry) : Prop where
  get : ∀ type, ∃ reads, Auxv.get m type fuel auxiliaryVector = some (Auxv.first aux type, reads) ∧
    Auxv.Within a n reads
  getauxval : ∀ type errno, Auxv.getauxval m auxiliaryVector type errno fuel =
    some (match Auxv.first aux type with | none => (0#64, Auxv.enoent) | some value => (value, errno))
  fails : ∀ type, Auxv.first aux type = none ↔ ∀ e ∈ aux, e.type ≠ type

theorem decodes_of_words (hwords : HoldsWords m a (stackWords args env aux))
    (haux : ∀ e ∈ aux, e.type ≠ atNull) (hfuel : (stackWords args env aux).length ≤ fuel) :
    Decodes m (auxvAt a args env) a (stackWords args env aux).length fuel aux := by
  have hauxv := (parts_of_words hwords).auxv
  have hlength : (stackWords args env aux).length = _ := stackWords_length
  have hauxlen := Auxv.words_length aux
  refine ⟨fun type => ?_, fun type errno => ?_, fun type => Auxv.first_eq_none⟩
  · have hfuelaux : aux.length < fuel := by omega
    obtain ⟨reads, hget, hwithin⟩ := Auxv.get_eq_first type hauxv haux hfuelaux
    exact ⟨reads, hget, hwithin.of_part (by omega)⟩
  · exact Auxv.getauxval_eq_first type errno hauxv haux (by omega)

/-- The first turn of the root calls `main` with what the stack encodes. -/
theorem runRoot_handed {inits : List (Mem → Mem)} (henc : Encodes m a args env aux)
    (hplaced : StackPlaced t frame a (stackWords args env aux).length)
    (hinits : Spares inits frame a (stackWords args env aux).length)
    (h : Ready arch code frame a (a + BitVec.ofNat 64 (8 * 1)) (envpAt a args) auxv
      (stackWords args env aux).length
      (BitVec.ofNat 64 args.length) m b) :
    ∃ call, runRoot arch code inits b = some call ∧ Handed call args env ∧
      HoldsWords call.memory a (stackWords args env aux) := by
  obtain ⟨s, -, hlow, hbelow, hhigh, hend⟩ := hplaced
  obtain ⟨-, hentry, hargument, harguments, hstack⟩ := h
  have hwords : HoldsWords (initialise inits b.task.memory) a (stackWords args env aux) :=
    henc.words.congr (by omega) fun x hx hx' =>
      (initialise_spared hinits _ (.inr ⟨hx, hx'⟩)).trans (hstack x hx hx')
  have hframe : HoldsWords (initialise inits b.task.memory) frame
      (rootArguments (a + BitVec.ofNat 64 (8 * 1)) (envpAt a args) b.root
        (toInt (BitVec.ofNat 64 args.length))) :=
    harguments.congr (show frame.toNat + 8 * 4 ≤ 2 ^ 64 by omega) fun x hx hx' =>
      initialise_spared hinits _ (.inl ⟨hx, hx'⟩)
  obtain ⟨hargv, hrest⟩ := holdsWords_cons.mp hframe
  obtain ⟨henvp, hrest⟩ := holdsWords_cons.mp hrest
  obtain ⟨-, hrest⟩ := holdsWords_cons.mp hrest
  obtain ⟨hcount, -⟩ := holdsWords_cons.mp hrest
  have hparts := parts_of_words hwords
  have hmax : intMax = 2 ^ 31 - 1 := rfl
  have hle := henc.count_le
  have hargc : load32 (initialise inits b.task.memory) (frame + 24#64) =
      BitVec.ofNat 32 args.length := by
    have hat : frame + 8#64 + 8#64 + 8#64 = frame + 24#64 := by
      rw [add_assoc, add_assoc]
      rfl
    rw [hat] at hcount
    rw [load32_eq_setWidth, hcount, toInt, ← BitVec.toNat_inj]
    simp only [BitVec.toNat_setWidth, BitVec.toNat_ofNat]
    omega
  refine ⟨rootEntry inits b.task.memory frame, ?_, ⟨?_, ?_, ?_⟩, hwords⟩
  · simp only [runRoot, hentry, hargument, if_true]
  · simp only [rootEntry, hargc]
    rw [BitVec.toInt_ofNat', Int.bmod_eq_of_le (by omega) (by omega)]
  · simp only [rootEntry, hargv]
    exact hparts.argv
  · simp only [rootEntry, henvp]
    exact hparts.envp

/-- A count that is not an `int`, or a word where the arguments should end. -/
def Malformed (m : Mem) (a : Addr) : Prop :=
  intMax < (load64 m a).toNat ∨ load64 m (wordAt (wordAt a 1#64) (load64 m a)) ≠ 0#64

/-- Startup decodes every initial stack. The walk reads encoded words only, `main` is
handed the count, the arguments and the environment, and from then on the auxiliary vector
answers with the first pair of a type. A malformed stack is rejected with status 127
before anything is acquired. -/
theorem start_decodes_initial_stack :
    (∀ (arch : Arch) (code : StartCode) (k : StartAnswers) (frame a : Addr) (fuel : ℕ) (t : Task)
      (inits : List (Mem → Mem)) (args env : List Addr) (aux : List AuxvEntry),
      Encodes t.memory a args env aux → StackPlaced t frame a (stackWords args env aux).length →
      Answered arch k aux t → Spares inits frame a (stackWords args env aux).length →
      (stackWords args env aux).length ≤ fuel →
      ∃ outcome reads, start arch code k frame a fuel t = some (outcome, reads) ∧
        Auxv.Within a (stackWords args env aux).length reads ∧
        (∀ l, Succeeds arch code k aux frame t
          (rootProcess k frame (a + 8#64) (envpAt a args) (BitVec.ofNat 64 args.length) t) l →
          ∃ b, outcome = .running b) ∧
        ∀ b, outcome = .running b →
          (∃ call, runRoot arch code inits b = some call ∧ Handed call args env ∧
            HoldsWords call.memory a (stackWords args env aux)) ∧
          ∀ m, HoldsWords m a (stackWords args env aux) →
            Decodes m b.auxiliaryVector a (stackWords args env aux).length fuel aux) ∧
    ∀ (arch : Arch) (code : StartCode) (k : StartAnswers) (frame a : Addr) (fuel : ℕ) (t : Task),
      Malformed t.memory a → ∃ reads,
      start arch code k frame a fuel t = some (.returned 127#32 t, reads) := by
  constructor
  · intro arch code k frame a fuel t inits args env aux henc hplaced hanswered hinits hfuel
    obtain ⟨reads, hstart, hwithin⟩ := start_walk arch code k frame henc hfuel
    refine ⟨_, reads, hstart, hwithin, fun l hl => boot_of_succeeds hl, fun b hb => ?_⟩
    have hready := boot_running hplaced hanswered hb
    refine ⟨runRoot_handed henc hplaced hinits hready, fun m hm => ?_⟩
    rw [hready.auxiliaryVector]
    exact decodes_of_words hm henc.aux_ne hfuel
  · intro arch code k frame a fuel t hbad
    unfold start
    by_cases hcount : intMax < (load64 t.memory a).toNat
    · exact ⟨_, if_pos hcount⟩
    · have hterm := hbad.resolve_left hcount
      exact ⟨_, (if_neg hcount).trans (if_pos hterm)⟩

/-! ### The reactor -/

/-- The scheduler of startup: cleared, and on the ring that was created. -/
def scheduler {r : RingRecord} {t : Task} (h : RingCreate.Built r t) {shift : ℕ}
    (hshift : r.cqEntries.toNat = 2 ^ shift) :
    Scheduler.State := Scheduler.become (RingCreate.view r (h.geometry hshift) t.memory)

/-- With the root enqueued, startup hands over to the reactor in a state that its runs
start from. -/
theorem scheduler_launch_reachable (kernel : Scheduler.Kernel) (hlimit : 0 < kernel.mapLimit)
    {r : RingRecord} {t : Task}
    (h : RingCreate.Built r t) {shift : ℕ} (hshift : r.cqEntries.toNat = 2 ^ shift)
    (hcounters : load32 t.memory r.cqTail = load32 t.memory r.cqHead) {root : Addr}
    (hroot : root ≠ 0#64) (spawn : SpawnRequest) :
    ∃ s, Scheduler.step (scheduler h hshift) (.launch root spawn) = some s ∧ s.readyHead = some root ∧
      Scheduler.Reachable kernel s := by
  have hfresh : Scheduler.Fresh kernel (scheduler h hshift) root := by
    refine ⟨hroot, rfl, ?_⟩
    have hempty : (scheduler h hshift).mapped = ∅ := by
      ext x
      simp [Scheduler.State.mapped, scheduler, Scheduler.become]
    rw [hempty, Set.ncard_empty]
    exact hlimit
  refine ⟨_, rfl, ?_, ?_⟩
  · simp [Scheduler.State.settle, Scheduler.State.enqueue, Scheduler.State.modifyFiber,
      Scheduler.State.fiber,
      Scheduler.State.record, Scheduler.State.spawn, scheduler, Scheduler.become, bind, Except.bind,
      pure, Except.pure]
  · refine ⟨h.geometry hshift, t.memory, load32 t.memory r.cqHead, RingCreate.cqeAt r t.memory, ?_⟩
    rw [← h.view_created hshift hcounters]
    exact .single (.mk (.launch root spawn) hfresh rfl)

/-- One argument, one variable, and a program header table without thread-local data. -/
def sampleAux : List AuxvEntry := [⟨atPhdr, 0x400040#64⟩, ⟨atPhent, 56#64⟩, ⟨atPhnum, 1#64⟩]

def sampleWords : List (BitVec 64) := stackWords [0x7ffff0001000#64] [0x7ffff0002000#64] sampleAux

/-- The initial stack at `0x7ffff0000800` in its mapping, and the mask word 2047 of the
ring to come. -/
def sampleTask : Task :=
  ⟨⟨storeWords (fun x => if x = 0x7f0000000014#64 then 0xff#8 else if x =
    0x7f0000000015#64 then 0x7#8 else 0#8)
    0x7ffff0000800#64 sampleWords, {⟨0x7ffff0000000#64, 0x20000#64⟩}⟩, {0#32, 1#32, 2#32}⟩

def sampleAnswers : StartAnswers :=
  ⟨RingCreate.sampleAnswers 0x7f0000000000#64 0x7f0000010000#64, 0x7f1000000000#64, 0x7f2000000000#64⟩

def sampleCode : StartCode := ⟨Libuc.sampleCode, 0x402000#64⟩

theorem sample_layout : (ThreadLocal.layout sampleTask.memory sampleAux none).1 = some noLayout := by
  rfl

theorem sample_ring_completes : RingCreate.Completes sampleAnswers.ring
    (sampleAnswers.ring.setup ringEntries RingCreate.asked).2 sampleTask.memory :=
  ⟨by decide, by decide, by decide, by decide⟩

theorem sample_create :
    (RingCreate.create sampleAnswers.ring clearedRing ringEntries sampleTask).1 = true ∧
      (RingCreate.create sampleAnswers.ring clearedRing ringEntries sampleTask).2.2.mappings =
        {⟨0x7f0000010000#64, 65536#64⟩, ⟨0x7f0000000000#64, 32832#64⟩, ⟨0x7ffff0000000#64, 0x20000#64⟩} := by
  rw [RingCreate.create_completed (by decide) sample_ring_completes]
  exact ⟨rfl, rfl⟩

/-- The kernel answers startup with five places apart from each other. -/
theorem sample_answered (arch : Arch) : Answered arch sampleAnswers sampleAux sampleTask := by
  constructor
  · refine ⟨fun _ => by decide, fun _ =>
      ⟨.inr ⟨⟨by decide, by decide⟩, fun m hm => ?_⟩, fun _ => by decide⟩,
      fun _ _ => ⟨.inr ⟨⟨by decide, by decide⟩, fun m hm => ?_⟩, fun _ => by decide⟩⟩
    · rw [Finset.mem_singleton.mp hm]
      exact .inr (by decide)
    · have hmem : m ∈
          ({⟨0x7f0000000000#64, 32832#64⟩, ⟨0x7ffff0000000#64, 0x20000#64⟩} : Finset Mapping) := hm
      rcases Finset.mem_insert.mp hmem with rfl | hmem
      · exact .inl (by decide)
      · rw [Finset.mem_singleton.mp hmem]
        exact .inr (by decide)
  · intro l m hl
    obtain rfl : l = noLayout := by
      rw [sample_layout] at hl
      exact (Option.some.inj hl).symm
    rw [sample_create.2]
    have hlength : (plan arch noLayout).all (fun pl => pl.mappingLength.toNat ≤ 4096) = true := by
      cases arch <;> decide +kernel
    refine ⟨.inr ⟨⟨by decide, by decide⟩, fun m' hm' => ?_⟩, fun l' pl hl' hp => .inr ?_⟩
    · have hmem : m' ∈ ({⟨0x7f0000010000#64, 65536#64⟩, ⟨0x7f0000000000#64, 32832#64⟩,
          ⟨0x7ffff0000000#64, 0x20000#64⟩} : Finset Mapping) := hm'
      simp only [Finset.mem_insert, Finset.mem_singleton] at hmem
      rcases hmem with rfl | rfl | rfl
      · exact .inl (by decide)
      · exact .inl (by decide)
      · exact .inr (by decide)
    cases hl'
    have hle : pl.mappingLength.toNat ≤ 4096 := by
      rw [hp] at hlength
      simpa using hlength
    refine ⟨⟨by decide, ?_⟩, fun m' hm' => ?_⟩
    · have hbase : sampleAnswers.block.toNat = 0x7f2000000000 := rfl
      omega
    · have hmem : m' ∈ ({⟨0x7f1000000000#64, rootStackLength⟩, ⟨0x7f0000010000#64, 65536#64⟩,
          ⟨0x7f0000000000#64, 32832#64⟩, ⟨0x7ffff0000000#64, 0x20000#64⟩} : Finset Mapping) := hm'
      have hbase : sampleAnswers.block.toNat = 0x7f2000000000 := rfl
      simp only [Finset.mem_insert, Finset.mem_singleton] at hmem
      rcases hmem with rfl | rfl | rfl | rfl
      · exact .inl (by decide)
      · exact .inl (by decide)
      · exact .inl (by decide)
      · exact .inr (by simp only [hbase, BitVec.toNat_ofNat]; omega)

/-- On this stack the root is started and `main` is called with one argument, and a stack
of zeros with a count of `2 ^ 31` is rejected. -/
theorem start_decodes_sample :
    (∃ b reads, start .x8664 sampleCode sampleAnswers 0x7ffff0000400#64 0x7ffff0000800#64 12 sampleTask =
        some (.running b, reads) ∧
      ∃ call, runRoot .x8664 sampleCode [] b = some call ∧
      Handed call [0x7ffff0001000#64] [0x7ffff0002000#64]) ∧
    ∃ reads, start .x8664 sampleCode sampleAnswers 0x400#64 0x800#64 0
        ⟨⟨store64 (fun _ => 0#8) 0x800#64 0x80000000#64, ∅⟩, ∅⟩ =
      some (.returned 127#32 ⟨⟨store64 (fun _ => 0#8) 0x800#64 0x80000000#64, ∅⟩, ∅⟩, reads) := by
  constructor
  · have henc : Encodes sampleTask.memory 0x7ffff0000800#64 [0x7ffff0001000#64]
        [0x7ffff0002000#64] sampleAux :=
      ⟨by decide, by simp, by decide, holdsWords_storeWords _ (by decide)⟩
    have hplaced : StackPlaced sampleTask 0x7ffff0000400#64 0x7ffff0000800#64 sampleWords.length :=
      ⟨_, Finset.mem_singleton_self _, by decide, by decide, by decide, by decide⟩
    obtain ⟨outcome, reads, hstart, -, hruns, hhanded⟩ :=
      start_decodes_initial_stack.1 .x8664 sampleCode sampleAnswers
      0x7ffff0000400#64 0x7ffff0000800#64 12 sampleTask [] _ _ _ henc hplaced (sample_answered .x8664)
      (fun _ h => absurd h List.not_mem_nil) (by decide)
    obtain ⟨b, rfl⟩ := hruns noLayout ⟨sample_layout, sample_create.1, by decide +kernel⟩
    obtain ⟨⟨call, hcall, hmain, -⟩, -⟩ := hhanded b rfl
    exact ⟨b, reads, hstart, call, hcall, hmain⟩
  · refine start_decodes_initial_stack.2 .x8664 sampleCode sampleAnswers 0x400#64 0x800#64 0 _ (.inl ?_)
    simp only [load64_store64]
    decide

end Start

end Libuc
