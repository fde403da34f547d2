import Mathlib.Algebra.Ring.Nat
import Mathlib.Data.List.Nodup
import Mathlib.Logic.Function.Basic
import Xv6Signals.Lib.Machine

namespace Xv6Signals
open Lib Function

inductive KernelPanic
  | popcliInterruptible | popcli | acquire | release | schedLocks | schedInterruptible
  | zombieExit
  deriving DecidableEq

structure Core where
  ncli : Int
  intena : Bool
  flag : Bool
  deriving DecidableEq

inductive Instr (Lock : Type)
  -- pushcli reads the flags, clears the flag and counts
  | pushcli
  | cli (eflags : Bool)
  | count (eflags : Bool)
  | popcli
  -- holding reads the lock between a pushcli and a popcli, and its caller tests the result
  | holding (lk : Lock) (expected : Bool) (msg : KernelPanic)
  | check (passes : Bool) (msg : KernelPanic)
  | xchg (lk : Lock)
  | clear (lk : Lock)
  -- sched makes its checks and reads intena, switches away, and puts intena back
  | sched
  | swtch (intena : Bool)
  | restore (intena : Bool)
  -- code of the kernel that is free to call the functions of this module: what was pushed when it
  -- was entered, the locks it has acquired, what it has pushed besides, and the interrupt flag at
  -- its last call with nothing held
  | enter (base : Nat)
  | code (base : Nat) (held : List Lock) (pushes : Nat) (before : Bool)
  | waitEnd
  | zombie
  | iret
  | sti
  | pick
  | panic (msg : KernelPanic)
  deriving DecidableEq

namespace Instr

variable {Lock : Type}

def acquire (lk : Lock) : List (Instr Lock) :=
  [pushcli, pushcli, holding lk false .acquire, xchg lk]

def release (lk : Lock) : List (Instr Lock) := [pushcli, holding lk true .release, clear lk, popcli]

def myproc : List (Instr Lock) := [pushcli, popcli]

def callSched : List (Instr Lock) := myproc ++ [sched]

def yield : List (Instr Lock) := pushcli :: myproc ++ callSched ++ [popcli]

def sleep [DecidableEq Lock] (ptableLock lk : Lock) : List (Instr Lock) :=
  myproc ++ pushcli :: (if lk = ptableLock then [] else release lk) ++ callSched ++ acquire lk ++
    [popcli]

def wait : List (Instr Lock) := myproc ++ [pushcli, enter 1, waitEnd]

def exit : List (Instr Lock) := [pushcli, zombie, enter 1] ++ callSched ++ [panic .zombieExit]

def forkret : List (Instr Lock) := [popcli, enter 0]

def pass : List (Instr Lock) := [enter 1, pick]

def scheduler : List (Instr Lock) := sti :: pushcli :: pass

end Instr

/-- What a CPU does next: go on, take an interrupt, or make one of the calls that are open to it. -/
inductive KernelChoice (Lock : Type)
  | go | interrupt | pushcli | popcli
  | acquire (lk : Lock)
  | release (lk : Lock)
  | yield
  | sleep (lk : Lock)
  | wait | exit | ret | trapret | again
  | fork (p : Nat)
  | run (p : Nat)
  deriving DecidableEq

inductive ThreadStatus
  | unused | parked | running | dying | zombie
  deriving DecidableEq

structure Thread (Lock : Type) where
  status : ThreadStatus
  code : List (Instr Lock)

/-- The CPUs with the process each runs and the stack of its scheduler, the stacks of the processes,
and the CPU that holds each lock. -/
structure Kernel (Cpu Lock : Type) where
  core : Cpu → Core
  proc : Cpu → Option Nat
  scheduler : Cpu → List (Instr Lock)
  threads : Nat → Thread Lock
  lock : Lock → Option Cpu

structure KernelLabel (Cpu Lock : Type) where
  cpu : Cpu
  choice : KernelChoice Lock

variable {Cpu Lock : Type} [DecidableEq Cpu] {s : Kernel Cpu Lock}

def Kernel.code (s : Kernel Cpu Lock) (c : Cpu) : List (Instr Lock) :=
  match s.proc c with
  | some p => (s.threads p).code
  | none => s.scheduler c

def Kernel.setCode (s : Kernel Cpu Lock) (c : Cpu) (k : List (Instr Lock)) : Kernel Cpu Lock :=
  match s.proc c with
  | some p => { s with threads := update s.threads p { s.threads p with code := k } }
  | none => { s with scheduler := update s.scheduler c k }

def Kernel.setCore (s : Kernel Cpu Lock) (c : Cpu) (x : Core) : Kernel Cpu Lock :=
  { s with core := update s.core c x }

section

variable (s) (c : Cpu) (k : List (Instr Lock))

@[simp] theorem setCode_self : (s.setCode c k).code c = k := by
  unfold Kernel.setCode
  split <;> rename_i hp <;> simp only [Kernel.code, hp, update_self]

@[simp] theorem setCode_core : (s.setCode c k).core = s.core := by
  unfold Kernel.setCode
  split <;> rfl

@[simp] theorem setCode_lock : (s.setCode c k).lock = s.lock := by
  unfold Kernel.setCode
  split <;> rfl

@[simp] theorem setCode_proc : (s.setCode c k).proc = s.proc := by
  unfold Kernel.setCode
  split <;> rfl

@[simp] theorem setCode_status (p : Nat) :
    ((s.setCode c k).threads p).status = (s.threads p).status := by
  unfold Kernel.setCode
  split
  · rename_i q _
    by_cases hpq : p = q
    · subst hpq
      simp only [update_self]
    · simp only [update_of_ne hpq]
  · rfl

end

theorem setCode_of_ne {c c' : Cpu} {k : List (Instr Lock)}
    (hi : ∀ c c' p, s.proc c = some p → s.proc c' = some p → c = c') (hc : c' ≠ c) :
    (s.setCode c k).code c' = s.code c' := by
  unfold Kernel.setCode
  split
  · rename_i p hp
    simp only [Kernel.code]
    split
    · rename_i q hq
      have hpq : q ≠ p := by
        rintro rfl
        exact hc (hi c' c q hq hp)
      rw [update_of_ne hpq]
    · rfl
  · simp only [Kernel.code]
    split
    · rfl
    · exact update_of_ne hc ..

theorem setCode_scheduler {c c' : Cpu} {p : Nat} (k : List (Instr Lock)) (hp : s.proc c' = some p) :
    (s.setCode c k).scheduler c' = s.scheduler c' := by
  unfold Kernel.setCode
  split
  · rfl
  · rename_i hc
    refine update_of_ne ?_ ..
    rintro rfl
    cases hc.symm.trans hp

theorem setCode_threads {c : Cpu} {p : Nat} (k : List (Instr Lock))
    (hp : s.proc c ≠ some p) : (s.setCode c k).threads p = s.threads p := by
  unfold Kernel.setCode
  split
  · rename_i q hq
    refine update_of_ne ?_ ..
    rintro rfl
    exact hp hq
  · rfl

variable [DecidableEq Lock]

def Instr.exec (lock : Lock → Option Cpu) (c : Cpu) (x : Core) (k : List (Instr Lock)) :
    Instr Lock → Option (Core × List (Instr Lock))
  | .pushcli => some (x, .cli x.flag :: k)
  | .cli eflags => some ({ x with flag := false }, .count eflags :: k)
  | .count eflags =>
    some ({ x with ncli := x.ncli + 1, intena := if x.ncli = 0 then eflags else x.intena }, k)
  | .popcli =>
    if x.flag then some (x, .panic .popcliInterruptible :: k)
    else if x.ncli - 1 < 0 then some ({ x with ncli := x.ncli - 1 }, .panic .popcli :: k)
    else some ({ x with ncli := x.ncli - 1, flag := x.ncli - 1 = 0 && x.intena }, k)
  | .holding lk expected msg =>
    some (x, .popcli :: .check ((lock lk = some c) == expected) msg :: k)
  | .check passes msg => some (x, if passes then k else .panic msg :: k)
  | .sched =>
    if x.ncli ≠ 1 then some (x, .panic .schedLocks :: k)
    else if x.flag then some (x, .panic .schedInterruptible :: k)
    else some (x, .swtch x.intena :: k)
  | .restore intena => some ({ x with intena := intena }, k)
  | .enter base => some (x, .code base [] 0 x.flag :: k)
  | .waitEnd => some (x, .popcli :: k)
  | .iret | .sti => some ({ x with flag := true }, k)
  | .pick => some (x, .popcli :: Instr.scheduler)
  | _ => none

/-- The calls that kernel code makes; those of a process have a process to run in. -/
def Instr.call (ptableLock : Lock) (process : Bool) (x : Core) (k : List (Instr Lock)) :
    Instr Lock → KernelChoice Lock → Option (Core × List (Instr Lock))
  | .code base held pushes before, choice =>
    -- the flag is recorded when nothing is held
    let before := if base = 0 ∧ held = [] ∧ pushes = 0 then x.flag else before
    let stays := .code base held pushes before :: k
    match choice with
    | .pushcli => some (x, .pushcli :: .code base held (pushes + 1) before :: k)
    | .popcli => some (x, .popcli :: .code base held (pushes - 1) before :: k)
    | .acquire lk => some (x, Instr.acquire lk ++ .code base (lk :: held) pushes before :: k)
    | .release lk => some (x, Instr.release lk ++ .code base (held.erase lk) pushes before :: k)
    | .yield => if process then some (x, Instr.yield ++ stays) else none
    | .sleep lk => if process then some (x, Instr.sleep ptableLock lk ++ stays) else none
    | .wait => if process then some (x, Instr.wait ++ stays) else none
    | .exit => if process then some (x, Instr.exit) else none
    | .ret => if held = [] ∧ pushes = 0 then some (x, k) else none
    | .trapret =>
      if base = 0 ∧ held = [] ∧ pushes = 0 ∧ k = [] then
        some ({ x with flag := true }, [.code 0 [] 0 true])
      else none
    | _ => none
  | .waitEnd, .again => some (x, Instr.callSched ++ .enter 1 :: .waitEnd :: k)
  | _, _ => none

def kernelStep (ptableLock : Lock) (s : Kernel Cpu Lock) (l : KernelLabel Cpu Lock) :
    Option (Kernel Cpu Lock) :=
  let c := l.cpu
  match s.code c with
  | [] => none
  | i :: k =>
    match i, l.choice with
    | i, .interrupt =>
      if (s.core c).flag then
        some ((s.setCore c { s.core c with flag := false }).setCode c
          (.enter 0 :: .iret :: i :: k))
      else none
    | .xchg lk, .go =>
      if s.lock lk = none then
        some ({ s with lock := update s.lock lk (some c) }.setCode c k)
      else some s
    | .clear lk, .go => some ({ s with lock := update s.lock lk none }.setCode c k)
    | .zombie, .go =>
      (s.proc c).map fun p => { s with threads := update s.threads p ⟨.dying, k⟩ }
    | .swtch intena, .go =>
      (s.proc c).map fun p =>
        { s with
          proc := update s.proc c none
          threads := update s.threads p
            ⟨if (s.threads p).status = .dying then .zombie else .parked, .restore intena :: k⟩ }
    | i, .go =>
      (i.exec s.lock c (s.core c) k).map fun y => (s.setCore c y.1).setCode c y.2
    | .pick, .run p =>
      if s.proc c = none ∧ (s.threads p).status = .parked then
        some { s with
          proc := update s.proc c (some p)
          scheduler := update s.scheduler c Instr.pass
          threads := update s.threads p ⟨.running, (s.threads p).code⟩ }
      else none
    | .code _ _ _ _, .fork p =>
      if s.proc c ≠ none ∧ (s.threads p).status = .unused then
        some { s with threads := update s.threads p ⟨.parked, Instr.forkret⟩ }
      else none
    | i, choice =>
      (i.call ptableLock (s.proc c).isSome (s.core c) k choice).map
        fun y => (s.setCore c y.1).setCode c y.2

inductive KernelStep (ptableLock : Lock) (s : Kernel Cpu Lock) (c : Cpu) (i : Instr Lock)
    (k : List (Instr Lock)) : KernelChoice Lock → Kernel Cpu Lock → Prop
  | interrupt : (s.core c).flag = true → KernelStep ptableLock s c i k .interrupt
      ((s.setCore c { s.core c with flag := false }).setCode c (.enter 0 :: .iret :: i :: k))
  | xchg {lk : Lock} : i = .xchg lk → s.lock lk = none → KernelStep ptableLock s c i k .go
      ({ s with lock := update s.lock lk (some c) }.setCode c k)
  | spin : KernelStep ptableLock s c i k .go s
  | clear {lk : Lock} : i = .clear lk → KernelStep ptableLock s c i k .go
      ({ s with lock := update s.lock lk none }.setCode c k)
  | zombie {p : Nat} : i = .zombie → s.proc c = some p → KernelStep ptableLock s c i k .go
      { s with threads := update s.threads p ⟨.dying, k⟩ }
  | swtch {intena : Bool} {p : Nat} : i = .swtch intena → s.proc c = some p →
      KernelStep ptableLock s c i k .go
      { s with
        proc := update s.proc c none
        threads := update s.threads p
          ⟨if (s.threads p).status = .dying then .zombie else .parked, .restore intena :: k⟩ }
  | exec {x : Core} {k' : List (Instr Lock)} : i.exec s.lock c (s.core c) k = some (x, k') →
      KernelStep ptableLock s c i k .go ((s.setCore c x).setCode c k')
  | run {p : Nat} : i = .pick → s.proc c = none → (s.threads p).status = .parked →
      KernelStep ptableLock s c i k (.run p)
      { s with
        proc := update s.proc c (some p)
        scheduler := update s.scheduler c Instr.pass
        threads := update s.threads p ⟨.running, (s.threads p).code⟩ }
  | fork {p : Nat} : (s.threads p).status = .unused → KernelStep ptableLock s c i k (.fork p)
      { s with threads := update s.threads p ⟨.parked, Instr.forkret⟩ }
  | call {choice : KernelChoice Lock} {x : Core} {k' : List (Instr Lock)} :
      i.call ptableLock (s.proc c).isSome (s.core c) k choice = some (x, k') →
      KernelStep ptableLock s c i k choice ((s.setCore c x).setCode c k')

theorem kernelStep_cases {ptableLock : Lock} {s t : Kernel Cpu Lock} {l : KernelLabel Cpu Lock}
    (h : kernelStep ptableLock s l = some t) :
    ∃ i k, s.code l.cpu = i :: k ∧ KernelStep ptableLock s l.cpu i k l.choice t := by
  unfold kernelStep at h
  simp only at h
  split at h
  · cases h
  rename_i i k hk
  refine ⟨i, k, hk, ?_⟩
  split at h <;> rename_i hch
  · rw [hch]
    split at h <;> cases h
    exact .interrupt ‹_›
  · rw [hch]
    split at h <;> cases h
    · exact .xchg rfl ‹_›
    · exact .spin
  · rw [hch]
    cases h
    exact .clear rfl
  · rw [hch]
    obtain ⟨p, hp, rfl⟩ := Option.map_eq_some_iff.1 h
    exact .zombie rfl hp
  · rw [hch]
    obtain ⟨p, hp, rfl⟩ := Option.map_eq_some_iff.1 h
    exact .swtch rfl hp
  · rw [hch]
    obtain ⟨⟨x, k'⟩, hx, rfl⟩ := Option.map_eq_some_iff.1 h
    exact .exec hx
  · rw [hch]
    split at h <;> cases h
    exact .run rfl (And.left ‹_›) (And.right ‹_›)
  · rw [hch]
    split at h <;> cases h
    exact .fork (And.right ‹_›)
  · obtain ⟨⟨x, k'⟩, hx, rfl⟩ := Option.map_eq_some_iff.1 h
    exact .call hx

/-- Every CPU enters `scheduler` with interrupts off, and one process is there to be run. -/
def kernelBoot (intena : Cpu → Bool) : Kernel Cpu Lock where
  core c := ⟨0, intena c, false⟩
  proc _ := none
  scheduler _ := Instr.scheduler
  threads p := if p = 0 then ⟨.parked, Instr.forkret⟩ else ⟨.unused, []⟩
  lock _ := none

def kernel (Cpu : Type) [DecidableEq Cpu] (ptableLock : Lock) :
    Machine (Kernel Cpu Lock) (KernelLabel Cpu Lock) where
  init s := ∃ intena, s = kernelBoot intena
  next := kernelStep ptableLock

/-- A call that keeps acquire and release and pushcli and popcli in pairs, and yields and sleeps
with no lock held other than the one that `sleep` is given. -/
def Instr.paired : Instr Lock → KernelChoice Lock → Bool
  | .code base held pushes _, choice =>
    match choice with
    | .acquire lk => lk ∉ held
    | .release lk => lk ∈ held
    | .popcli => 0 < pushes
    | .yield => held = []
    | .sleep lk => held = [lk]
    | .wait | .exit => base = 0 ∧ held = [] ∧ pushes = 0
    | _ => true
  | _, _ => true

/-- A call of `yield` or `sleep` with no `pushcli` outstanding but that of the lock, which is not
the lock of the process table. -/
def Instr.outermost (ptableLock : Lock) : Instr Lock → KernelChoice Lock → Bool
  | .code base _ pushes _, .yield => base = 0 ∧ pushes = 0
  | .code base _ pushes _, .sleep lk => base = 0 ∧ pushes = 0 ∧ lk ≠ ptableLock
  | _, _ => true

def Paired (s : Kernel Cpu Lock) (l : KernelLabel Cpu Lock) : Prop :=
  ∀ i ∈ (s.code l.cpu).head?, i.paired l.choice = true

instance decidablePaired (s : Kernel Cpu Lock) (l : KernelLabel Cpu Lock) :
    Decidable (Paired s l) :=
  inferInstanceAs (Decidable (∀ i ∈ (s.code l.cpu).head?, _))

def Outermost (ptableLock : Lock) (s : Kernel Cpu Lock) (l : KernelLabel Cpu Lock) : Prop :=
  ∀ i ∈ (s.code l.cpu).head?, i.outermost ptableLock l.choice = true

instance decidableOutermost (ptableLock : Lock) (s : Kernel Cpu Lock)
    (l : KernelLabel Cpu Lock) : Decidable (Outermost ptableLock s l) :=
  inferInstanceAs (Decidable (∀ i ∈ (s.code l.cpu).head?, _))

end Xv6Signals
