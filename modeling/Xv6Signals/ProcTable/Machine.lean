import Xv6Signals.Lib.Machine
import Xv6Signals.Lifecycle

namespace Xv6Signals
open Lib Function

/-- The slot of `initproc`: `userinit` runs first and takes the first slot. -/
def initproc : Nat := 0

inductive WakePoint
  | test | testChan | spin | spinTest | recheck | finish
  deriving DecidableEq, Repr

structure Wake where
  chan : Chan
  slot : Nat
  point : WakePoint
  deriving DecidableEq, Repr

/-- The points of a kernel thread at which interrupts are enabled. User mode and the kernel code
outside the functions modelled here are the single point `kernel`. -/
inductive Point
  | kernel
  | signals (sig : Nat)
  | forkPid (i : Nat)
  | forkSetPid (i pid : Nat)
  | forkKalloc (i : Nat)
  | forkCopy (i : Nat)
  | forkRun (i : Nat)
  deriving DecidableEq, Repr

/-- Which function has called `sched`, and for `yield` where the interrupted thread stands. -/
inductive Handover
  | yield (k : Point)
  | sleep
  | wait
  | exit
  deriving DecidableEq, Repr

def Handover.state : Handover → ProcState
  | .yield _ => .minusRunnable
  | .sleep => .minusSleeping
  | .wait => .minusSleeping
  | .exit => .minusZombie

inductive Caller
  | interrupted (k : Point)
  | exit (i : Nat)
  deriving DecidableEq, Repr

inductive Pc
  | enabled (k : Point)
  | wakeup (w : Wake) (k : Caller)
  | yieldCas (k : Point)
  | sched (h : Handover)
  | swtch (h : Handover)
  | sleepChan (c : Chan)
  | sleepCas (c : Chan)
  | waitCas
  | waitChan
  | waitScan (i : Nat) (havekids : Bool)
  | waitReap (i : Nat)
  | waitPid (i : Nat)
  | waitKfree (i pid : Nat)
  | waitClearPid (i pid : Nat)
  | waitClearParent (i pid : Nat)
  | waitClearKilled (i pid : Nat)
  | waitClearChan (i pid : Nat)
  | waitRunning (i pid : Nat)
  | waitUnused (i pid : Nat)
  | waitGiveUp
  | waitGiveUpCas
  | exitCas
  | exitScan (i : Nat)
  | exitAdopt (i : Nat)
  | exitTest (i : Nat)
  | zombieExit
  | forkScan (i : Nat)
  | forkCas (i : Nat)
  | forkPidCas (i pid : Nat)
  | panicked
  deriving DecidableEq, Repr

def Caller.resume : Caller → Pc
  | .interrupted k => .enabled k
  | .exit i => .exitScan i

inductive Context
  | forkret
  | saved (h : Handover)
  deriving DecidableEq, Repr

def Context.resume : Context → Pc
  | .forkret => .enabled (.signals 0)
  | .saved (.yield k) => .enabled k
  | .saved .sleep => .enabled .kernel
  | .saved .wait => .waitCas
  | .saved .exit => .zombieExit

inductive CleanPoint
  | park | killedTest | unpark | ready | zombieTest | clearChan | bury | parent
  deriving DecidableEq, Repr

/-- What a CPU is doing: looping in `scheduler`, or running on the kernel stack of a process. -/
inductive CpuPc
  | top
  | interrupt (w : Wake)
  | pick (i : Nat)
  | frozenTest (i : Nat)
  | canRunTest (i : Nat)
  | unpick (i : Nat)
  | switchIn (i : Nat)
  | running (i : Nat) (pc : Pc)
  | clean (i : Nat) (point : CleanPoint)
  | cleanWake (i : Nat) (w : Wake)
  deriving DecidableEq, Repr

structure Config (Cpu : Type) where
  procs : Nat → Proc
  context : Nat → Option Context
  cpus : Cpu → CpuPc
  nextpid : Nat

/-- What the outside world decides in a step: which function the process calls next, which
interrupt arrives, what the allocators return. -/
inductive Choice
  | go
  | yield
  | sleep (c : Chan)
  | wakeup (c : Chan)
  | wait
  | exit
  | fork
  | kalloc (a : Word)
  | copyuvm (done : Bool)
  | user (mem : Mem 32) (tf : TrapFrame)
  | fault
  | kill (pid : Nat) (sig : Sig)
  | sigaction (signum : Int) (act oldact : Word)
  | sigprocmask (mask : Word)
  | trapret

structure Label (Cpu : Type) where
  cpu : Cpu
  choice : Choice

variable {Cpu : Type} [DecidableEq Cpu]

def Config.state (s : Config Cpu) (i : Nat) : ProcState := (s.procs i).state

def Config.goto (s : Config Cpu) (c : Cpu) (pc : CpuPc) : Config Cpu :=
  { s with cpus := update s.cpus c pc }

def Config.setProc (s : Config Cpu) (i : Nat) (p : Proc) : Config Cpu :=
  { s with procs := update s.procs i p }

def Config.setContext (s : Config Cpu) (i : Nat) (k : Option Context) : Config Cpu :=
  { s with context := update s.context i k }

def Config.cas (s : Config Cpu) (c : Cpu) (i : Nat) (old new : ProcState) (yes no : CpuPc) :
    Config Cpu :=
  if s.state i = old then (s.setProc i { s.procs i with state := new }).goto c yes
  else s.goto c no

def parentChan : Option Nat → Chan
  | none => .null
  | some i => .proc i

/-- One atomic step of `wakeup1` on slot `i`; `pos` says where the CPU stands for a position in
the loop and `done` where it goes on after the last slot. -/
def wakeStep (n : Nat) (s : Config Cpu) (c : Cpu) (w : Wake) (pos : Wake → CpuPc) (done : CpuPc) :
    Config Cpu :=
  match w with
  | ⟨ch, i, .test⟩ =>
    if i < n then
      s.goto c (pos (if s.state i = .sleeping ∨ s.state i = .minusSleeping then ⟨ch, i, .testChan⟩
        else ⟨ch, i + 1, .test⟩))
    else s.goto c done
  | ⟨ch, i, .testChan⟩ =>
    s.goto c (pos (if (s.procs i).chan = ch then ⟨ch, i, .spin⟩ else ⟨ch, i + 1, .test⟩))
  | ⟨ch, i, .spin⟩ =>
    s.cas c i .sleeping .minusRunnable (pos ⟨ch, i, .recheck⟩) (pos ⟨ch, i, .spinTest⟩)
  | ⟨ch, i, .spinTest⟩ =>
    s.goto c (pos (if s.state i = .running then ⟨ch, i, .recheck⟩ else ⟨ch, i, .spin⟩))
  | ⟨ch, i, .recheck⟩ =>
    s.goto c (pos (if s.state i ≠ .running then ⟨ch, i, .finish⟩ else ⟨ch, i + 1, .test⟩))
  | ⟨ch, i, .finish⟩ =>
    s.cas c i .minusRunnable .runnable (pos ⟨ch, i + 1, .test⟩) (pos ⟨ch, i + 1, .test⟩)

/-- The slot whose pending set `kill(pid, sig)` changes: the first with that pid in which the
signal is not pending yet. -/
def killTarget (n : Nat) (procs : Nat → Proc) (pid : Nat) (sig : Sig) : Option Nat :=
  (List.range n).find? fun i =>
    (procs i).pid = pid ∧ (procs i).psignals ≠ (procs i).psignals ||| bit sig

def kill (n : Nat) (s : Config Cpu) (pid : Nat) (sig : Sig) : Config Cpu :=
  match killTarget n s.procs pid sig with
  | some i => s.setProc i ((s.procs i).post sig)
  | none => s

/-- The calls a process makes, and the interrupts it takes, at an interruptible point. -/
def callStep (n : Nat) (s : Config Cpu) (c : Cpu) (p : Nat) : Point → Choice → Option (Config Cpu)
  | k, .yield =>
    some (s.goto c (.running p (if s.state p = .running then .yieldCas k else .enabled k)))
  | k, .wakeup ch => some (s.goto c (.running p (.wakeup ⟨ch, 0, .test⟩ (.interrupted k))))
  | .kernel, .sleep ch => some (s.goto c (.running p (.sleepChan ch)))
  | .kernel, .wait => some (s.goto c (.running p .waitCas))
  | .kernel, .exit => some (s.goto c (.running p (if p = initproc then .panicked else .exitCas)))
  | .kernel, .fork => some (s.goto c (.running p (.forkScan 0)))
  | .kernel, .user mem tf => some (s.setProc p { s.procs p with mem := mem, tf := tf })
  | .kernel, .fault => some (s.setProc p { s.procs p with killed := true })
  | .kernel, .kill pid sig => some (kill n s pid sig)
  | .kernel, .sigaction signum act oldact =>
    some (s.setProc p (sigaction (s.procs p) signum act oldact).2)
  | .kernel, .sigprocmask mask => some (s.setProc p (sigprocmask (s.procs p) mask).2)
  | .kernel, .trapret =>
    some (s.goto c
      (.running p (.enabled (if (s.procs p).tf.fromUser then .signals 0 else .kernel))))
  | _, _ => none

def forkFail (s : Config Cpu) (c : Cpu) (p i : Nat) : Config Cpu :=
  (s.setProc i { s.procs i with kstack := 0, state := .unused }).goto c
    (.running p (.enabled .kernel))

/-- What the thread of process `p` does next at an interruptible point when it is not interrupted:
the loop of `handle_signals`, and `allocproc` and `fork` once a slot has been taken. -/
def pointStep (s : Config Cpu) (c : Cpu) (p : Nat) : Point → Choice → Option (Config Cpu)
  | .signals sig, .go =>
    if h : sig < 32 then
      match signalStep (s.procs p) ⟨sig, h⟩ with
      | .ok q => some ((s.setProc p q).goto c (.running p (.enabled (.signals (sig + 1)))))
      | .error _ => some (s.goto c (.running p .panicked))
    else some (s.goto c (.running p (.enabled .kernel)))
  | .forkPid i, .go => some (s.goto c (.running p (.forkPidCas i s.nextpid)))
  | .forkSetPid i pid, .go =>
    some ((s.setProc i { s.procs i with pid := pid }).goto c
      (.running p (.enabled (.forkKalloc i))))
  | .forkKalloc i, .kalloc a =>
    if a = 0 then some (forkFail s c p i)
    else
      some (((s.setProc i (allocated (s.procs i) a)).setContext i (some .forkret)).goto c
        (.running p (.enabled (.forkCopy i))))
  | .forkCopy i, .copyuvm true =>
    some ((s.setProc i (forkChild (s.procs i) (s.procs p) p)).goto c
      (.running p (.enabled (.forkRun i))))
  | .forkCopy i, .copyuvm false => some (forkFail s c p i)
  | .forkRun i, .go =>
    some (s.cas c i .embryo .runnable (.running p (.enabled .kernel))
      (.running p (.enabled .kernel)))
  | _, _ => none

def threadStep (n : Nat) (s : Config Cpu) (c : Cpu) (p : Nat) : Pc → Option (Config Cpu)
  | .enabled _ => none
  | .wakeup w k => some (wakeStep n s c w (fun w => .running p (.wakeup w k)) (.running p k.resume))
  -- yield, sleep and sched
  | .yieldCas k =>
    some (s.cas c p .running .minusRunnable (.running p (.sched (.yield k))) (.running p .panicked))
  | .sched h =>
    some (s.goto c (.running p (if s.state p = .running then .panicked else .swtch h)))
  | .swtch h => some ((s.setContext p (some (.saved h))).goto c (.clean p .park))
  | .sleepChan ch =>
    some ((s.setProc p { s.procs p with chan := ch }).goto c (.running p (.sleepCas ch)))
  | .sleepCas _ =>
    some (s.cas c p .running .minusSleeping (.running p (.sched .sleep)) (.running p .panicked))
  -- wait
  | .waitCas =>
    some (s.cas c p .running .minusSleeping (.running p .waitChan) (.running p .panicked))
  | .waitChan =>
    some ((s.setProc p { s.procs p with chan := .proc p }).goto c (.running p (.waitScan 0 false)))
  | .waitScan i havekids =>
    if i < n then
      some (s.goto c (.running p
        (if (s.procs i).parent = some p then .waitReap i else .waitScan (i + 1) havekids)))
    else
      some (s.goto c (.running p
        (if havekids = false ∨ (s.procs p).killed then .waitGiveUp else .sched .wait)))
  | .waitReap i =>
    some (s.cas c i .zombie .minusUnused (.running p (.waitPid i))
      (.running p (.waitScan (i + 1) true)))
  | .waitPid i => some (s.goto c (.running p (.waitKfree i (s.procs i).pid)))
  | .waitKfree i pid =>
    some ((s.setProc i { s.procs i with kstack := 0 }).goto c (.running p (.waitClearPid i pid)))
  | .waitClearPid i pid =>
    some ((s.setProc i { s.procs i with pid := 0 }).goto c (.running p (.waitClearParent i pid)))
  | .waitClearParent i pid =>
    some ((s.setProc i { s.procs i with parent := none }).goto c
      (.running p (.waitClearKilled i pid)))
  | .waitClearKilled i pid =>
    some ((s.setProc i { s.procs i with killed := false }).goto c
      (.running p (.waitClearChan i pid)))
  | .waitClearChan i pid =>
    some ((s.setProc p { s.procs p with chan := .null }).goto c (.running p (.waitRunning i pid)))
  | .waitRunning i pid =>
    some (s.cas c p .minusSleeping .running (.running p (.waitUnused i pid))
      (.running p (.waitUnused i pid)))
  | .waitUnused i _ =>
    some (s.cas c i .minusUnused .unused (.running p (.enabled .kernel))
      (.running p (.enabled .kernel)))
  | .waitGiveUp =>
    some ((s.setProc p { s.procs p with chan := .null }).goto c (.running p .waitGiveUpCas))
  | .waitGiveUpCas =>
    some (s.cas c p .minusSleeping .running (.running p (.enabled .kernel)) (.running p .panicked))
  -- exit
  | .exitCas =>
    some (s.cas c p .running .minusZombie (.running p (.exitScan 0)) (.running p .panicked))
  | .exitScan i =>
    some (s.goto c (.running p
      (if i < n then if (s.procs i).parent = some p then .exitAdopt i else .exitScan (i + 1)
        else .sched .exit)))
  | .exitAdopt i =>
    some ((s.setProc i { s.procs i with parent := some initproc }).goto c
      (.running p (.exitTest i)))
  | .exitTest i =>
    some (s.goto c (.running p
      (if s.state i = .zombie then .wakeup ⟨.proc initproc, 0, .test⟩ (.exit (i + 1))
        else .exitScan (i + 1))))
  | .zombieExit => some (s.goto c (.running p .panicked))
  -- allocproc and allocpid
  | .forkScan i =>
    some (s.goto c (.running p
      (if i < n then if s.state i = .unused then .forkCas i else .forkScan (i + 1)
        else .enabled .kernel)))
  | .forkCas i =>
    some (s.cas c i .unused .embryo (.running p (.enabled (.forkPid i)))
      (.running p (.forkScan 0)))
  | .forkPidCas i pid =>
    if s.nextpid = pid then
      some ({ s with nextpid := pid + 1 }.goto c (.running p (.enabled (.forkSetPid i pid))))
    else some (s.goto c (.running p (.enabled (.forkPid i))))
  | .panicked => none

def cleanStep (s : Config Cpu) (c : Cpu) (i : Nat) : CleanPoint → Config Cpu
  | .park => s.cas c i .minusSleeping .sleeping (.clean i .killedTest) (.clean i .ready)
  | .killedTest => s.goto c (.clean i (if (s.procs i).killed then .unpark else .ready))
  | .unpark => s.cas c i .sleeping .runnable (.clean i .ready) (.clean i .ready)
  | .ready => s.cas c i .minusRunnable .runnable (.clean i .zombieTest) (.clean i .zombieTest)
  | .zombieTest =>
    s.goto c (if s.state i = .minusZombie then .clean i .clearChan else .pick (i + 1))
  | .clearChan => (s.setProc i { s.procs i with chan := .null }).goto c (.clean i .bury)
  | .bury => s.cas c i .minusZombie .zombie (.clean i .parent) (.pick (i + 1))
  | .parent => s.goto c (.cleanWake i ⟨parentChan (s.procs i).parent, 0, .test⟩)

def cpuStep (n : Nat) (s : Config Cpu) (c : Cpu) : CpuPc → Choice → Option (Config Cpu)
  | .top, .go => some (s.goto c (.pick 0))
  | .top, .wakeup ch => some (s.goto c (.interrupt ⟨ch, 0, .test⟩))
  | .interrupt w, .go => some (wakeStep n s c w .interrupt .top)
  | .pick i, .go =>
    if i < n then some (s.cas c i .runnable .running (.frozenTest i) (.pick (i + 1)))
    else some (s.goto c .top)
  | .frozenTest i, .go =>
    some (s.goto c (if (s.procs i).frozen then .canRunTest i else .switchIn i))
  | .canRunTest i, .go =>
    some (s.goto c (if canRunEvenIfFrozen (s.procs i) then .switchIn i else .unpick i))
  | .unpick i, .go => some (s.cas c i .running .runnable (.pick (i + 1)) (.pick (i + 1)))
  | .switchIn i, .go =>
    match s.context i with
    | some k => some ((s.setContext i none).goto c (.running i k.resume))
    | none => none
  | .running p (.enabled k), ch => (pointStep s c p k ch).or (callStep n s c p k ch)
  | .running p pc, .go => threadStep n s c p pc
  | .clean i point, .go => some (cleanStep s c i point)
  | .cleanWake i w, .go => some (wakeStep n s c w (.cleanWake i) (.pick (i + 1)))
  | _, _ => none

def step (n : Nat) (s : Config Cpu) (l : Label Cpu) : Option (Config Cpu) :=
  cpuStep n s l.cpu (s.cpus l.cpu) l.choice

def boot (mem : Mem 32) (kstack : Word) : Config Cpu where
  procs := update (fun _ => Proc.empty) initproc (userinit mem kstack)
  context := update (fun _ => none) initproc (some .forkret)
  cpus := fun _ => .top
  nextpid := 2

def ptable (Cpu : Type) [DecidableEq Cpu] (n : Nat) : Machine (Config Cpu) (Label Cpu) where
  init := fun s => 0 < n ∧ ∃ mem kstack, s = boot mem kstack
  next := step n

theorem boot_reach {ok : Config Cpu → Label Cpu → Prop} {n : Nat} (hn : 0 < n) (mem : Mem 32)
    (kstack : Word) : (ptable Cpu n).Reach ok (boot mem kstack) :=
  .init ⟨hn, mem, kstack, rfl⟩

def advance (c : Cpu) (k : Nat) : List (Label Cpu) := List.replicate k ⟨c, .go⟩

def forkFirst (c : Cpu) : List (Label Cpu) :=
  advance c 37 ++ [⟨c, .fork⟩] ++ advance c 6 ++ [⟨c, .kalloc 0x80500000⟩, ⟨c, .copyuvm true⟩] ++
    advance c 1

end Xv6Signals
