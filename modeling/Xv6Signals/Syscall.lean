import Xv6Signals.Lib.Machine
import Xv6Signals.Lifecycle

namespace Xv6Signals
open Lib

def fetchint (p : Proc) (addr : Word) : Option Word :=
  if p.sz ≤ addr ∨ p.sz < addr + 4 then none else some (p.mem.loadWord addr)

def argint (p : Proc) (n : Word) : Option Word := fetchint p (p.tf.esp + 4 + 4 * n)

def argptr (p : Proc) (n size : Word) : Option Word :=
  match argint p n with
  | none => none
  | some i => if size.toInt < 0 ∨ p.sz ≤ i ∨ p.sz < i + size then none else some i

def fetchstr (p : Proc) (addr : Word) : Option Nat :=
  if p.sz ≤ addr then none
  else (List.range (p.sz.toNat - addr.toNat)).find? fun i => p.mem (addr + BitVec.ofNat 32 i) = 0

def sysSigprocmask (p : Proc) : Word × Proc :=
  match argint p 0 with
  | none => (-1, p)
  | some newMask => sigprocmask p newMask

def sysSigaction (p : Proc) : Word × Proc :=
  match argint p 0, argptr p 1 8, argptr p 2 8 with
  | some signum, some act, some oldact =>
    let (ret, p) := sigaction p signum.toInt act oldact
    (BitVec.ofInt 32 ret, p)
  | _, _, _ => (-1, p)

def tSyscall : Word := 64

def irqs : List Word := [32, 33, 36, 39, 46, 47, 63]

def sysFork : Word := 1
def sysExec : Word := 7
def sysSigprocmaskNum : Word := 22
def sysSigactionNum : Word := 23
def sysSigretNum : Word := 24

/-- Where a process stands: in its own code, in `trap`, or in one of the two places that call
`handle_signals`, at the signal whose turn it is. -/
inductive Mode
  | user
  | trap
  | sigret (sig : Nat)
  | trapret (sig : Nat)
  deriving DecidableEq, Repr

structure Task where
  proc : Proc
  mode : Mode

/-- What the outside decides: how the user code goes on until it traps, what other system calls
return, which signals arrive, and what a store of `user_handler` into kernel memory destroys. -/
inductive Event
  | trap (mem : Mem 32) (tf : TrapFrame)
  | go
  | call (sz : Word) (mem : Mem 32) (ret : Word)
  | exec (sz : Word) (mem : Mem 32) (eip esp : Word)
  | child (slot : Proc) (page : Word) (self : Nat)
  | kill (sig : Sig)
  | wreck (p : Proc)

def Proc.setEax (p : Proc) (ret : Word) : Proc := { p with tf := { p.tf with eax := ret } }

/-- The first signal of a pass over the frame of a process, past the end for a kernel frame. -/
def Proc.firstSignal (p : Proc) : Nat := if p.tf.fromUser then 0 else 32

def kallocPage (a : Word) : Bool :=
  kernBase ≤ a.toNat && a.toNat + 4096 ≤ kernBase + physTop

def Proc.return (p : Proc) (ret : Word) : Task := ⟨p.setEax ret, .trapret p.firstSignal⟩

def trap (p : Proc) (e : Event) : Option Task :=
  if p.killed then none
  else if p.tf.trapno = tSyscall then
    match e with
    | .go =>
      if p.tf.eax = sysSigprocmaskNum then
        some ((sysSigprocmask p).2.return (sysSigprocmask p).1)
      else if p.tf.eax = sysSigactionNum then
        some ((sysSigaction p).2.return (sysSigaction p).1)
      else if p.tf.eax = sysSigretNum then
        match p.restore with
        | .ok q => some ⟨q, .sigret q.firstSignal⟩
        | .error _ => none
      else none
    | .call sz mem ret =>
      if sz.toNat < kernBase ∧ p.tf.eax ≠ sysSigprocmaskNum ∧ p.tf.eax ≠ sysSigactionNum ∧
          p.tf.eax ≠ sysSigretNum then
        some ({ p with sz := sz, mem := fun a => if userMapped sz a then mem a else p.mem a }.return
          ret)
      else none
    | .exec sz mem eip esp =>
      if sz.toNat < kernBase ∧ p.tf.eax = sysExec then
        some ((Xv6Signals.exec p sz mem eip esp).return 0)
      else none
    | .child slot page self =>
      if kallocPage page ∧ p.tf.eax = sysFork then
        let q := forkChild (allocated slot page) p self
        some ⟨q, .trapret q.firstSignal⟩
      else none
    | _ => none
  else
    match e with
    | .go => if p.tf.trapno ∈ irqs then some ⟨p, .trapret p.firstSignal⟩ else none
    | _ => none

def passStep (p : Proc) (sig : Nat) (next : Nat → Mode) (done : Option Task) : Event → Option Task
  | .go =>
    if h : sig < 32 then
      match signalStep p ⟨sig, h⟩ with
      | .ok q => some ⟨q, next (sig + 1)⟩
      | .error _ => none
    else done
  | .wreck q =>
    if h : sig < 32 then
      match signalStep p ⟨sig, h⟩ with
      | .error .kernelWrite => some ⟨q, next (sig + 1)⟩
      | _ => none
    else none
  | _ => none

def trapStep (s : Task) : Event → Option Task
  | .kill sig => some { s with proc := s.proc.post sig }
  | e =>
    match s.mode with
    | .user =>
      match e with
      | .trap mem tf =>
        if tf.cs = s.proc.tf.cs ∧ tf.eflags.getLsbD 9 = s.proc.tf.eflags.getLsbD 9 then
          some ⟨{ s.proc.userStore mem with tf := tf }, .trap⟩
        else none
      | _ => none
    | .trap => trap s.proc e
    | .sigret sig =>
      passStep s.proc sig .sigret (if s.proc.killed then none else some (s.proc.return 0)) e
    | .trapret sig => passStep s.proc sig .trapret (some ⟨s.proc, .user⟩) e

/-- One process and then, across `fork`, one of its descendants, from the first process on. -/
def trapMachine : Machine Task Event where
  init := fun s => ∃ mem kstack, kallocPage kstack = true ∧
    s = ⟨userinit mem kstack, .trapret (userinit mem kstack).firstSignal⟩
  next := trapStep

end Xv6Signals
