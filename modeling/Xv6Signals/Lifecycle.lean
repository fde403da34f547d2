import Xv6Signals.Signals

namespace Xv6Signals
open Lib

def userinit (mem : Mem 32) (kstack : Word) : Proc :=
  { Proc.empty with
    sz := 4096
    mem := mem
    kstack := kstack
    state := .runnable
    pid := 1
    tf := { (default : TrapFrame) with
      cs := userCs, ds := 0x23, es := 0x23, ss := 0x23, eflags := 0x200, esp := 4096 } }

def allocated (p : Proc) (a : Word) : Proc :=
  { p with kstack := a, psignals := 0, sigmask := 0, sigHandlers := fun _ => sigDfl }

def forkChild (child curproc : Proc) (p : Nat) : Proc :=
  { child with
    sz := curproc.sz
    mem := fun a => if userMapped curproc.sz a then curproc.mem a else child.mem a
    parent := some p
    tf := { curproc.tf with eax := 0 }
    sigmask := curproc.sigmask
    sigHandlers := copySigHandlers child.sigHandlers curproc.sigHandlers }

def Proc.userStore (p : Proc) (mem : Mem 32) : Proc :=
  { p with mem := fun a => if userMapped p.sz a then mem a else p.mem a }

def exec (p : Proc) (sz : Word) (mem : Mem 32) (eip esp : Word) : Proc :=
  { defaultSighandlers p with
    sz := sz
    mem := fun a => if userMapped sz a then mem a else p.mem a
    tf := { p.tf with eip := eip, esp := esp } }

end Xv6Signals
