import Xv6Signals.Proc

namespace Xv6Signals
open Lib

/-- How a kernel-mode access outside the page that was meant ends: a page fault panics, and a
store above `KERNBASE` overwrites kernel memory, after which nothing is known. -/
inductive Fault
  | pageFault
  | kernelWrite
  deriving DecidableEq, Repr

def kernBase : Nat := 0x80000000
def physTop : Nat := 0xE000000
def devSpace : Nat := 0xFE000000

def pgRoundUp (n : Nat) : Nat := (n + 4095) / 4096 * 4096

def userMapped (sz a : Word) : Bool := a.toNat < pgRoundUp sz.toNat && a.toNat < kernBase

def kernelMapped (a : Word) : Bool :=
  kernBase ≤ a.toNat && a.toNat < kernBase + physTop || devSpace ≤ a.toNat

def allBytes (test : Word → Bool) (a : Word) (n : Nat) : Bool :=
  (List.range n).all fun i => test (a + BitVec.ofNat 32 i)

def Proc.kload (p : Proc) (a : Word) : Except Fault Word :=
  if allBytes (fun x => userMapped p.sz x || kernelMapped x) a 4 then .ok (p.mem.loadWord a)
  else .error .pageFault

def Proc.kstore (p : Proc) (a : Word) (bs : List Byte) : Except Fault Proc :=
  if allBytes (userMapped p.sz) a bs.length then .ok { p with mem := p.mem.store a bs }
  else if allBytes (fun x => userMapped p.sz x || kernelMapped x) a bs.length then
    .error .kernelWrite
  else .error .pageFault

def Proc.addEsp (p : Proc) (n : Word) : Proc :=
  { p with tf := { p.tf with esp := p.tf.esp + n } }

def sigprocmask (p : Proc) (mask : Word) : Word × Proc :=
  (p.sigmask, { p with sigmask := mask })

def sigkillHandler (p : Proc) : Proc :=
  { p with killed := true, state := if p.state = .sleeping then .runnable else p.state }

def sigstopHandler (p : Proc) : Proc :=
  if p.state = .sleeping then p else { p with frozen := true }

def sigcontHandler (p : Proc) : Proc := { p with frozen := false }

def copySigHandlers (_new old : Sig → Word) : Sig → Word := fun i => old i

def defaultSighandlers (p : Proc) : Proc :=
  { p with sigHandlers := fun i =>
      if p.sigHandlers i ≠ sigDfl ∧ p.sigHandlers i ≠ sigIgn then sigDfl else p.sigHandlers i }

/-- What `kill` leaves in the process it finds; for signal 1 it sets no bit. -/
def Proc.post (p : Proc) (sig : Sig) : Proc :=
  if sig = 1 then p else { p with psignals := p.psignals ||| bit sig }

/-- The words from `sig_handlers[0]` on, as the two-word struct accesses reach them: the word
after the table's last is `tf_backup`. -/
def Proc.tableWord (p : Proc) (i : Nat) : Word :=
  if h : i < 32 then p.sigHandlers ⟨i, h⟩ else p.tfBackup

def Proc.setTableWord (p : Proc) (i : Nat) (v : Word) : Proc :=
  if h : i < 32 then { p with sigHandlers := Function.update p.sigHandlers ⟨i, h⟩ v }
  else { p with tfBackup := v }

def Proc.entry (p : Proc) (sig : Sig) : Sigaction := ⟨p.tableWord sig, p.tableWord (sig + 1)⟩

def Proc.setEntry (p : Proc) (sig : Sig) (act : Sigaction) : Proc :=
  (p.setTableWord sig act.saHandler).setTableWord (sig + 1) act.sigmask

def readSigaction (m : Mem 32) (a : Word) : Sigaction := ⟨m.loadWord a, m.loadWord (a + 4)⟩

def writeSigaction (m : Mem 32) (a : Word) (act : Sigaction) : Mem 32 :=
  (m.storeWord a act.saHandler).storeWord (a + 4) act.sigmask

def sigactionSig (signum : Int) : Option Sig :=
  if signum = sigstop.val ∨ signum = sigkill.val then none
  else if h : 0 ≤ signum ∧ signum ≤ 31 then some ⟨signum.toNat, by omega⟩
  else none

/-- The memory after `*oldact` has been filled in, from which `*act` is then read. -/
def Proc.storeOld (p : Proc) (sig : Sig) (oldact : Word) : Mem 32 :=
  if oldact ≠ 0 then writeSigaction p.mem oldact (p.entry sig) else p.mem

def sigaction (p : Proc) (signum : Int) (act oldact : Word) : Int × Proc :=
  match sigactionSig signum with
  | none => (1, p)
  | some sig =>
    let mem := p.storeOld sig oldact
    let new := readSigaction mem act
    (if new.sigmask ≤ 0 then 1 else 0, { p.setEntry sig new with mem := mem })

/-- The bytes from `sigret_caller_start` to `sigret_caller_end`:
`movl $SYS_sigret, %eax; int $T_SYSCALL`. -/
def sigretCaller : List Byte := [0xb8, 0x18, 0, 0, 0, 0xcd, 0x40]

def Proc.backup (p : Proc) : Proc :=
  { p with mem := p.mem.store p.kstack (wordsBytes p.tf.toWords), tfBackup := p.kstack }

/-- The mask is read through the handler word itself, taken as the address of a struct. -/
def Proc.switchMask (p : Proc) (sig : Sig) : Except Fault Proc := do
  let mask ← p.kload (p.sigHandlers sig + 4)
  let (old, p) := sigprocmask p mask
  return { p with sigmaskBackup := old }

def Proc.pushCall (p : Proc) (sig : Sig) : Except Fault Proc := do
  let p := p.addEsp (-7)
  let sigretCallerAddr := p.tf.esp
  let p ← p.kstore p.tf.esp sigretCaller
  let p := p.addEsp (-4)
  let p ← p.kstore p.tf.esp (wordBytes (BitVec.ofNat 32 sig))
  let p := p.addEsp (-4)
  p.kstore p.tf.esp (wordBytes sigretCallerAddr)

def userHandler (p : Proc) (sig : Sig) : Except Fault Proc := do
  let p := p.backup
  let p ← p.switchMask sig
  let p ← p.pushCall sig
  return { p with tf := { p.tf with eip := p.sigHandlers sig } }

inductive Disposition
  | ignore | cont | stop | kill | user
  deriving DecidableEq, Repr

def Proc.disposition (p : Proc) (sig : Sig) : Disposition :=
  if p.sigHandlers sig = sigIgn then .ignore
  else if p.sigHandlers sig = sigDfl then
    if sig = sigcont then .cont else if sig = sigstop then .stop else .kill
  else .user

def handleSignal (p : Proc) (sig : Sig) : Except Fault Proc :=
  match p.disposition sig with
  | .ignore => .ok p
  | .cont => .ok (sigcontHandler p)
  | .stop => .ok (sigstopHandler p)
  | .kill => .ok (sigkillHandler p)
  | .user => userHandler p sig

/-- The mask blocks the signal, which it cannot for the two that are never blocked. -/
def blocked (sigmask : Word) (sig : Sig) : Bool :=
  sigmask &&& bit sig != 0 && sig != sigstop && sig != sigkill

def Proc.blocks (p : Proc) (sig : Sig) : Bool := blocked p.sigmask sig

def Proc.consume (p : Proc) (sig : Sig) : Proc :=
  { p with psignals := (p.psignals ||| bit sig) ^^^ bit sig }

def signalStep (p : Proc) (sig : Sig) : Except Fault Proc :=
  let expected := p.psignals ||| bit sig
  if p.blocks sig ∧ p.psignals = expected then .ok (p.consume sig)
  else if p.psignals = expected then handleSignal (p.consume sig) sig
  else .ok p

def handleSignals (p : Proc) : Except Fault Proc :=
  if p.tf.fromUser then (List.finRange 32).foldlM signalStep p else .ok p

def Proc.backupReadable (p : Proc) : Bool :=
  allBytes (fun x => userMapped p.sz x || kernelMapped x) p.tfBackup 76

def Proc.backupFrame (p : Proc) : TrapFrame :=
  .ofWords (bytesWords (p.mem.load p.tfBackup 76))

def Proc.restore (p : Proc) : Except Fault Proc :=
  if p.backupReadable then .ok { p with tf := p.backupFrame, sigmask := p.sigmaskBackup }
  else .error .pageFault

def sigret (p : Proc) : Except Fault Proc := do
  let p ← p.restore
  handleSignals p

def canRunEvenIfFrozen (p : Proc) : Bool :=
  (List.finRange 32).any fun sig =>
    p.psignals &&& bit sig != 0 &&
      (p.sigHandlers sig == sigDfl && (sig == sigcont || sig == sigkill) ||
        (p.sigHandlers sig == BitVec.ofNat 32 sigcont ||
          p.sigHandlers sig == BitVec.ofNat 32 sigkill))

end Xv6Signals
