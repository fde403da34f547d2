import Xv6Signals.Lifecycle
import Xv6Signals.Vm.Paging

namespace Xv6Signals.Vm
open Lib

structure ElfHdr where
  magic : Nat
  entry : Nat
  phoff : Nat
  phnum : Nat

structure ProgHdr where
  type : Nat
  off : Nat
  vaddr : Nat
  filesz : Nat
  memsz : Nat

def asBytes (bs : List Byte) : Bytes := fun i => bs.getD i 0

def ElfHdr.ofBytes (bs : List Byte) : ElfHdr where
  magic := (asBytes bs).wordAt 0
  entry := (asBytes bs).wordAt 24
  phoff := (asBytes bs).wordAt 28
  phnum := (asBytes bs).wordAt 44 % 2 ^ 16

def ProgHdr.ofBytes (bs : List Byte) : ProgHdr where
  type := (asBytes bs).wordAt 0
  off := (asBytes bs).wordAt 4
  vaddr := (asBytes bs).wordAt 8
  filesz := (asBytes bs).wordAt 16
  memsz := (asBytes bs).wordAt 20

def elfMagic : Nat := 0x464C457F

def elfProgLoad : Nat := 1

def maxArg : Nat := 32

/-- What `exec` reads and changes: the memory, the calling process, the open calls of `begin_op`,
the references and the lock of the inode, and what the next calls of `readi` give. -/
structure ExecState where
  vm : Frames
  proc : Proc
  pgdir : Nat
  name : List Byte
  ops : Int
  refs : Int
  locked : Bool
  reads : List (Nat → Nat → Option (List Byte))

abbrev ExecM := EStateM Fault ExecState

def onVm {α : Type} (c : VmM α) : ExecM α := fun s =>
  match c s.vm with
  | .ok a m => .ok a { s with vm := m }
  | .error e m => .error e { s with vm := m }

def readi (off n : Nat) : ExecM (Option (List Byte)) := fun s =>
  match s.reads with
  | [] => .ok none s
  | r :: rs => .ok ((r off n).filter fun bs => bs.length == n) { s with reads := rs }

def beginOp : ExecM Unit := modify fun s => { s with ops := s.ops + 1 }

def endOp : ExecM Unit := modify fun s => { s with ops := s.ops - 1 }

def ilockNamei : ExecM Unit := modify fun s => { s with refs := s.refs + 1, locked := true }

def iunlockput : ExecM Unit := modify fun s => { s with refs := s.refs - 1, locked := false }

def loadLoop (d addr offset sz : Nat) : Nat → Nat → ExecM Bool
  | 0, _ => pure true
  | r + 1, i =>
    if i < sz then do
      match ← onVm (walkpgdir d ((addr + i) % 2 ^ 32) false) with
      | none => throw .noAddress
      | some t =>
        let s ← get
        let f := frameOf (s.vm.word t (ptx ((addr + i) % 2 ^ 32)))
        match ← readi ((offset + i) % 2 ^ 32) (if sz - i < 4096 then sz - i else 4096) with
        | none => pure false
        | some bs =>
          onVm (modify fun m => m.setPage f ((m.page f).write 0 bs))
          loadLoop d addr offset sz r ((i + 4096) % 2 ^ 32)
    else pure true

def loaduvm (d addr offset sz : Nat) : ExecM Bool :=
  if addr % 4096 ≠ 0 then throw .unaligned else loadLoop d addr offset sz rounds 0

section Kernel

variable (I : Image)

def loadSegments (d : Nat) : Nat → Nat → Nat → ExecM (Option Nat)
  | 0, _, sz => pure (some sz)
  | n + 1, off, sz => do
    match ← readi off 32 with
    | none => pure none
    | some bs =>
      let ph := ProgHdr.ofBytes bs
      if ph.type ≠ elfProgLoad then loadSegments d n ((off + 32) % 2 ^ 32) sz
      else if ph.memsz < ph.filesz then pure none
      else if (ph.vaddr + ph.memsz) % 2 ^ 32 < ph.vaddr then pure none
      else
        let sz ← onVm (allocuvm I d sz ((ph.vaddr + ph.memsz) % 2 ^ 32))
        if sz = 0 then pure none
        else if ph.vaddr % 4096 ≠ 0 then pure none
        else if ← loaduvm d ph.vaddr ph.off ph.filesz then
          loadSegments d n ((off + 32) % 2 ^ 32) sz
        else pure none

end Kernel

def sub32 (a b : Nat) : Nat := (a + (2 ^ 32 - b % 2 ^ 32)) % 2 ^ 32

def pushed (sp : Nat) (arg : List Byte) : Nat := sub32 sp (arg.length + 1) / 4 * 4

def pushArgs (d : Nat) : List (List Byte) → Nat → Nat → VmM (Option (Nat × List Nat))
  | [], _, sp => pure (some (sp, []))
  | arg :: argv, argc, sp =>
    if maxArg ≤ argc then pure none
    else do
      if ← copyout d (pushed sp arg) (arg ++ [0]) then
        match ← pushArgs d argv (argc + 1) (pushed sp arg) with
        | none => pure none
        | some (sp', us) => pure (some (sp', pushed sp arg :: us))
      else pure none

/-- The words below the strings: a return address, `argc`, `argv` and the vector itself. -/
def ustack (sp : Nat) (us : List Nat) : List Nat :=
  [0xffffffff, us.length, sub32 sp ((us.length + 1) * 4)] ++ us ++ [0]

def stackBytes (ws : List Nat) : List Byte := wordsBytes (ws.map (BitVec.ofNat 32))

structure NewImage where
  pgdir : Nat
  sz : Nat
  eip : Nat
  esp : Nat

section Kernel

variable (I : Image)

def bad (pgdir : Option Nat) (ip : Bool) : ExecM (Option NewImage) := do
  match pgdir with
  | some d => onVm (freevm I d)
  | none => pure ()
  if ip then
    iunlockput
    endOp
  pure none

def buildStack (d sz entry : Nat) (argv : List (List Byte)) : ExecM (Option NewImage) := do
  let top ← onVm (allocuvm I d (pgRoundUp sz) ((pgRoundUp sz + 8192) % 2 ^ 32))
  if top = 0 then bad I (some d) false
  else
    onVm (clearpteu d (top - 8192))
    match ← onVm (pushArgs d argv 0 top) with
    | none => bad I (some d) false
    | some (sp, us) =>
      let esp := sub32 sp ((3 + us.length + 1) * 4)
      if ← onVm (copyout d esp (stackBytes (ustack sp us))) then
        pure (some ⟨d, top, entry, esp⟩)
      else bad I (some d) false

/-- `exec` up to the point where it commits; `found` says whether `namei` finds the path. -/
def buildImage (found : Bool) (argv : List (List Byte)) : ExecM (Option NewImage) := do
  beginOp
  if found then
    ilockNamei
    match ← readi 0 52 with
    | none => bad I none true
    | some bs =>
      let elf := ElfHdr.ofBytes bs
      if elf.magic ≠ elfMagic then bad I none true
      else
        match ← onVm (setupkvm I) with
        | none => bad I none true
        | some d =>
          match ← loadSegments I d elf.phnum elf.phoff 0 with
          | none => bad I (some d) true
          | some sz =>
            iunlockput
            endOp
            buildStack I d sz elf.entry argv
  else
    endOp
    pure none

def lastName (path : List Byte) : List Byte :=
  (path.reverse.takeWhile fun c => c ≠ 47).reverse.take 15

def Frames.view (m : Frames) (d : Nat) : Mem 32 := fun a =>
  if present (m.word d (pdx a.toNat)) then
    let e := m.word (frameOf (m.word d (pdx a.toNat))) (ptx a.toNat)
    if present e then m.page (frameOf e) (a.toNat % 4096) else 0
  else 0

def ExecState.commit (s : ExecState) (path : List Byte) (img : NewImage) : ExecState :=
  { s with
    name := lastName path
    pgdir := img.pgdir
    proc := Xv6Signals.exec s.proc (BitVec.ofNat 32 img.sz) (s.vm.view img.pgdir)
      (BitVec.ofNat 32 img.eip) (BitVec.ofNat 32 img.esp) }

def exec (path : List Byte) (found : Bool) (argv : List (List Byte)) : ExecM Int := do
  match ← buildImage I found argv with
  | none => pure (-1)
  | some img =>
    let s ← get
    modify fun s => s.commit path img
    onVm (freevm I s.pgdir)
    pure 0

end Kernel

end Xv6Signals.Vm
