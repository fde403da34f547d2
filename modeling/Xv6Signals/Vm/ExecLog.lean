import Xv6Signals.Lib.Ghost
import Xv6Signals.Vm.Exec

namespace Xv6Signals.Vm
open Lib

/-- A call of `readi` for a segment: at most `count` bytes of the file go to the start of the frame
`frame`, the page at `va` of the image in the directory `dir`, which is `size` bytes large then;
`before` is the memory. -/
structure FileRead where
  dir : Nat
  size : Nat
  va : Nat
  frame : Nat
  count : Nat
  before : Frames

/-- `exec` beside a log of the calls that store bytes of the file, the last first. -/
abbrev LogM := EStateM Fault (ExecState × List FileRead)

namespace Logged

def loadLoop (d size addr offset sz : Nat) : Nat → Nat → LogM Bool
  | 0, _ => pure true
  | r + 1, i =>
    if i < sz then do
      match ← ghost (onVm (walkpgdir d ((addr + i) % 2 ^ 32) false)) with
      | none => throw .noAddress
      | some t =>
        let s ← ghost get
        let f := frameOf (s.vm.word t (ptx ((addr + i) % 2 ^ 32)))
        let n := if sz - i < 4096 then sz - i else 4096
        record fun s log => ⟨d, size, (addr + i) % 2 ^ 32, f, n, s.vm⟩ :: log
        match ← ghost (readi ((offset + i) % 2 ^ 32) n) with
        | none => pure false
        | some bs =>
          ghost (onVm (modify fun m => m.setPage f ((m.page f).write 0 bs)))
          loadLoop d size addr offset sz r ((i + 4096) % 2 ^ 32)
    else pure true

def loaduvm (d size addr offset sz : Nat) : LogM Bool :=
  if addr % 4096 ≠ 0 then throw .unaligned else loadLoop d size addr offset sz rounds 0

variable (I : Image)

def loadSegments (d : Nat) : Nat → Nat → Nat → LogM (Option Nat)
  | 0, _, sz => pure (some sz)
  | n + 1, off, sz => do
    match ← ghost (readi off 32) with
    | none => pure none
    | some bs =>
      let ph := ProgHdr.ofBytes bs
      if ph.type ≠ elfProgLoad then loadSegments d n ((off + 32) % 2 ^ 32) sz
      else if ph.memsz < ph.filesz then pure none
      else if (ph.vaddr + ph.memsz) % 2 ^ 32 < ph.vaddr then pure none
      else
        let sz ← ghost (onVm (allocuvm I d sz ((ph.vaddr + ph.memsz) % 2 ^ 32)))
        if sz = 0 then pure none
        else if ph.vaddr % 4096 ≠ 0 then pure none
        else if ← loaduvm d sz ph.vaddr ph.off ph.filesz then
          loadSegments d n ((off + 32) % 2 ^ 32) sz
        else pure none

def buildImage (found : Bool) (argv : List (List Byte)) : LogM (Option NewImage) := do
  ghost beginOp
  if found then
    ghost ilockNamei
    match ← ghost (readi 0 52) with
    | none => ghost (bad I none true)
    | some bs =>
      let elf := ElfHdr.ofBytes bs
      if elf.magic ≠ elfMagic then ghost (bad I none true)
      else
        match ← ghost (onVm (setupkvm I)) with
        | none => ghost (bad I none true)
        | some d =>
          match ← loadSegments I d elf.phnum elf.phoff 0 with
          | none => ghost (bad I (some d) true)
          | some sz =>
            ghost iunlockput
            ghost endOp
            ghost (buildStack I d sz elf.entry argv)
  else
    ghost endOp
    pure none

def exec (path : List Byte) (found : Bool) (argv : List (List Byte)) : LogM Int := do
  match ← buildImage I found argv with
  | none => pure (-1)
  | some img =>
    let s ← ghost get
    ghost (modify fun s => s.commit path img)
    ghost (onVm (freevm I s.pgdir))
    pure 0

theorem loadLoop_erases (d size addr offset sz r i : Nat) :
    Erases (loadLoop d size addr offset sz r i) (Vm.loadLoop d addr offset sz r i) := by
  induction r generalizing i with
  | zero => exact .pure true
  | succ r ih =>
    refine .ite (.bind (.ghost _) fun t => ?_) (.pure true)
    cases t with
    | none => exact .throw _
    | some t =>
      refine .bind (.ghost get) fun s => .record (.bind (.ghost _) fun a => ?_)
      cases a with
      | none => exact .pure false
      | some bs => exact .bind (.ghost _) fun _ => ih _

theorem loaduvm_erases (d size addr offset sz : Nat) :
    Erases (loaduvm d size addr offset sz) (Vm.loaduvm d addr offset sz) :=
  .ite (.throw _) (loadLoop_erases _ _ _ _ _ _ _)

theorem loadSegments_erases (d n off sz : Nat) :
    Erases (loadSegments I d n off sz) (Vm.loadSegments I d n off sz) := by
  induction n generalizing off sz with
  | zero => exact .pure (some sz)
  | succ n ih =>
    refine .bind (.ghost _) fun a => ?_
    cases a with
    | none => exact .pure none
    | some bs =>
      refine .ite (ih _ _) (.ite (.pure none) (.ite (.pure none) ?_))
      refine .bind (.ghost _) fun sz' => .ite (.pure none) (.ite (.pure none) ?_)
      exact .bind (loaduvm_erases _ _ _ _ _) fun ok => .ite (ih _ _) (.pure none)

theorem buildImage_erases (found : Bool) (argv : List (List Byte)) :
    Erases (buildImage I found argv) (Vm.buildImage I found argv) := by
  refine .bind (.ghost _) fun _ => .ite (.bind (.ghost _) fun _ => .bind (.ghost _) fun a => ?_)
    (.bind (.ghost _) fun _ => .pure none)
  cases a with
  | none => exact .ghost _
  | some bs =>
    refine .ite (.ghost _) (.bind (.ghost _) fun d => ?_)
    cases d with
    | none => exact .ghost _
    | some d =>
      refine .bind (loadSegments_erases I _ _ _ _) fun sz => ?_
      cases sz with
      | none => exact .ghost _
      | some sz => exact .bind (.ghost _) fun _ => .bind (.ghost _) fun _ => .ghost _

theorem exec_erases (path : List Byte) (found : Bool) (argv : List (List Byte)) :
    Erases (exec I path found argv) (Vm.exec I path found argv) := by
  refine .bind (buildImage_erases I _ _) fun img => ?_
  cases img with
  | none => exact .pure (-1)
  | some img =>
    exact .bind (.ghost get) fun _ => .bind (.ghost _) fun _ => .bind (.ghost _) fun _ => .pure 0

end Logged

end Xv6Signals.Vm
