import Xv6Signals.Fs.Calls

namespace Xv6Signals
open Lib Function

inductive FileKind
  | none | pipe | inode
  deriving DecidableEq

abbrev FileSlot := Fin 100

structure File where
  kind : FileKind
  ref : Int
  readable : Bool
  writable : Bool
  pipe : Nat
  ip : Slot
  off : Nat

structure PipeEnds where
  readopen : Bool
  writeopen : Bool
  deriving DecidableEq

structure ProcFiles where
  cwd : Slot
  ofile : Fin 16 → Option FileSlot

abbrev ProcSlot := Fin 64

/-- The file system, the file table, the pages that are pipes, and the processes. -/
structure Sys where
  fs : Fs
  file : FileSlot → File
  pipe : Nat → Option PipeEnds
  proc : ProcSlot → Option ProcFiles

inductive SysPanic
  | fs (e : FsPanic)
  | fileclose | filedup | filewrite | shortFilewrite | initExiting
  -- no panic: the page of a pipe is used after it was freed
  | wild
  deriving DecidableEq

abbrev SysM := EStateM SysPanic Sys

def liftFs {α : Type} (x : FsM α) : SysM α := fun s =>
  match x s.fs with
  | .ok a fs => .ok a { s with fs := fs }
  | .error e fs => .error (.fs e) { s with fs := fs }

def Sys.setFile (s : Sys) (f : FileSlot) (x : File) : Sys :=
  { s with file := update s.file f x }

def Sys.setPipe (s : Sys) (pg : Nat) (x : Option PipeEnds) : Sys :=
  { s with pipe := update s.pipe pg x }

def Sys.setProc (s : Sys) (p : ProcSlot) (x : Option ProcFiles) : Sys :=
  { s with proc := update s.proc p x }

def ProcFiles.setFd (x : ProcFiles) (fd : Fin 16) (f : Option FileSlot) : ProcFiles :=
  { x with ofile := update x.ofile fd f }

def filealloc : SysM (Option FileSlot) := do
  let s ← get
  match (List.finRange 100).find? fun f => (s.file f).ref = 0 with
  | some f => do
    modify fun s => s.setFile f { s.file f with ref := 1 }
    pure (some f)
  | none => pure none

def filedup (f : FileSlot) : SysM Unit := do
  let s ← get
  if (s.file f).ref < 1 then throw .filedup
  else modify fun s => s.setFile f { s.file f with ref := (s.file f).ref + 1 }

def PipeEnds.close (e : PipeEnds) (writable : Bool) : Option PipeEnds :=
  let e := if writable then { e with writeopen := false } else { e with readopen := false }
  if e.readopen = false ∧ e.writeopen = false then none else some e

/-- The page of the pipe is freed when its second end is closed. -/
def pipeclose (pg : Nat) (writable : Bool) : SysM Unit := do
  let s ← get
  match s.pipe pg with
  | none => throw .wild
  | some e => modify fun s => s.setPipe pg (e.close writable)

variable (sb : Superblock)

def closeLast (ff : File) : SysM Unit :=
  match ff.kind with
  | .pipe => pipeclose ff.pipe ff.writable
  | .inode => liftFs (putInode sb ff.ip)
  | .none => pure ()

def fileclose (f : FileSlot) : SysM Unit := do
  let s ← get
  let ff := s.file f
  if ff.ref < 1 then throw .fileclose
  else if 0 < ff.ref - 1 then modify fun s => s.setFile f { s.file f with ref := ff.ref - 1 }
  else do
    modify fun s => s.setFile f { s.file f with ref := 0, kind := .none }
    closeLast sb ff

def ProcFiles.freeFd (x : ProcFiles) : Option (Fin 16) :=
  (List.finRange 16).find? fun fd => (x.ofile fd).isNone

def fdalloc (p : ProcSlot) (x : ProcFiles) (f : FileSlot) : SysM (Option (Fin 16)) :=
  match x.freeFd with
  | some fd => do
    modify fun s => s.setProc p (some (x.setFd fd (some f)))
    pure (some fd)
  | none => pure none

def ProcFiles.argfd (x : ProcFiles) (fd : Int) : Option (Fin 16 × FileSlot) :=
  if h : 0 ≤ fd ∧ fd < 16 then
    (x.ofile ⟨fd.toNat, by omega⟩).map fun f => (⟨fd.toNat, by omega⟩, f)
  else none

def openFull (ip : Slot) : SysM Int := do
  liftFs (iunlockput sb ip)
  pure (-1)

def sysOpen (p : ProcSlot) (x : ProcFiles) (path : List Byte) (omode : Word) : SysM Int := do
  let r ← liftFs (openInode sb x.cwd path omode)
  match r with
  | none => pure (-1)
  | some ip => do
    let f ← filealloc
    match f with
    | none => openFull sb ip
    | some f => do
      let fd ← fdalloc p x f
      match fd with
      | none => do
        fileclose sb f
        openFull sb ip
      | some fd => do
        liftFs (iunlock ip)
        modify fun s => s.setFile f
          { s.file f with
            kind := .inode
            ip := ip
            off := 0
            readable := omode &&& oWronly = 0
            writable := omode &&& oWronly ≠ 0 ∨ omode &&& oRdwr ≠ 0 }
        pure (fd.val : Int)

def sysDup (p : ProcSlot) (x : ProcFiles) (fd : Int) : SysM Int :=
  match x.argfd fd with
  | none => pure (-1)
  | some (_, f) => do
    let r ← fdalloc p x f
    match r with
    | none => pure (-1)
    | some fd => do
      filedup f
      pure (fd.val : Int)

def sysClose (p : ProcSlot) (x : ProcFiles) (fd : Int) : SysM Int :=
  match x.argfd fd with
  | none => pure (-1)
  | some (fd, f) => do
    modify fun s => s.setProc p (some (x.setFd fd none))
    fileclose sb f
    pure 0

/-- The loop of `filewrite` over pieces of at most 1536 bytes; no more rounds are needed than there
are bytes. -/
def filewriteLoop (f : FileSlot) : Nat → List Byte → SysM Bool
  | 0, src => pure src.isEmpty
  | fuel + 1, src =>
    if src = [] then pure true
    else do
      let s ← get
      let n := min src.length 1536
      let r ← liftFs (writeChunk sb (s.file f).ip (s.file f).off (src.take n))
      if r < 0 then pure false
      else do
        modify fun s => s.setFile f { s.file f with off := ((s.file f).off + r.toNat) % 2 ^ 32 }
        if r ≠ n then throw .shortFilewrite else filewriteLoop f fuel (src.drop n)

/-- `filewrite`, where `piped` is what `pipewrite` returns. -/
def filewrite (f : FileSlot) (src : List Byte) (piped : Int) : SysM Int := do
  let s ← get
  if (s.file f).writable = false then pure (-1)
  else
    match (s.file f).kind with
    | .pipe => pure piped
    | .none => throw .filewrite
    | .inode => do
      let done ← filewriteLoop sb f src.length src
      pure (if done then (src.length : Int) else -1)

def sysWrite (x : ProcFiles) (fd : Int) (src : List Byte) (piped : Int) : SysM Int :=
  match x.argfd fd with
  | none => pure (-1)
  | some (_, f) => filewrite sb f src piped

def sysCd (p : ProcSlot) (x : ProcFiles) (path : List Byte) : SysM Int := do
  let r ← liftFs (sysChdir sb x.cwd path)
  match r with
  | none => pure (-1)
  | some ip => do
    modify fun s => s.setProc p (some { x with cwd := ip })
    pure 0

/-- `pipealloc`, where `page` is what `kalloc` returns. -/
def pipealloc (page : Option Nat) : SysM (Option (FileSlot × FileSlot)) := do
  let f₀ ← filealloc
  match f₀ with
  | none => pure none
  | some f₀ => do
    let f₁ ← filealloc
    match f₁ with
    | none => do
      fileclose sb f₀
      pure none
    | some f₁ =>
      match page with
      | none => do
        fileclose sb f₀
        fileclose sb f₁
        pure none
      | some pg => do
        modify fun s => s.setPipe pg (some ⟨true, true⟩)
        modify fun s => s.setFile f₀
          { s.file f₀ with kind := .pipe, readable := true, writable := false, pipe := pg }
        modify fun s => s.setFile f₁
          { s.file f₁ with kind := .pipe, readable := false, writable := true, pipe := pg }
        pure (some (f₀, f₁))

def pipeFds (p : ProcSlot) (x : ProcFiles) (rf wf : FileSlot) : SysM Int := do
  let fd₀ ← fdalloc p x rf
  match fd₀ with
  | none => do
    fileclose sb rf
    fileclose sb wf
    pure (-1)
  | some fd₀ => do
    let fd₁ ← fdalloc p (x.setFd fd₀ (some rf)) wf
    match fd₁ with
    | none => do
      modify fun s => s.setProc p (some ((x.setFd fd₀ (some rf)).setFd fd₀ none))
      fileclose sb rf
      fileclose sb wf
      pure (-1)
    | some _ => pure 0

def sysPipe (p : ProcSlot) (x : ProcFiles) (page : Option Nat) : SysM Int := do
  let s ← get
  -- `kalloc` does not return a page that is in use
  let page := page.filter fun pg => (s.pipe pg).isNone
  let r ← pipealloc sb page
  match r with
  | none => pure (-1)
  | some (rf, wf) => pipeFds sb p x rf wf

/-- `fork` from the copy of the descriptors on, for a child that `allocproc` has given. -/
def forkFiles (x : ProcFiles) (child : ProcSlot) : SysM Int := do
  let s ← get
  if (s.proc child).isSome then pure (-1)
  else do
    (List.finRange 16).forM fun fd =>
      match x.ofile fd with
      | some f => filedup f
      | none => pure ()
    let _ ← liftFs (idup x.cwd)
    modify fun s => s.setProc child (some x)
    pure (child.val : Int)

def exitFd (p : ProcSlot) (fd : Fin 16) : SysM Unit := do
  let s ← get
  match s.proc p with
  | none => pure ()
  | some x =>
    match x.ofile fd with
    | none => pure ()
    | some f => do
      fileclose sb f
      modify fun s => s.setProc p (some (x.setFd fd none))

def initSlot : ProcSlot := ⟨0, by decide⟩

def sysExit (p : ProcSlot) (x : ProcFiles) : SysM Int :=
  if p = initSlot then throw .initExiting
  else do
    (List.finRange 16).forM (exitFd sb p)
    liftFs (putInode sb x.cwd)
    modify fun s => s.setProc p none
    pure 0

inductive SysCall
  | open (path : List Byte) (omode : Word)
  | close (fd : Int)
  | dup (fd : Int)
  | write (fd : Int) (src : List Byte) (piped : Int)
  | link (old new : List Byte)
  | unlink (path : List Byte)
  | mkdir (path : List Byte)
  | mknod (path : List Byte) (major minor : Word)
  | chdir (path : List Byte)
  | exec (path : List Byte) (reads : List (Nat × Nat))
  | pipe (page : Option Nat)
  | fork (child : ProcSlot)
  | exit

def sysCall (p : ProcSlot) (c : SysCall) : SysM Int := do
  let s ← get
  match s.proc p with
  | none => pure (-1)
  | some x =>
    match c with
    | .open path omode => sysOpen sb p x path omode
    | .close fd => sysClose sb p x fd
    | .dup fd => sysDup p x fd
    | .write fd src piped => sysWrite sb x fd src piped
    | .link old new => liftFs (sysLink sb x.cwd old new)
    | .unlink path => liftFs (sysUnlink sb x.cwd path)
    | .mkdir path => liftFs (sysMkdir sb x.cwd path)
    | .mknod path major minor => liftFs (sysMknod sb x.cwd path major minor)
    | .chdir path => sysCd sb p x path
    | .exec path reads => liftFs (execInode sb x.cwd path reads)
    | .pipe page => sysPipe sb p x page
    | .fork child => forkFiles x child
    | .exit => sysExit sb p x

end Xv6Signals
