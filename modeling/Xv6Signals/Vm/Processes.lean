import Xv6Signals.Lib.Machine
import Xv6Signals.Vm.Boot
import Xv6Signals.Vm.Growproc

namespace Xv6Signals.Vm
open Lib

def kaddr (f : Nat) : Word := BitVec.ofNat 32 (kernBase + f * 4096)

def kframe (a : Word) : Nat := (a.toNat - kernBase) / 4096

/-- A slot of the process table, with the fields that `Proc` leaves out. -/
structure Slot where
  proc : Proc
  name : List Byte
  pgdir : Nat

structure PipePage where
  page : Nat
  readopen : Bool
  writeopen : Bool

/-- The memory and all who hold pages of it; the fault is the one that ended the run. -/
structure System where
  vm : Frames
  kpgdir : Nat
  cpuStacks : List Nat
  slot : Fin 64 → Slot
  pipe : Nat → Option PipePage
  fault : Option Fault

/-- A process that can make system calls; which of them runs is left open. -/
def System.live (s : System) (p : Fin 64) : Prop :=
  (s.slot p).proc.state ≠ .unused ∧ (s.slot p).proc.state ≠ .zombie

instance System.decidableLive (s : System) (p : Fin 64) : Decidable (s.live p) :=
  inferInstanceAs (Decidable (_ ∧ _))

def System.setSlot (s : System) (p : Fin 64) (x : Slot) : System :=
  { s with slot := Function.update s.slot p x }

/-- A string that a system call has taken from the memory of the process, at address `arg.1`: it
ends below `sz`, and its pages are there. -/
def Fetched (m : Frames) (d sz : Nat) (arg : Nat × List Byte) : Prop :=
  arg.1 + arg.2.length < sz ∧ ∀ k, k < pages sz → arg.1 / 4096 ≤ k →
    k * 4096 ≤ arg.1 + arg.2.length → (m.pte d k).isSome = true

instance decidableFetched (m : Frames) (d sz : Nat) (arg : Nat × List Byte) :
    Decidable (Fetched m d sz arg) :=
  inferInstanceAs (Decidable (_ ∧ _))

section Kernel

variable (I : Image)

def forkPages (d sz : Nat) : VmM (Option (Nat × Option Nat)) := do
  match ← kalloc with
  | none => pure none
  | some ks =>
    match ← copyuvm I d sz with
    | none =>
      kfree I ks
      pure (some (ks, none))
    | some d' => pure (some (ks, some d'))

def waitPages (ks d : Nat) : VmM Unit := do
  kfree I ks
  freevm I d

def Slot.forked (x parent : Slot) (p : Fin 64) : Option (Nat × Option Nat) → Slot
  | none => { x with proc := { x.proc with kstack := 0 } }
  | some (ks, none) => { x with proc := { allocated x.proc (kaddr ks) with kstack := 0 } }
  | some (ks, some d) =>
    ⟨{ forkChild (allocated x.proc (kaddr ks)) parent.proc p with state := .runnable },
      parent.name, d⟩

def Slot.reaped (x : Slot) : Slot :=
  { x with
    proc := { x.proc with
      kstack := 0, pid := 0, parent := none, killed := false, state := .unused }
    name := [] }

def System.run {α : Type} (s : System) (deny : List Bool) (c : VmM α)
    (k : System → α → System) : System :=
  match c { s.vm with deny := deny } with
  | .ok a m => k { s with vm := m } a
  | .error e m => { s with vm := m, fault := some e }

/-- The calls that use pages, each with the answers of `kalloc` and with what the file system gives
it, and the stores of a process into one of its pages. -/
inductive MemOp
  | fork (p q : Fin 64) (deny : List Bool)
  | exec (p : Fin 64) (path : List Byte) (found : Bool) (args : List (Nat × List Byte))
      (reads : List (Nat → Nat → Option (List Byte))) (deny : List Bool)
  | sbrk (p : Fin 64) (n : Word) (deny : List Bool)
  | exit (p : Fin 64)
  | wait (p q : Fin 64)
  | pipealloc (i : Nat) (deny : List Bool)
  | pipeclose (i : Nat) (writable : Bool)
  | store (p : Fin 64) (k : Nat) (b : Bytes)

def System.fork (s : System) (p q : Fin 64) (deny : List Bool) : System :=
  s.run deny (forkPages I (s.slot p).pgdir (s.slot p).proc.sz.toNat) fun t r =>
    t.setSlot q ((s.slot q).forked (s.slot p) p r)

def System.exec (s : System) (p : Fin 64) (path : List Byte) (found : Bool)
    (args : List (Nat × List Byte)) (reads : List (Nat → Nat → Option (List Byte)))
    (deny : List Bool) : System :=
  match Vm.exec I path found (args.map Prod.snd) ⟨{ s.vm with deny := deny }, (s.slot p).proc,
      (s.slot p).pgdir, (s.slot p).name, 0, 0, false, reads⟩ with
  | .ok _ t => { s.setSlot p ⟨t.proc, t.name, t.pgdir⟩ with vm := t.vm }
  | .error e t => { s with vm := t.vm, fault := some e }

def System.sbrk (s : System) (p : Fin 64) (n : Word) (deny : List Bool) : System :=
  s.run deny (growproc I (s.slot p).pgdir (s.slot p).proc.sz n) fun t r =>
    match r with
    | none => t
    | some sz => t.setSlot p { s.slot p with proc := { (s.slot p).proc with sz := sz } }

def System.exit (s : System) (p : Fin 64) : System :=
  { s with slot := fun q => { s.slot q with proc := { (s.slot q).proc with
      state := if q = p then .zombie else (s.slot q).proc.state
      parent := if (s.slot q).proc.parent = some p.val then some 0 else (s.slot q).proc.parent } } }

def System.wait (s : System) (q : Fin 64) : System :=
  s.run [] (waitPages I (kframe (s.slot q).proc.kstack) (s.slot q).pgdir) fun t _ =>
    t.setSlot q (s.slot q).reaped

def System.setPipe (s : System) (i : Nat) (x : Option PipePage) : System :=
  { s with pipe := Function.update s.pipe i x }

def System.pipealloc (s : System) (i : Nat) (deny : List Bool) : System :=
  s.run deny kalloc fun t r =>
    match r with
    | none => t
    | some f => t.setPipe i (some ⟨f, true, true⟩)

def PipePage.close (x : PipePage) (writable : Bool) : PipePage :=
  if writable then { x with writeopen := false } else { x with readopen := false }

def System.pipeclose (s : System) (i : Nat) (x : PipePage) (writable : Bool) : System :=
  if (x.close writable).readopen = false ∧ (x.close writable).writeopen = false then
    s.run [] (kfree I x.page) fun t _ => t.setPipe i none
  else s.setPipe i (some (x.close writable))

def Booted.system (b : Booted) (m : Frames) : System where
  vm := m
  kpgdir := b.kpgdir
  cpuStacks := b.cpuStacks
  slot := Function.update (fun _ => ⟨Proc.empty, [], 0⟩) 0
    ⟨userinit (m.view b.pgdir) (kaddr b.kstack), [105, 110, 105, 116, 99, 111, 100, 101], b.pgdir⟩
  pipe := fun _ => none
  fault := none

/-- The calls one after the other, in any order; a fault ends the run. The first process does not
exit, and a pipe is closed once at each end. -/
def memMachine : Machine System MemOp where
  init := fun s => ∃ page others init b m,
    boot I others init ⟨page, [], []⟩ = .ok (some b) m ∧ s = b.system m
  next := fun s op =>
    if s.fault ≠ none then none
    else match op with
    | .fork p q deny =>
      if s.live p ∧ (s.slot q).proc.state = .unused then some (s.fork I p q deny) else none
    | .exec p path found args reads deny =>
      if s.live p ∧ ∀ arg ∈ args, Fetched s.vm (s.slot p).pgdir (s.slot p).proc.sz.toNat arg then
        some (s.exec I p path found args reads deny)
      else none
    | .sbrk p n deny => if s.live p then some (s.sbrk I p n deny) else none
    | .exit p => if s.live p ∧ p ≠ 0 then some (s.exit p) else none
    | .wait p q =>
      if s.live p ∧ (s.slot q).proc.state = .zombie ∧ (s.slot q).proc.parent = some p.val then
        some (s.wait I q)
      else none
    | .pipealloc i deny => if s.pipe i = none then some (s.pipealloc i deny) else none
    | .pipeclose i writable =>
      match s.pipe i with
      | some x =>
        if (if writable then x.writeopen else x.readopen) = true then
          some (s.pipeclose I i x writable)
        else none
      | none => none
    | .store p k b =>
      match s.vm.pte (s.slot p).pgdir k with
      | some e =>
        if s.live p ∧ k < userPages ∧ userBit e = true then
          some { s with vm := s.vm.setPage (frameOf e) b }
        else none
      | none => none

end Kernel

end Xv6Signals.Vm
