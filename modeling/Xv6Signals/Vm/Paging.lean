import Mathlib.Logic.Function.Basic
import Xv6Signals.Lib.Bytes
import Xv6Signals.Lib.Wp

namespace Xv6Signals.Vm
open Lib

def kernBase : Nat := 0x80000000

def extMem : Nat := 0x100000

def physTop : Nat := 0xE000000

def devSpace : Nat := 0xFE000000

def pteP : Nat := 1

def pteW : Nat := 2

def pteU : Nat := 4

/-- Where the linker puts `data` and `end`, as physical addresses. -/
structure Image where
  dataAddr : Nat
  endAddr : Nat
  aligned : dataAddr % 4096 = 0
  data_lo : extMem < dataAddr
  data_le : dataAddr ≤ endAddr
  end_le : endAddr ≤ 0x400000

/-- The frames that `kinit1` and `kinit2` hand to the allocator. -/
def Image.owns (I : Image) (f : Nat) : Prop := I.endAddr ≤ f * 4096 ∧ f * 4096 < physTop

instance Image.decidableOwns (I : Image) (f : Nat) : Decidable (I.owns f) :=
  inferInstanceAs (Decidable (_ ∧ _))

/-- Physical memory by frame numbers, the list of the free frames, and which of the next calls of
`kalloc` return 0 although a frame is free. -/
structure Frames where
  page : Nat → Bytes
  free : List Nat
  deny : List Bool

/-- The panics of `kalloc.c` and `vm.c`; the last one is no panic: a page table entry is read
through a null pointer. -/
inductive Fault
  | kfree | remap | noPgdir | unaligned | noAddress | clearpteu | noPte | notPresent | nullPte
  deriving DecidableEq, Repr

abbrev VmM := EStateM Fault Frames

def Frames.setPage (m : Frames) (f : Nat) (b : Bytes) : Frames :=
  { m with page := Function.update m.page f b }

def Frames.word (m : Frames) (f j : Nat) : Nat := (m.page f).word j

def Frames.setWord (m : Frames) (f j v : Nat) : Frames := m.setPage f ((m.page f).setWord j v)

def memset (f : Nat) (c : Byte) : VmM Unit := modify fun m => m.setPage f fun _ => c

def Frames.release (m : Frames) (f : Nat) : Frames :=
  { m.setPage f (fun _ => 1) with free := f :: m.free }

def kalloc : VmM (Option Nat) := fun m =>
  match m.free, m.deny.headD false with
  | f :: free, false => .ok (some f) { m with free := free, deny := m.deny.tail }
  | _, _ => .ok none { m with deny := m.deny.tail }

def pdx (va : Nat) : Nat := va / 4096 / 1024

def ptx (va : Nat) : Nat := va / 4096 % 1024

def pgRoundDown (a : Nat) : Nat := a / 4096 * 4096

def pgRoundUp (a : Nat) : Nat := (a + 4095) % 2 ^ 32 / 4096 * 4096

def present (e : Nat) : Bool := e % 2 == 1

def userBit (e : Nat) : Bool := e / 4 % 2 == 1

def frameOf (e : Nat) : Nat := e / 4096

def pteFlags (e : Nat) : Nat := e % 4096

def walkpgdir (d va : Nat) (alloc : Bool) : VmM (Option Nat) := do
  let m ← get
  if present (m.word d (pdx va)) then pure (some (frameOf (m.word d (pdx va))))
  else if alloc then
    match ← kalloc with
    | none => pure none
    | some t =>
      memset t 0
      modify fun m => m.setWord d (pdx va) (t * 4096 ||| pteP ||| pteW ||| pteU)
      pure (some t)
  else pure none

def rounds : Nat := 2 ^ 20

def mapLoop (d perm last : Nat) : Nat → Nat → Nat → VmM Bool
  | 0, _, _ => pure false
  | n + 1, a, pa => do
    match ← walkpgdir d a true with
    | none => pure false
    | some t =>
      let m ← get
      if present (m.word t (ptx a)) then throw .remap
      else
        modify fun m => m.setWord t (ptx a) (pa ||| perm ||| pteP)
        if a = last then pure true
        else mapLoop d perm last n ((a + 4096) % 2 ^ 32) ((pa + 4096) % 2 ^ 32)

def mappages (d va size pa perm : Nat) : VmM Bool :=
  mapLoop d perm (pgRoundDown ((va + size + (2 ^ 32 - 1)) % 2 ^ 32)) rounds (pgRoundDown va) pa

structure Region where
  virt : Nat
  physStart : Nat
  physEnd : Nat
  perm : Nat

def kmap (I : Image) : List Region :=
  [⟨kernBase, 0, extMem, pteW⟩, ⟨kernBase + extMem, extMem, I.dataAddr, 0⟩,
    ⟨kernBase + I.dataAddr, I.dataAddr, physTop, pteW⟩, ⟨devSpace, devSpace, 0, pteW⟩]

def mapRegions (d : Nat) : List Region → VmM Bool
  | [] => pure true
  | r :: rs => do
    if ← mappages d r.virt ((r.physEnd + (2 ^ 32 - r.physStart)) % 2 ^ 32) r.physStart r.perm then
      mapRegions d rs
    else pure false

section Kernel

variable (I : Image)

def kfree (f : Nat) : VmM Unit :=
  if I.owns f then modify fun m => m.release f else throw .kfree

def deallocLoop (d oldsz : Nat) : Nat → Nat → VmM Unit
  | 0, _ => pure ()
  | n + 1, a =>
    if a < oldsz then do
      match ← walkpgdir d a false with
      | none => deallocLoop d oldsz n ((pdx a + 1) * 4194304 % 2 ^ 32)
      | some t =>
        let m ← get
        if present (m.word t (ptx a)) then
          if frameOf (m.word t (ptx a)) = 0 then throw .kfree
          else
            kfree I (frameOf (m.word t (ptx a)))
            modify fun m => m.setWord t (ptx a) 0
            deallocLoop d oldsz n ((a + 4096) % 2 ^ 32)
        else deallocLoop d oldsz n ((a + 4096) % 2 ^ 32)
    else pure ()

def deallocuvm (d oldsz newsz : Nat) : VmM Nat :=
  if oldsz ≤ newsz then pure oldsz
  else do
    deallocLoop I d oldsz rounds (pgRoundUp newsz)
    pure newsz

def freeTables (d : Nat) : Nat → Nat → VmM Unit
  | 0, _ => pure ()
  | n + 1, i => do
    let m ← get
    if present (m.word d i) then
      kfree I (frameOf (m.word d i))
      freeTables d n (i + 1)
    else freeTables d n (i + 1)

def freevm (d : Nat) : VmM Unit := do
  if d = 0 then throw .noPgdir
  else
    let _ ← deallocuvm I d kernBase 0
    freeTables I d 1024 0
    kfree I d

def setupkvm : VmM (Option Nat) := do
  match ← kalloc with
  | none => pure none
  | some d =>
    memset d 0
    if ← mapRegions d (kmap I) then pure (some d)
    else
      freevm I d
      pure none

def allocLoop (d oldsz newsz : Nat) : Nat → Nat → VmM Nat
  | 0, _ => pure newsz
  | n + 1, a =>
    if a < newsz then do
      match ← kalloc with
      | none =>
        let _ ← deallocuvm I d newsz oldsz
        pure 0
      | some f =>
        memset f 0
        if ← mappages d a 4096 (f * 4096) (pteW ||| pteU) then
          allocLoop d oldsz newsz n ((a + 4096) % 2 ^ 32)
        else
          let _ ← deallocuvm I d newsz oldsz
          kfree I f
          pure 0
    else pure newsz

@[irreducible] def allocuvm (d oldsz newsz : Nat) : VmM Nat :=
  if kernBase ≤ newsz then pure 0
  else if newsz < oldsz then pure oldsz
  else allocLoop I d oldsz newsz rounds (pgRoundUp oldsz)

def copyLoop (d d' sz : Nat) : Nat → Nat → VmM Bool
  | 0, _ => pure true
  | n + 1, i =>
    if i < sz then do
      match ← walkpgdir d i false with
      | none => throw .noPte
      | some t =>
        let m ← get
        if present (m.word t (ptx i)) then
          match ← kalloc with
          | none => pure false
          | some f =>
            modify fun m => m.setPage f (m.page (frameOf (m.word t (ptx i))))
            if ← mappages d' i 4096 (f * 4096) (pteFlags (m.word t (ptx i))) then
              copyLoop d d' sz n ((i + 4096) % 2 ^ 32)
            else
              kfree I f
              pure false
        else throw .notPresent
    else pure true

def copyuvm (d sz : Nat) : VmM (Option Nat) := do
  match ← setupkvm I with
  | none => pure none
  | some d' =>
    if ← copyLoop I d d' sz rounds 0 then pure (some d')
    else
      freevm I d'
      pure none

end Kernel

def clearpteu (d uva : Nat) : VmM Unit := do
  match ← walkpgdir d uva false with
  | none => throw .clearpteu
  | some t =>
    modify fun m => m.setWord t (ptx uva) (m.word t (ptx uva) - m.word t (ptx uva) / 4 % 2 * 4)

/-- The frame behind a user address; without a page table the entry is read at address 0. -/
def uva2ka (d uva : Nat) : VmM (Option Nat) := do
  match ← walkpgdir d uva false with
  | none => throw .nullPte
  | some t =>
    let m ← get
    if present (m.word t (ptx uva)) && userBit (m.word t (ptx uva)) then
      pure (some (frameOf (m.word t (ptx uva))))
    else pure none

def copyoutLoop (d : Nat) : Nat → Nat → List Byte → VmM Bool
  | 0, _, _ => pure true
  | r + 1, va, buf =>
    if buf.length = 0 then pure true
    else do
      match ← uva2ka d (pgRoundDown va) with
      | none => pure false
      | some f =>
        let n := min (4096 - (va - pgRoundDown va)) buf.length
        modify fun m => m.setPage f ((m.page f).write (va - pgRoundDown va) (buf.take n))
        copyoutLoop d r ((pgRoundDown va + 4096) % 2 ^ 32) (buf.drop n)

def copyout (d va : Nat) (buf : List Byte) : VmM Bool := copyoutLoop d (buf.length + 1) va buf

end Xv6Signals.Vm
