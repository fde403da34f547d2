import Xv6Signals.Lib.Bytes
import Xv6Signals.Lib.Circle
import Xv6Signals.Lib.Machine
import Xv6Signals.Lib.Spans

namespace Xv6Signals.Umalloc
open Lib

/-- The memory of a process, the variable `freep`, and the memory that `sbrk` has returned. -/
structure Heap where
  mem : Bytes
  freep : Nat
  got : List Span

def Heap.ptr (h : Heap) (p : Nat) : Nat := h.mem.wordAt p

def Heap.size (h : Heap) (p : Nat) : Nat := h.mem.wordAt (p + 4)

def Heap.setPtr (h : Heap) (p v : Nat) : Heap := { h with mem := h.mem.setWordAt p v }

def Heap.setSize (h : Heap) (p v : Nat) : Heap := { h with mem := h.mem.setWordAt (p + 4) v }

def plusUnits (p n : Nat) : Nat := (p + 8 * n) % 2 ^ 32

def headerOf (ap : Nat) : Nat := (ap + (2 ^ 32 - 8)) % 2 ^ 32

/-- A number of rounds that no loop below needs: there are fewer headers in the address space. -/
def maxRounds : Nat := 2 ^ 33

def Heap.findPlace (h : Heap) (bp : Nat) : Nat → Nat → Option Nat
  | 0, _ => none
  | fuel + 1, p =>
    if p < bp ∧ bp < h.ptr p then some p
    else if h.ptr p ≤ p ∧ (p < bp ∨ bp < h.ptr p) then some p
    else h.findPlace bp fuel (h.ptr p)

def Heap.joinNext (h : Heap) (bp p : Nat) : Heap :=
  if plusUnits bp (h.size bp) = h.ptr p then
    let h := h.setSize bp (h.size bp + h.size (h.ptr p))
    h.setPtr bp (h.ptr (h.ptr p))
  else h.setPtr bp (h.ptr p)

def Heap.joinPrev (h : Heap) (bp p : Nat) : Heap :=
  if plusUnits p (h.size p) = bp then
    let h := h.setSize p (h.size p + h.size bp)
    h.setPtr p (h.ptr bp)
  else h.setPtr p bp

def Heap.freeWithin (rounds : Nat) (h : Heap) (ap : Nat) : Option Heap :=
  let bp := headerOf ap
  match h.findPlace bp rounds h.freep with
  | none => none
  | some p => some { (h.joinNext bp p).joinPrev bp p with freep := p }

def Heap.free (h : Heap) (ap : Nat) : Option Heap := h.freeWithin maxRounds ap

def coreUnits (nu : Nat) : Nat := if nu < 4096 then 4096 else nu

/-- `morecore`, where `sbrk` is what that call returns; the result is `freep`, or 0. -/
def Heap.morecore (h : Heap) (nu : Nat) (sbrk : Option Nat) : Option (Heap × Nat) :=
  let nu := coreUnits nu
  match sbrk with
  | none => some (h, 0)
  | some p =>
    let h := { h with got := ⟨p, p + 8 * nu⟩ :: h.got }
    ((h.setSize p nu).free (plusUnits p 1)).map fun h => (h, h.freep)

def Heap.take (h : Heap) (nunits prevp p : Nat) : Heap × Nat :=
  if h.size p = nunits then
    let h := h.setPtr prevp (h.ptr p)
    ({ h with freep := prevp }, plusUnits p 1)
  else
    let h := h.setSize p (h.size p - nunits)
    let p := plusUnits p (h.size p)
    let h := h.setSize p nunits
    ({ h with freep := prevp }, plusUnits p 1)

def Heap.mallocLoop (nunits : Nat) : Nat → Heap → Nat → List (Option Nat) → Option (Heap × Nat)
  | 0, _, _, _ => none
  | fuel + 1, h, prevp, sbrks =>
    let p := h.ptr prevp
    if nunits ≤ h.size p then some (h.take nunits prevp p)
    else if p = h.freep then
      match sbrks with
      | [] => none
      | sbrk :: sbrks =>
        (h.morecore nunits sbrk).bind fun r =>
          if r.2 = 0 then some (r.1, 0) else mallocLoop nunits fuel r.1 r.2 sbrks
    else mallocLoop nunits fuel h p sbrks

def unitsOf (nbytes : Nat) : Nat := (nbytes + 7) % 2 ^ 32 / 8 + 1

def Heap.malloc (base : Nat) (h : Heap) (nbytes : Nat) (sbrk : Option Nat) : Option (Heap × Nat) :=
  let h := if h.freep = 0 then { (h.setPtr base base).setSize base 0 with freep := base } else h
  h.mallocLoop (unitsOf nbytes) maxRounds h.freep [sbrk]

structure HeapState where
  heap : Heap
  live : List (Nat × Nat)

inductive HeapLabel
  | malloc (nbytes : Nat) (sbrk : Option Nat)
  | free (ap : Nat)
  | write (x : Nat) (b : Byte)

def blockSpan (b : Nat × Nat) : Span := ⟨b.1, b.1 + 8 * b.2⟩

/-- What `sbrk` may return: bytes above all that it has returned before, and above `base`. -/
def Heap.Fresh (base : Nat) (h : Heap) (k p : Nat) : Prop :=
  base + 8 ≤ p ∧ (∀ r ∈ h.got, r.hi ≤ p) ∧ p + k < 2 ^ 32

instance decidableFresh (base : Nat) (h : Heap) (k p : Nat) : Decidable (h.Fresh base k p) :=
  inferInstanceAs (Decidable (_ ∧ _ ∧ _))

/-- The requests of the program, with what `sbrk` may return to them. -/
def HeapState.Asks (base : Nat) (s : HeapState) (nbytes : Nat) (sbrk : Option Nat) : Prop :=
  8 * unitsOf nbytes < 2 ^ 31 ∧
    ∀ p ∈ sbrk, s.heap.Fresh base (8 * coreUnits (unitsOf nbytes)) p

instance decidableAsks (base : Nat) (s : HeapState) (nbytes : Nat) (sbrk : Option Nat) :
    Decidable (s.Asks base nbytes sbrk) :=
  inferInstanceAs (Decidable (_ ∧ _))

/-- The bytes that the program may store to: those of its blocks, and all that is not the memory of
the allocator. -/
def HeapState.Writes (base : Nat) (s : HeapState) (x : Nat) : Prop :=
  (∃ b ∈ s.live, b.1 + 8 ≤ x ∧ x < b.1 + 8 * b.2) ∨
    ¬ (base ≤ x ∧ x < base + 8) ∧ ∀ r ∈ s.heap.got, x < r.lo ∨ r.hi ≤ x

instance decidableWrites (base : Nat) (s : HeapState) (x : Nat) : Decidable (s.Writes base x) :=
  inferInstanceAs (Decidable (_ ∨ _ ∧ _))

def HeapState.next (base : Nat) (s : HeapState) : HeapLabel → Option HeapState
  | .malloc nbytes sbrk =>
    if s.Asks base nbytes sbrk then
      (s.heap.malloc base nbytes sbrk).map fun r =>
        ⟨r.1, if r.2 = 0 then s.live else (r.2 - 8, unitsOf nbytes) :: s.live⟩
    else none
  | .free ap =>
    match s.live.find? fun b => decide (b.1 + 8 = ap) with
    | none => none
    | some b => (s.heap.free ap).map fun h => ⟨h, s.live.erase b⟩
  | .write x b =>
    if s.Writes base x then some { s with heap := { s.heap with mem := s.heap.mem.write x [b] } }
    else none

/-- A program that has not called `malloc` yet, whose variable `base` is at the given address. -/
def heapMachine (base : Nat) : Machine HeapState HeapLabel where
  init := fun s => 0 < base ∧ base + 8 < 2 ^ 32 ∧ s.heap.freep = 0 ∧ s.heap.got = [] ∧ s.live = []
  next := HeapState.next base

end Xv6Signals.Umalloc
