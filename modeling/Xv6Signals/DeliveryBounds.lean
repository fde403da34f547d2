import Xv6Signals.UserFrame

namespace Xv6Signals
open Lib List

/-- The two addresses that the linker decides: where the writable part of the kernel begins, and
where the code that `user_handler` copies lies. -/
structure Layout where
  data : Word
  sigretCallerStart : Word

def extMem : Nat := 0x100000

variable {L : Layout} {p q : Proc} {sig : Sig} {w : Word → Bool} {st st' : List (Word × Byte)}
  {a : Word} {cells : List (Word × Byte)} {cell : Word × Byte} {bs : List Byte}

def Layout.kernelWritable (L : Layout) (a : Word) : Bool :=
  kernBase ≤ a.toNat && a.toNat < kernBase + extMem ||
    L.data.toNat ≤ a.toNat && a.toNat < kernBase + physTop || devSpace ≤ a.toNat

def Layout.writable (L : Layout) (sz a : Word) : Bool := userMapped sz a || L.kernelWritable a

/-- One byte store of a copy loop, added to the stores made before it, the latest first; a fault
ends the loop with what has been stored. -/
def storeCell (w : Word → Bool) (st : List (Word × Byte)) (cell : Word × Byte) :
    Except (List (Word × Byte)) (List (Word × Byte)) :=
  if w cell.1 then .ok (cell :: st) else .error st

def cellsAt (a : Word) (bs : List Byte) : List (Word × Byte) :=
  bs.mapIdx fun i b => (a + BitVec.ofNat 32 i, b)

def memmove (w : Word → Bool) (st : List (Word × Byte)) (dst src : Word) (bs : List Byte) :
    Except (List (Word × Byte)) (List (Word × Byte)) :=
  if src < dst ∧ dst < src + BitVec.ofNat 32 bs.length then
    (cellsAt dst bs).reverse.foldlM (storeCell w) st
  else (cellsAt dst bs).foldlM (storeCell w) st

def storeWordCells (w : Word → Bool) (st : List (Word × Byte)) (a v : Word) :
    Except (List (Word × Byte)) (List (Word × Byte)) :=
  if (cellsAt a (wordBytes v)).all (fun cell => w cell.1) then .ok (cellsAt a (wordBytes v) ++ st)
  else .error st

/-- The three stores of `user_handler` below the interrupted `esp`, as the list of the bytes that
they store before they are done or one of them faults. -/
def Proc.pushStores (L : Layout) (p : Proc) (sig : Sig) :
    Except (List (Word × Byte)) (List (Word × Byte)) := do
  let sigretCallerAddr := p.tf.esp - 7
  let st ← memmove (L.writable p.sz) [] sigretCallerAddr L.sigretCallerStart sigretCaller
  let st ← storeWordCells (L.writable p.sz) st (p.tf.esp - 7 - 4) (BitVec.ofNat 32 sig)
  storeWordCells (L.writable p.sz) st (p.tf.esp - 7 - 4 - 4) sigretCallerAddr

def userHandlerStores (L : Layout) (p : Proc) (sig : Sig) :
    Except (List (Word × Byte)) (List (Word × Byte)) :=
  match p.backup.switchMask sig with
  | .ok q => q.pushStores L sig
  | .error _ => .error []

def stored : Except (List (Word × Byte)) (List (Word × Byte)) → List (Word × Byte)
  | .ok st => st
  | .error st => st

def Proc.fits (p : Proc) : Prop :=
  15 ≤ p.tf.esp.toNat ∧ p.tf.esp.toNat ≤ p.sz.toNat ∧ p.tf.esp.toNat ≤ kernBase

/-- Everything stored is in the user range and below the kernel, and nothing is stored when it does
not fit. -/
structure Confined (p : Proc) (st : List (Word × Byte)) : Prop where
  inside : ∀ cell ∈ st, cell.1.toNat < p.sz.toNat ∧ cell.1.toNat < kernBase
  whole : ¬ p.fits → st = []

theorem storeCell_suffix (w : Word → Bool) (st cells : List (Word × Byte)) :
    st <:+ stored (cells.foldlM (storeCell w) st) := by
  induction cells generalizing st with
  | nil => exact suffix_refl _
  | cons cell cells ih =>
    rw [foldlM_cons, storeCell]
    split
    · exact (suffix_cons _ _).trans (ih _)
    · exact suffix_refl _

theorem storeWordCells_suffix (w : Word → Bool) (st : List (Word × Byte)) (a v : Word) :
    st <:+ stored (storeWordCells w st a v) := by
  rw [storeWordCells]
  split
  · exact suffix_append _ _
  · exact suffix_refl _

theorem stored_bind (x : Except (List (Word × Byte)) (List (Word × Byte)))
    (f : List (Word × Byte) → Except (List (Word × Byte)) (List (Word × Byte)))
    (hf : ∀ st, st <:+ stored (f st)) : stored x <:+ stored (x >>= f) := by
  cases x with
  | ok st => exact hf st
  | error st => exact suffix_refl _

def Proc.copyCells (L : Layout) (p : Proc) : List (Word × Byte) :=
  if L.sigretCallerStart < p.tf.esp - 7 ∧ p.tf.esp - 7 < L.sigretCallerStart + 7 then
    (cellsAt (p.tf.esp - 7) sigretCaller).reverse
  else cellsAt (p.tf.esp - 7) sigretCaller

def Proc.firstStore (L : Layout) (p : Proc) : Word :=
  if L.sigretCallerStart < p.tf.esp - 7 ∧ p.tf.esp - 7 < L.sigretCallerStart + 7 then p.tf.esp - 1
  else p.tf.esp - 7

def Proc.maskReadable (p : Proc) (sig : Sig) : Bool :=
  allBytes (fun x => userMapped p.sz x || kernelMapped x) (p.sigHandlers sig + 4) 4

theorem memmove_eq (L : Layout) (p : Proc) :
    memmove w [] (p.tf.esp - 7) L.sigretCallerStart sigretCaller =
      (p.copyCells L).foldlM (storeCell w) [] := by
  rw [memmove, Proc.copyCells]
  have hlen : BitVec.ofNat 32 sigretCaller.length = 7 := rfl
  rw [hlen]
  split
  · rfl
  · rfl

theorem copyCells_cons (L : Layout) (p : Proc) :
    ∃ b cells, p.copyCells L = (p.firstStore L, b) :: cells := by
  rw [Proc.copyCells, Proc.firstStore]
  split
  · have hlast : p.tf.esp - 7 + BitVec.ofNat 32 6 = p.tf.esp - 1 := by bv_omega
    rw [← hlast]
    exact ⟨_, _, rfl⟩
  · rw [cellsAt, sigretCaller, mapIdx_cons, BitVec.add_zero]
    exact ⟨_, _, rfl⟩

theorem userHandlerStores_readable (h : p.maskReadable sig = true) :
    userHandlerStores L p sig = p.pushStores L sig := by
  have hload : p.backup.kload (p.backup.sigHandlers sig + 4) =
      .ok (p.backup.mem.loadWord (p.backup.sigHandlers sig + 4)) := if_pos h
  have hmask : p.backup.switchMask sig = .ok { p.backup with
      sigmask := p.backup.mem.loadWord (p.backup.sigHandlers sig + 4)
      sigmaskBackup := p.sigmask } := by
    rw [Proc.switchMask, hload]
    rfl
  rw [userHandlerStores, hmask]
  rfl

theorem userHandlerStores_unreadable (h : p.maskReadable sig = false) :
    userHandlerStores L p sig = .error [] := by
  have hload : p.backup.kload (p.backup.sigHandlers sig + 4) = .error .pageFault :=
    if_neg (by rw [Bool.not_eq_true]; exact h)
  rw [userHandlerStores, Proc.switchMask, hload]
  rfl

theorem pushStores_nil_iff (L : Layout) (p : Proc) (sig : Sig) :
    stored (p.pushStores L sig) = [] ↔ L.writable p.sz (p.firstStore L) = false := by
  obtain ⟨b, cells, hcells⟩ := copyCells_cons L p
  rw [Proc.pushStores, memmove_eq, hcells, foldlM_cons, storeCell]
  cases hw : L.writable p.sz (p.firstStore L) with
  | false => exact ⟨fun _ => rfl, fun _ => rfl⟩
  | true =>
    refine ⟨fun h => ?_, fun h => by cases h⟩
    have hcopy := storeCell_suffix (L.writable p.sz) [(p.firstStore L, b)] cells
    have hrest := stored_bind (cells.foldlM (storeCell (L.writable p.sz)) [(p.firstStore L, b)])
      (fun st => do
        let st ← storeWordCells (L.writable p.sz) st (p.tf.esp - 7 - 4) (BitVec.ofNat 32 sig)
        storeWordCells (L.writable p.sz) st (p.tf.esp - 7 - 4 - 4) (p.tf.esp - 7)) ?_
    · have hlen := (hcopy.trans hrest).length_le.trans (Nat.le_of_eq (congrArg List.length h))
      cases hlen
    · intro st
      exact (storeWordCells_suffix ..).trans
        (stored_bind _ _ fun st' => storeWordCells_suffix _ st' _ _)

theorem mem_cellsAt : cell ∈ cellsAt a bs ↔
    ∃ i, ∃ hi : i < bs.length, (a + BitVec.ofNat 32 i, bs[i]) = cell :=
  mem_mapIdx

theorem mem_storeCells
    (h : cell ∈ stored (cells.foldlM (storeCell w) st)) : cell ∈ cells ∨ cell ∈ st := by
  induction cells generalizing st with
  | nil => exact .inr h
  | cons c cells ih =>
    rw [foldlM_cons, storeCell] at h
    split at h
    · rcases ih h with h | h
      · exact .inl (mem_cons_of_mem _ h)
      · rcases mem_cons.1 h with rfl | h
        · exact .inl mem_cons_self
        · exact .inr h
    · exact .inr h

theorem mem_storeWordCells {v : Word}
    (h : cell ∈ stored (storeWordCells w st a v)) : cell ∈ cellsAt a (wordBytes v) ∨ cell ∈ st := by
  rw [storeWordCells] at h
  split at h
  · exact mem_append.1 h
  · exact .inr h

theorem mem_stored_bind {x : Except (List (Word × Byte)) (List (Word × Byte))}
    {f : List (Word × Byte) → Except (List (Word × Byte)) (List (Word × Byte))}
    {P : Word × Byte → Prop} (hf : ∀ st, ∀ cell ∈ stored (f st), P cell ∨ cell ∈ st)
    (hx : ∀ cell ∈ stored x, P cell) : ∀ cell ∈ stored (x >>= f), P cell := by
  cases x with
  | ok st =>
    intro cell h
    exact (hf st cell h).elim id (hx cell)
  | error st => exact hx

def Proc.Below (p : Proc) (cell : Word × Byte) : Prop :=
  ∃ i, 1 ≤ i ∧ i ≤ 15 ∧ cell.1 = p.tf.esp - BitVec.ofNat 32 i

theorem below_of_mem_cellsAt (k : Nat)
    (hk : bs.length ≤ k ∧ k ≤ 15) (h : cell ∈ cellsAt (p.tf.esp - BitVec.ofNat 32 k) bs) :
    p.Below cell := by
  obtain ⟨i, hi, rfl⟩ := mem_cellsAt.1 h
  refine ⟨k - i, by omega, by omega, ?_⟩
  bv_omega

theorem pushStores_below (L : Layout) (p : Proc) (sig : Sig) :
    ∀ cell ∈ stored (p.pushStores L sig), p.Below cell := by
  rw [Proc.pushStores, memmove_eq]
  have h11 : p.tf.esp - 7 - 4 = p.tf.esp - BitVec.ofNat 32 11 := by bv_omega
  have h15 : p.tf.esp - BitVec.ofNat 32 11 - 4 = p.tf.esp - BitVec.ofNat 32 15 := by bv_omega
  rw [h11, h15]
  refine mem_stored_bind (fun st => ?_) ?_
  · refine mem_stored_bind (P := fun cell => p.Below cell ∨ cell ∈ st) ?_ ?_
    · intro st' cell h
      exact (mem_storeWordCells h).imp_left fun h => .inl (below_of_mem_cellsAt 15 (by simp) h)
    · intro cell h
      exact (mem_storeWordCells h).imp_left (below_of_mem_cellsAt 11 (by simp))
  intro cell h
  apply below_of_mem_cellsAt 7 (show sigretCaller.length ≤ 7 ∧ 7 ≤ 15 by decide)
  rcases mem_storeCells h with h | h
  · rw [Proc.copyCells] at h
    split at h
    · exact mem_reverse.1 h
    · exact h
  · cases h

theorem pushStores_inside (hfit : p.fits) (h : cell ∈ stored (p.pushStores L sig)) :
    cell.1.toNat < p.sz.toNat ∧ cell.1.toNat < kernBase := by
  obtain ⟨i, h1, h15, he⟩ := pushStores_below L p sig cell h
  obtain ⟨hlow, hsz, hk⟩ := hfit
  have hnat : cell.1.toNat = p.tf.esp.toNat - i := by
    rw [he]
    bv_omega
  omega

/-- Whatever the user's `esp` is, a delivery stores inside the user range or nothing at all exactly
when the fifteen bytes below `esp` are in that range, or a fault comes before the first store. -/
theorem delivery_confined_iff (L : Layout) (p : Proc) (sig : Sig) :
    Confined p (stored (userHandlerStores L p sig)) ↔
      p.fits ∨ p.maskReadable sig = false ∨ L.writable p.sz (p.firstStore L) = false := by
  cases hm : p.maskReadable sig with
  | false =>
    rw [userHandlerStores_unreadable hm]
    refine ⟨fun _ => .inr (.inl rfl), fun _ => ⟨?_, fun _ => rfl⟩⟩
    intro cell h
    cases h
  | true =>
    rw [userHandlerStores_readable hm, ← pushStores_nil_iff L p sig]
    constructor
    · intro h
      by_cases hfit : p.fits
      · exact .inl hfit
      · exact .inr (.inr (h.whole hfit))
    rintro (hfit | hread | hnil)
    · exact ⟨fun cell h => pushStores_inside hfit h, fun h => (h hfit).elim⟩
    · cases hread
    · rw [hnil]
      refine ⟨?_, fun _ => rfl⟩
      intro cell h
      cases h

structure Leads (m : Mem 32) (st : List (Word × Byte)) (m' : Mem 32) : Prop where
  there : ∀ cell ∈ st, m' cell.1 = cell.2
  frame : ∀ x, (∀ cell ∈ st, cell.1 ≠ x) → m' x = m x

theorem Leads.store {m m' : Mem 32} (h : Leads m st m') (bs : List Byte)
    (hl : bs.length ≤ 2 ^ 32) (hcells : ∀ cell, cell ∈ cells ↔ cell ∈ cellsAt a bs)
    (hout : ∀ cell ∈ st, bs.length ≤ offset a cell.1) :
    Leads m (cells ++ st) (m'.store a bs) where
  there := by
    intro cell hc
    rcases mem_append.1 hc with hc | hc
    · obtain ⟨i, hi, rfl⟩ := mem_cellsAt.1 ((hcells cell).1 hc)
      exact Mem.store_at hi hl
    · rw [Mem.store_outside (hout cell hc)]
      exact h.there cell hc
  frame := by
    intro x hx
    rw [Mem.store_outside, h.frame x fun cell hc => hx cell (mem_append_right _ hc)]
    by_contra hlt
    refine hx (x, bs[offset a x]) (mem_append_left _ ((hcells _).2 (mem_cellsAt.2 ?_))) rfl
    exact ⟨offset a x, by omega, by rw [add_offset]⟩

theorem roomBelow_writable {sz : Word} {n : Nat}
    (h : allBytes (userMapped sz) a n = true) (hl : bs.length = n) :
    ∀ cell ∈ cellsAt a bs, L.writable sz cell.1 = true := by
  intro cell hc
  obtain ⟨i, hi, rfl⟩ := mem_cellsAt.1 hc
  have hm : userMapped sz (a + BitVec.ofNat 32 i) = true :=
    all_eq_true.1 h i (mem_range.2 (by omega))
  rw [Layout.writable, hm, Bool.true_or]

theorem storeCells_ok (h : ∀ cell ∈ cells, w cell.1 = true) :
    cells.foldlM (storeCell w) st = .ok (cells.reverse ++ st) := by
  induction cells generalizing st with
  | nil => rfl
  | cons cell cells ih =>
    rw [foldlM_cons, storeCell, if_pos (h cell mem_cons_self), reverse_cons,
      append_assoc]
    exact ih fun c hc => h c (mem_cons_of_mem _ hc)

theorem offset_cell {b : Word} {n k : Nat} (hb : b = a + BitVec.ofNat 32 n)
    (hn : k ≤ n) (hl : bs.length + n ≤ 2 ^ 32) (h : cell ∈ cellsAt b bs) :
    k ≤ offset a cell.1 := by
  obtain ⟨i, hi, rfl⟩ := mem_cellsAt.1 h
  rw [hb, BitVec.add_assoc, ← BitVec.ofNat_add, offset_add a (by omega)]
  omega

theorem userHandler_leads (L : Layout) (h : userHandler p sig = .ok q) :
    ∃ st, userHandlerStores L p sig = .ok st ∧ Leads p.backup.mem st q.mem := by
  obtain ⟨hroom, rfl⟩ := userHandler_ok h
  have hread : p.maskReadable sig = true := by
    by_contra hm
    have hload : p.backup.kload (p.backup.sigHandlers sig + 4) = .error .pageFault := if_neg hm
    rw [userHandler, Proc.switchMask, hload] at h
    cases h
  simp only [Proc.roomBelow, Bool.and_eq_true] at hroom
  obtain ⟨⟨h7, h11⟩, h15⟩ := hroom
  have e11 : p.tf.esp - 7 - 4 = p.tf.esp - 11 := by bv_omega
  have e15 : p.tf.esp - 11 - 4 = p.tf.esp - 15 := by bv_omega
  have hmem (cell : Word × Byte) :
      cell ∈ (p.copyCells L).reverse ↔ cell ∈ cellsAt (p.tf.esp - 7) sigretCaller := by
    rw [mem_reverse, Proc.copyCells]
    split
    · exact mem_reverse
    · exact Iff.rfl
  have hcopy : ∀ cell ∈ p.copyCells L, L.writable p.sz cell.1 = true := by
    intro cell hc
    exact roomBelow_writable h7 rfl cell ((hmem cell).1 (mem_reverse.2 hc))
  have hsig : (cellsAt (p.tf.esp - 11) (wordBytes (BitVec.ofNat 32 sig))).all
      (fun cell => L.writable p.sz cell.1) = true :=
    all_eq_true.2 (roomBelow_writable h11 rfl)
  have hret : (cellsAt (p.tf.esp - 15) (wordBytes (p.tf.esp - 7))).all
      (fun cell => L.writable p.sz cell.1) = true :=
    all_eq_true.2 (roomBelow_writable h15 rfl)
  refine ⟨cellsAt (p.tf.esp - 15) (wordBytes (p.tf.esp - 7)) ++
    (cellsAt (p.tf.esp - 11) (wordBytes (BitVec.ofNat 32 sig)) ++
      ((p.copyCells L).reverse ++ [])), ?_, ?_⟩
  · rw [userHandlerStores_readable hread, Proc.pushStores, memmove_eq, storeCells_ok hcopy, e11,
      e15]
    simp only [storeWordCells, bind, Except.bind, hsig, hret, ↓reduceIte]
  have hnone : Leads p.backup.mem [] p.backup.mem :=
    ⟨(fun cell hc => by cases hc), fun _ _ => rfl⟩
  have hcode := hnone.store sigretCaller (by decide) hmem fun cell hc => by cases hc
  have hnum := hcode.store (a := p.tf.esp - 11) (wordBytes (BitVec.ofNat 32 sig))
    (by simp) (fun _ => Iff.rfl) fun cell hc => by
      rw [append_nil, hmem] at hc
      exact offset_cell (n := 4) (by bv_omega) (by simp) (by decide) hc
  refine hnum.store (wordBytes (p.tf.esp - 7)) (by simp) (fun _ => Iff.rfl) ?_
  intro cell hc
  rcases mem_append.1 hc with hc | hc
  · exact offset_cell (n := 4) (by bv_omega) (by simp) (by simp) hc
  · rw [append_nil, hmem] at hc
    exact offset_cell (n := 8) (by bv_omega) (by simp) (by decide) hc

def builtLayout : Layout := ⟨0x80109000, 0x80105e05⟩

def stackedProc (esp : Word) : Proc :=
  let p := userinit (fun _ => 0) 0x80400000
  { p with tf := { p.tf with esp := esp }, sigHandlers := fun sig => if sig = 5 then 0x100 else 0 }

/-- With `esp` just above the kernel's data, the injected code goes into the kernel. -/
theorem delivery_writes_kernel :
    ((0x8010a000 : Word), (0xb8 : Byte)) ∈
      stored (userHandlerStores builtLayout (stackedProc 0x8010a007) 5) ∧
    ¬ Confined (stackedProc 0x8010a007)
      (stored (userHandlerStores builtLayout (stackedProc 0x8010a007) 5)) := by
  have hmem : ((0x8010a000 : Word), (0xb8 : Byte)) ∈
      stored (userHandlerStores builtLayout (stackedProc 0x8010a007) 5) := by decide +kernel
  refine ⟨hmem, fun h => ?_⟩
  have hlow := (h.inside _ hmem).2
  revert hlow
  decide

end Xv6Signals
