import Mathlib.Data.List.Nodup
import Xv6Signals.Lib.Machine
import Xv6Signals.Lib.Overwrite
import Xv6Signals.Proc

namespace Xv6Signals
open Lib Function

abbrev Block := Fin 128 → Word

def logSize : Nat := 30

def maxOpBlocks : Nat := 10

/-- Where the log lies on the disk: `size` blocks from `start`, the header first. -/
structure Geometry where
  start : Word
  size : Nat
  size_pos : 0 < size
  size_le : size ≤ 2 ^ 32

def mkfsLog : Geometry := ⟨2, logSize, by decide, by decide⟩

def Geometry.logBlock (geo : Geometry) (tail : Nat) : Word := geo.start + BitVec.ofNat 32 (tail + 1)

def Geometry.home (geo : Geometry) (b : Word) : Prop := geo.size ≤ (b - geo.start).toNat

instance Geometry.decidableHome (geo : Geometry) (b : Word) : Decidable (geo.home b) :=
  inferInstanceAs (Decidable (_ ≤ _))

/-- The header that `write_head` puts into the buffer of the header block: the count and the block
numbers, with the words after them left as they are. -/
def encodeHead (lh : List Word) (old : Block) : Block := fun i =>
  if i.val = 0 then BitVec.ofNat 32 lh.length else lh.getD (i.val - 1) (old i)

def decodeHead (b : Block) : List Word :=
  (List.range (b 0).toNat).map fun i => if h : i + 1 < 128 then b ⟨i + 1, h⟩ else 0

structure Buf where
  data : Block
  dirty : Bool

/-- A file-system operation between its `begin_op` and its `end_op`: the blocks it has logged, and
the one whose buffer it holds inside `log_write`, between the checks and the locked part. -/
structure Op where
  logged : List Word
  next : Option Word
  deriving DecidableEq

inductive LogPanic
  | tooBig | committing
  deriving DecidableEq

inductive CommitPc
  | idle
  | writeLog (tail : Nat)
  | writeHead
  | install (tail : Nat) (recovering : Bool)
  | clear (recovering : Bool)
  | finish
  | readHead
  | panicked (msg : LogPanic)
  deriving DecidableEq

structure LogState where
  disk : Word → Block
  cache : Word → Option Buf
  lh : List Word
  ops : List Op
  committing : Bool
  pc : CommitPc

inductive LogLabel
  | begin
  | check (i : Nat) (b : Word) (data : Block)
  | append (i : Nat)
  | endOp (i : Nat)
  | commit
  | load (b : Word)
  | evict (b : Word)
  | crash

def LogState.held (s : LogState) (b : Word) : Prop := ∃ op ∈ s.ops, op.next = some b

instance LogState.decidableHeld (s : LogState) (b : Word) : Decidable (s.held b) :=
  inferInstanceAs (Decidable (∃ op ∈ s.ops, _))

def LogState.contents (s : LogState) (b : Word) : Block :=
  match s.cache b with
  | some x => x.data
  | none => s.disk b

def LogState.bread (s : LogState) (b : Word) : LogState :=
  match s.cache b with
  | some _ => s
  | none => { s with cache := update s.cache b (some ⟨s.disk b, false⟩) }

def LogState.bwrite (s : LogState) (b : Word) (data : Block) : LogState :=
  { s with
    disk := update s.disk b data
    cache := update s.cache b (some ⟨data, false⟩) }

def commitStep (geo : Geometry) (s : LogState) : Option LogState :=
  match s.pc with
  | .writeLog tail =>
    match s.lh[tail]? with
    | some b =>
      some { ((s.bread (geo.logBlock tail)).bread b).bwrite (geo.logBlock tail) (s.contents b) with
        pc := .writeLog (tail + 1) }
    | none => some { s with pc := .writeHead }
  | .writeHead =>
    some { s.bwrite geo.start (encodeHead s.lh (s.contents geo.start)) with pc := .install 0 false }
  | .install tail recovering =>
    match s.lh[tail]? with
    | some b =>
      some { (s.bread (geo.logBlock tail)).bwrite b (s.contents (geo.logBlock tail)) with
        pc := .install (tail + 1) recovering }
    | none => some { s with lh := [], pc := .clear recovering }
  | .clear recovering =>
    some { s.bwrite geo.start (encodeHead s.lh (s.contents geo.start)) with
      pc := if recovering then .idle else .finish }
  | .finish => some { s with committing := false, pc := .idle }
  | .readHead =>
    some { s.bread geo.start with
      lh := decodeHead (s.contents geo.start), pc := .install 0 true }
  | .idle | .panicked _ => none

def CommitPc.up : CommitPc → Bool
  | .install _ recovering | .clear recovering => !recovering
  | .readHead | .panicked _ => false
  | _ => true

def LogState.reboot (disk : Word → Block) : LogState :=
  ⟨disk, fun _ => none, [], [], false, .readHead⟩

/-- The last operation has ended and calls `commit`, which does nothing for an empty log. -/
def LogState.startCommit (s : LogState) : LogState :=
  { s with
    ops := []
    committing := true
    pc := if s.lh = [] then .finish else .writeLog 0 }

def logStep (geo : Geometry) (s : LogState) : LogLabel → Option LogState
  | .begin =>
    if s.pc.up ∧ ¬ s.committing ∧ s.lh.length + (s.ops.length + 1) * maxOpBlocks ≤ logSize then
      some { s with ops := s.ops ++ [⟨[], none⟩] }
    else none
  | .check i b data =>
    match s.ops[i]? with
    | some ⟨logged, none⟩ =>
      if s.pc.up ∧ geo.home b ∧ ¬ s.held b then
        if logSize ≤ s.lh.length ∨ geo.size - 1 ≤ s.lh.length then
          some { s with pc := .panicked .tooBig }
        else
          some { s with
            cache := update s.cache b (some ⟨data, ((s.cache b).map Buf.dirty).getD false⟩)
            ops := s.ops.set i ⟨logged, some b⟩ }
      else none
    | _ => none
  | .append i =>
    match s.ops[i]? with
    | some ⟨logged, some b⟩ =>
      if s.pc.up then
        some { s with
          lh := if b ∈ s.lh then s.lh else s.lh ++ [b]
          cache := update s.cache b (some ⟨s.contents b, true⟩)
          ops := s.ops.set i ⟨if b ∈ logged then logged else b :: logged, none⟩ }
      else none
    | _ => none
  | .endOp i =>
    match s.ops[i]? with
    | some ⟨_, none⟩ =>
      if s.pc.up then
        if s.committing then some { s with ops := s.ops.eraseIdx i, pc := .panicked .committing }
        else if s.ops.eraseIdx i = [] then some s.startCommit
        else some { s with ops := s.ops.eraseIdx i }
      else none
    | _ => none
  | .commit => commitStep geo s
  | .load b => if s.pc.up then some (s.bread b) else none
  | .evict b =>
    match s.cache b with
    | some ⟨_, false⟩ =>
      if s.held b then none else some { s with cache := update s.cache b none }
    | _ => none
  | .crash => some (.reboot s.disk)

inductive LogMove (geo : Geometry) (s : LogState) : LogLabel → LogState → Prop
  | begin (hup : s.pc.up = true) (hcom : s.committing = false)
      (hfits : s.lh.length + (s.ops.length + 1) * maxOpBlocks ≤ logSize) :
      LogMove geo s .begin { s with ops := s.ops ++ [⟨[], none⟩] }
  | tooBig {i : Nat} {b : Word} {data : Block} {logged : List Word}
      (hop : s.ops[i]? = some ⟨logged, none⟩)
      (hfull : logSize ≤ s.lh.length ∨ geo.size - 1 ≤ s.lh.length) :
      LogMove geo s (.check i b data) { s with pc := .panicked .tooBig }
  | check {i : Nat} {b : Word} {data : Block} {logged : List Word} {dirty : Bool}
      (hop : s.ops[i]? = some ⟨logged, none⟩) (hup : s.pc.up = true) (hhome : geo.home b)
      (hdirty : ∀ x, s.cache b = some x → x.dirty = dirty) :
      LogMove geo s (.check i b data)
        { s with
          cache := update s.cache b (some ⟨data, dirty⟩)
          ops := s.ops.set i ⟨logged, some b⟩ }
  | append {i : Nat} {b : Word} {logged : List Word} (hop : s.ops[i]? = some ⟨logged, some b⟩)
      (hup : s.pc.up = true) :
      LogMove geo s (.append i)
        { s with
          lh := if b ∈ s.lh then s.lh else s.lh ++ [b]
          cache := update s.cache b (some ⟨s.contents b, true⟩)
          ops := s.ops.set i ⟨if b ∈ logged then logged else b :: logged, none⟩ }
  | committing {i : Nat} {logged : List Word} (hop : s.ops[i]? = some ⟨logged, none⟩)
      (hup : s.pc.up = true) (hcom : s.committing = true) :
      LogMove geo s (.endOp i)
        { s with ops := s.ops.eraseIdx i, pc := .panicked .committing }
  | start {i : Nat} {logged : List Word} (hop : s.ops[i]? = some ⟨logged, none⟩)
      (hup : s.pc.up = true) (hcom : s.committing = false) (hlast : s.ops.eraseIdx i = []) :
      LogMove geo s (.endOp i) s.startCommit
  | endOp {i : Nat} {logged : List Word} (hop : s.ops[i]? = some ⟨logged, none⟩)
      (hup : s.pc.up = true) (hcom : s.committing = false) (hlast : s.ops.eraseIdx i ≠ []) :
      LogMove geo s (.endOp i) { s with ops := s.ops.eraseIdx i }
  | commit {t : LogState} (hs : commitStep geo s = some t) : LogMove geo s .commit t
  | load (b : Word) (hup : s.pc.up = true) : LogMove geo s (.load b) (s.bread b)
  | evict {b : Word} {data : Block} (hclean : s.cache b = some ⟨data, false⟩) :
      LogMove geo s (.evict b) { s with cache := update s.cache b none }
  | crash : LogMove geo s .crash (.reboot s.disk)

theorem logStep_cases {geo : Geometry} {s t : LogState} {l : LogLabel}
    (hs : logStep geo s l = some t) : LogMove geo s l t := by
  cases l with
  | begin =>
    simp only [logStep, Option.ite_none_right_eq_some, Option.some.injEq] at hs
    obtain ⟨⟨hup, hcom, hfits⟩, rfl⟩ := hs
    exact .begin hup (Bool.eq_false_iff.2 hcom) hfits
  | check i b data =>
    simp only [logStep] at hs
    split at hs
    · rename_i logged hop
      simp only [Option.ite_none_right_eq_some] at hs
      obtain ⟨⟨hup, hhome, _⟩, hs⟩ := hs
      split at hs <;> cases hs
      · exact .tooBig hop ‹_›
      · refine .check hop hup hhome fun x hx => ?_
        rw [hx]
        rfl
    · cases hs
  | append i =>
    simp only [logStep] at hs
    split at hs
    · rename_i hop
      simp only [Option.ite_none_right_eq_some, Option.some.injEq] at hs
      obtain ⟨hup, rfl⟩ := hs
      exact .append hop hup
    · cases hs
  | endOp i =>
    simp only [logStep] at hs
    split at hs
    · rename_i hop
      simp only [Option.ite_none_right_eq_some] at hs
      obtain ⟨hup, hs⟩ := hs
      split at hs
      · cases hs
        exact .committing hop hup ‹_›
      · rename_i hcom
        split at hs <;> cases hs
        · exact .start hop hup (Bool.eq_false_iff.2 hcom) ‹_›
        · exact .endOp hop hup (Bool.eq_false_iff.2 hcom) ‹_›
    · cases hs
  | commit => exact .commit hs
  | load b =>
    simp only [logStep, Option.ite_none_right_eq_some, Option.some.injEq] at hs
    obtain ⟨hup, rfl⟩ := hs
    exact .load b hup
  | evict b =>
    simp only [logStep] at hs
    split at hs
    · split at hs <;> cases hs
      exact .evict ‹_›
    · cases hs
  | crash =>
    cases hs
    exact .crash

def logMachine (geo : Geometry) (disk : Word → Block) : Machine LogState LogLabel where
  init s := decodeHead (disk geo.start) = [] ∧ s = .reboot disk
  next := logStep geo

end Xv6Signals
