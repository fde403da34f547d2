import Xv6Signals.Fs.Files
import Xv6Signals.Fs.Refs

namespace Xv6Signals
open Lib

variable {α β : Type} {s t : Sys} {E : FsPanic → Prop}

/-- Something that system calls keep: of the file system, with the references `R` to its entries and
the locks `L`, and of an inode that is open, by whether it may be written to. -/
structure FsInv where
  inv : (Slot → Nat) → Finset Slot → Fs → Prop
  opened : Slot → Bool → Fs → Prop

def FsInv.Stay (M : FsInv) (R : Slot → Nat) (s t : Fs) : Prop :=
  ∀ ip w, 0 < R ip → M.opened ip w s → M.opened ip w t

def FsInv.Back (M : FsInv) (R : Slot → Nat) (L : Finset Slot) (s t : Fs) : Prop :=
  M.inv R L t ∧ M.Stay R s t

def opensForWrite (omode : Word) : Bool := omode &&& oWronly ≠ 0 ∨ omode &&& oRdwr ≠ 0

/-- The functions that the system calls are made of keep it, for the calls `A` of a process with the
working directory that is given, and do not end in a panic other than those of `E`. -/
structure FsInv.Kept (M : FsInv) (sb : Superblock) (A : Slot → SysCall → Fs → Prop)
    (E : FsPanic → Prop) : Prop where
  openInode : ∀ {R s cwd path omode}, M.inv R ∅ s → 0 < R cwd → A cwd (.open path omode) s →
    Wp (openInode sb cwd path omode) s (fun r t => M.Stay R s t ∧
      match r with
      | none => M.inv R ∅ t
      | some ip => M.inv (addRef R ip) {ip} t ∧ M.opened ip (opensForWrite omode) t) fun e _ => E e
  iunlock : ∀ {R s ip}, M.inv R {ip} s → Wp (iunlock ip) s (fun _ t => M.Back R ∅ s t) fun e _ => E e
  iunlockput : ∀ {R s ip}, M.inv (addRef R ip) {ip} s →
    Wp (iunlockput sb ip) s (fun _ t => M.Back R ∅ s t) fun e _ => E e
  putInode : ∀ {R L s ip}, M.inv (addRef R ip) L s →
    Wp (putInode sb ip) s (fun _ t => M.Back R L s t) fun e _ => E e
  idup : ∀ {R s ip}, M.inv R ∅ s → 0 < R ip →
    Wp (idup ip) s (fun _ t => M.inv (addRef R ip) ∅ t ∧ M.Stay R s t) fun e _ => E e
  writeChunk : ∀ {R s ip off src}, M.inv R ∅ s → 0 < R ip → M.opened ip true s →
    src.length ≤ 1536 →
    Wp (writeChunk sb ip off src) s (fun _ t => M.Back R ∅ s t) fun e _ => E e
  sysLink : ∀ {R s cwd old new}, M.inv R ∅ s → 0 < R cwd → A cwd (.link old new) s →
    Wp (sysLink sb cwd old new) s (fun _ t => M.Back R ∅ s t) fun e _ => E e
  sysUnlink : ∀ {R s cwd path}, M.inv R ∅ s → 0 < R cwd → A cwd (.unlink path) s →
    Wp (sysUnlink sb cwd path) s (fun _ t => M.Back R ∅ s t) fun e _ => E e
  sysMkdir : ∀ {R s cwd path}, M.inv R ∅ s → 0 < R cwd → A cwd (.mkdir path) s →
    Wp (sysMkdir sb cwd path) s (fun _ t => M.Back R ∅ s t) fun e _ => E e
  sysMknod : ∀ {R s cwd path major minor}, M.inv R ∅ s → 0 < R cwd →
    A cwd (.mknod path major minor) s →
    Wp (sysMknod sb cwd path major minor) s (fun _ t => M.Back R ∅ s t) fun e _ => E e
  sysChdir : ∀ {R s cwd path}, M.inv (addRef R cwd) ∅ s → A cwd (.chdir path) s →
    Wp (sysChdir sb cwd path) s (fun r t => M.Stay R s t ∧
      match r with
      | none => M.inv (addRef R cwd) ∅ t
      | some ip => M.inv (addRef R ip) ∅ t) fun e _ => E e
  execInode : ∀ {R s cwd path reads}, M.inv R ∅ s → 0 < R cwd → A cwd (.exec path reads) s →
    Wp (execInode sb cwd path reads) s (fun _ t => M.Back R ∅ s t) fun e _ => E e

def SysPanic.among (E : FsPanic → Prop) : SysPanic → Prop
  | .fs e => E e
  | .wild => False
  | _ => True

/-- What holds when a call ends with a value, of those that end in the panics of `E` only. -/
abbrev Ends (E : FsPanic → Prop) (x : SysM α) (s : Sys) (Q : α → Sys → Prop) : Prop :=
  Wp x s Q fun e _ => e.among E

theorem ends_lift {x : FsM α} {Q : α → Fs → Prop} (h : Wp x s.fs Q fun e _ => E e) :
    Ends E (liftFs x) s fun a t => ∃ fs, t = { s with fs := fs } ∧ Q a fs := by
  unfold Wp at h
  unfold Ends Wp liftFs
  split at h
  · rename_i a t hx
    rw [hx]
    exact ⟨t, rfl, h⟩
  · rename_i e t hx
    rw [hx]
    exact h

theorem ends_bind {x : SysM α} {f : α → SysM β} {P : α → Sys → Prop} {Q : β → Sys → Prop}
    (h : Ends E x s P) (hf : ∀ a t, P a t → Ends E (f a) t Q) : Ends E (x >>= f) s Q :=
  wp_seq h hf

theorem ends_throw {e : SysPanic} {Q : α → Sys → Prop} (h : e.among E) : Ends E (throw e) s Q := h

end Xv6Signals
