import Xv6Signals.Fs.CallRefs
import Xv6Signals.Fs.Descriptors
import Xv6Signals.Fs.Boot
import Xv6Signals.Lib.Machine

namespace Xv6Signals
open Lib

variable {sb : Superblock} {s t : Sys} {init : Sys → Prop} {M : FsInv}
  {A : Slot → SysCall → Fs → Prop} {E : FsPanic → Prop}

/-- Any processes make system calls one after the other; each of them runs to its end. -/
def sysMachine (sb : Superblock) (init : Sys → Prop) : Machine Sys (ProcSlot × SysCall) where
  init := init
  next := fun s a =>
    match sysCall sb a.1 a.2 s with
    | .ok _ t => some t
    | .error _ _ => none

theorem sysMachine_next {a : ProcSlot × SysCall} (h : (sysMachine sb init).next s a = some t) :
    ∃ r, sysCall sb a.1 a.2 s = .ok r t := by
  have h : (match sysCall sb a.1 a.2 s with
    | .ok _ t => some t
    | .error _ _ => none) = some t := h
  split at h
  · rename_i r u hr
    cases h
    exact ⟨r, hr⟩
  · cases h

/-- The calls of a process that are admitted by its working directory and the file system. -/
def callMeets (A : Slot → SysCall → Fs → Prop) (s : Sys) (a : ProcSlot × SysCall) : Prop :=
  ∀ x ∈ s.proc a.1, A x.cwd a.2 s.fs

theorem accounted_of_reach (hM : M.Kept sb A E) (hinit : ∀ s, init s → Accounted M s)
    (h : (sysMachine sb init).Reach (callMeets A) s) : Accounted M s := by
  refine Machine.Reach.invariant h hinit fun s a t _ hs ha hn => ?_
  obtain ⟨r, hr⟩ := sysMachine_next hn
  exact (sysCall_counted hM a.1 a.2 hs fun x hx => ha x hx).ok hr

structure Booted (s : Sys) : Prop where
  file : ∀ f, (s.file f).ref = 0 ∧ (s.file f).kind = .none
  pipe : ∀ pg, s.pipe pg = none
  proc : ∃ ip, s.proc = Function.update (fun _ => none) initSlot (some ⟨ip, fun _ => none⟩) ∧
    (s.fs.icache ip).inum = rootIno ∧ (s.fs.icache ip).ref = 1 ∧
    ∀ jp, jp ≠ ip → (s.fs.icache jp).ref = 0
  unlocked : ∀ ip, (s.fs.icache ip).locked = false

theorem fileCount_eq_zero {file : FileSlot → File} (h : ∀ f, (file f).kind = .none) (ip : Slot) :
    fileCount file ip = 0 := by
  apply Finset.sum_eq_zero
  intro f _
  rw [h f, if_neg fun he => by cases he.1]

theorem cwdCount_none (ip : Slot) : cwdCount (fun _ => none) ip = 0 :=
  Finset.sum_eq_zero fun _ _ => rfl

theorem Booted.counted (h : Booted s) : Accounted refsInv s := by
  obtain ⟨hfile, hpipe, ⟨ip, hproc, -, hone, hzero⟩, hunlocked⟩ := h
  have hfd (f : FileSlot) : fdCount s.proc f = 0 := by
    have hu := fdCount_update (fun _ => none) initSlot (some ⟨ip, fun _ => none⟩) f
    rw [hproc]
    have hz : fdCount (fun _ => none) f = 0 := Finset.sum_eq_zero fun _ _ => rfl
    have hz' : ProcFiles.fdCount ⟨ip, fun _ => none⟩ f = 0 :=
      Finset.sum_eq_zero fun _ _ => if_neg (Option.some_ne_none f).symm
    simp only [Option.map_none, Option.getD_none, Option.map_some, Option.getD_some, hz, hz',
      Nat.add_zero] at hu
    exact hu
  have hcwd (jp : Slot) : cwdCount s.proc jp + fileCount s.file jp = if jp = ip then 1 else 0 := by
    rw [fileCount_eq_zero fun f => (hfile f).2, hproc, cwdCount_enter rfl, Nat.add_zero]
    by_cases hj : jp = ip
    · subst hj
      rw [addRef_self, cwdCount_none, if_pos rfl]
    · rw [addRef_of_ne hj, cwdCount_none, if_neg hj]
  refine ⟨fun f => ?_, fun f _ => (hfile f).2,
    ⟨fun jp => ?_, fun jp => ?_, fun jp kp hj hk _ => ?_⟩, fun _ _ => trivial, ?_⟩
  · rw [(hfile f).1, hfd]
    rfl
  · rw [hcwd]
    by_cases hj : jp = ip
    · rw [hj, hone, if_pos rfl]
      rfl
    · rw [hzero jp hj, if_neg hj]
      rfl
  · rw [hunlocked]
    exact ⟨fun he => Bool.noConfusion he, fun he => (Finset.notMem_empty jp he).elim⟩
  · rw [hcwd] at hj hk
    split at hj
    · split at hk
      · rename_i h₁ h₂
        rw [h₁, h₂]
      · omega
    · omega
  · have hend (f : FileSlot) (pg : Nat) (w : Bool) : ¬ HasEnd s.file f pg w := by
      intro he
      cases (hfile f).2.symm.trans he.1
    constructor
    · intro pg e he
      cases (hpipe pg).symm.trans he
    · intro pg e he
      cases (hpipe pg).symm.trans he
    · intro f pg w he
      exact (hend f pg w he).elim
    · intro pg e he
      cases (hpipe pg).symm.trans he
    · intro f _ pg w he
      exact (hend f pg w he).elim

theorem counted_of_reachable (h : (sysMachine sb Booted).Reachable s) : Accounted refsInv s :=
  accounted_of_reach (refsInv_kept sb) (fun _ hb => hb.counted) (h.mono fun _ _ _ _ _ => trivial)

def bootSys (v : Vol) : Sys :=
  ⟨bootFs v, fun _ => ⟨.none, 0, false, false, 0, slot0, 0⟩, fun _ => none,
    Function.update (fun _ => none) initSlot (some ⟨slot0, fun _ => none⟩)⟩

theorem bootSys_booted (v : Vol) : Booted (bootSys v) := by
  refine ⟨fun _ => ⟨rfl, rfl⟩, fun _ => rfl, ⟨slot0, rfl, rfl, rfl, fun jp hj => ?_⟩, fun _ => rfl⟩
  simp only [bootSys, bootFs, if_neg hj]

def proc1 : ProcSlot := ⟨1, by decide⟩

/-- The references to every entry of the inode cache are those of open files and working
directories, no inode has two entries that are in use, and no lock is left. -/
theorem inode_refs_conserved (h : (sysMachine sb Booted).Reachable s) :
    (∀ ip, (s.fs.icache ip).ref = (fileCount s.file ip + cwdCount s.proc ip : Nat)) ∧
    (∀ ip jp, 0 < (s.fs.icache ip).ref → 0 < (s.fs.icache jp).ref →
      (s.fs.icache ip).inum = (s.fs.icache jp).inum → ip = jp) ∧
    ∀ ip, (s.fs.icache ip).locked = false := by
  have hm := (counted_of_reachable h).inodes
  have hpos (ip : Slot) (hip : 0 < (s.fs.icache ip).ref) :
      0 < cwdCount s.proc ip + fileCount s.file ip := by
    rw [hm.ref] at hip
    omega
  refine ⟨fun ip => ?_, fun ip jp hip hjp hi => hm.uniq ip jp (hpos ip hip) (hpos jp hjp) hi,
    fun ip => ?_⟩
  · rw [hm.ref, Nat.add_comm]
  · have hl := hm.locked ip
    simp only [Finset.notMem_empty, iff_false, Bool.not_eq_true] at hl
    exact hl

theorem inode_refs_conserved_two : ∃ t : Sys, ((t.proc proc1).isSome = true ∧ fileCount t.file slot0 = 1) ∧
    (∀ ip, (t.fs.icache ip).ref = (fileCount t.file ip + cwdCount t.proc ip : Nat)) ∧
    (∀ ip jp, 0 < (t.fs.icache ip).ref → 0 < (t.fs.icache jp).ref →
      (t.fs.icache ip).inum = (t.fs.icache jp).inum → ip = jp) ∧
    ∀ ip, (t.fs.icache ip).locked = false := by
  obtain ⟨t, hreach, ht⟩ := Machine.Reach.exists_run (M := sysMachine mkfsSb Booted)
    (s := bootSys (imageOf []))
    (P := fun t => (t.proc proc1).isSome = true ∧ fileCount t.file slot0 = 1)
    (l := [(initSlot, .fork proc1), (proc1, .mkdir [97]), (proc1, .chdir [97]),
      (proc1, .open [46, 46] 0), (initSlot, .chdir [98])])
    (.init (bootSys_booted _)) (Machine.permits_true _ _) (by decide +kernel)
  exact ⟨t, ht, inode_refs_conserved hreach⟩

/-- The references to every file are the descriptors that have it; a pipe has the ends open that are
referenced, and exists as long as there is one; no call frees or uses it after that. -/
theorem file_refs_exact (h : (sysMachine sb Booted).Reachable s) :
    (∀ f, (s.file f).ref = fdCount s.proc f) ∧
    (∀ pg e, s.pipe pg = some e →
      (e.readopen = true ↔ ∃ f, 0 < (s.file f).ref ∧ HasEnd s.file f pg false) ∧
      (e.writeopen = true ↔ ∃ f, 0 < (s.file f).ref ∧ HasEnd s.file f pg true)) ∧
    (∀ pg, (s.pipe pg).isSome = true ↔ ∃ f w, 0 < (s.file f).ref ∧ HasEnd s.file f pg w) ∧
    (∀ p x fd f pg w, s.proc p = some x → x.ofile fd = some f → HasEnd s.file f pg w →
      (s.pipe pg).isSome = true) ∧
    ∀ p c t, sysCall sb p c s ≠ .error .wild t := by
  have hc := counted_of_reachable h
  have hpos (f : FileSlot) (pg : Nat) (w : Bool) (he : HasEnd s.file f pg w) :
      0 < (s.file f).ref := by
    rw [hc.ref]
    by_contra hz
    cases (hc.idle f (by omega)).symm.trans he.1
  have hand (pg : Nat) (w : Bool) : (∃ f, 0 < (s.file f).ref ∧ HasEnd s.file f pg w) ↔
      ∃ f, HasEnd s.file f pg w :=
    ⟨fun ⟨f, _, he⟩ => ⟨f, he⟩, fun ⟨f, he⟩ => ⟨f, hpos f pg w he, he⟩⟩
  have halive (f : FileSlot) (pg : Nat) (w : Bool) (he : HasEnd s.file f pg w) :
      (s.pipe pg).isSome = true := by
    obtain ⟨e, he⟩ := hc.ends.alive f pg w he
    rw [he]
    rfl
  refine ⟨hc.ref, fun pg e he => ?_, fun pg => ⟨fun hs => ?_, ?_⟩, ?_, fun p c t ht => ?_⟩
  · rw [hand, hand]
    exact ⟨hc.ends.reader pg e he, hc.ends.writer pg e he⟩
  · obtain ⟨e, he⟩ := Option.isSome_iff_exists.1 hs
    rcases hc.ends.used pg e he with hr | hw
    · obtain ⟨f, hf⟩ := (hc.ends.reader pg e he).1 hr
      exact ⟨f, false, hpos f pg false hf, hf⟩
    · obtain ⟨f, hf⟩ := (hc.ends.writer pg e he).1 hw
      exact ⟨f, true, hpos f pg true hf, hf⟩
  · rintro ⟨f, w, -, hf⟩
    exact halive f pg w hf
  · intro _ _ _ f pg w _ _ hf
    exact halive f pg w hf
  · exact (sysCall_counted (refsInv_kept sb) p c hc fun _ _ => trivial).error ht

theorem file_refs_exact_pipe : ∃ t : Sys, (t.pipe 7 = some ⟨false, true⟩) ∧
    (∀ f, (t.file f).ref = fdCount t.proc f) ∧
    (∀ pg e, t.pipe pg = some e →
      (e.readopen = true ↔ ∃ f, 0 < (t.file f).ref ∧ HasEnd t.file f pg false) ∧
      (e.writeopen = true ↔ ∃ f, 0 < (t.file f).ref ∧ HasEnd t.file f pg true)) ∧
    (∀ pg, (t.pipe pg).isSome = true ↔ ∃ f w, 0 < (t.file f).ref ∧ HasEnd t.file f pg w) ∧
    (∀ p x fd f pg w, t.proc p = some x → x.ofile fd = some f → HasEnd t.file f pg w →
      (t.pipe pg).isSome = true) ∧
    ∀ p c u, sysCall mkfsSb p c t ≠ .error .wild u := by
  obtain ⟨t, hreach, ht⟩ := Machine.Reach.exists_run (M := sysMachine mkfsSb Booted)
    (s := bootSys (imageOf []))
    (P := fun t => t.pipe 7 = some ⟨false, true⟩)
    (l := [(initSlot, .pipe (some 7)), (initSlot, .fork proc1), (initSlot, .close 0),
      (proc1, .close 0), (proc1, .exit)])
    (.init (bootSys_booted _)) (Machine.permits_true _ _) (by decide +kernel)
  exact ⟨t, ht, file_refs_exact hreach⟩

end Xv6Signals
