import Xv6Signals.Fs.CreateCalls
import Xv6Signals.Fs.LinkCalls
import Xv6Signals.Fs.Machine
import Xv6Signals.Fs.OtherCalls
import Xv6Signals.Fs.UnlinkCalls

namespace Xv6Signals
open Lib

variable {sb : Superblock} {R : Slot → Nat} {L : Finset Slot} {α : Type} {u : Sys}

/-- The inode cache agrees with a disk on which every block has one owner; what is open for writing
is no directory. -/
def soundInv (sb : Superblock) : FsInv :=
  ⟨Sound sb, fun ip w s => (s.icache ip).valid = true ∧ (w = true → (s.icache ip).d.type ≠ .dir)⟩

theorem Stays.stay {s t : Fs} (h : Stays R s t) : (soundInv sb).Stay R s t := by
  rintro ip w hip ⟨hv, hw⟩
  obtain ⟨hv', htype⟩ := (h ip hip).2 hv
  refine ⟨hv', fun he => ?_⟩
  rw [htype]
  exact hw he

theorem soundInv_back {s : Fs} {x : FsM α} {F : FsPanic → Fs → Prop}
    {Q : α → Fs → Prop} (h : Wp x s Q F) (hQ : ∀ a t, Q a t → Sound sb R L t ∧ Stays R s t)
    (hF : ∀ e t, F e t → e ≠ .freeingFreeBlock) :
    Wp x s (fun _ t => (soundInv sb).Back R L s t) fun e _ => e ≠ .freeingFreeBlock := by
  apply h.mono
  · intro a t ht
    obtain ⟨hs, hst⟩ := hQ a t ht
    exact ⟨hs, hst.stay⟩
  · exact hF

theorem OpenDone.opened {s t : Fs} {start : Nat} {omode : Word} {ip : Slot}
    (h : OpenDone sb R ∅ start omode s (some ip) t) :
    Sound sb (addRef R ip) {ip} t ∧ (soundInv sb).opened ip (opensForWrite omode) t := by
  obtain ⟨-, hs, hdir⟩ := h.found ip rfl
  have hmem : ip ∈ insert ip (∅ : Finset Slot) := Finset.mem_insert_self ..
  refine ⟨hs, (hs.held ip hmem).2, fun hw => ?_⟩
  rw [← hs.inode_eq hmem]
  apply hdir
  rintro rfl
  revert hw
  decide

theorem soundInv_kept (sb : Superblock) :
    (soundInv sb).Kept sb (fun _ _ _ => True) (· ≠ .freeingFreeBlock) := by
  constructor
  · intro R s cwd path omode h hcwd _
    apply (openInode_sound h hcwd path omode).mono
    · intro r t ht
      refine ⟨ht.stays.stay, ?_⟩
      cases r with
      | none => exact ht.failed rfl
      | some ip => exact ht.opened
    · exact fun _ _ he => he.bfree
  · intro R s ip h
    exact soundInv_back (iunlock_sound (L := ∅) h (Finset.notMem_empty ip))
      (fun _ _ ht => ⟨ht.1, ht.2.1⟩) fun _ _ he => he.elim
  · intro R s ip h
    exact soundInv_back (iunlockput_sound (L := ∅) h (Finset.notMem_empty ip))
      (fun _ _ ht => ⟨ht.1, ht.2.1⟩) fun _ _ he => he.elim
  · intro R L s ip h
    refine soundInv_back (putInode_sound h) (fun _ _ ht => ⟨ht.1, ht.2.1⟩) ?_
    rintro e t ⟨rfl, -⟩
    decide
  · intro R s ip h hip
    apply (idup_sound h hip).mono
    · rintro _ t ⟨-, ht, hs, -⟩
      exact ⟨ht, hs.stay⟩
    · exact fun _ _ he => he.elim
  · intro R s ip off src h hip hopen hlen
    refine soundInv_back (writeChunk_sound h hip ?_ off src (by omega))
      (fun _ _ ht => ⟨ht.1, ht.2.1⟩) fun _ _ he => he.1
    rw [← (h.copy ip hip hopen.1).1]
    exact hopen.2 rfl
  · exact fun h hcwd _ => soundInv_back (sysLink_sound h hcwd _ _)
      (fun _ _ ht => ⟨ht.sound, ht.stays⟩) fun _ _ he => he.bfree
  · exact fun h hcwd _ => soundInv_back (sysUnlink_sound h hcwd _)
      (fun _ _ ht => ⟨ht.sound, ht.stays⟩) fun _ _ he => he.bfree
  · exact fun h hcwd _ => soundInv_back (mkInode_sound h hcwd _)
      (fun _ _ ht => ⟨ht.sound, ht.stays⟩) fun _ _ he => he.bfree
  · exact fun h hcwd _ => soundInv_back (mkInode_sound h hcwd _)
      (fun _ _ ht => ⟨ht.sound, ht.stays⟩) fun _ _ he => he.bfree
  · intro R s cwd path h _
    apply (sysChdir_sound h path).mono
    · intro r t ht
      refine ⟨ht.stays.stay, ?_⟩
      cases r with
      | none => exact ht.failed rfl
      | some ip => exact ht.found ip rfl
    · exact fun _ _ he => he.bfree
  · exact fun h hcwd _ => soundInv_back (execInode_sound h hcwd _ _)
      (fun _ _ ht => ⟨ht.1, ht.2.1⟩) fun _ _ he => he.bfree

theorem Booted.sound (h : Booted u) (hv : ∀ ip, 0 < (u.fs.icache ip).ref →
    (u.fs.icache ip).valid = false) (hp : Proper sb u.fs.disk) : Accounted (soundInv sb) u := by
  have hc := h.counted
  have hpos (ip : Slot) (hip : 0 < cwdCount u.proc ip + fileCount u.file ip) :
      0 < (u.fs.icache ip).ref := by
    rw [hc.inodes.ref]
    omega
  obtain ⟨hfile, -, ⟨jp, -, hroot, -, hzero⟩, -⟩ := h
  refine ⟨hc.ref, hc.idle, ⟨hc.inodes, fun ip hip => (Finset.notMem_empty ip hip).elim,
    fun ip hip hval => ?_, fun ip hip => ?_, hp⟩, fun f hk => ?_, hc.ends⟩
  · cases (hv ip (hpos ip hip)).symm.trans hval
  · by_cases hi : ip = jp
    · rw [hi, hroot]
      exact hp.root
    · have := hpos ip hip
      rw [hzero ip hi] at this
      omega
  · cases (hfile f).2.symm.trans hk

/-- Every block that an inode has is a data block that is marked, and no other inode has it, nor the
same inode in another place; every data block that is marked is one of these; and `bfree` is not
called for a block that is free. -/
theorem blocks_owned_once (h : (sysMachine sb (Accounted (soundInv sb))).Reachable u) :
    (∀ i p b, Holds sb u.fs.disk i p b → (sb.nmeta ≤ b ∧ b < sb.size) ∧ u.fs.disk.used b = true ∧
      ∀ j q, Holds sb u.fs.disk j q b → j = i ∧ q = p) ∧
    (∀ b, sb.nmeta ≤ b → b < sb.size → u.fs.disk.used b = true → ∃ i p, Holds sb u.fs.disk i p b) ∧
    ∀ p c t, sysCall sb p c u ≠ .error (.fs .freeingFreeBlock) t := by
  have hc : Accounted (soundInv sb) u :=
    accounted_of_reach (soundInv_kept sb) (fun _ h => h) (h.mono fun _ _ _ _ _ => trivial)
  have ho := hc.inodes.proper.owned
  refine ⟨fun i p b hb => ⟨ho.area i p b hb, ho.marked i p b hb, fun j q hb' => ?_⟩, ho.found,
    fun p c t ht => ?_⟩
  · exact ho.once j q i p b hb' hb
  · exact (sysCall_counted (soundInv_kept sb) p c hc fun _ _ => trivial).error ht rfl

/-- A file is made and written, linked, and both of its names are removed while it is open. -/
theorem blocks_owned_once_unlinked : ∃ t : Sys,
    (t.fs.disk.live mkfsSb 2 ∧ (t.fs.disk.inode 2).nlink = 0 ∧ t.fs.disk.held 2 0 ≠ 0) ∧
    (∀ i p b, Holds mkfsSb t.fs.disk i p b → (mkfsSb.nmeta ≤ b ∧ b < mkfsSb.size) ∧
      t.fs.disk.used b = true ∧ ∀ j q, Holds mkfsSb t.fs.disk j q b → j = i ∧ q = p) ∧
    (∀ b, mkfsSb.nmeta ≤ b → b < mkfsSb.size → t.fs.disk.used b = true →
      ∃ i p, Holds mkfsSb t.fs.disk i p b) ∧
    ∀ p c u, sysCall mkfsSb p c t ≠ .error (.fs .freeingFreeBlock) u := by
  have himage := imageOf_image [] (by decide +kernel) (by decide) (by decide) (by decide) (by decide)
  have hstart := (bootSys_booted (imageOf [])).sound (fun _ _ => rfl) (himage.proper (by decide))
  obtain ⟨t, hreach, ht⟩ := Machine.Reach.exists_run
    (M := sysMachine mkfsSb (Accounted (soundInv mkfsSb)))
    (P := fun t => t.fs.disk.live mkfsSb 2 ∧ (t.fs.disk.inode 2).nlink = 0 ∧ t.fs.disk.held 2 0 ≠ 0)
    (l := [(initSlot, .open [97] (oCreate ||| oWronly)), (initSlot, .write 0 [1, 2, 3] 0),
      (initSlot, .link [97] [98]), (initSlot, .unlink [97]), (initSlot, .unlink [98])])
    (.init hstart) (Machine.permits_true _ _) (by decide +kernel)
  exact ⟨t, ht, blocks_owned_once hreach⟩

def twoNamesVol : Vol :=
  ⟨fun i => if i = 1 then ⟨.dir, 0, 0, 1, 32, fun k => if k = 0 then 100 else 0⟩
      else if i = 2 ∨ i = 3 then ⟨.file, 0, 0, 1, 1, fun k => if k = 0 then 101 else 0⟩
      else freeInode,
    fun b => decide (b < 59 ∨ b = 100 ∨ b = 101),
    fun b => if b = 100 then
        Bytes.write (fun _ => 0) 0 (Dirent.encode ⟨2, strncpy 14 [97]⟩ ++
          Dirent.encode ⟨3, strncpy 14 [98]⟩)
      else fun _ => 0⟩

theorem twoNamesVol_held {i p : Nat} (hi : twoNamesVol.live mkfsSb i) (hp : p < 141) :
    twoNamesVol.held i p = if p = 0 then if i = 1 then 100 else 101 else 0 := by
  have hindirect : (twoNamesVol.inode i).addrs 12 = 0 := by
    unfold twoNamesVol
    dsimp only
    split
    · rfl
    · split <;> rfl
  unfold Vol.held
  rw [if_pos hindirect]
  have hne := hi.2
  unfold twoNamesVol at hne ⊢
  dsimp only at hne ⊢
  by_cases h1 : i = 1
  · simp only [h1, if_true]
    split <;> split <;> first | rfl | omega
  rw [if_neg h1] at hne
  by_cases h2 : i = 2 ∨ i = 3
  · simp only [h1, h2, if_true, if_false]
    split <;> split <;> first | rfl | omega
  · rw [if_neg h2] at hne
    exact (hne rfl).elim

/-- It is not enough that the blocks that inodes have are marked: two files that have the same block
are both removed. -/
theorem shared_block_freed_twice : ∃ v : Vol,
    (∀ i bn, v.live mkfsSb i → bn * 512 < (v.inode i).size → bn < 140 ∧ v.addr i bn ≠ 0) ∧
    (∀ b, b < mkfsSb.size → (v.used b = true ↔ b < mkfsSb.nmeta ∨ ∃ i p, Holds mkfsSb v i p b)) ∧
    ∃ t t', (sysMachine mkfsSb Booted).run (bootSys v) [(initSlot, .unlink [97])] = some t ∧
      sysCall mkfsSb initSlot (.unlink [98]) t = .error (.fs .freeingFreeBlock) t' := by
  refine ⟨twoNamesVol, fun i bn hl hlt => ?_, fun b hb => ⟨fun hu => ?_, ?_⟩, ?_⟩
  · have hsize : (twoNamesVol.inode i).size ≤ 32 := by
      unfold twoNamesVol
      dsimp only
      split
      · exact le_rfl
      · split
        · exact (by decide : 1 ≤ 32)
        · exact (by decide : 0 ≤ 32)
    obtain rfl : bn = 0 := by omega
    rw [Vol.addr, twoNamesVol_held hl (place_lt (by decide))]
    by_cases h1 : i = 1
    · rw [if_pos (by rfl), if_pos h1]
      decide
    · rw [if_pos (by rfl), if_neg h1]
      decide
  · have hu : b < 59 ∨ b = 100 ∨ b = 101 := of_decide_eq_true hu
    rcases hu with hu | rfl | rfl
    · exact .inl hu
    · exact .inr ⟨1, 0, by decide, by decide, by decide, by decide⟩
    · exact .inr ⟨2, 0, by decide, by decide, by decide, by decide⟩
  · have hused (hb : b < 59 ∨ b = 100 ∨ b = 101) : twoNamesVol.used b = true := decide_eq_true hb
    rintro (hm | ⟨i, p, hh⟩)
    · exact hused (.inl hm)
    have he := hh.eq
    rw [twoNamesVol_held hh.live hh.lt] at he
    split at he
    · split at he
      · exact hused (.inr (.inl he.symm))
      · exact hused (.inr (.inr he.symm))
    · exact (hh.ne he.symm).elim
  · have h : ((sysMachine mkfsSb Booted).run (bootSys twoNamesVol) [(initSlot, .unlink [97])]).any
        (fun t => failsWith (sysCall mkfsSb initSlot (.unlink [98])) t (.fs .freeingFreeBlock)) =
          true := by
      decide +kernel
    obtain ⟨t, ht, hf⟩ := (Option.any_eq_true ..).1 h
    obtain ⟨t', ht'⟩ := exists_of_failsWith hf
    exact ⟨t, t', ht, ht'⟩

end Xv6Signals
