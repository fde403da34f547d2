import Xv6Signals.Fs.Rules

namespace Xv6Signals
open Lib Finset

variable {sb : Superblock} {s t u : Fs} {ip jp dp cwd : Slot} {R : Slot → Nat} {L : Finset Slot}
  {α β : Type} {name path : List Byte} {type : FileType} {major minor : Int} {off : Nat}

def Opened (R : Slot → Nat) (r : Option Slot) (t : Fs) : Prop :=
  match r with
  | none => Refs R ∅ t
  | some ip => Refs (addRef R ip) {ip} t

theorem namei_refs (h : Refs R L s) (hcwd : 0 < R cwd) : Leaves (namei sb cwd path) s fun r t =>
      match r with
      | none => Refs R L t
      | some ip => Refs (addRef R ip) L t := by
  apply wp_seq (namex_refs h hcwd)
  intro r t ht
  cases r with
  | none => exact wp_pure ht
  | some r => exact wp_pure ht

theorem linkUndo_refs (h : Refs (addRef R ip) L s) :
    Leaves (linkUndo sb ip) s fun _ => Refs R L := by
  apply wp_seq (ilock_refs h)
  rintro _ t ⟨hip, ht⟩
  apply wp_seq ((quietly_addLinks sb ip _).mem ht)
  intro _ t₂ ht₂
  exact wp_seq_pure (iunlockput_refs ht₂ hip)

theorem linkNew_refs (h : Refs (addRef R ip) L s) (hcwd : 0 < R cwd) :
    Leaves (linkNew sb cwd ip path) s fun _ => Refs R L := by
  apply wp_seq (namex_refs h (hcwd.trans_le (le_addRef R ip cwd)))
  intro r t ht
  cases r with
  | none => exact linkUndo_refs ht
  | some r =>
    have ht : Refs (addRef (addRef R ip) r.1) L t := ht
    apply wp_seq (ilock_refs ht)
    rintro _ t₂ ⟨hdp, ht₂⟩
    apply wp_get_bind
    apply wp_seq (dirlink_refs ht₂)
    intro n t₃ ht₃
    apply wp_seq (iunlockput_refs ht₃ hdp)
    intro _ t₄ ht₄
    apply wp_ite
    · exact fun _ => linkUndo_refs ht₄
    · exact fun _ => wp_seq_pure (iput_refs ht₄)

theorem sysLink_refs {old new : List Byte} (h : Refs R ∅ s) (hcwd : 0 < R cwd) :
    Leaves (sysLink sb cwd old new) s fun _ => Refs R ∅ := by
  apply wp_seq (quietly_beginOp.mem h)
  intro _ t₁ ht₁
  apply wp_seq (namei_refs ht₁ hcwd)
  intro r t₂ ht₂
  cases r with
  | none => exact wp_pure ht₂
  | some ip =>
    apply wp_seq (ilock_refs ht₂)
    rintro _ t₃ ⟨hip, ht₃⟩
    apply wp_get_bind
    apply wp_ite
    · exact fun _ => wp_seq_pure (iunlockput_refs ht₃ hip)
    intro _
    apply wp_seq ((quietly_addLinks sb ip _).mem ht₃)
    intro _ t₄ ht₄
    apply wp_seq (iunlock_refs ht₄ hip)
    intro _ t₅ ht₅
    exact linkNew_refs ht₅ hcwd

theorem quietly_unlinkable (sb : Superblock) (ip : Slot) : Quietly (unlinkable sb ip) := by
  apply quietly_get
  intro s
  refine quietly_ite ?_ (quietly_pure _)
  exact quietly_bind (quietly_scanDir sb ip _ _ _) fun _ => quietly_pure _

theorem unlinkEntry_refs (h : Refs (addRef (addRef R dp) ip) (insert ip (insert dp L)) s)
    (hdp : dp ∉ L) (hip : ip ∉ insert dp L) :
    Leaves (unlinkEntry sb dp ip off) s fun _ => Refs R L := by
  have hne : dp ≠ ip := by
    rintro rfl
    exact hip (mem_insert_self ..)
  have hip' : ip ∉ L := fun hm => hip (mem_insert_of_mem hm)
  have hdp' : dp ∉ insert ip L := by
    rw [mem_insert]
    exact fun hm => hm.elim hne hdp
  rw [addRef_comm, insert_comm] at h
  apply wp_seq ((quietly_writei sb dp _ _).mem h)
  intro n t₁ ht₁
  apply wp_ite
  · exact fun _ => True.intro
  intro _
  apply wp_get_bind
  apply wp_seq ((quietly_ite (quietly_addLinks sb dp _) (quietly_pure _)).mem ht₁)
  intro _ t₂ ht₂
  apply wp_seq (iunlockput_refs ht₂ hdp')
  intro _ t₃ ht₃
  apply wp_seq ((quietly_addLinks sb ip _).mem ht₃)
  intro _ t₄ ht₄
  exact wp_seq_pure (iunlockput_refs ht₄ hip')

theorem unlinkFound_refs (h : Refs (addRef (addRef R dp) ip) (insert dp L) s) (hdp : dp ∉ L) :
    Leaves (unlinkFound sb dp ip off) s fun _ => Refs R L := by
  apply wp_seq (ilock_refs h)
  rintro _ t₁ ⟨hip, ht₁⟩
  apply wp_get_bind
  apply wp_ite
  · exact fun _ => True.intro
  intro _
  apply wp_seq ((quietly_unlinkable sb ip).mem ht₁)
  intro _ t₂ ht₂
  apply wp_ite
  · exact fun _ => unlinkEntry_refs ht₂ hdp hip
  intro _
  apply wp_seq (iunlockput_refs ht₂ hip)
  intro _ t₃ ht₃
  exact wp_seq_pure (iunlockput_refs ht₃ hdp)

theorem sysUnlink_refs (h : Refs R ∅ s) (hcwd : 0 < R cwd) :
    Leaves (sysUnlink sb cwd path) s fun _ => Refs R ∅ := by
  apply wp_seq (quietly_beginOp.mem h)
  intro _ t₁ ht₁
  apply wp_seq (namex_refs ht₁ hcwd)
  intro r t₂ ht₂
  cases r with
  | none => exact wp_pure ht₂
  | some r =>
    apply wp_seq (ilock_refs ht₂)
    rintro _ t₃ ⟨hdp, ht₃⟩
    apply wp_ite
    · exact fun _ => wp_seq_pure (iunlockput_refs ht₃ hdp)
    intro _
    apply wp_seq (dirlookup_refs ht₃)
    intro r' t₄ ht₄
    cases r' with
    | none => exact wp_seq_pure (iunlockput_refs ht₄ hdp)
    | some r' => exact unlinkFound_refs ht₄ hdp

theorem createDots_refs (h : Refs R L s) : Leaves (createDots sb dp ip) s fun _ => Refs R L := by
  apply wp_seq ((quietly_addLinks sb dp _).mem h)
  intro _ t₁ ht₁
  apply wp_get_bind
  apply wp_seq (dirlink_refs ht₁)
  intro _ t₂ ht₂
  apply wp_ite
  · exact fun _ => True.intro
  intro _
  apply wp_seq (dirlink_refs ht₂)
  intro _ t₃ ht₃
  apply wp_ite
  · exact fun _ => True.intro
  · exact fun _ => wp_pure ht₃

theorem ialloc_refs (h : Refs R L s) :
    Leaves (ialloc sb type) s fun ip => Refs (addRef R ip) L := by
  apply wp_get_bind
  split
  · apply wp_seq ((quietly_setDisk _).mem h)
    intro _ t₁ ht₁
    apply wp_seq ((quietly_logWrite _).mem ht₁)
    intro _ t₂ ht₂
    exact iget_refs ht₂
  · exact True.intro

theorem createNew_refs (h : Refs (addRef R dp) {dp} s) :
    Leaves (createNew sb dp name type major minor) s (Opened R) := by
  apply wp_seq (ialloc_refs h)
  intro ip t₁ ht₁
  apply wp_seq (ilock_refs ht₁)
  rintro _ t₂ ⟨hip, ht₂⟩
  have hip : ip ≠ dp := by simpa using hip
  apply wp_seq ((quietly_setCopy ip _).mem ht₂)
  intro _ t₃ ht₃
  apply wp_seq ((quietly_iupdate sb ip).mem ht₃)
  intro _ t₄ ht₄
  apply wp_seq (P := fun _ => Refs (addRef (addRef R dp) ip) (insert ip {dp}))
  · apply wp_ite
    · exact fun _ => createDots_refs ht₄
    · exact fun _ => wp_pure ht₄
  intro _ t₅ ht₅
  apply wp_get_bind
  apply wp_seq (dirlink_refs ht₅)
  intro _ t₆ ht₆
  apply wp_ite
  · exact fun _ => True.intro
  intro _
  rw [addRef_comm, pair_comm] at ht₆
  exact wp_seq_pure (iunlockput_refs ht₆ (by simpa using hip.symm))

theorem createOld_refs (h : Refs (addRef (addRef R dp) ip) {dp} s) :
    Leaves (createOld sb dp ip type) s (Opened R) := by
  rw [addRef_comm, ← insert_empty] at h
  apply wp_seq (iunlockput_refs h (notMem_empty dp))
  intro _ t₁ ht₁
  apply wp_seq (ilock_refs ht₁)
  rintro _ t₂ ⟨hip, ht₂⟩
  apply wp_get_bind
  apply wp_ite
  · exact fun _ => wp_pure ht₂
  · exact fun _ => wp_seq_pure (iunlockput_refs ht₂ hip)

theorem create_refs (h : Refs R ∅ s) (hcwd : 0 < R cwd) :
    Leaves (create sb cwd path type major minor) s (Opened R) := by
  apply wp_seq (namex_refs h hcwd)
  intro r t₁ ht₁
  cases r with
  | none => exact wp_pure ht₁
  | some r =>
    apply wp_seq (ilock_refs ht₁)
    rintro _ t₂ ⟨-, ht₂⟩
    apply wp_seq (dirlookup_refs ht₂)
    intro r' t₃ ht₃
    cases r' with
    | none => exact createNew_refs ht₃
    | some r' => exact createOld_refs ht₃

theorem openInode_refs {omode : Word} (h : Refs R ∅ s) (hcwd : 0 < R cwd) :
    Leaves (openInode sb cwd path omode) s (Opened R) := by
  apply wp_seq (quietly_beginOp.mem h)
  intro _ t₁ ht₁
  apply wp_ite
  · exact fun _ => create_refs ht₁ hcwd
  intro _
  apply wp_seq (namei_refs ht₁ hcwd)
  intro r t₂ ht₂
  cases r with
  | none => exact wp_pure ht₂
  | some ip =>
    apply wp_seq (ilock_refs ht₂)
    rintro _ t₃ ⟨hip, ht₃⟩
    apply wp_get_bind
    apply wp_ite
    · exact fun _ => wp_seq_pure (iunlockput_refs ht₃ hip)
    · exact fun _ => wp_pure ht₃

theorem mkInode_refs (h : Refs R ∅ s) (hcwd : 0 < R cwd) :
    Leaves (mkInode sb cwd path type major minor) s fun _ => Refs R ∅ := by
  apply wp_seq (quietly_beginOp.mem h)
  intro _ t₁ ht₁
  apply wp_seq (create_refs ht₁ hcwd)
  intro r t₂ ht₂
  cases r with
  | none => exact wp_pure ht₂
  | some ip =>
    exact wp_seq_pure (iunlockput_refs (L := ∅) ht₂ (notMem_empty ip))

theorem sysChdir_refs (h : Refs (addRef R cwd) ∅ s) : Leaves (sysChdir sb cwd path) s fun r t =>
      match r with
      | none => Refs (addRef R cwd) ∅ t
      | some ip => Refs (addRef R ip) ∅ t := by
  apply wp_seq (quietly_beginOp.mem h)
  intro _ t₁ ht₁
  apply wp_seq (namei_refs ht₁ (by rw [addRef_self]; omega))
  intro r t₂ ht₂
  cases r with
  | none => exact wp_pure ht₂
  | some ip =>
    apply wp_seq (ilock_refs ht₂)
    rintro _ t₃ ⟨hip, ht₃⟩
    apply wp_get_bind
    apply wp_ite
    · exact fun _ => wp_seq_pure (iunlockput_refs ht₃ hip)
    intro _
    apply wp_seq (iunlock_refs ht₃ hip)
    intro _ t₄ ht₄
    rw [addRef_comm] at ht₄
    exact wp_seq_pure (iput_refs ht₄)

theorem putInode_refs (h : Refs (addRef R ip) L s) :
    Leaves (putInode sb ip) s fun _ => Refs R L := by
  apply wp_seq (quietly_beginOp.mem h)
  exact fun _ _ ht => iput_refs ht

theorem writeChunk_refs {src : List Byte} (h : Refs R ∅ s) :
    Leaves (writeChunk sb ip off src) s fun _ => Refs R ∅ := by
  apply wp_seq (quietly_beginOp.mem h)
  intro _ t₁ ht₁
  apply wp_seq (ilock_refs ht₁)
  rintro _ t₂ ⟨hip, ht₂⟩
  apply wp_seq ((quietly_writei sb ip _ _).mem ht₂)
  intro _ t₃ ht₃
  exact wp_seq_pure (iunlock_refs ht₃ hip)

theorem execInode_refs {reads : List (Nat × Nat)} (h : Refs R ∅ s) (hcwd : 0 < R cwd) :
    Leaves (execInode sb cwd path reads) s fun _ => Refs R ∅ := by
  apply wp_seq (quietly_beginOp.mem h)
  intro _ t₁ ht₁
  apply wp_seq (namei_refs ht₁ hcwd)
  intro r t₂ ht₂
  cases r with
  | none => exact wp_pure ht₂
  | some ip =>
    apply wp_seq (ilock_refs ht₂)
    rintro _ t₃ ⟨hip, ht₃⟩
    have hreads : Quietly (reads.forM fun r => do
        let _ ← readi sb ip r.1 r.2
        pure ()) :=
      quietly_forM fun r => quietly_bind (quietly_readi sb ip _ _) fun _ => quietly_pure _
    apply wp_seq (hreads.mem ht₃)
    intro _ t₄ ht₄
    exact wp_seq_pure (iunlockput_refs ht₄ hip)

def refsInv : FsInv := ⟨Refs, fun _ _ _ => True⟩

theorem refsInv_back {x : FsM α} (h : Leaves x s fun _ => Refs R L) :
    Wp x s (fun _ t => refsInv.Back R L s t) fun _ _ => True :=
  h.post (fun _ _ ht => ⟨ht, fun _ _ _ _ => trivial⟩)

theorem refsInv_kept (sb : Superblock) : refsInv.Kept sb (fun _ _ _ => True) fun _ => True := by
  constructor
  · intro R s cwd path omode h hcwd _
    apply (openInode_refs h hcwd).post
    intro r t ht
    refine ⟨fun _ _ _ _ => trivial, ?_⟩
    cases r with
    | none => exact ht
    | some ip => exact ⟨ht, trivial⟩
  · exact fun h => refsInv_back (iunlock_refs (L := ∅) h (notMem_empty _))
  · exact fun h => refsInv_back (iunlockput_refs (L := ∅) h (notMem_empty _))
  · exact fun h => refsInv_back (putInode_refs h)
  · intro R s ip h hip
    exact (idup_refs h hip).post (fun _ _ ht => ⟨ht.2, fun _ _ _ _ => trivial⟩)
  · exact fun h _ _ _ => refsInv_back (writeChunk_refs h)
  · exact fun h hcwd _ => refsInv_back (sysLink_refs h hcwd)
  · exact fun h hcwd _ => refsInv_back (sysUnlink_refs h hcwd)
  · exact fun h hcwd _ => refsInv_back (mkInode_refs h hcwd)
  · exact fun h hcwd _ => refsInv_back (mkInode_refs h hcwd)
  · intro R s cwd path h _
    apply (sysChdir_refs h).post
    intro r t ht
    refine ⟨fun _ _ _ _ => trivial, ?_⟩
    cases r with
    | none => exact ht
    | some ip => exact ht
  · exact fun h hcwd _ => refsInv_back (execInode_refs h hcwd)

end Xv6Signals
