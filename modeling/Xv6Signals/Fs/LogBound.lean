import Xv6Signals.Fs.Boot
import Xv6Signals.Fs.CreateCalls
import Xv6Signals.Fs.LinkCalls
import Xv6Signals.Fs.OtherCalls
import Xv6Signals.Fs.UnlinkCalls

namespace Xv6Signals
open Lib List

variable {sb : Superblock} {s t : Fs} {R : Slot → Nat} {i d n : Nat} {K : Nat → Prop}

inductive FsOp
  | link (cwd : Slot) (old new : List Byte)
  | unlink (cwd : Slot) (path : List Byte)
  | mk (cwd : Slot) (path : List Byte) (type : FileType) (major minor : Int)
  | open (cwd : Slot) (path : List Byte) (omode : Word) (full : Bool)
  | chdir (cwd : Slot) (path : List Byte)
  | exec (cwd : Slot) (path : List Byte) (reads : List (Nat × Nat))
  | put (ip : Slot)
  | write (ip : Slot) (off : Nat) (src : List Byte)

def openOp (sb : Superblock) (cwd : Slot) (path : List Byte) (omode : Word) (full : Bool) :
    FsM Unit := do
  let r ← openInode sb cwd path omode
  match r with
  | none => pure ()
  | some ip => if full then iunlockput sb ip else iunlock ip

def FsOp.run (sb : Superblock) : FsOp → FsM Unit
  | .link cwd old new => do let _ ← sysLink sb cwd old new
  | .unlink cwd path => do let _ ← sysUnlink sb cwd path
  | .mk cwd path type major minor => do let _ ← mkInode sb cwd path type major minor
  | .open cwd path omode full => openOp sb cwd path omode full
  | .chdir cwd path => do let _ ← sysChdir sb cwd path
  | .exec cwd path reads => do let _ ← execInode sb cwd path reads
  | .put ip => putInode sb ip
  | .write ip off src => do let _ ← writeChunk sb ip off src

/-- The inodes that an operation is given are in use; a piece of a write is not empty and has at
most 1536 bytes, and goes to a file that could be opened for writing. -/
def FsOp.admitted (R : Slot → Nat) (s : Fs) : FsOp → Prop
  | .link cwd _ _ => 0 < R cwd
  | .unlink cwd _ => 0 < R cwd
  | .mk cwd _ type _ _ => 0 < R cwd ∧ type ≠ .free
  | .open cwd _ _ _ => 0 < R cwd
  | .chdir cwd _ => 0 < R cwd
  | .exec cwd _ _ => 0 < R cwd
  | .put ip => 0 < R ip
  | .write ip _ src => 0 < R ip ∧ 0 < src.length ∧ src.length ≤ 1536 ∧
      (s.disk.inode (s.icache ip).inum).type ≠ .dir

/-- An allocated inode that is in the directory tree or in use has a link or a reference: the root,
and what the entries of such directories name. -/
structure NoneLost (sb : Superblock) (R : Slot → Nat) (s : Fs) : Prop where
  root : s.disk.live sb rootIno → (s.disk.inode rootIno).nlink ≠ 0 ∨ s.refd R rootIno
  step : ∀ d k, s.disk.live sb d → (s.disk.inode d).type = .dir →
    (s.disk.inode d).nlink ≠ 0 ∨ s.refd R d → 16 * k + 16 ≤ (s.disk.inode d).size →
    (s.disk.entry d k).inum ≠ 0 → s.disk.live sb (s.disk.entry d k).inum →
    (s.disk.inode (s.disk.entry d k).inum).nlink ≠ 0 ∨ s.refd R (s.disk.entry d k).inum

def Fs.keptSet (sb : Superblock) (R : Slot → Nat) (s : Fs) (i : Nat) : Prop :=
  s.disk.live sb i → (s.disk.inode i).nlink ≠ 0 ∨ s.refd R i

theorem NoneLost.traced (h : NoneLost sb R s) : Traced sb R (s.keptSet sb R) s :=
  ⟨fun d k hd hl htype hk hne hl' => h.step d k hl htype (hd hl) hk hne hl', fun _ hi hl => hi hl⟩

theorem NoneLost.start (h : NoneLost sb R s) {cwd : Slot} (hcwd : 0 < R cwd) (path : List Byte) :
    s.keptSet sb R (s.start cwd path) := by
  intro hl
  unfold Fs.start at hl ⊢
  split at hl
  · rw [if_pos ‹_›]
    exact h.root hl
  · rw [if_neg ‹_›]
    exact .inr ⟨cwd, hcwd, rfl⟩

def Fs.loggedBlocks (s : Fs) : Nat := s.logged.toFinset.card

theorem Logs.card (h : Logs sb n s.fresh t) (hsize : sb.size ≤ 4096) : t.loggedBlocks ≤ n + 3 := by
  obtain ⟨i, d, l, hl, hx⟩ := h
  have hsub : t.logged.toFinset ⊆ (sb.bmapstart :: sb.iblock i :: sb.iblock d :: l).toFinset := by
    intro x hm
    rw [mem_toFinset] at hm ⊢
    rcases hx x hm with hm | (⟨b, hb, rfl⟩ | rfl | rfl) | hm
    · cases hm
    · have hz : b / 4096 = 0 := Nat.div_eq_of_lt (hb.trans_le hsize)
      rw [Superblock.bblock, hz, Nat.zero_add]
      exact mem_cons_self
    · simp
    · simp
    · simp [hm]
  refine (Finset.card_le_card hsub).trans ((toFinset_card_le _).trans ?_)
  simp only [length_cons]
  omega

theorem NoneLost.fresh (h : NoneLost sb R s) : NoneLost sb R s.fresh := ⟨h.root, h.step⟩

theorem exists_addRef {ip : Slot} (hip : 0 < R ip) : ∃ R', R = addRef R' ip := by
  refine ⟨Function.update R ip (R ip - 1), funext fun jp => ?_⟩
  by_cases hj : jp = ip
  · rw [hj, addRef_self, Function.update_self]
    omega
  · rw [addRef_of_ne hj, Function.update_of_ne hj]

theorem CallFailed.card {starts : List Nat} {e : FsPanic} (h : CallFailed sb R starts n s.fresh e t)
    (hsize : sb.size ≤ 4096) (hn : NoneLost sb R s)
    (hstarts : ∀ i ∈ starts, s.fresh.keptSet sb R i) : t.loggedBlocks ≤ n + 3 :=
  (h.exact _ hn.fresh.traced hstarts).card hsize

theorem call_logs {α : Type} {x : FsM α} {Q : α → Fs → Prop} {starts : List Nat}
    (h : Wp x s Q (CallFailed sb R starts n s.fresh))
    (hlogs : ∀ r t, Q r t → (∀ i ∈ starts, s.fresh.keptSet sb R i) → Logs sb n s.fresh t)
    (hsize : sb.size ≤ 4096) (hn : NoneLost sb R s) (hle : n ≤ 7)
    (hstarts : ∀ i ∈ starts, s.fresh.keptSet sb R i) :
    Wp (do let _ ← x) s (fun _ t => t.loggedBlocks ≤ 10) fun _ t => t.loggedBlocks ≤ 10 := by
  apply wp_bind h
  · intro e t he
    exact (he.card hsize hn hstarts).trans (by omega)
  · intro r t ht
    exact wp_pure (((hlogs r t ht hstarts).card hsize).trans (by omega))

theorem length_placesOf_chunk (off : Nat) (hn : n ≤ 1536) : (placesOf off n).length ≤ 5 := by
  rw [placesOf, length_cons, length_map, length_range']
  omega

theorem openOp_logs {cwd : Slot} (h : Sound sb R ∅ s) (hsize : sb.size ≤ 4096)
    (hn : NoneLost sb R s) (hcwd : 0 < R cwd) (path : List Byte) (omode : Word) (full : Bool) :
    Wp (openOp sb cwd path omode full) s (fun _ t => t.loggedBlocks ≤ 9)
      fun _ t => t.loggedBlocks ≤ 9 := by
  have hstart := hn.fresh.start hcwd path
  apply wp_bind (openInode_sound h hcwd path omode)
  · intro e t he
    exact he.card hsize hn (forall_mem_singleton.2 hstart)
  intro r t ht
  have hexact := ht.exact _ hn.fresh.traced hstart
  cases r with
  | none =>
    rcases hexact with ⟨-, hsame⟩ | ⟨ip, he, -⟩
    · exact wp_pure (Logs.card ⟨0, 0, hsame.within _ 6⟩ hsize)
    · cases he
  | some ip =>
    obtain ⟨hip, ht', -⟩ := ht.found ip rfl
    -- the blocks logged so far, and those that giving the inode back may log
    obtain ⟨d, hin⟩ : ∃ d, Within (sb.metaOf (t.icache ip).inum d) 6 s.fresh t := by
      rcases hexact with ⟨he, -⟩ | ⟨jp, he, hres⟩
      · cases he
      · cases he
        rcases hres with ⟨hsame, -⟩ | ⟨-, d, hin⟩
        · exact ⟨0, hsame.within _ 6⟩
        · exact ⟨d, hin⟩
    apply wp_ite
    · intro _
      apply (iunlockput_sound ht' hip).mono
      · rintro _ u ⟨-, -, hput⟩
        exact Logs.card ⟨_, d, hin.trans (hput.within (.inl rfl))⟩ hsize
      · exact fun _ _ he => he.elim
    · intro _
      apply (iunlock_sound ht' hip).mono
      · rintro _ u ⟨-, -, hsame⟩
        exact Logs.card ⟨_, d, hin.before_same hsame⟩ hsize
      · exact fun _ _ he => he.elim

/-- Every operation logs at most `MAXOPBLOCKS` blocks, also when it ends in a panic. -/
theorem op_logs_bounded (op : FsOp) (h : Sound sb R ∅ s) (hsize : sb.size ≤ 4096)
    (hn : NoneLost sb R s) (hop : op.admitted R s) :
    Wp (op.run sb) s (fun _ t => t.loggedBlocks ≤ 10) fun _ t => t.loggedBlocks ≤ 10 := by
  have hfresh := hn.fresh
  cases op with
  | link cwd old new =>
    exact call_logs (sysLink_sound h hop old new) (fun r t ht hstarts =>
      (ht.exact _ hfresh.traced hstarts).1) hsize hn (by decide) (forall_mem_cons.2
        ⟨hfresh.start hop old, forall_mem_singleton.2 (hfresh.start hop new)⟩)
  | unlink cwd path =>
    exact call_logs (sysUnlink_sound h hop path) (fun r t ht hstarts =>
      (ht.exact _ hfresh.traced hstarts).1) hsize hn (by decide)
      (forall_mem_singleton.2 (hfresh.start hop path))
  | mk cwd path type major minor =>
    exact call_logs (mkInode_sound h hop.1 path) (fun r t ht hstarts =>
      (ht.exact _ hfresh.traced hstarts).1) hsize hn (by decide)
      (forall_mem_singleton.2 (hfresh.start hop.1 path))
  | «open» cwd path omode full =>
    apply (openOp_logs h hsize hn hop path omode full).mono
    · exact fun _ _ ht => Nat.le_succ_of_le ht
    · exact fun _ _ ht => Nat.le_succ_of_le ht
  | chdir cwd path =>
    obtain ⟨R', rfl⟩ := exists_addRef hop
    exact call_logs (sysChdir_sound h path) (fun r t ht _ =>
      ht.exact _ hfresh.traced (hfresh.start hop path)) hsize hn (by decide)
      (forall_mem_singleton.2 (hfresh.start hop path))
  | exec cwd path reads =>
    refine call_logs (execInode_sound h hop path reads) ?_ hsize hn (by decide)
      (forall_mem_singleton.2 (hfresh.start hop path))
    rintro r t ⟨-, -, hsame⟩ -
    exact ⟨0, 0, (hsame _ hfresh.traced (hfresh.start hop path)).within _ 0⟩
  | put ip =>
    obtain ⟨R', rfl⟩ := exists_addRef hop
    apply (putInode_sound h).mono
    · rintro _ t ⟨-, -, hput⟩
      exact (Logs.card ⟨_, 0, hput.within (.inl rfl)⟩ hsize).trans (by decide)
    · rintro e t ⟨-, hm, -⟩
      exact (Finset.notMem_empty ip hm).elim
  | write ip off src =>
    obtain ⟨hip, hpos, hle, htype⟩ := hop
    have hchunk := length_placesOf_chunk off hle
    apply wp_bind (writeChunk_sound h hip htype off src (by omega))
    · rintro e t ⟨-, hin⟩
      exact (Logs.card ⟨_, 0, (hin hpos).mono hchunk⟩ hsize).trans (by decide)
    · rintro r t ⟨-, -, hres⟩
      rcases hres with ⟨hsame, -⟩ | ⟨-, -, hin⟩
      · exact wp_pure ((Logs.card ⟨0, 0, hsame.within _ 5⟩ hsize).trans (by decide))
      · exact wp_pure ((Logs.card ⟨_, 0, (hin hpos).mono hchunk⟩ hsize).trans (by decide))

theorem Mkfs.Image.noneLost {v : Vol} {files : List Mkfs.Input} (h : Mkfs.Image v files)
    (R : Slot → Nat) : NoneLost mkfsSb R (bootFs v) := by
  have hne {i : Nat} (hl : v.live mkfsSb i) : (v.inode i).nlink ≠ 0 := by
    rw [h.nlink hl]
    decide
  exact ⟨fun hl => .inl (hne hl), fun d k _ _ _ _ _ hl => .inl (hne hl)⟩

theorem op_logs_bounded_mkdir : ∃ v, Mkfs.Image v [helloFile] ∧
    Wp ((FsOp.mk slot0 [97] .dir 0 0).run mkfsSb) (bootFs v) (fun _ t => t.loggedBlocks ≤ 10)
      fun _ t => t.loggedBlocks ≤ 10 := by
  obtain ⟨v, himage, -⟩ := Mkfs.image_of_runs [helloFile] (fun _ => true) (by decide +kernel)
    (by decide) (by decide) (by decide) (by decide)
  exact ⟨v, himage, op_logs_bounded _ (bootFs_sound (himage.proper (by decide))) (by decide)
    (himage.noneLost bootRefs) ⟨show 0 < 1 by decide, by decide⟩⟩

/-- A chain of directories that have no links, each in an inode block of its own. -/
def chainVol : Vol :=
  ⟨fun i => if i = 1 then ⟨.dir, 0, 0, 1, 16, fun k => if k = 0 then 100 else 0⟩
      else if i % 8 = 0 ∧ 0 < i ∧ i < 104 then
        ⟨.dir, 0, 0, 0, 16, fun k => if k = 0 then 100 + i / 8 else 0⟩
      else freeInode,
    fun b => decide (b < 59 ∨ 100 ≤ b ∧ b < 113),
    fun b => if 100 ≤ b ∧ b < 113 then
        Bytes.write (fun _ => 0) 0 (Dirent.encode ⟨8 * (b - 99), strncpy 14 [97]⟩)
      else fun _ => 0⟩

def chainPath : List Byte := (List.replicate 11 [97, slash]).flatten ++ [97]

/-- The lookup of a path gives back a reference to each of its directories. -/
theorem path_logs_unbounded : ∃ (v : Vol) (op : FsOp),
    (∀ i bn, v.live mkfsSb i → bn * 512 < (v.inode i).size → bn < 140 ∧ v.addr i bn ≠ 0) ∧
    op.admitted bootRefs (bootFs v) ∧
    ∃ t, op.run mkfsSb (bootFs v) = .ok () t ∧ 10 < t.loggedBlocks := by
  refine ⟨chainVol, .exec slot0 chainPath [], fun i bn hl hlt => ?_, show 0 < 1 by decide, ?_⟩
  · -- every directory has one block
    have hdir : (chainVol.inode i).size = 16 ∧ (chainVol.inode i).addrs 0 ≠ 0 := by
      have hne := hl.2
      unfold chainVol at hne ⊢
      dsimp only at hne ⊢
      split at hne
      · rw [if_pos ‹_›]
        exact ⟨rfl, by decide⟩
      rw [if_neg ‹_›]
      split at hne
      · rw [if_pos ‹_›]
        exact ⟨rfl, by simp⟩
      · exact (hne rfl).elim
    obtain rfl : bn = 0 := by omega
    rw [addr_of_lt (by decide)]
    exact ⟨by decide, hdir.2⟩
  · obtain ⟨_, t, hrun, ht⟩ := exists_of_runsTo ((FsOp.exec slot0 chainPath []).run mkfsSb)
      (bootFs chainVol) (fun _ t => decide (10 < t.loggedBlocks)) (by decide +kernel)
    exact ⟨t, hrun, of_decide_eq_true ht⟩

end Xv6Signals
