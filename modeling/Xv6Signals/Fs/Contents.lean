import Xv6Signals.Fs.Mkfs

namespace Xv6Signals
open Lib

variable {sb : Superblock} {s : Fs} {ip : Slot} {v v' : Vol} {i off n : Nat} {src bs : List Byte}

def OthersKept (sb : Superblock) (v v' : Vol) (i : Nat) : Prop :=
  ∀ j, j ≠ i → v.live sb j → v'.inode j = v.inode j ∧
    ∀ k, k < (v.inode j).size → v'.byte j k = v.byte j k

structure Overwritten (sb : Superblock) (v v' : Vol) (i off : Nat) (bs : List Byte) : Prop where
  new : (v'.byte i).read off bs.length = bs
  old : ∀ k, k < (v.inode i).size → k < off ∨ off + bs.length ≤ k → v'.byte i k = v.byte i k
  size : (v'.inode i).size = max (v.inode i).size (off + bs.length)
  others : OthersKept sb v v' i

theorem Written.overwritten (h : Written sb v v' i off bs) (ho : Owned sb v) :
    Overwritten sb v v' i off bs := by
  refine ⟨?_, fun k hk hout => ?_, h.size, fun j hj hl => ?_⟩
  · rw [← Bytes.read_write (v.byte i) off bs, Bytes.length_read]
    apply Bytes.read_congr
    intro k hk
    exact h.bytes _ (.inr ⟨by omega, by omega⟩)
  · rw [h.bytes k (.inl hk), Bytes.write_outside hout]
  · have hu := h.others j hj hl
    exact ⟨hu.inode, fun k hk => hu.bytes ho hl hk⟩

/-- The contents of an inode behave as an array of bytes, under `writei` and `readi`. -/
theorem contents_as_bytes (s : Fs) (ip : Slot) (off n : Nat) (src : List Byte)
    (ho : Owned sb (s.vol ip))
    (hi : (s.vol ip).live sb (s.icache ip).inum)
    (htype : (s.icache ip).d.type = .file ∨ (s.icache ip).d.type = .dir) (hoff : off < 2 ^ 32)
    (hsrc : src.length < 2 ^ 32) (hn : n < 2 ^ 32) :
    ((s.vol ip).missing (s.icache ip).inum off src.length ≤ (s.vol ip).free sb →
      ∃ r t, writei sb ip off src s = .ok r t ∧
        (r = -1 ↔ (s.icache ip).d.size < off ∨ 2 ^ 32 ≤ off + src.length ∨
          140 * 512 < off + src.length) ∧
        (r = -1 → t = s) ∧
        (r ≠ -1 → r = src.length ∧
          Overwritten sb (s.vol ip) (t.vol ip) (s.icache ip).inum off src)) ∧
    ∃ r, readi sb ip off n s = .ok r s ∧
      (r = none ↔ (s.icache ip).d.size < off ∨ 2 ^ 32 ≤ off + n) ∧
      (r ≠ none → r = some (((s.vol ip).byte (s.icache ip).inum).read off
        (min (off + n) (s.icache ip).d.size - off))) := by
  have hover (m : Nat) (hm : m < 2 ^ 32) : (off + m) % 2 ^ 32 < off ↔ 2 ^ 32 ≤ off + m := by omega
  constructor
  · intro hroom
    have hdev : (s.icache ip).d.type ≠ .dev := by
      rcases htype with h | h <;> rw [h] <;> decide
    obtain ⟨r, t, hrun, hbad, hok⟩ :=
      (writei_wp off ho hi hdev hsrc).total fun e t he => he.2.2.2 hroom
    have href : Refused (s.icache ip).d.size off src.length ↔ (s.icache ip).d.size < off ∨
        2 ^ 32 ≤ off + src.length ∨ 140 * 512 < off + src.length := by
      unfold Refused
      omega
    refine ⟨r, t, hrun, ?_⟩
    rw [← href]
    by_cases h : Refused (s.icache ip).d.size off src.length
    · obtain ⟨hr, ht⟩ := hbad h
      exact ⟨⟨fun _ => h, fun _ => hr⟩, fun _ => ht, fun hne => (hne hr).elim⟩
    · obtain ⟨hr, hst⟩ := hok h
      have hne : r ≠ -1 := by omega
      exact ⟨⟨fun he => (hne he).elim, fun he => (h he).elim⟩, fun he => (hne he).elim,
        fun _ => ⟨hr, hst.written.overwritten ho⟩⟩
  · obtain ⟨r, t, hrun, hr, rfl⟩ := (readi_wp ho hi off n).total fun _ _ h => h
    simp only [hover n hn] at hr
    refine ⟨r, hrun, ?_⟩
    by_cases h : (t.icache ip).d.size < off ∨ 2 ^ 32 ≤ off + n
    · rw [if_pos h] at hr
      exact ⟨⟨fun _ => h, fun _ => hr⟩, fun hne => (hne hr).elim⟩
    rw [if_neg h] at hr
    subst hr
    refine ⟨⟨fun he => (Option.some_ne_none _ he).elim, fun he => (h he).elim⟩, fun _ => ?_⟩
    congr 2
    omega

def slot0 : Slot := ⟨0, by decide⟩

def openedFs (v : Vol) (i : Nat) : Fs := ⟨v, fun _ => ⟨i, 1, true, true, v.inode i⟩, []⟩

theorem openedFs_vol (v : Vol) (i : Nat) : (openedFs v i).vol slot0 = v := setInode_inode_self v i

theorem contents_as_bytes_hello :
    ∃ v, (∃ r t, writei mkfsSb slot0 4 [33, 33] (openedFs v 2) = .ok r t ∧
        (r = -1 ↔ (v.inode 2).size < 4 ∨ 2 ^ 32 ≤ 4 + 2 ∨ 140 * 512 < 4 + 2) ∧
        (r = -1 → t = openedFs v 2) ∧
        (r ≠ -1 → r = 2 ∧ Overwritten mkfsSb ((openedFs v 2).vol slot0) (t.vol slot0) 2 4 [33, 33])) ∧
      ∃ r, readi mkfsSb slot0 4 9 (openedFs v 2) = .ok r (openedFs v 2) ∧
        (r = none ↔ (v.inode 2).size < 4 ∨ 2 ^ 32 ≤ 4 + 9) ∧
        (r ≠ none → r = some ((((openedFs v 2).vol slot0).byte 2).read 4
          (min (4 + 9) (v.inode 2).size - 4))) := by
  obtain ⟨v, himage, htest⟩ := Mkfs.image_of_runs [helloFile]
    (fun v => decide (v.missing 2 4 2 ≤ v.free mkfsSb)) (by decide +kernel) (by decide)
    (by decide) (by decide) (by decide)
  have htype := (himage.file 0 helloFile rfl).type
  have hvol := openedFs_vol v 2
  have h := contents_as_bytes (openedFs v 2) slot0 4 9 [33, 33] (by rw [hvol]; exact himage.owned) ?_
    (.inl htype) (by decide) (by decide) (by decide)
  · refine ⟨v, h.1 ?_, h.2⟩
    rw [hvol]
    exact of_decide_eq_true htest
  · rw [hvol]
    exact ⟨show 2 < 200 by decide, fun hfree => by cases htype.symm.trans hfree⟩

def sharedVol : Vol :=
  ⟨fun i => if i = 2 ∨ i = 3 then ⟨.file, 0, 0, 1, 512, fun k => if k = 0 then 100 else 0⟩ else freeInode,
    fun b => decide (b ≤ 100), fun _ _ => 0⟩

/-- It is not enough that the blocks of all inodes are allocated and marked. -/
theorem shared_block_overwritten :
    ∃ (s : Fs) (ip : Slot) (r : Int) (t : Fs),
      (∀ i bn, (s.vol ip).live mkfsSb i → bn * 512 < ((s.vol ip).inode i).size →
        bn < 140 ∧ (s.vol ip).addr i bn ≠ 0 ∧ (s.vol ip).used ((s.vol ip).addr i bn) = true) ∧
      (s.vol ip).live mkfsSb (s.icache ip).inum ∧ (s.icache ip).d.type = .file ∧
      writei mkfsSb ip 0 [1] s = .ok r t ∧ r ≠ -1 ∧
      ¬ OthersKept mkfsSb (s.vol ip) (t.vol ip) (s.icache ip).inum := by
  refine ⟨openedFs sharedVol 2, slot0, 1, _, fun i bn hl hlt => ?_, ?_, rfl, rfl, by decide,
    fun hkept => ?_⟩
  · rw [openedFs_vol] at hl hlt ⊢
    have hi : i = 2 ∨ i = 3 := by
      by_contra hi
      exact hl.2 (by rw [sharedVol]; exact congrArg Dinode.type (if_neg hi))
    have hinode : sharedVol.inode i = ⟨.file, 0, 0, 1, 512, fun k => if k = 0 then 100 else 0⟩ :=
      if_pos hi
    rw [hinode] at hlt
    have hbn : bn = 0 := by
      have hlt : bn * 512 < 512 := hlt
      omega
    subst hbn
    rw [addr_of_lt (by decide), hinode]
    decide
  · rw [openedFs_vol]
    decide
  · have hbyte := (hkept 3 (by decide) (by decide)).2 0 (by decide)
    revert hbyte
    decide

end Xv6Signals
