import Xv6Signals.Fs.Lookup

namespace Xv6Signals
open Lib

variable {sb : Superblock} {s t u : Fs} {ip jp dp cwd : Slot} {v v' w : Vol} {i j d k n m : Nat}
  {R R' : Slot → Nat} {L : Finset Slot} {K : Nat → Prop} {P : Nat → Prop} {name : List Byte}
  {starts : List Nat} {E : FsPanic → Fs → Prop} {start : Nat}

def Vol.addLinks (v : Vol) (i : Nat) (n : Int) : Vol :=
  v.setInode i { v.inode i with nlink := (v.inode i).nlink + n }

/-- The blocks that an operation may log besides those of the contents. -/
def Superblock.metaOf (sb : Superblock) (i d x : Nat) : Prop :=
  sb.bitmapBlock x ∨ x = sb.iblock i ∨ x = sb.iblock d

theorem addLinks_sound (h : Sound sb R L s) (hip : ip ∈ L) (n : Int) : Wp (addLinks sb ip n) s
      (fun _ t => Sound sb R L t ∧ Stays R s t ∧ t.disk = s.disk.addLinks (s.icache ip).inum n ∧
        t.logged = sb.iblock (s.icache ip).inum :: s.logged)
      fun _ _ => False := by
  apply wp_store (g := fun d => { d with nlink := d.nlink + n })
  obtain ⟨hs, hk⟩ := h.store { (s.icache ip).d with nlink := (s.icache ip).d.nlink + n } hip rfl rfl
    rfl
  refine ⟨hs, hk, ?_, rfl⟩
  rw [Vol.addLinks, h.inode_eq hip]
  rfl

theorem addLinks_live (v : Vol) (i : Nat) (n : Int) (j : Nat) :
    (v.addLinks i n).live sb j ↔ v.live sb j :=
  setInode_live (by rfl) j

theorem addLinks_entry (v : Vol) (i : Nat) (n : Int) (j k : Nat) :
    (v.addLinks i n).entry j k = v.entry j k :=
  setInode_entry (by rfl) j k

theorem addLinks_inode (v : Vol) (i : Nat) (n : Int) (j : Nat) :
    (v.addLinks i n).inode j = { v.inode j with nlink := ((v.addLinks i n).inode j).nlink } := by
  by_cases hj : j = i
  · rw [hj, Vol.addLinks, setInode_inode]
  · rw [Vol.addLinks, (setInode_untouched hj).inode]

theorem addLinks_of_ne (hj : j ≠ i) (v : Vol) (n : Int) : (v.addLinks i n).inode j = v.inode j :=
  (setInode_untouched hj).inode

theorem addLinks_undo (v : Vol) (i : Nat) (n : Int) : (v.addLinks i n).addLinks i (-n) = v := by
  simp only [Vol.addLinks, setInode_inode, Int.add_neg_cancel_right]
  simp only [Vol.setInode, Function.update_idem, Function.update_eq_self]

theorem Traced.addLinks (h : Traced sb R K s) {n : Int} (hdisk : t.disk = s.disk.addLinks i n)
    (hi : t.refd R' i) (hmono : ∀ j, s.refd R j → t.refd R' j) : Traced sb R' K t := by
  constructor
  · intro d k hd hl htype hk hne
    rw [hdisk, addLinks_live] at hl
    rw [hdisk, addLinks_inode] at htype hk
    rw [hdisk, addLinks_entry] at hne ⊢
    exact h.step d k hd hl htype hk hne
  · intro j hj hl
    rw [hdisk, addLinks_live] at hl
    by_cases hji : j = i
    · exact .inr (hji ▸ hi)
    · rw [hdisk, addLinks_of_ne hji]
      exact (h.kept j hj hl).imp_right (hmono j)

theorem Written.nlink {off : Nat} {bs : List Byte} (h : Written sb v v' i off bs) (j : Nat) :
    (v'.inode j).nlink = (v.inode j).nlink := by
  by_cases hj : j = i
  · rw [hj, h.fields]
  · rw [h.inode j hj]

theorem Put.within (h : Put sb R ip s t) (hi : (s.icache ip).inum = i ∨ (s.icache ip).inum = d) :
    Within (sb.metaOf i d) 0 s t := by
  refine .of_logs (fun x hx => (h.logs x hx).imp_right ?_) 0
  rintro (rfl | hx)
  · exact .inr (hi.imp (congrArg sb.iblock) (congrArg sb.iblock))
  · exact .inl hx

/-- The blocks of the contents that an operation logs are at most `n`; the others are of the bitmap
and of two inodes. -/
def Logs (sb : Superblock) (n : Nat) (s t : Fs) : Prop := ∃ i d, Within (sb.metaOf i d) n s t

structure CallFailed (sb : Superblock) (R : Slot → Nat) (starts : List Nat) (n : Nat) (s : Fs)
    (e : FsPanic) (t : Fs) : Prop where
  bfree : e ≠ .freeingFreeBlock
  exact : ∀ K, Traced sb R K s → (∀ i ∈ starts, K i) → Logs sb n s t

theorem WalkFailed.call {e : FsPanic}
    (h : WalkFailed sb R start s e t) (hmem : start ∈ starts) (n : Nat) :
    CallFailed sb R starts n s e t :=
  ⟨h.bfree, fun K hK hstarts => ⟨0, 0, (h.exact K hK (hstarts start hmem)).within _ n⟩⟩

structure CallDone (sb : Superblock) (R : Slot → Nat) (L : Finset Slot) (starts : List Nat)
    (n : Nat) (s : Fs) (r : Int) (t : Fs) : Prop where
  sound : Sound sb R L t
  stays : Stays R s t
  exact : ∀ K, Traced sb R K s → (∀ i ∈ starts, K i) →
    Logs sb n s t ∧ (r = -1 → t.disk = s.disk)

theorem CallDone.of_same (h : Sound sb R L t) (hs : Stays R s t)
    (hsame : ∀ K, Traced sb R K s → K start → Same s t) (hmem : start ∈ starts) (n : Nat)
    (r : Int) : CallDone sb R L starts n s r t := by
  refine ⟨h, hs, fun K hK hstarts => ?_⟩
  have hsame := hsame K hK (hstarts start hmem)
  exact ⟨⟨0, 0, hsame.within _ n⟩, fun _ => hsame.1⟩

theorem Entered.done (h : Entered sb R L start ip s t) (hmem : start ∈ starts) (n : Nat) (r : Int) :
    Wp (do iunlockput sb ip; pure r) t (CallDone sb R L starts n s) E := by
  apply wp_step h.leave
  rintro _ u ⟨hu, hs, hsame⟩
  exact wp_pure (.of_same hu hs hsame hmem n r)

def Fs.fresh (s : Fs) : Fs := { s with logged := [] }

theorem Sound.fresh (h : Sound sb R L s) : Sound sb R L s.fresh :=
  ⟨⟨h.refs.ref, h.refs.locked, h.refs.uniq⟩, h.held, h.copy, h.range, h.proper⟩

theorem wp_beginOp {α : Type} {f : PUnit → FsM α} {Q : α → Fs → Prop}
    (h : Wp (f ⟨⟩) s.fresh Q E) : Wp (beginOp >>= f) s Q E := h

end Xv6Signals
