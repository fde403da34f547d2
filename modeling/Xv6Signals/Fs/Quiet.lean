import Xv6Signals.Fs.Calls

namespace Xv6Signals
open Lib

variable {s t u : Fs} {ip : Slot} {α β : Type}

def QuietStep (s t : Fs) : Prop :=
  ∀ ip, (t.icache ip).inum = (s.icache ip).inum ∧ (t.icache ip).ref = (s.icache ip).ref ∧
    (t.icache ip).locked = (s.icache ip).locked

def Quietly (x : FsM α) : Prop := ∀ s, Leaves x s fun _ t => QuietStep s t

theorem QuietStep.refl (s : Fs) : QuietStep s s := fun _ => ⟨rfl, rfl, rfl⟩

theorem QuietStep.trans (h : QuietStep s t) (h' : QuietStep t u) : QuietStep s u := by
  intro ip
  obtain ⟨hi, hr, hl⟩ := h ip
  obtain ⟨hi', hr', hl'⟩ := h' ip
  exact ⟨hi'.trans hi, hr'.trans hr, hl'.trans hl⟩

theorem QuietStep.of_icache (h : t.icache = s.icache) : QuietStep s t := by
  intro ip
  rw [h]
  exact ⟨rfl, rfl, rfl⟩

theorem quiet_setInode {e : Inode} (hi : e.inum = (s.icache ip).inum)
    (hr : e.ref = (s.icache ip).ref) (hl : e.locked = (s.icache ip).locked) :
    QuietStep s (s.setInode ip e) := by
  intro jp
  by_cases hj : jp = ip
  · subst hj
    simp only [Fs.setInode, Function.update_self]
    exact ⟨hi, hr, hl⟩
  · simp only [Fs.setInode, Function.update_of_ne hj, and_self]

theorem quiet_setCopy (s : Fs) (ip : Slot) (d : Dinode) : QuietStep s (s.setCopy ip d) :=
  quiet_setInode rfl rfl rfl

theorem quietly_pure (a : α) : Quietly (pure a) := fun s => wp_pure (.refl s)

theorem quietly_throw (e : FsPanic) : Quietly (throw e : FsM α) := fun _ => True.intro

theorem quietly_modify {g : Fs → Fs} (h : ∀ s, QuietStep s (g s)) : Quietly (modify g) := h

theorem quietly_bind {x : FsM α} {f : α → FsM β} (hx : Quietly x) (hf : ∀ a, Quietly (f a)) :
    Quietly (x >>= f) := by
  intro s
  apply wp_seq (hx s)
  intro a t ht
  exact (hf a t).post (fun _ _ hu => ht.trans hu)

theorem quietly_get {f : Fs → FsM α} (hf : ∀ s, Quietly (f s)) : Quietly (get >>= f) :=
  fun s => hf s s

theorem quietly_ite {p : Prop} [Decidable p] {x y : FsM α} (hx : Quietly x) (hy : Quietly y) :
    Quietly (if p then x else y) := by
  split
  · exact hx
  · exact hy

theorem quietly_forM {ι : Type} {l : List ι} {g : ι → FsM PUnit} (hg : ∀ a, Quietly (g a)) :
    Quietly (l.forM g) := by
  intro s
  apply wp_forM (fun _ t => QuietStep s t) (.refl s)
  intro a _ t ht
  exact (hg a t).post (fun _ _ hu => ht.trans hu)

theorem quietly_logWrite (b : Nat) : Quietly (logWrite b) := quietly_modify fun _ => .of_icache rfl

theorem quietly_beginOp : Quietly beginOp := quietly_modify fun _ => .of_icache rfl

theorem quietly_setDisk (g : Fs → Vol) : Quietly (modify fun s => s.setDisk (g s)) :=
  quietly_modify fun _ => .of_icache rfl

theorem quietly_setCopy (ip : Slot) (g : Fs → Dinode) :
    Quietly (modify fun s => s.setCopy ip (g s)) :=
  quietly_modify fun s => quiet_setCopy s ip (g s)

section

variable (sb : Superblock)
include sb

theorem quietly_balloc : Quietly (balloc sb) := by
  apply quietly_get
  intro s
  split
  · apply quietly_bind (quietly_setDisk _)
    intro _
    apply quietly_bind (quietly_logWrite _)
    intro _
    apply quietly_bind (quietly_bind (quietly_setDisk _) fun _ => quietly_logWrite _)
    intro _
    exact quietly_pure _
  · exact quietly_throw _

theorem quietly_bfree (b : Nat) : Quietly (bfree sb b) := by
  apply quietly_get
  intro s
  apply quietly_ite (quietly_throw _)
  exact quietly_bind (quietly_setDisk _) fun _ => quietly_logWrite _

theorem quietly_iupdate (ip : Slot) : Quietly (iupdate sb ip) := by
  apply quietly_get
  intro s
  exact quietly_bind (quietly_setDisk _) fun _ => quietly_logWrite _

theorem quietly_bmap (ip : Slot) (bn : Nat) : Quietly (bmap sb ip bn) := by
  have haddr (k : Nat) : Quietly (addrAt sb ip k) := by
    apply quietly_get
    intro s
    refine quietly_ite (quietly_bind (quietly_balloc sb) fun b => ?_) (quietly_pure _)
    exact quietly_bind (quietly_setCopy ip _) fun _ => quietly_pure _
  have hentry (ind j : Nat) : Quietly (entryAt sb ind j) := by
    apply quietly_get
    intro s
    refine quietly_ite (quietly_bind (quietly_balloc sb) fun b => ?_) (quietly_pure _)
    exact quietly_bind (quietly_setDisk _) fun _ => quietly_bind (quietly_logWrite _) fun _ =>
      quietly_pure _
  apply quietly_ite (haddr _)
  exact quietly_ite (quietly_bind (haddr _) fun ind => hentry ind _) (quietly_throw _)

theorem quietly_itrunc (ip : Slot) : Quietly (itrunc sb ip) := by
  have hdirect (k : Nat) : Quietly (truncAddr sb ip k) := by
    apply quietly_get
    intro s
    apply quietly_ite (quietly_pure _)
    exact quietly_bind (quietly_bfree sb _) fun _ => quietly_setCopy ip _
  have hindirect : Quietly (truncIndirect sb ip) := by
    apply quietly_get
    intro s
    apply quietly_ite (quietly_pure _)
    refine quietly_bind (quietly_forM fun j => ?_) fun _ => ?_
    · exact quietly_ite (quietly_pure _) (quietly_bfree sb _)
    · exact quietly_bind (quietly_bfree sb _) fun _ => quietly_setCopy ip _
  apply quietly_bind (quietly_forM hdirect)
  intro _
  apply quietly_bind hindirect
  intro _
  exact quietly_bind (quietly_setCopy ip _) fun _ => quietly_iupdate sb ip

theorem quietly_ifreeLast (ip : Slot) : Quietly (ifreeLast sb ip) := by
  apply quietly_get
  intro s
  refine quietly_ite ?_ (quietly_pure _)
  apply quietly_bind (quietly_itrunc sb ip)
  intro _
  apply quietly_bind (quietly_setCopy ip _)
  intro _
  apply quietly_bind (quietly_iupdate sb ip)
  intro _
  exact quietly_modify fun s => quiet_setInode rfl rfl rfl

theorem quietly_readi (ip : Slot) (off n : Nat) : Quietly (readi sb ip off n) := by
  have hloop (fuel off n : Nat) : Quietly (readLoop sb ip fuel off n) := by
    induction fuel generalizing off n with
    | zero => exact quietly_pure _
    | succ fuel ih =>
      apply quietly_ite (quietly_pure _)
      apply quietly_bind (quietly_bmap sb ip _)
      intro b
      apply quietly_get
      intro s
      exact quietly_bind (ih _ _) fun _ => quietly_pure _
  apply quietly_get
  intro s
  apply quietly_ite (quietly_pure _)
  exact quietly_bind (hloop _ _ _) fun _ => quietly_pure _

theorem quietly_writei (ip : Slot) (off : Nat) (src : List Byte) :
    Quietly (writei sb ip off src) := by
  have hloop (fuel off : Nat) (src : List Byte) : Quietly (writeLoop sb ip fuel off src) := by
    induction fuel generalizing off src with
    | zero => exact quietly_pure _
    | succ fuel ih =>
      apply quietly_ite (quietly_pure _)
      apply quietly_bind (quietly_bmap sb ip _)
      intro b
      apply quietly_bind (quietly_setDisk _)
      intro _
      exact quietly_bind (quietly_logWrite _) fun _ => ih _ _
  have hgrow (n off : Nat) : Quietly (growTo sb ip n off) := by
    apply quietly_get
    intro s
    refine quietly_ite ?_ (quietly_pure _)
    exact quietly_bind (quietly_setCopy ip _) fun _ => quietly_iupdate sb ip
  apply quietly_get
  intro s
  apply quietly_ite (quietly_pure _)
  apply quietly_ite (quietly_pure _)
  apply quietly_ite (quietly_pure _)
  apply quietly_bind (hloop _ _ _)
  intro _
  exact quietly_bind (hgrow _ _) fun _ => quietly_pure _

theorem quietly_scanDir (dp : Slot) (msg : FsPanic) (test : Dirent → Bool)
    (off : Nat) : Quietly (scanDir sb dp msg test off) := by
  have hloop (fuel off : Nat) : Quietly (findEntry sb dp msg test fuel off) := by
    induction fuel generalizing off with
    | zero => exact quietly_pure _
    | succ fuel ih =>
      apply quietly_get
      intro s
      refine quietly_ite ?_ (quietly_pure _)
      apply quietly_bind (quietly_readi sb dp _ _)
      intro r
      refine quietly_ite ?_ (quietly_throw _)
      exact quietly_ite (quietly_pure _) (ih _)
  apply quietly_get
  intro s
  exact hloop _ _

theorem quietly_addEntry (dp : Slot) (name : List Byte) (inum : Nat) :
    Quietly (addEntry sb dp name inum) := by
  apply quietly_bind (quietly_scanDir sb dp _ _ _)
  intro r
  apply quietly_bind (quietly_writei sb dp _ _)
  intro n
  exact quietly_ite (quietly_throw _) (quietly_pure _)

theorem quietly_addLinks (ip : Slot) (n : Int) : Quietly (addLinks sb ip n) :=
  quietly_bind (quietly_setCopy ip _) fun _ => quietly_iupdate sb ip

end

end Xv6Signals
