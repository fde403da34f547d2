import Xv6Signals.Fs.Free
import Xv6Signals.Fs.Names
import Xv6Signals.Fs.Refs

namespace Xv6Signals
open Lib Function Finset

variable {sb : Superblock} {s t u : Fs} {ip jp : Slot} {v v' : Vol} {i j k off : Nat}
  {R : Slot → Nat} {L : Finset Slot} {bs : List Byte} {d' : Dinode}

/-- The blocks belong to their inodes, and the entries of directories name inodes of the disk. -/
structure Proper (sb : Superblock) (v : Vol) : Prop where
  owned : Owned sb v
  root : rootIno < sb.ninodes
  inRange : ∀ d k, v.live sb d → (v.inode d).type = .dir → 16 * k + 16 ≤ (v.inode d).size →
    (v.entry d k).inum < sb.ninodes

/-- The inode cache with its references and locks: an entry that is valid has the inode as it is on
the disk, and an entry is valid when it is locked. -/
structure Sound (sb : Superblock) (R : Slot → Nat) (L : Finset Slot) (s : Fs) : Prop where
  refs : Refs R L s
  held : ∀ ip ∈ L, 0 < R ip ∧ (s.icache ip).valid = true
  copy : ∀ ip, 0 < R ip → (s.icache ip).valid = true →
    (s.icache ip).d = s.disk.inode (s.icache ip).inum ∧ (s.icache ip).d.type ≠ .free
  range : ∀ ip, 0 < R ip → (s.icache ip).inum < sb.ninodes
  proper : Proper sb s.disk

/-- The entries that are in use stay with their inodes, and stay valid, with the type they have. -/
def Stays (R : Slot → Nat) (s t : Fs) : Prop :=
  ∀ ip, 0 < R ip → (t.icache ip).inum = (s.icache ip).inum ∧ ((s.icache ip).valid = true →
    (t.icache ip).valid = true ∧ (t.icache ip).d.type = (s.icache ip).d.type)

theorem Stays.refl (R : Slot → Nat) (s : Fs) : Stays R s s := fun _ _ => ⟨rfl, fun h => ⟨h, rfl⟩⟩

theorem Stays.trans (h : Stays R s t) (h' : Stays R t u) : Stays R s u := by
  intro ip hip
  obtain ⟨hi, hv⟩ := h ip hip
  obtain ⟨hi', hv'⟩ := h' ip hip
  refine ⟨hi'.trans hi, fun hs => ?_⟩
  obtain ⟨hs, htype⟩ := hv hs
  obtain ⟨hs, htype'⟩ := hv' hs
  exact ⟨hs, htype'.trans htype⟩

theorem Stays.of_add (h : Stays (addRef R ip) s t) : Stays R s t :=
  fun jp hjp => h jp (hjp.trans_le (le_addRef R ip jp))

def Fs.refd (R : Slot → Nat) (s : Fs) (i : Nat) : Prop :=
  ∃ ip, 0 < R ip ∧ (s.icache ip).inum = i

theorem Stays.refd (h : Stays R s t) (hi : s.refd R i) : t.refd R i := by
  obtain ⟨ip, hip, rfl⟩ := hi
  exact ⟨ip, hip, (h ip hip).1⟩

theorem Stays.refd_iff (h : Stays R s t) (i : Nat) : t.refd R i ↔ s.refd R i := by
  constructor
  · rintro ⟨ip, hip, hi⟩
    exact ⟨ip, hip, (h ip hip).1.symm.trans hi⟩
  · exact h.refd

def Same (s t : Fs) : Prop := t.disk = s.disk ∧ t.logged = s.logged

theorem Same.refl (s : Fs) : Same s s := ⟨rfl, rfl⟩

theorem Same.trans (h : Same s t) (h' : Same t u) : Same s u :=
  ⟨h'.1.trans h.1, h'.2.trans h.2⟩

section
variable (h : Sound sb R L s) {R' : Slot → Nat} {L' : Finset Slot} {e : Inode}
include h

theorem Sound.vol_eq (hip : ip ∈ L) : s.vol ip = s.disk := by
  obtain ⟨hr, hv⟩ := h.held ip hip
  rw [Fs.vol, (h.copy ip hr hv).1, setInode_inode_self]

theorem Sound.inode_eq (hip : ip ∈ L) : s.disk.inode (s.icache ip).inum = (s.icache ip).d := by
  obtain ⟨hr, hv⟩ := h.held ip hip
  exact (h.copy ip hr hv).1.symm

theorem Sound.live (hip : ip ∈ L) : s.disk.live sb (s.icache ip).inum := by
  obtain ⟨hr, hv⟩ := h.held ip hip
  obtain ⟨he, ht⟩ := h.copy ip hr hv
  exact ⟨h.range ip hr, he ▸ ht⟩

theorem Sound.change (hip : 0 < R ip) (hinum : (t.icache ip).inum = (s.icache ip).inum)
    (hother : ∀ jp, jp ≠ ip → t.icache jp = s.icache jp)
    (hinode : ∀ j, j ≠ (s.icache ip).inum → t.disk.inode j = s.disk.inode j) (hrefs : Refs R' L' t)
    (hR : ∀ jp, jp ≠ ip → 0 < R' jp → 0 < R jp)
    (hL : ∀ jp, jp ≠ ip → jp ∈ L' → jp ∈ L)
    (hR' : ∀ jp ∈ L', 0 < R' jp)
    (hlock : ip ∈ L' → (t.icache ip).valid = true)
    (hcopy : (t.icache ip).valid = true → 0 < R' ip →
      (t.icache ip).d = t.disk.inode (s.icache ip).inum ∧ (t.icache ip).d.type ≠ .free)
    (hvol : Proper sb t.disk) : Sound sb R' L' t := by
  refine ⟨hrefs, fun jp hjp => ⟨hR' jp hjp, ?_⟩, fun jp hjp hv => ?_, fun jp hjp => ?_, hvol⟩
  · by_cases he : jp = ip
    · subst he
      exact hlock hjp
    · rw [hother jp he]
      exact (h.held jp (hL jp he hjp)).2
  · by_cases he : jp = ip
    · subst he
      rw [hinum]
      exact hcopy hv hjp
    · rw [hother jp he] at hv ⊢
      have hr := hR jp he hjp
      rw [hinode]
      · exact h.copy jp hr hv
      · exact fun hi => he (h.refs.uniq jp ip hr hip hi)
  · by_cases he : jp = ip
    · subst he
      rw [hinum]
      exact h.range jp hip
    · rw [hother jp he]
      exact h.range jp (hR jp he hjp)

theorem Sound.relock (hip : 0 < R ip)
    (hrefs : Refs R' L' (s.setInode ip e)) (hi : e.inum = (s.icache ip).inum)
    (hv : e.valid = (s.icache ip).valid) (hd : e.d = (s.icache ip).d)
    (hR : ∀ jp, jp ≠ ip → 0 < R' jp → 0 < R jp) (hL : ∀ jp, jp ≠ ip → jp ∈ L' → jp ∈ L)
    (hR' : ∀ jp ∈ L', 0 < R' jp) (hlock : ip ∈ L' → (s.icache ip).valid = true) :
    Sound sb R' L' (s.setInode ip e) := by
  have hself := s.setInode_self ip e
  have hinum : ((s.setInode ip e).icache ip).inum = (s.icache ip).inum := by rw [hself, hi]
  refine h.change hip hinum (fun jp hj => Fs.setInode_of_ne hj s e) (fun _ _ => rfl)
    hrefs hR hL hR' (fun hip => ?_) (fun hv' _ => ?_) h.proper
  · rw [hself, hv]
    exact hlock hip
  · rw [hself, hv] at hv'
    rw [hself, hd]
    exact h.copy ip hip hv'

end

theorem stays_setInode (hi : e.inum = (s.icache ip).inum)
    (hv : (s.icache ip).valid = true → e.valid = true ∧ e.d.type = (s.icache ip).d.type)
    (R : Slot → Nat) : Stays R s (s.setInode ip e) := by
  intro jp _
  by_cases hj : jp = ip
  · subst hj
    rw [Fs.setInode_self]
    exact ⟨hi, hv⟩
  · rw [Fs.setInode_of_ne hj]
    exact ⟨rfl, fun h => ⟨h, rfl⟩⟩

theorem addRef_pos (R : Slot → Nat) (ip : Slot) : 0 < addRef R ip ip := by
  rw [addRef_self]
  omega

theorem Sound.addRef (h : Sound sb R L s) (hip : 0 < R ip) :
    Sound sb (addRef R ip) L (s.setInode ip { s.icache ip with ref := (s.icache ip).ref + 1 }) := by
  refine h.relock hip (h.refs.addRef hip) rfl rfl rfl (fun jp hj hpos => ?_) (fun _ _ hm => hm)
    (fun jp hm => ?_) fun hm => (h.held ip hm).2
  · rwa [addRef_of_ne hj] at hpos
  · exact (h.held jp hm).1.trans_le (le_addRef R ip jp)

theorem Sound.fill (h : Sound sb R L s) (hz : R ip = 0) (hr : e.ref = 1)
    (hl : e.locked = (s.icache ip).locked) (hv : e.valid = false) (hi : e.inum < sb.ninodes)
    (hnone : ∀ jp, 0 < R jp → (s.icache jp).inum ≠ e.inum) :
    Sound sb (Xv6Signals.addRef R ip) L (s.setInode ip e) := by
  have hpos (jp : Slot) (hj : jp ≠ ip) (hjp : 0 < Xv6Signals.addRef R ip jp) : 0 < R jp := by
    rwa [addRef_of_ne hj] at hjp
  refine ⟨h.refs.fill hz hr hl hnone, fun jp hm => ?_, fun jp hjp hv' => ?_, fun jp hjp => ?_,
    h.proper⟩
  · obtain ⟨hr, hv⟩ := h.held jp hm
    have hj : jp ≠ ip := by
      rintro rfl
      omega
    rw [Fs.setInode_of_ne hj]
    exact ⟨hr.trans_le (le_addRef R ip jp), hv⟩
  · by_cases hj : jp = ip
    · rw [hj, Fs.setInode_self, hv] at hv'
      cases hv'
    · rw [Fs.setInode_of_ne hj] at hv' ⊢
      exact h.copy jp (hpos jp hj hjp) hv'
  · by_cases hj : jp = ip
    · rw [hj, Fs.setInode_self]
      exact hi
    · rw [Fs.setInode_of_ne hj]
      exact h.range jp (hpos jp hj hjp)

theorem iget_sound (h : Sound sb R L s) (hi : i < sb.ninodes) : Wp (iget i) s
      (fun ip t => Sound sb (addRef R ip) L t ∧ Stays R s t ∧ Same s t ∧ (t.icache ip).inum = i ∧
        (R ip = 0 → (t.icache ip).valid = false))
      (fun e t => (e = .igetNoInodes ∧ ∀ jp, 0 < R jp) ∧ t = s) := by
  apply (iget_wp i s).mono
  · rintro ip t (⟨hpos, rfl, rfl⟩ | ⟨hz, hnone, rfl⟩)
    · rw [h.refs.ref] at hpos
      refine ⟨h.addRef (by omega), stays_setInode ?_ ?_ R, ⟨rfl, rfl⟩, ?_, fun hz => ?_⟩
      · rfl
      · exact fun hv => ⟨hv, rfl⟩
      · rw [Fs.setInode_self]
      · omega
    · rw [h.refs.ref] at hz
      have hz : R ip = 0 := by omega
      have hnone : ∀ jp, 0 < R jp → (s.icache jp).inum ≠ i := by
        intro jp hjp
        apply hnone
        rw [h.refs.ref]
        omega
      refine ⟨h.fill hz rfl rfl rfl hi hnone, fun jp hjp => ?_, ⟨rfl, rfl⟩, ?_, fun _ => ?_⟩
      · have hj : jp ≠ ip := by
          rintro rfl
          omega
        rw [Fs.setInode_of_ne hj]
        exact ⟨rfl, fun hv => ⟨hv, rfl⟩⟩
      · rw [Fs.setInode_self]
      · rw [Fs.setInode_self]
  · rintro e t ⟨⟨he, hfull⟩, rfl⟩
    refine ⟨⟨he, fun jp => ?_⟩, rfl⟩
    have hjp := hfull jp
    rw [h.refs.ref] at hjp
    omega

theorem idup_sound (h : Sound sb R L s) (hip : 0 < R ip) : Wp (idup ip) s
      (fun r t => r = ip ∧ Sound sb (addRef R ip) L t ∧ Stays R s t ∧ Same s t ∧
        (t.icache ip).inum = (s.icache ip).inum)
      fun _ _ => False := by
  apply wp_modify_bind
  refine wp_pure ⟨rfl, h.addRef hip, stays_setInode ?_ ?_ R, ⟨rfl, rfl⟩, ?_⟩
  · rfl
  · exact fun hv => ⟨hv, rfl⟩
  · rw [Fs.setInode_self]

theorem ilock_sound (h : Sound sb R L s) (hip : 0 < R ip) : Wp (ilock ip) s
      (fun _ t => ip ∉ L ∧ Sound sb R (insert ip L) t ∧ Stays R s t ∧ Same s t)
      (fun e t => (e = .deadlock ∧ ip ∈ L ∨ e = .noType ∧ ¬ s.disk.live sb (s.icache ip).inum) ∧
        Same s t) := by
  have href := h.refs.ref ip
  apply wp_get_bind
  rw [if_neg (by omega)]
  apply wp_bind (P := fun _ t => ip ∉ L ∧
    t = s.setInode ip { s.icache ip with locked := true })
    (F := fun e t => e = .deadlock ∧ ip ∈ L ∧ t = s)
  · apply wp_get_bind
    apply wp_ite
    · intro hl
      exact wp_throw ⟨rfl, (h.refs.locked ip).1 hl, rfl⟩
    · intro hl
      exact wp_modify ⟨fun hm => hl ((h.refs.locked ip).2 hm), rfl⟩
  · rintro e t ⟨he, hm, rfl⟩
    exact ⟨.inl ⟨he, hm⟩, .refl t⟩
  rintro _ _ ⟨hm, rfl⟩
  have hlock (jp : Slot) (hj : jp ≠ ip) (hjp : jp ∈ insert ip L) : jp ∈ L :=
    (mem_insert.1 hjp).resolve_left hj
  have hpos (jp : Slot) (hjp : jp ∈ insert ip L) : 0 < R jp := by
    rcases mem_insert.1 hjp with rfl | hjp
    · exact hip
    · exact (h.held jp hjp).1
  -- what the lock does to the references, with or without the read
  have hrefs (v : Bool) (d : Dinode) : Refs R (insert ip L)
      (s.setInode ip { s.icache ip with locked := true, valid := v, d := d }) := by
    refine h.refs.setInode (h.refs.ref ip) rfl (fun _ _ => rfl) (fun hp => hp) ?_ fun jp hj => ?_
    · exact ⟨fun _ => mem_insert_self .., fun _ => rfl⟩
    · exact ⟨hlock jp hj, mem_insert_of_mem⟩
  apply wp_ite
  · intro hv
    refine wp_pure ⟨hm, h.relock hip (hrefs _ _) rfl rfl rfl (fun _ _ hp => hp) hlock hpos
      fun _ => hv, stays_setInode ?_ ?_ R, ⟨rfl, rfl⟩⟩
    · rfl
    · exact fun hv => ⟨hv, rfl⟩
  intro hv
  apply wp_modify_bind
  apply wp_get_bind
  rw [Fs.setInode_self]
  apply wp_ite
  · intro hfree
    refine wp_throw ⟨.inr ⟨rfl, fun hl => hl.2 ?_⟩, ⟨rfl, rfl⟩⟩
    rw [Fs.setInode_self] at hfree
    exact hfree
  intro htype
  rw [Fs.setInode_self] at htype
  rw [Fs.setInode_idem, Fs.setInode_self]
  have hself := s.setInode_self ip { s.icache ip with
    locked := true, valid := true, d := s.disk.inode (s.icache ip).inum }
  refine wp_pure ⟨hm, h.change hip ?_ (fun jp hj => Fs.setInode_of_ne hj s _) (fun _ _ => rfl)
    (hrefs _ _) (fun _ _ hp => hp) hlock hpos (fun _ => ?_) (fun _ _ => ?_) h.proper,
    stays_setInode ?_ ?_ R, ⟨rfl, rfl⟩⟩
  · rw [Fs.setInode_self]
  · exact congrArg Inode.valid hself
  · exact ⟨congrArg Inode.d hself, fun hfree => htype ((congrArg (·.d.type) hself).symm.trans hfree)⟩
  · rfl
  · exact fun hv' => (hv hv').elim

theorem iunlock_sound (h : Sound sb R (insert ip L) s) (hip : ip ∉ L) :
    Wp (iunlock ip) s (fun _ t => Sound sb R L t ∧ Stays R s t ∧ Same s t) fun _ _ => False := by
  obtain ⟨hr, hv⟩ := h.held ip (mem_insert_self ..)
  have href := h.refs.ref ip
  have hlock := (h.refs.locked ip).2 (mem_insert_self ..)
  apply wp_get_bind
  rw [hlock, if_neg (by rw [href]; rintro (he | he); cases he; omega)]
  refine wp_modify ⟨h.relock hr ?_ rfl rfl rfl (fun _ _ hp => hp)
    (fun jp _ hjp => mem_insert_of_mem hjp) (fun jp hjp => ?_) fun hm => (hip hm).elim,
    stays_setInode ?_ ?_ R, ⟨rfl, rfl⟩⟩
  · refine h.refs.setInode href rfl (fun _ _ => rfl) (fun hp => hp) ?_ fun jp hj => ?_
    · exact ⟨fun he => Bool.noConfusion he, fun he => (hip he).elim⟩
    · exact ⟨mem_insert_of_mem, fun hjp => (mem_insert.1 hjp).resolve_left hj⟩
  · exact (h.held jp (mem_insert_of_mem hjp)).1
  · rfl
  · exact fun hv => ⟨hv, rfl⟩

theorem Proper.removed (h : Proper sb v) (hr : Removed sb v v' i) : Proper sb v' := by
  refine ⟨hr.owned, h.root, fun d k hl htype hk => ?_⟩
  have hd : d ≠ i := by
    rintro rfl
    exact hl.2 hr.free
  have hu := hr.others d hd
  have hl := hu.live.1 hl
  rw [hu.inode] at htype hk
  rw [hu.entry h.owned hl hk]
  exact h.inRange d k hl htype hk

def Last (R : Slot → Nat) (ip : Slot) (s : Fs) : Prop :=
  R ip = 0 ∧ (s.icache ip).valid = true ∧ (s.disk.inode (s.icache ip).inum).nlink = 0

structure Put (sb : Superblock) (R : Slot → Nat) (ip : Slot) (s t : Fs) : Prop where
  none : ¬ Last R ip s → Same s t
  last : Last R ip s → Removed sb s.disk t.disk (s.icache ip).inum
  logs : ∀ x ∈ t.logged, x ∈ s.logged ∨ x = sb.iblock (s.icache ip).inum ∨ sb.bitmapBlock x

def Inode.unused (e : Inode) : Prop := e.valid = true ∧ e.d.nlink = 0 ∧ e.ref = 1

theorem iput_wp (hfree : (s.icache ip).unused →
      Owned sb (s.vol ip) ∧ (s.vol ip).live sb (s.icache ip).inum) :
    Wp (iput sb ip) s
      (fun _ t => (s.icache ip).locked ≠ true ∧ (¬ (s.icache ip).unused ∧ t = s.setInode ip
          { s.icache ip with ref := (s.icache ip).ref - 1, locked := false } ∨
        (s.icache ip).unused ∧ FreedInode sb ip s t))
      (fun e t => e = .deadlock ∧ (s.icache ip).locked = true ∧ t = s) := by
  apply wp_bind (P := fun _ t => (s.icache ip).locked ≠ true ∧
      t = s.setInode ip { s.icache ip with locked := true })
    (F := fun e t => e = .deadlock ∧ (s.icache ip).locked = true ∧ t = s)
  · apply wp_get_bind
    apply wp_ite
    · exact fun hl => wp_throw ⟨rfl, hl, rfl⟩
    · exact fun hl => wp_modify ⟨hl, rfl⟩
  · exact fun _ _ h => h
  rintro _ _ ⟨hl, rfl⟩
  apply wp_bind (P := fun _ t => ¬ (s.icache ip).unused ∧
      t = s.setInode ip { s.icache ip with locked := true } ∨
      (s.icache ip).unused ∧ FreedInode sb ip s t) (F := fun _ _ => False)
  · apply wp_get_bind
    rw [Fs.setInode_self]
    apply wp_ite
    · intro hlast
      have hself := s.setInode_self ip { s.icache ip with locked := true }
      have hvol : (s.setInode ip { s.icache ip with locked := true }).vol ip = s.vol ip := by
        rw [Fs.vol, hself]
        rfl
      obtain ⟨ho, hi⟩ := hfree hlast
      apply (ifree_wp (by rwa [hvol]) (by rwa [hvol, hself])).post
      intro _ t ht
      obtain ⟨hrem, hothers, hinum, hlogs⟩ := ht
      rw [hvol, hself] at hrem
      rw [hself] at hinum hlogs
      refine .inr ⟨hlast, hrem, fun jp hj => ?_, hinum, hlogs⟩
      rw [hothers jp hj, Fs.setInode_of_ne hj]
    · intro hnot
      exact wp_pure (.inl ⟨hnot, rfl⟩)
  · exact fun _ _ h => h.elim
  · rintro _ t (⟨hnot, rfl⟩ | ⟨hlast, hu⟩)
    · apply wp_modify_bind
      refine wp_modify ⟨hl, .inl ⟨hnot, ?_⟩⟩
      simp only [Fs.setInode_self, Fs.setInode_idem]
    · apply wp_modify_bind
      refine wp_modify ⟨hl, .inr ⟨hlast, ?_⟩⟩
      rw [Fs.setInode_idem, Fs.setInode_self]
      refine ⟨hu.removed, fun jp hj => ?_, ?_, hu.logs⟩
      · rw [Fs.setInode_of_ne hj, hu.others jp hj]
      · rw [Fs.setInode_self]
        exact hu.inum

theorem iput_sound (h : Sound sb (addRef R ip) L s) :
    Wp (iput sb ip) s (fun _ t => Sound sb R L t ∧ Stays R s t ∧ Put sb R ip s t)
      (fun e t => e = .deadlock ∧ ip ∈ L ∧ t = s) := by
  have hip := addRef_pos R ip
  have href := h.refs.ref ip
  rw [addRef_self] at href
  have hlast : (s.icache ip).unused ↔ Last R ip s := by
    unfold Inode.unused Last
    constructor
    · rintro ⟨hv, hn, hr⟩
      rw [← (h.copy ip hip hv).1]
      exact ⟨by omega, hv, hn⟩
    · rintro ⟨hr, hv, hn⟩
      rw [(h.copy ip hip hv).1]
      exact ⟨hv, hn, by omega⟩
  have hvol (hv : (s.icache ip).valid = true) : s.vol ip = s.disk := by
    rw [Fs.vol, (h.copy ip hip hv).1, setInode_inode_self]
  refine ((iput_wp fun hu => ?_).and (iput_refs h.refs)).mono ?_ ?_
  · have hv := hu.1
    rw [hvol hv]
    obtain ⟨he, ht⟩ := h.copy ip hip hv
    exact ⟨h.proper.owned, h.range ip hip, he ▸ ht⟩
  · rintro _ t ⟨⟨hl, ht⟩, hrefs⟩
    have hm : ip ∉ L := fun hm => hl ((h.refs.locked ip).2 hm)
    have hR (jp : Slot) (_ : jp ≠ ip) (hjp : 0 < R jp) : 0 < addRef R ip jp :=
      hjp.trans_le (le_addRef R ip jp)
    have hR' (jp : Slot) (hjp : jp ∈ L) : 0 < R jp := by
      have hj : jp ≠ ip := fun he => hm (he ▸ hjp)
      have := (h.held jp hjp).1
      rwa [addRef_of_ne hj] at this
    rcases ht with ⟨hnot, rfl⟩ | ⟨hu, hf⟩
    · refine ⟨h.relock hip hrefs rfl rfl rfl hR (fun _ _ hjp => hjp) hR' fun hjp => (hm hjp).elim,
        stays_setInode ?_ ?_ R, fun _ => ⟨rfl, rfl⟩, fun hlast' => ?_, fun x hx => .inl hx⟩
      · rfl
      · exact fun hv => ⟨hv, rfl⟩
      · exact (hnot (hlast.2 hlast')).elim
    have hzero := (hlast.1 hu).1
    have hrem := hf.removed
    rw [hvol hu.1] at hrem
    refine ⟨h.change hip hf.inum hf.others (fun j hj => (hrem.others j hj).inode) hrefs hR
      (fun _ _ hjp => hjp) hR' (fun hjp => (hm hjp).elim) (fun _ hpos => ?_)
      (h.proper.removed hrem), fun jp hjp => ?_, fun hnot => ?_, fun _ => hrem, hf.logs⟩
    · omega
    · have hj : jp ≠ ip := by
        rintro rfl
        omega
      rw [hf.others jp hj]
      exact ⟨rfl, fun hv => ⟨hv, rfl⟩⟩
    · exact (hnot (hlast.1 hu)).elim
  · rintro e t ⟨⟨he, hl, rfl⟩, -⟩
    exact ⟨he, (h.refs.locked ip).1 hl, rfl⟩

theorem iunlockput_sound (h : Sound sb (addRef R ip) (insert ip L) s) (hip : ip ∉ L) :
    Wp (iunlockput sb ip) s (fun _ t => Sound sb R L t ∧ Stays R s t ∧ Put sb R ip s t)
      fun _ _ => False := by
  obtain ⟨-, hv⟩ := h.held ip (mem_insert_self ..)
  apply wp_seq (iunlock_sound h hip)
  rintro _ t ⟨ht, hs, hsame⟩
  obtain ⟨hinum, hvalid⟩ := hs ip (addRef_pos R ip)
  have hlast : Last R ip t ↔ Last R ip s := by
    rw [Last, Last, hinum, hsame.1, (hvalid hv).1, hv]
  apply (iput_sound ht).mono
  · rintro _ u ⟨hu, hs', hput⟩
    refine ⟨hu, hs.of_add.trans hs', fun hnot => ?_, fun hl => ?_, fun x hx => ?_⟩
    · exact hsame.trans (hput.none fun hl => hnot (hlast.1 hl))
    · have hrem := hput.last (hlast.2 hl)
      rwa [hsame.1, hinum] at hrem
    · have hx := hput.logs x hx
      rwa [hsame.2, hinum] at hx
  · rintro e u ⟨-, hm, -⟩
    exact hip hm

theorem setInode_held (haddrs : d'.addrs = (v.inode i).addrs) (j k : Nat) :
    (v.setInode i d').held j k = v.held j k := by
  have h : ((v.setInode i d').inode j).addrs = (v.inode j).addrs := by
    by_cases hj : j = i
    · rw [hj, ← haddrs]
      exact congrArg Dinode.addrs (update_self ..)
    · exact congrArg Dinode.addrs (update_of_ne hj ..)
  rw [Vol.held, Vol.held, h]
  rfl

theorem setInode_entry (haddrs : d'.addrs = (v.inode i).addrs) (j k : Nat) :
    (v.setInode i d').entry j k = v.entry j k := by
  have hbyte : (v.setInode i d').byte j = v.byte j := by
    funext c
    rw [Vol.byte, Vol.byte, Vol.addr, Vol.addr, setInode_held haddrs]
    rfl
  rw [Vol.entry, Vol.entry, hbyte]

theorem setInode_untouched (hj : j ≠ i) : Untouched v (v.setInode i d') j :=
  ⟨update_of_ne hj .., fun _ _ _ => rfl⟩

theorem setInode_inode (v : Vol) (i : Nat) (d' : Dinode) : (v.setInode i d').inode i = d' :=
  update_self ..

theorem setInode_live (htype : d'.type = (v.inode i).type) (j : Nat) :
    (v.setInode i d').live sb j ↔ v.live sb j := by
  by_cases hj : j = i
  · rw [hj, Vol.live, Vol.live, setInode_inode, htype]
  · rw [(setInode_untouched hj).live]

theorem Owned.setInode (h : Owned sb v) (htype : d'.type = (v.inode i).type)
    (hsize : d'.size = (v.inode i).size) (haddrs : d'.addrs = (v.inode i).addrs) :
    Owned sb (v.setInode i d') := by
  have hs (j : Nat) : ((v.setInode i d').inode j).size = (v.inode j).size := by
    by_cases hj : j = i
    · rw [hj, setInode_inode, hsize]
    · rw [(setInode_untouched hj).inode]
  refine h.congr (setInode_live htype) rfl (fun j q _ _ => setInode_held haddrs j q) ?_
  intro j bn hl hlt
  rw [hs] at hlt
  rw [Vol.addr, setInode_held haddrs]
  exact h.full j bn hl hlt

theorem Proper.setInode (h : Proper sb v) (htype : d'.type = (v.inode i).type)
    (hsize : d'.size = (v.inode i).size) (haddrs : d'.addrs = (v.inode i).addrs) :
    Proper sb (v.setInode i d') := by
  refine ⟨h.owned.setInode htype hsize haddrs, h.root, fun d k hl hd hk => ?_⟩
  have hl := (setInode_live htype d).1 hl
  have hf : ((v.setInode i d').inode d).type = (v.inode d).type ∧
      ((v.setInode i d').inode d).size = (v.inode d).size := by
    by_cases hj : d = i
    · rw [hj, setInode_inode]
      exact ⟨htype, hsize⟩
    · rw [(setInode_untouched hj).inode]
      exact ⟨rfl, rfl⟩
  rw [hf.1] at hd
  rw [hf.2] at hk
  rw [setInode_entry haddrs]
  exact h.inRange d k hl hd hk

theorem Proper.file (h : Proper sb v) (hw : Written sb v v' i off bs)
    (htype : (v.inode i).type ≠ .dir) : Proper sb v' := by
  refine ⟨hw.owned, h.root, fun d k hl hd hk => ?_⟩
  have hl := (hw.live d).1 hl
  have hdi : d ≠ i := by
    rintro rfl
    rw [hw.fields] at hd
    exact htype hd
  rw [hw.inode d hdi] at hd hk
  rw [hw.entry_others h.owned hdi hl hk]
  exact h.inRange d k hl hd hk

theorem Proper.entry (h : Proper sb v) (hw : Written sb v v' i (16 * k) bs) (hlen : bs.length = 16)
    (hoff : 16 * k ≤ (v.inode i).size) (hinum : (Dirent.decode bs).inum < sb.ninodes) :
    Proper sb v' := by
  refine ⟨hw.owned, h.root, fun d c hl hd hc => ?_⟩
  have hl := (hw.live d).1 hl
  by_cases hdi : d = i
  · subst hdi
    rw [hw.fields] at hd
    rw [hw.size] at hc
    by_cases hck : c = k
    · rw [hck, hw.entry_self hlen]
      exact hinum
    · have hc' : 16 * c + 16 ≤ (v.inode d).size := by omega
      rw [hw.entry_of_ne hlen hck hc']
      exact h.inRange d c hl hd hc'
  · rw [hw.inode d hdi] at hd hc
    rw [hw.entry_others h.owned hdi hl hc]
    exact h.inRange d c hl hd hc

theorem Sound.update (h : Sound sb R L s) (hip : ip ∈ L)
    (hicache : t.icache = update s.icache ip { s.icache ip with d := (t.icache ip).d })
    (hd : (t.icache ip).d = t.disk.inode (s.icache ip).inum)
    (hinode : ∀ j, j ≠ (s.icache ip).inum → t.disk.inode j = s.disk.inode j)
    (htype : (t.icache ip).d.type = (s.icache ip).d.type) (hvol : Proper sb t.disk) :
    Sound sb R L t ∧ Stays R s t := by
  obtain ⟨hr, hv⟩ := h.held ip hip
  have hinum : (t.icache ip).inum = (s.icache ip).inum := by
    rw [hicache, update_self]
  have hvalid : (t.icache ip).valid = (s.icache ip).valid := by
    rw [hicache, update_self]
  have hother (jp : Slot) (hj : jp ≠ ip) : t.icache jp = s.icache jp := by
    rw [hicache, update_of_ne hj]
  have hq : QuietStep s t := by
    intro jp
    by_cases hj : jp = ip
    · rw [hj, hicache, update_self]
      exact ⟨rfl, rfl, rfl⟩
    · rw [hother jp hj]
      exact ⟨rfl, rfl, rfl⟩
  refine ⟨h.change hr hinum hother hinode (h.refs.quiet hq) (fun _ _ hp => hp) (fun _ _ hm => hm)
    (fun jp hm => (h.held jp hm).1) (fun _ => hvalid.trans hv) (fun _ _ => ⟨hd, ?_⟩) hvol, ?_⟩
  · rw [htype]
    exact (h.copy ip hr hv).2
  intro jp _
  by_cases hj : jp = ip
  · rw [hj, hinum, hvalid]
    exact ⟨rfl, fun hv => ⟨hv, htype⟩⟩
  · rw [hother jp hj]
    exact ⟨rfl, fun hv => ⟨hv, rfl⟩⟩

theorem Sound.store (h : Sound sb R L s) (d' : Dinode) (hip : ip ∈ L)
    (htype : d'.type = (s.icache ip).d.type) (hsize : d'.size = (s.icache ip).d.size)
    (haddrs : d'.addrs = (s.icache ip).d.addrs) :
    Sound sb R L (s.store sb ip d') ∧ Stays R s (s.store sb ip d') := by
  have he := h.inode_eq hip
  refine h.update hip ?_ ?_ (fun j hj => update_of_ne hj ..) ?_
    (h.proper.setInode (by rw [he, htype]) (by rw [he, hsize]) (by rw [he, haddrs]))
  · rw [store_icache_self]
    rfl
  · rw [store_icache_self]
    exact (setInode_inode ..).symm
  · rw [store_icache_self]
    exact htype

theorem Sound.stored (h : Sound sb R L s) (hip : ip ∈ L) (hst : Stored sb ip s t off bs) :
    Written sb s.disk t.disk (s.icache ip).inum off bs ∧
      (Proper sb t.disk → Sound sb R L t ∧ Stays R s t) := by
  have hvol := h.vol_eq hip
  have hsync := hst.synced hvol.symm
  have hw := hst.written
  rw [hvol, ← hsync] at hw
  refine ⟨hw, fun hp => h.update hip hst.icache ?_ hw.inode ?_ hp⟩
  · have hinum : (t.icache ip).inum = (s.icache ip).inum := by
      rw [hst.icache, update_self]
    rw [hsync, ← hinum, vol_inode_self]
  · have hinum : (t.icache ip).inum = (s.icache ip).inum := by
      rw [hst.icache, update_self]
    rw [← vol_inode_self t ip, ← hsync, hinum, hw.fields, h.inode_eq hip]

end Xv6Signals
