import Xv6Signals.Fs.Quiet
import Mathlib.Data.Finset.Insert

namespace Xv6Signals
open Lib Function

variable {sb : Superblock} {s t u : Fs} {ip jp dp cwd : Slot} {R R' : Slot → Nat} {L : Finset Slot}
  {α β : Type} {Q : α → Fs → Prop} {parent : Bool} {path : List Byte} {name : List Byte}

def addRef (R : Slot → Nat) (ip : Slot) : Slot → Nat := update R ip (R ip + 1)

theorem addRef_self (R : Slot → Nat) (ip : Slot) : addRef R ip ip = R ip + 1 :=
  update_self ..

theorem addRef_of_ne (h : jp ≠ ip) : addRef R ip jp = R jp := update_of_ne h ..

theorem addRef_comm (R : Slot → Nat) (ip jp : Slot) :
    addRef (addRef R ip) jp = addRef (addRef R jp) ip := by
  funext k
  unfold addRef
  by_cases hi : k = ip
  · subst hi
    by_cases hj : k = jp
    · subst hj
      rfl
    · simp [hj]
  · by_cases hj : k = jp
    · subst hj
      simp [hi]
    · simp [hi, hj]

theorem le_addRef (R : Slot → Nat) (ip jp : Slot) : R jp ≤ addRef R ip jp := by
  by_cases hj : jp = ip
  · subst hj
    rw [addRef_self]
    omega
  · rw [addRef_of_ne hj]

/-- The inode cache with the references and the locks that are held on its entries; no inode has two
entries that are in use. -/
structure Refs (R : Slot → Nat) (L : Finset Slot) (s : Fs) : Prop where
  ref : ∀ ip, (s.icache ip).ref = R ip
  locked : ∀ ip, (s.icache ip).locked = true ↔ ip ∈ L
  uniq : ∀ ip jp, 0 < R ip → 0 < R jp → (s.icache ip).inum = (s.icache jp).inum → ip = jp

theorem Refs.quiet (h : Refs R L s) (hq : QuietStep s t) : Refs R L t := by
  constructor
  · intro ip
    rw [(hq ip).2.1, h.ref]
  · intro ip
    rw [(hq ip).2.2, h.locked]
  · intro ip jp hip hjp hi
    rw [(hq ip).1, (hq jp).1] at hi
    exact h.uniq ip jp hip hjp hi

theorem Quietly.mem {x : FsM α} (hx : Quietly x) (h : Refs R L s) :
    Leaves x s fun _ t => Refs R L t :=
  (hx s).post fun _ _ hq => h.quiet hq

theorem Refs.setInode {e : Inode} (h : Refs R L s) {L' : Finset Slot}
    (hr : e.ref = R' ip) (hi : e.inum = (s.icache ip).inum) (hR : ∀ jp, jp ≠ ip → R' jp = R jp)
    (hpos : 0 < R' ip → 0 < R ip) (hl : e.locked = true ↔ ip ∈ L')
    (hL : ∀ jp, jp ≠ ip → (jp ∈ L' ↔ jp ∈ L)) : Refs R' L' (s.setInode ip e) := by
  have hinum (jp : Slot) : ((s.setInode ip e).icache jp).inum = (s.icache jp).inum := by
    by_cases hj : jp = ip
    · subst hj
      simp only [Fs.setInode, update_self, hi]
    · simp only [Fs.setInode, update_of_ne hj]
  have hpos' (jp : Slot) (hjp : 0 < R' jp) : 0 < R jp := by
    by_cases hj : jp = ip
    · subst hj
      exact hpos hjp
    · rwa [hR jp hj] at hjp
  constructor
  · intro jp
    by_cases hj : jp = ip
    · subst hj
      simp only [Fs.setInode, update_self, hr]
    · simp only [Fs.setInode, update_of_ne hj, hR jp hj, h.ref]
  · intro jp
    by_cases hj : jp = ip
    · subst hj
      simp only [Fs.setInode, update_self, hl]
    · simp only [Fs.setInode, update_of_ne hj, hL jp hj, h.locked]
  · intro jp kp hjp hkp hi
    rw [hinum, hinum] at hi
    exact h.uniq jp kp (hpos' jp hjp) (hpos' kp hkp) hi

theorem Refs.fill {e : Inode} (h : Refs R L s) (hz : R ip = 0) (hr : e.ref = 1)
    (hl : e.locked = (s.icache ip).locked) (hnone : ∀ jp, 0 < R jp → (s.icache jp).inum ≠ e.inum) :
    Refs (addRef R ip) L (s.setInode ip e) := by
  have hself : (s.setInode ip e).icache ip = e := update_self ..
  have hother (jp : Slot) (hj : jp ≠ ip) : (s.setInode ip e).icache jp = s.icache jp :=
    update_of_ne hj ..
  have hpos (jp : Slot) (hj : jp ≠ ip) (hjp : 0 < addRef R ip jp) : 0 < R jp := by
    rwa [addRef_of_ne hj] at hjp
  refine ⟨fun jp => ?_, fun jp => ?_, fun jp kp hjp hkp hi => ?_⟩
  · by_cases hj : jp = ip
    · subst hj
      rw [hself, addRef_self, hr, hz]
      rfl
    · rw [hother jp hj, addRef_of_ne hj, h.ref]
  · by_cases hj : jp = ip
    · subst hj
      rw [hself, hl, h.locked]
    · rw [hother jp hj, h.locked]
  · by_cases hj : jp = ip <;> by_cases hk : kp = ip
    · rw [hj, hk]
    · rw [hj, hself, hother kp hk] at hi
      exact (hnone kp (hpos kp hk hkp) hi.symm).elim
    · rw [hk, hself, hother jp hj] at hi
      exact (hnone jp (hpos jp hj hjp) hi).elim
    · rw [hother jp hj, hother kp hk] at hi
      exact h.uniq jp kp (hpos jp hj hjp) (hpos kp hk hkp) hi

theorem iget_wp (i : Nat) (s : Fs) : Wp (iget i) s
      (fun ip t => 0 < (s.icache ip).ref ∧ (s.icache ip).inum = i ∧
          t = s.setInode ip { s.icache ip with ref := (s.icache ip).ref + 1 } ∨
        (s.icache ip).ref = 0 ∧ (∀ jp, 0 < (s.icache jp).ref → (s.icache jp).inum ≠ i) ∧
          t = s.setInode ip { s.icache ip with inum := i, ref := 1, valid := false })
      (fun e t => (e = .igetNoInodes ∧ ∀ jp, (s.icache jp).ref ≠ 0) ∧ t = s) := by
  apply wp_get_bind
  split
  · rename_i ip hip
    have hp := List.find?_some hip
    rw [decide_eq_true_eq] at hp
    exact .inl ⟨hp.1, hp.2, rfl⟩
  rename_i hnone
  split
  · rename_i ip hip
    have hp := List.find?_some hip
    rw [decide_eq_true_eq] at hp
    refine .inr ⟨hp, fun jp hjp he => ?_, rfl⟩
    have hj := List.find?_eq_none.1 hnone jp (List.mem_finRange jp)
    rw [decide_eq_true_eq] at hj
    exact hj ⟨hjp, he⟩
  · rename_i hfull
    refine ⟨⟨rfl, fun jp hz => ?_⟩, rfl⟩
    have hj := List.find?_eq_none.1 hfull jp (List.mem_finRange jp)
    exact hj (decide_eq_true hz)

theorem Refs.addRef (h : Refs R L s) (hip : 0 < R ip) : Refs (addRef R ip) L
    (s.setInode ip { s.icache ip with ref := (s.icache ip).ref + 1 }) := by
  refine h.setInode ?_ rfl (fun jp hj => addRef_of_ne hj) (fun _ => hip) (h.locked ip)
    fun _ _ => Iff.rfl
  rw [addRef_self, h.ref]
  rfl

theorem iget_refs {i : Nat} (h : Refs R L s) :
    Leaves (iget i) s fun ip t => Refs (addRef R ip) L t := by
  apply (iget_wp i s).mono
  · rintro ip t (⟨hpos, -, rfl⟩ | ⟨hz, hnone, rfl⟩)
    · rw [h.ref] at hpos
      exact h.addRef (by omega)
    · rw [h.ref] at hz
      refine h.fill (by omega) rfl rfl fun jp hjp => hnone jp ?_
      rw [h.ref]
      omega
  · exact fun _ _ _ => True.intro

theorem idup_refs (h : Refs R L s) (hip : 0 < R ip) :
    Leaves (idup ip) s fun r t => r = ip ∧ Refs (addRef R ip) L t := by
  apply wp_modify_bind
  exact wp_pure ⟨rfl, h.addRef hip⟩

theorem acquiresleep_refs (h : Refs R L s) :
    Leaves (acquiresleep ip) s fun _ t => ip ∉ L ∧ Refs R (insert ip L) t := by
  apply wp_get_bind
  apply wp_ite
  · exact fun _ => True.intro
  intro hfree
  rw [h.locked] at hfree
  refine wp_modify ⟨hfree, h.setInode (h.ref ip) rfl (fun _ _ => rfl) (fun h => h) ?_ fun jp hj => ?_⟩
  · exact ⟨fun _ => Finset.mem_insert_self .., fun _ => rfl⟩
  · rw [Finset.mem_insert]
    exact ⟨fun h => h.resolve_left hj, .inr⟩

theorem releasesleep_refs (h : Refs R (insert ip L) s) (hip : ip ∉ L) :
    Leaves (releasesleep ip) s fun _ t => Refs R L t := by
  refine wp_modify (h.setInode (h.ref ip) rfl (fun _ _ => rfl) (fun h => h) ?_ fun jp hj => ?_)
  · exact ⟨fun he => Bool.noConfusion he, fun he => (hip he).elim⟩
  · rw [Finset.mem_insert]
    exact ⟨.inr, fun h => h.resolve_left hj⟩

theorem ilock_refs (h : Refs R L s) :
    Leaves (ilock ip) s fun _ t => ip ∉ L ∧ Refs R (insert ip L) t := by
  apply wp_get_bind
  apply wp_ite
  · exact fun _ => True.intro
  intro _
  apply wp_seq (acquiresleep_refs h)
  rintro _ t ⟨hip, ht⟩
  have hload : Quietly (iload ip) := by
    refine quietly_bind (quietly_modify fun s => ?_) fun _ => ?_
    · exact quiet_setInode rfl rfl rfl
    · apply quietly_get
      intro s
      exact quietly_ite (quietly_throw _) (quietly_pure _)
  exact ((quietly_ite (quietly_pure _) hload).mem ht).post fun _ _ hu => ⟨hip, hu⟩

theorem iunlock_refs (h : Refs R (insert ip L) s) (hip : ip ∉ L) :
    Leaves (iunlock ip) s fun _ t => Refs R L t := by
  apply wp_get_bind
  apply wp_ite
  · exact fun _ => True.intro
  · exact fun _ => releasesleep_refs h hip

theorem iput_refs (h : Refs (addRef R ip) L s) : Leaves (iput sb ip) s fun _ t => Refs R L t := by
  apply wp_seq (acquiresleep_refs h)
  rintro _ t ⟨hip, ht⟩
  apply wp_seq ((quietly_ifreeLast sb ip).mem ht)
  intro _ t₂ ht₂
  apply wp_seq (releasesleep_refs ht₂ hip)
  intro _ t₃ ht₃
  refine wp_modify (ht₃.setInode ?_ rfl (fun jp hj => (addRef_of_ne hj).symm) (fun _ => ?_)
    (ht₃.locked ip) fun _ _ => Iff.rfl)
  · rw [ht₃.ref, addRef_self]
    push_cast
    omega
  · rw [addRef_self]
    omega

theorem iunlockput_refs (h : Refs (addRef R ip) (insert ip L) s) (hip : ip ∉ L) :
    Leaves (iunlockput sb ip) s fun _ t => Refs R L t := by
  apply wp_seq (iunlock_refs h hip)
  exact fun _ _ ht => iput_refs ht

def Got (R : Slot → Nat) (L : Finset Slot) (r : Option (Slot × α)) (t : Fs) : Prop :=
  match r with
  | none => Refs R L t
  | some (ip, _) => Refs (addRef R ip) L t

theorem dirlookup_refs (h : Refs R L s) : Leaves (dirlookup sb dp name) s (Got R L) := by
  apply wp_get_bind
  apply wp_ite
  · exact fun _ => True.intro
  intro _
  apply wp_seq ((quietly_scanDir sb dp _ _ _).mem h)
  intro r t ht
  split
  · apply wp_seq (iget_refs ht)
    exact fun _ _ hu => wp_pure hu
  · exact wp_pure ht

theorem dirlink_refs {inum : Nat} (h : Refs R L s) :
    Leaves (dirlink sb dp name inum) s fun _ t => Refs R L t := by
  apply wp_seq (dirlookup_refs h)
  intro r t ht
  split
  · exact wp_seq_pure (iput_refs ht)
  · exact (quietly_addEntry sb dp name inum).mem ht

theorem namexEnd_refs (h : Refs (addRef R ip) L s) :
    Leaves (namexEnd sb parent ip) s (Got R L) := by
  apply wp_ite
  · exact fun _ => wp_seq_pure (iput_refs h)
  · exact fun _ => wp_pure h

theorem namexLoop_refs {fuel : Nat} (h : Refs (addRef R ip) L s) :
    Leaves (namexLoop sb parent fuel ip path) s (Got R L) := by
  induction fuel generalizing s ip path with
  | zero => exact namexEnd_refs h
  | succ fuel ih =>
    unfold namexLoop
    split
    · exact namexEnd_refs h
    rename_i name rest _
    apply wp_seq (ilock_refs h)
    rintro _ t ⟨hip, ht⟩
    apply wp_get_bind
    apply wp_ite
    · exact fun _ => wp_seq_pure (iunlockput_refs ht hip)
    intro _
    apply wp_ite
    · exact fun _ => wp_seq_pure (iunlock_refs ht hip)
    intro _
    apply wp_seq (dirlookup_refs ht)
    intro r u hu
    cases r with
    | none =>
      exact wp_seq_pure (iunlockput_refs hu hip)
    | some r =>
      have hu : Refs (addRef (addRef R ip) r.1) (insert ip L) u := hu
      rw [addRef_comm] at hu
      apply wp_seq (iunlockput_refs hu hip)
      exact fun _ _ hw => ih hw

theorem namex_refs (h : Refs R L s) (hcwd : 0 < R cwd) :
    Leaves (namex sb parent cwd path) s (Got R L) := by
  apply wp_seq (P := fun ip t => Refs (addRef R ip) L t)
  · apply wp_ite
    · exact fun _ => iget_refs h
    · intro _
      apply (idup_refs h hcwd).post
      rintro r t ⟨rfl, ht⟩
      exact ht
  · exact fun ip t ht => namexLoop_refs ht

end Xv6Signals
