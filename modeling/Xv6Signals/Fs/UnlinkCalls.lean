import Xv6Signals.Fs.Effects

namespace Xv6Signals
open Lib Finset

variable {sb : Superblock} {s t u : Fs} {ip dp cwd : Slot} {k : Nat} {R : Slot → Nat}
  {L : Finset Slot}

theorem unlinkEntry_sound (h : Sound sb (addRef (addRef R dp) ip) (insert ip (insert dp L)) s)
    (hdp : dp ∉ L) (hip : ip ∉ insert dp L) (hd : (s.icache dp).d.type = .dir)
    (hk : 16 * k + 16 ≤ (s.icache dp).d.size) :
    Wp (unlinkEntry sb dp ip (16 * k)) s
      (fun r t => r = 0 ∧ Sound sb R L t ∧ Stays R s t ∧
        Within (sb.metaOf (s.icache ip).inum (s.icache dp).inum) 2 s t)
      (fun e t => e ≠ .freeingFreeBlock ∧
        Within (sb.metaOf (s.icache ip).inum (s.icache dp).inum) 2 s t) := by
  have hmem : dp ∈ insert ip (insert dp L) :=
    mem_insert_of_mem (mem_insert_self ..)
  have hms : sb.metaOf (s.icache ip).inum (s.icache dp).inum (sb.iblock (s.icache dp).inum) :=
    .inr (.inr rfl)
  have hzero : (Dirent.decode (List.replicate 16 0)).inum < sb.ninodes :=
    Nat.lt_of_le_of_lt (Nat.zero_le _) h.proper.root
  have hle : 16 * k ≤ (s.disk.inode (s.icache dp).inum).size := by
    rw [h.inode_eq hmem]
    omega
  apply wp_bind (writeEntry_sound _ h hmem hd (by rfl) hzero hle hms fun x hx => .inl hx)
  · rintro e t ⟨rfl, hin⟩
    exact ⟨by decide, hin⟩
  rintro r t ⟨hin, hr⟩
  apply wp_ite
  · exact fun _ => wp_throw ⟨by decide, hin⟩
  intro hok
  obtain ⟨ht, hs, -⟩ := (hr.resolve_left hok).2
  have hdpos : 0 < addRef (addRef R dp) ip dp := (addRef_pos R dp).trans_le (le_addRef ..)
  have hipos := addRef_pos (addRef R dp) ip
  apply wp_get_bind
  apply wp_bind (P := fun _ u => Sound sb (addRef (addRef R dp) ip) (insert ip (insert dp L)) u ∧
    Stays (addRef (addRef R dp) ip) s u ∧
    Within (sb.metaOf (s.icache ip).inum (s.icache dp).inum) 0 t u) (F := fun _ _ => False)
  · apply wp_ite
    · intro _
      apply (addLinks_sound ht hmem (-1)).post
      rintro _ u ⟨hu, hs', -, hlog⟩
      rw [(hs dp hdpos).1] at hlog
      exact ⟨hu, hs.trans hs', .of_cons hlog hms⟩
    · exact fun _ => wp_pure ⟨ht, hs, (Same.refl t).within _ 0⟩
  · exact fun _ _ he => he.elim
  rintro _ u ⟨hu, hsu, hin'⟩
  have hu' := hu
  rw [addRef_comm, insert_comm] at hu'
  have hdp' : dp ∉ insert ip L := by
    rw [mem_insert, not_or]
    exact ⟨fun he => hip (he ▸ mem_insert_self ..), hdp⟩
  apply wp_step (iunlockput_sound hu' hdp')
  rintro _ w ⟨hw, hs₂, hput⟩
  have hipos' := addRef_pos R ip
  apply wp_step (addLinks_sound hw (mem_insert_self ..) (-1))
  rintro _ x ⟨hx, hs₃, -, hlog⟩
  apply wp_step (iunlockput_sound hx fun hm => hip (mem_insert_of_mem hm))
  rintro _ y ⟨hy, hs₄, hput'⟩
  have hinum : (w.icache ip).inum = (s.icache ip).inum :=
    (hs₂ ip hipos').1.trans (hsu ip hipos).1
  have hsx := (hs₂.trans hs₃).of_add
  refine wp_pure ⟨rfl, hy, (hsu.of_add.of_add.trans hsx).trans hs₄, ?_⟩
  rw [hinum] at hlog
  have hlogs : Within (sb.metaOf (s.icache ip).inum (s.icache dp).inum) 0 w x :=
    .of_cons hlog (.inr (.inl rfl))
  have hlogs := hlogs.trans (hput'.within (.inl ((hs₃ ip hipos').1.trans hinum)))
  exact hin.trans (hin'.trans ((hput.within (.inr (hsu dp hdpos).1)).trans hlogs))

theorem unlinkable_sound (h : Sound sb R L s) (hip : ip ∈ L) :
    Wp (unlinkable sb ip) s (fun _ t => t = s) (fun e t => e = .isdirempty ∧ t = s) := by
  apply wp_get_bind
  apply wp_ite
  · exact fun _ => isdirempty_sound h hip
  · exact fun _ => wp_pure rfl

structure UnlinkedFound (sb : Superblock) (R : Slot → Nat) (L : Finset Slot) (i d : Nat)
    (s : Fs) (r : Int) (t : Fs) : Prop where
  sound : Sound sb R L t
  stays : Stays R s t
  within : Within (sb.metaOf i d) 2 s t
  failed : r = -1 → (s.disk.inode d).nlink ≠ 0 ∨ s.refd R d → Same s t

theorem unlinkFound_sound (h : Sound sb (addRef (addRef R dp) ip) (insert dp L) s) (hdp : dp ∉ L)
    (hd : (s.icache dp).d.type = .dir) (hk : 16 * k + 16 ≤ (s.icache dp).d.size) :
    Wp (unlinkFound sb dp ip (16 * k)) s
      (UnlinkedFound sb R L (s.icache ip).inum (s.icache dp).inum s)
      (fun e t => e ≠ .freeingFreeBlock ∧
        Within (sb.metaOf (s.icache ip).inum (s.icache dp).inum) 2 s t) := by
  have hdpos : 0 < addRef (addRef R dp) ip dp := (addRef_pos R dp).trans_le (le_addRef ..)
  have hipos := addRef_pos (addRef R dp) ip
  have hmem : dp ∈ insert dp L := mem_insert_self ..
  apply wp_bind (ilock_safe h hipos)
  · exact fun e t he => ⟨he.1, he.2.within _ 2⟩
  rintro _ t ⟨hip, ht, hs, hsame⟩
  have hsR : Stays R s t := hs.of_add.of_add
  have hinum := (hs ip hipos).1
  have hdnum := (hs dp hdpos).1
  have hipm : ip ∈ insert ip (insert dp L) := mem_insert_self ..
  have hdinode : (t.icache dp).d = (s.icache dp).d := by
    rw [← ht.inode_eq (mem_insert_of_mem hmem), ← h.inode_eq hmem, hsame.1, hdnum]
  apply wp_get_bind
  apply wp_ite
  · exact fun _ => wp_throw ⟨by decide, hsame.within _ 2⟩
  intro hn
  rw [← ht.inode_eq hipm] at hn
  apply wp_bind (unlinkable_sound ht hipm)
  · rintro e u ⟨rfl, rfl⟩
    exact ⟨by decide, hsame.within _ 2⟩
  rintro r _ rfl
  apply wp_ite
  · intro _
    apply (unlinkEntry_sound ht hdp hip (by rw [hdinode, hd]) (by rwa [hdinode])).mono
    · rintro r w ⟨rfl, hw, hs', hin⟩
      rw [hinum, hdnum] at hin
      exact ⟨hw, hsR.trans hs', hin.after_same hsame, fun hr => by cases hr⟩
    · rintro e w ⟨he, hin⟩
      rw [hinum, hdnum] at hin
      exact ⟨he, hin.after_same hsame⟩
  intro _
  apply wp_step (iunlockput_sound ht hip)
  rintro _ w ⟨hw, hs', hput⟩
  have hsw' : Same s w := by
    refine hsame.trans (hput.none fun hlast => ?_)
    have := hlast.2.2
    omega
  apply wp_step (iunlockput_sound hw hdp)
  rintro _ x ⟨hx, hs'', hput'⟩
  have hsw := hsR.trans hs'.of_add
  have hdnum' : (w.icache dp).inum = (s.icache dp).inum :=
    (hs' dp (addRef_pos R dp)).1.trans hdnum
  refine wp_pure ⟨hx, hsw.trans hs'', (hsw'.within _ 2).trans (hput'.within (.inr hdnum')),
    fun _ hkept => hsw'.trans (hput'.none (not_last hw (addRef_pos R dp) (le_addRef R dp) le_rfl
      fun _ => ?_))⟩
  rwa [hdnum', hsw'.1, hsw.refd_iff]

theorem sysUnlink_sound (h : Sound sb R L s) (hcwd : 0 < R cwd) (path : List Byte) :
    Wp (sysUnlink sb cwd path) s (CallDone sb R L [s.start cwd path] 2 s.fresh)
      (CallFailed sb R [s.start cwd path] 2 s.fresh) := by
  have h := h.fresh
  apply wp_beginOp
  show Wp _ s.fresh (CallDone sb R L [s.fresh.start cwd path] 2 s.fresh)
    (CallFailed sb R [s.fresh.start cwd path] 2 s.fresh)
  generalize s.fresh = s at h
  have hstart : s.start cwd path ∈ [s.start cwd path] := List.mem_cons_self
  apply wp_bind (namex_sound h hcwd true path) fun e t he => he.call hstart 2
  intro r t ht
  cases r with
  | none =>
    exact wp_pure (.of_same (ht.failed rfl) ht.stays (fun K hK hstart => (ht.exact K hK hstart).1)
      hstart 2 (-1))
  | some r =>
    obtain ⟨dp, name⟩ := r
    apply wp_bind ht.ilock fun e u he => he.call hstart 2
    intro _ u henter
    have hmem : dp ∈ insert dp L := mem_insert_self ..
    have hu := henter.sound
    apply wp_ite
    · exact fun _ => henter.done hstart 2 (-1)
    intro _
    apply wp_bind (dirlookup_safe hu hmem name)
    · rintro e w ⟨he, rfl⟩
      exact ⟨he, fun K hK hstarts =>
        ⟨0, 0, (henter.exact K hK (hstarts _ hstart)).1.within _ 2⟩⟩
    rintro r w ⟨hd, hr⟩
    cases r with
    | none =>
      obtain ⟨rfl, -⟩ := hr
      exact henter.done hstart 2 (-1)
    | some r =>
      obtain ⟨ip, off⟩ := r
      obtain ⟨hw, hs, hsame, -, k, rfl, hk, -⟩ := hr
      have hdnum := (hs dp (addRef_pos R dp)).1
      have hdinode : (w.icache dp).d = (u.icache dp).d := by
        rw [← hw.inode_eq hmem, ← hu.inode_eq hmem, hsame.1, hdnum]
      have hsize := hk.1
      rw [hu.inode_eq hmem] at hsize
      rw [← hdinode] at hsize hd
      have hstays := henter.stays.trans hs.of_add
      apply (unlinkFound_sound hw henter.notin hd hsize).mono
      · intro r x hx
        refine ⟨hx.sound, hstays.trans hx.stays, fun K hK hstarts => ?_⟩
        obtain ⟨hsu, hKd⟩ := henter.exact K hK (hstarts _ hstart)
        have hsw := hsu.trans hsame
        refine ⟨⟨_, _, hx.within.after_same hsw⟩, fun hr => (hsw.trans (hx.failed hr ?_)).1⟩
        have hl := hu.live hmem
        rw [hsu.1] at hl
        rw [hdnum, hsw.1, hstays.refd_iff]
        exact hK.kept _ hKd hl
      · rintro e x ⟨he, hin⟩
        refine ⟨he, fun K hK hstarts => ⟨_, _, hin.after_same ?_⟩⟩
        exact (henter.exact K hK (hstarts _ hstart)).1.trans hsame

end Xv6Signals
