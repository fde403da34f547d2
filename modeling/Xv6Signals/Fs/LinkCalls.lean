import Xv6Signals.Fs.Effects

namespace Xv6Signals
open Lib

variable {sb : Superblock} {s t u : Fs} {ip dp cwd : Slot} {R : Slot → Nat} {L : Finset Slot}
  {new : List Byte}

/-- The inode is not freed when a reference to it is given back with one link less. -/
def Fs.undoable (R : Slot → Nat) (s : Fs) (i : Nat) : Prop :=
  ((s.disk.addLinks i (-1)).inode i).nlink ≠ 0 ∨ s.refd R i

theorem linkUndo_sound (h : Sound sb (addRef R ip) L s) : Wp (linkUndo sb ip) s
      (fun _ t => Sound sb R L t ∧ Stays R s t ∧ Within (sb.metaOf (s.icache ip).inum 0) 0 s t ∧
        (s.undoable R (s.icache ip).inum → t.disk = s.disk.addLinks (s.icache ip).inum (-1)))
      (fun e t => e ≠ .freeingFreeBlock ∧ Same s t) := by
  have hpos := addRef_pos R ip
  apply wp_bind (ilock_safe h hpos) fun _ _ he => he
  rintro _ t ⟨hm, ht, hs, hsame⟩
  apply wp_step (addLinks_sound ht (Finset.mem_insert_self ..) (-1))
  rintro _ u ⟨hu, hs', hdisk, hlog⟩
  have hinum : (u.icache ip).inum = (s.icache ip).inum :=
    (hs' ip hpos).1.trans (hs ip hpos).1
  have hstays := hs.of_add.trans hs'.of_add
  rw [(hs ip hpos).1] at hdisk hlog
  rw [hsame.1] at hdisk
  apply wp_step (iunlockput_sound hu hm)
  rintro _ w ⟨hw, hs'', hput⟩
  refine wp_pure ⟨hw, hstays.trans hs'', ?_, fun hkept => ?_⟩
  · have hin : Within (sb.metaOf (s.icache ip).inum 0) 0 t u := .of_cons hlog (.inr (.inl rfl))
    exact (hin.trans (hput.within (.inl hinum))).after_same hsame
  · rw [← hdisk]
    refine (hput.none (not_last hu hpos (le_addRef R ip) le_rfl fun _ => ?_)).1
    rwa [hdisk, hinum, hstays.refd_iff]

structure LinkedNew (sb : Superblock) (R : Slot → Nat) (L : Finset Slot) (ip : Slot) (start : Nat)
    (s : Fs) (r : Int) (t : Fs) : Prop where
  sound : Sound sb R L t
  stays : Stays R s t
  exact : ∀ K, Traced sb (addRef R ip) K s → K start →
    (∃ d, Within (sb.metaOf (s.icache ip).inum d) 2 s t) ∧
    (r = -1 → s.undoable R (s.icache ip).inum →
      t.disk = s.disk.addLinks (s.icache ip).inum (-1))

structure LinkFailed (sb : Superblock) (R : Slot → Nat) (ip : Slot) (start : Nat) (s : Fs)
    (e : FsPanic) (t : Fs) : Prop where
  bfree : e ≠ .freeingFreeBlock
  exact : ∀ K, Traced sb (addRef R ip) K s → K start →
    ∃ d, Within (sb.metaOf (s.icache ip).inum d) 2 s t

theorem WalkFailed.link {start : Nat} {e : FsPanic} (h : WalkFailed sb (addRef R ip) start s e t) :
    LinkFailed sb R ip start s e t :=
  ⟨h.bfree, fun K hK hstart => ⟨0, (h.exact K hK hstart).within _ 2⟩⟩

theorem linkUndo_after {start : Nat} (h : Sound sb (addRef R ip) L t) (hs : Stays (addRef R ip) s t)
    (hsame : ∀ K, Traced sb (addRef R ip) K s → K start → Same s t) :
    Wp (linkUndo sb ip) t (LinkedNew sb R L ip start s) (LinkFailed sb R ip start s) := by
  have hinum := (hs ip (addRef_pos R ip)).1
  apply (linkUndo_sound h).mono
  · rintro r u ⟨hu, hs', hin, hundo⟩
    refine ⟨hu, hs.of_add.trans hs', fun K hK hstart => ?_⟩
    have hsame := hsame K hK hstart
    rw [hinum] at hin
    rw [Fs.undoable, hinum, hsame.1, hs.of_add.refd_iff] at hundo
    exact ⟨⟨0, (hin.after_same hsame).mono (by decide)⟩, fun _ => hundo⟩
  · rintro e u ⟨he, hsame'⟩
    exact ⟨he, fun K hK hstart => ⟨0, ((hsame K hK hstart).trans hsame').within _ 2⟩⟩

theorem linkNew_sound (h : Sound sb (addRef R ip) L s) (hcwd : 0 < R cwd) :
    Wp (linkNew sb cwd ip new) s (LinkedNew sb R L ip (s.start cwd new) s)
      (LinkFailed sb R ip (s.start cwd new) s) := by
  have hpos := addRef_pos R ip
  apply wp_bind (namex_sound h (hcwd.trans_le (le_addRef R ip cwd)) true new) fun _ _ he => he.link
  intro r t ht
  cases r with
  | none => exact linkUndo_after (ht.failed rfl) ht.stays fun K hK hstart => (ht.exact K hK hstart).1
  | some r =>
    obtain ⟨dp, name⟩ := r
    have hdpos := addRef_pos (addRef R ip) dp
    apply wp_bind ht.ilock fun _ _ he => he.link
    intro _ u henter
    have hu := henter.sound
    have hstays := henter.stays
    have hmem : dp ∈ insert dp L := Finset.mem_insert_self ..
    apply wp_get_bind
    apply wp_bind (dirlink_sound (sb.metaOf (s.icache ip).inum (u.icache dp).inum) hu hmem
      (hu.range ip (hpos.trans_le (le_addRef ..))) (.inr (.inr rfl)) fun x hx => .inl hx)
    · rintro e w ⟨he, hin⟩
      exact ⟨he, fun K hK hstart => ⟨_, hin.after_same (henter.exact K hK hstart).1⟩⟩
    rintro n w ⟨-, hw, hs'', hin, hres⟩
    apply wp_step (iunlockput_sound hw henter.notin)
    rintro _ x ⟨hx, hs₃, hput⟩
    have hnlink : (w.disk.inode (u.icache dp).inum).nlink =
        (u.disk.inode (u.icache dp).inum).nlink := by
      rcases hres with ⟨-, hsame'', -⟩ | ⟨-, -, k, hadd⟩
      · rw [hsame''.1]
      · exact hadd.written.nlink _
    -- the directory is not freed: it has a link, or another reference
    have hkept (K : Nat → Prop) (hK : Traced sb (addRef R ip) K s)
        (hstart : K (s.start cwd new)) : Same s u ∧ Same w x := by
      obtain ⟨hsu, hdp⟩ := henter.exact K hK hstart
      refine ⟨hsu, hput.none (not_last hw hdpos (le_addRef _ dp) le_rfl fun _ => ?_)⟩
      rw [(hs'' dp hdpos).1, hnlink, (hstays.trans hs''.of_add).refd_iff, hsu.1]
      have hl := hu.live hmem
      rw [hsu.1] at hl
      exact hK.kept _ hdp hl
    have hstays' := hstays.trans (hs''.of_add.trans hs₃)
    apply wp_ite
    · intro hn
      refine linkUndo_after hx hstays' fun K hK hstart => ?_
      obtain ⟨hsu, hwx⟩ := hkept K hK hstart
      rcases hres with ⟨-, hsame'', -⟩ | ⟨rfl, -⟩
      · exact hsu.trans (hsame''.trans hwx)
      · exact (Int.lt_irrefl 0 hn).elim
    intro hn
    have hin (K : Nat → Prop) (hK : Traced sb (addRef R ip) K s) (hstart : K (s.start cwd new)) :
        Within (sb.metaOf (s.icache ip).inum (u.icache dp).inum) 2 s x := by
      obtain ⟨hsu, hwx⟩ := hkept K hK hstart
      exact (hin.after_same hsu).before_same hwx
    apply wp_bind (iput_sound hx)
    · rintro e y ⟨rfl, -, rfl⟩
      exact ⟨by decide, fun K hK hstart => ⟨_, hin K hK hstart⟩⟩
    rintro _ y ⟨hy, hs₄, hput'⟩
    have hput' := hput'.within (d := (u.icache dp).inum) (.inl (hstays' ip hpos).1)
    exact wp_pure ⟨hy, hstays'.of_add.trans hs₄, fun K hK hstart =>
      ⟨⟨_, (hin K hK hstart).trans hput'⟩, fun hr => by cases hr⟩⟩

theorem sysLink_sound (h : Sound sb R L s) (hcwd : 0 < R cwd) (old new : List Byte) :
    Wp (sysLink sb cwd old new) s
      (CallDone sb R L [s.start cwd old, s.start cwd new] 2 s.fresh)
      (CallFailed sb R [s.start cwd old, s.start cwd new] 2 s.fresh) := by
  have h := h.fresh
  apply wp_beginOp
  show Wp _ s.fresh (CallDone sb R L [s.fresh.start cwd old, s.fresh.start cwd new] 2 s.fresh)
    (CallFailed sb R [s.fresh.start cwd old, s.fresh.start cwd new] 2 s.fresh)
  generalize s.fresh = s at h
  have hmem₁ : s.start cwd old ∈ [s.start cwd old, s.start cwd new] := List.mem_cons_self
  have hmem₂ : s.start cwd new ∈ [s.start cwd old, s.start cwd new] :=
    List.mem_cons_of_mem _ List.mem_cons_self
  apply wp_bind (namei_sound h hcwd old)
  · exact fun e t he => he.call hmem₁ 2
  rintro _ t ⟨r, rfl, ht⟩
  cases r with
  | none =>
    exact wp_pure (.of_same (ht.failed rfl) ht.stays (fun K hK hstart => (ht.exact K hK hstart).1)
      hmem₁ 2 (-1))
  | some r =>
    obtain ⟨ip, name⟩ := r
    have hpos := addRef_pos R ip
    apply wp_bind ht.ilock fun e u he => he.call hmem₁ 2
    intro _ u henter
    have hu := henter.sound
    have hmem : ip ∈ insert ip L := Finset.mem_insert_self ..
    apply wp_get_bind
    apply wp_ite
    · exact fun _ => henter.done hmem₁ 2 (-1)
    intro _
    apply wp_step (addLinks_sound hu hmem 1)
    rintro _ w ⟨hw, hs', hdisk, hlog⟩
    apply wp_step (iunlock_sound hw henter.notin)
    rintro _ x ⟨hx, hs'', hsame''⟩
    have hux := hs'.trans hs''
    have hstays := henter.stays.trans hux.of_add
    have hinum : (x.icache ip).inum = (u.icache ip).inum := (hux ip hpos).1
    have hdisk : x.disk = u.disk.addLinks (u.icache ip).inum 1 := hsame''.1.trans hdisk
    have hstart : x.start cwd new = s.start cwd new := by
      unfold Fs.start
      rw [(hstays cwd hcwd).1]
    -- what lookups see after the link has been counted
    have htraced (K : Nat → Prop) (hK : Traced sb R K s) (hsame : Same s u) :
        Traced sb (addRef R ip) K x := by
      refine (hK.same hsame henter.stays).addLinks hdisk ⟨ip, hpos, hinum⟩ fun j hj => ?_
      obtain ⟨jp, hjp, rfl⟩ := hux.of_add.refd hj
      exact ⟨jp, hjp.trans_le (le_addRef R ip jp), rfl⟩
    have hlogs (d : Nat) (hsame : Same s u) : Within (sb.metaOf (x.icache ip).inum d) 0 s x := by
      rw [hinum]
      exact ((Within.of_cons hlog (.inr (.inl rfl))).after_same hsame).before_same hsame''
    apply (linkNew_sound hx hcwd).mono
    · intro r y hy
      refine ⟨hy.sound, hstays.trans hy.stays, fun K hK hstarts => ?_⟩
      obtain ⟨hsame, hi⟩ := henter.exact K hK (hstarts _ hmem₁)
      obtain ⟨⟨d, hin⟩, hres⟩ := hy.exact K (htraced K hK hsame) (hstart ▸ hstarts _ hmem₂)
      have hin := (hlogs d hsame).trans hin
      rw [Nat.zero_add] at hin
      refine ⟨⟨_, d, hin⟩, fun hr => ?_⟩
      have hl := hu.live hmem
      rw [hsame.1] at hdisk hl
      rw [Fs.undoable, hinum, hdisk, addLinks_undo, hstays.refd_iff] at hres
      exact hres hr (hK.kept _ hi hl)
    · intro e y hy
      refine ⟨hy.bfree, fun K hK hstarts => ?_⟩
      obtain ⟨hsame, -⟩ := henter.exact K hK (hstarts _ hmem₁)
      obtain ⟨d, hin⟩ := hy.exact K (htraced K hK hsame) (hstart ▸ hstarts _ hmem₂)
      have hin := (hlogs d hsame).trans hin
      rw [Nat.zero_add] at hin
      exact ⟨_, d, hin⟩

end Xv6Signals
