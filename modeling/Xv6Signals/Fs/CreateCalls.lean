import Xv6Signals.Fs.Effects

namespace Xv6Signals
open Lib Finset

variable {sb : Superblock} {s t u : Fs} {ip jp dp cwd : Slot} {v : Vol} {i d k n : Nat}
  {R : Slot → Nat} {L : Finset Slot} {K : Nat → Prop} {path name : List Byte} {type : FileType}
  {major minor : Int}

theorem Proper.create {d' : Dinode} (h : Proper sb v) (hfree : (v.inode i).type = .free)
    (hsize : d'.size = 0) (haddrs : ∀ k, d'.addrs k = 0) : Proper sb (v.setInode i d') := by
  refine ⟨h.owned.create hfree (fun j hj => (setInode_untouched hj).inode) ?_ ?_ rfl rfl, h.root,
    fun d k hl hd hk => ?_⟩
  · rwa [setInode_inode]
  · intro k
    rw [setInode_inode]
    exact haddrs k
  by_cases hdi : d = i
  · rw [hdi, setInode_inode] at hk
    omega
  have hu : Untouched v (v.setInode i d') d := setInode_untouched hdi
  have hl := hu.live.1 hl
  rw [hu.inode] at hd hk
  rw [hu.entry h.owned hl hk]
  exact h.inRange d k hl hd hk

theorem Sound.create (h : Sound sb R L s) (d' : Dinode) (l : List Nat)
    (hfree : (s.disk.inode i).type = .free) (hsize : d'.size = 0) (haddrs : ∀ k, d'.addrs k = 0) :
    Sound sb R L ⟨s.disk.setInode i d', s.icache, l⟩ := by
  refine ⟨⟨h.refs.ref, h.refs.locked, h.refs.uniq⟩, h.held, fun jp hjp hv => ?_, h.range,
    h.proper.create hfree hsize haddrs⟩
  obtain ⟨he, ht⟩ := h.copy jp hjp hv
  refine ⟨?_, ht⟩
  have hne : (s.icache jp).inum ≠ i := by
    intro hi
    rw [he, hi] at ht
    exact ht hfree
  exact he.trans (setInode_untouched hne).inode.symm

theorem ialloc_sound (h : Sound sb R L s) (type : FileType) : Wp (ialloc sb type) s
      (fun ip t => Sound sb (addRef R ip) L t ∧ Stays R s t ∧
        (t.disk.inode (t.icache ip).inum).type = type ∧
        t.logged = sb.iblock (t.icache ip).inum :: s.logged)
      (fun e t => e ≠ .freeingFreeBlock ∧ ∃ i, ∀ d, Within (sb.metaOf i d) 0 s t) := by
  apply wp_get_bind
  split
  · rename_i i hi
    have hfree := List.find?_some hi
    rw [decide_eq_true_eq] at hfree
    have hmem := List.mem_range'_1.1 (List.mem_of_find?_eq_some hi)
    apply wp_modify_bind
    apply wp_modify_bind
    have hs := h.create ⟨type, 0, 0, 0, 0, fun _ => 0⟩ (sb.iblock i :: s.logged) hfree rfl
      fun _ => rfl
    apply (iget_sound hs (by omega)).mono
    · rintro ip t ⟨ht, hst, hsame, rfl, -⟩
      refine ⟨ht, hst, ?_, hsame.2⟩
      rw [hsame.1]
      exact congrArg Dinode.type (setInode_inode ..)
    · rintro e t ⟨⟨rfl, -⟩, rfl⟩
      exact ⟨by decide, i, fun d => .of_cons rfl (.inr (.inl rfl))⟩
  · exact wp_throw ⟨by decide, 0, fun d => (Same.refl s).within _ 0⟩

theorem createDots_sound (h : Sound sb R L s) (hip : ip ∈ L) (hdp : dp ∈ L) :
    Wp (createDots sb dp ip) s
      (fun _ t => Sound sb R L t ∧ Stays R s t ∧
        Within (sb.metaOf (s.icache ip).inum (s.icache dp).inum) 4 s t)
      (fun e t => e ≠ .freeingFreeBlock ∧
        Within (sb.metaOf (s.icache ip).inum (s.icache dp).inum) 4 s t) := by
  have hir := (h.held ip hip).1
  have hdr := (h.held dp hdp).1
  have hms : sb.metaOf (s.icache ip).inum (s.icache dp).inum (sb.iblock (s.icache ip).inum) :=
    .inr (.inl rfl)
  have hbm (x : Nat) (hx : sb.bitmapBlock x) : sb.metaOf (s.icache ip).inum (s.icache dp).inum x :=
    .inl hx
  apply wp_step (addLinks_sound h hdp 1)
  rintro _ t ⟨ht, hs, -, hlog⟩
  have hin : Within (sb.metaOf (s.icache ip).inum (s.icache dp).inum) 0 s t :=
    .of_cons hlog (.inr (.inr rfl))
  apply wp_get_bind
  apply wp_bind (dirlink_sound _ ht hip (ht.range ip hir) ((hs ip hir).1 ▸ hms) hbm)
  · exact fun e u he => ⟨he.1, (hin.trans he.2).mono (by decide)⟩
  rintro n u ⟨-, hu, hs', hin', -⟩
  have hin₂ := hin.trans hin'
  apply wp_ite
  · exact fun _ => wp_throw ⟨by decide, hin₂.mono (by decide)⟩
  intro _
  have hstu := hs.trans hs'
  apply wp_bind (dirlink_sound _ hu hip (ht.range dp hdr) ((hstu ip hir).1 ▸ hms) hbm)
  · exact fun e w he => ⟨he.1, hin₂.trans he.2⟩
  rintro n w ⟨-, hw, hs₃, hin₃, -⟩
  apply wp_ite
  · exact fun _ => wp_throw ⟨by decide, hin₂.trans hin₃⟩
  · exact fun _ => wp_pure ⟨hw, hstu.trans hs₃, hin₂.trans hin₃⟩

structure CreatedNew (sb : Superblock) (R : Slot → Nat) (L : Finset Slot) (d : Nat)
    (type : FileType) (s : Fs) (ip : Slot) (t : Fs) : Prop where
  notin : ip ∉ L
  sound : Sound sb (addRef R ip) (insert ip L) t
  stays : Stays R s t
  within : Within (sb.metaOf (t.icache ip).inum d) 6 s t
  type : (t.icache ip).d.type = type

theorem createNew_sound (h : Sound sb (addRef R dp) (insert dp L) s) (hdp : dp ∉ L) :
    Wp (createNew sb dp name type major minor) s
      (fun r t => ∃ ip, r = some ip ∧ CreatedNew sb R L (s.icache dp).inum type s ip t)
      (fun e t => e ≠ .freeingFreeBlock ∧ ∃ i, Within (sb.metaOf i (s.icache dp).inum) 6 s t) := by
  have hdpos := addRef_pos R dp
  have hmem : dp ∈ insert dp L := mem_insert_self ..
  apply wp_bind (ialloc_sound h type)
  · rintro e t ⟨he, i, hin⟩
    exact ⟨he, i, (hin _).mono (by decide)⟩
  rintro ip t ⟨ht, hs, htype, hlog⟩
  generalize hi : (t.icache ip).inum = i at htype hlog
  have hir := addRef_pos (addRef R dp) ip
  have hin : Within (sb.metaOf i (s.icache dp).inum) 0 s t := .of_cons hlog (.inr (.inl rfl))
  apply wp_bind (ilock_safe ht hir)
  · exact fun e u he => ⟨he.1, i, (hin.before_same he.2).mono (by decide)⟩
  rintro _ u ⟨hip, hu, hs', hsame⟩
  have hipm : ip ∈ insert ip (insert dp L) := mem_insert_self ..
  have hdpm : dp ∈ insert ip (insert dp L) := mem_insert_of_mem hmem
  have hdr : 0 < addRef (addRef R dp) ip dp := hdpos.trans_le (le_addRef ..)
  have hui : (u.icache ip).inum = i := (hs' ip hir).1.trans hi
  rw [← hsame.1, ← hui, hu.inode_eq hipm] at htype
  apply wp_store_bind (g := fun d => { d with major := major, minor := minor, nlink := 1 })
  obtain ⟨hw, hs₂⟩ := hu.store
    { (u.icache ip).d with major := major, minor := minor, nlink := 1 } hipm rfl rfl rfl
  have hlog₂ : (u.store sb ip
    { (u.icache ip).d with major := major, minor := minor, nlink := 1 }).logged =
      sb.iblock i :: u.logged := by rw [← hui]; rfl
  generalize u.store sb ip
    { (u.icache ip).d with major := major, minor := minor, nlink := 1 } = w at hw hs₂ hlog₂
  have hwi : (w.icache ip).inum = i := (hs₂ ip hir).1.trans hui
  have hwd : (w.icache dp).inum = (s.icache dp).inum :=
    ((hs₂ dp hdr).1.trans (hs' dp hdr).1).trans (hs dp hdpos).1
  have hin₁ : Within (sb.metaOf i (s.icache dp).inum) 0 s w :=
    (hin.before_same hsame).trans (.of_cons hlog₂ (.inr (.inl rfl)))
  have hsw := (hs.trans hs'.of_add).trans hs₂.of_add
  apply wp_bind (P := fun _ x =>
    Sound sb (addRef (addRef R dp) ip) (insert ip (insert dp L)) x ∧
    Stays (addRef (addRef R dp) ip) w x ∧ Within (sb.metaOf i (s.icache dp).inum) 4 w x)
    (F := fun e x => e ≠ .freeingFreeBlock ∧ Within (sb.metaOf i (s.icache dp).inum) 4 w x)
  · split
    · have hdots := createDots_sound hw hipm hdpm
      rwa [hwi, hwd] at hdots
    · exact wp_pure ⟨hw, .refl _ w, (Same.refl w).within _ 4⟩
  · exact fun e x he => ⟨he.1, i, (hin₁.trans he.2).mono (by decide)⟩
  rintro _ x ⟨hx, hs₃, hin₂⟩
  have hxi : (x.icache ip).inum = i := (hs₃ ip hir).1.trans hwi
  have hxd : (x.icache dp).inum = (s.icache dp).inum := (hs₃ dp hdr).1.trans hwd
  apply wp_get_bind
  apply wp_bind (dirlink_sound (sb.metaOf i (s.icache dp).inum) hx hdpm (hx.range ip hir)
    (hxd ▸ .inr (.inr rfl)) fun b hb => .inl hb)
  · exact fun e y he => ⟨he.1, i, hin₁.trans (hin₂.trans he.2)⟩
  rintro n y ⟨-, hy, hs₄, hin₃, -⟩
  have hin₃ := hin₁.trans (hin₂.trans hin₃)
  apply wp_ite
  · exact fun _ => wp_throw ⟨by decide, i, hin₃⟩
  intro _
  have huy := hs₂.trans (hs₃.trans hs₄)
  rw [addRef_comm] at hy huy
  rw [insert_comm] at hy
  have hdp' : dp ∉ insert ip L := by
    rw [mem_insert, not_or]
    exact ⟨fun he => hip (he ▸ hmem), hdp⟩
  apply wp_step (iunlockput_sound hy hdp')
  rintro _ z ⟨hz, hs₅, hput⟩
  have hsy := ((hsw.trans hs₃.of_add).trans hs₄.of_add).of_add
  have huz := (huy.of_add.trans hs₅) ip (addRef_pos R ip)
  have hyd : (y.icache dp).inum = (s.icache dp).inum := (hs₄ dp hdr).1.trans hxd
  have hzi : (z.icache ip).inum = i := huz.1.trans hui
  refine wp_pure ⟨ip, rfl, fun hL => hip (mem_insert_of_mem hL), hz,
    hsy.trans hs₅.of_add, ?_, (huz.2 (hu.held ip hipm).2).2.trans htype⟩
  rw [hzi]
  exact hin₃.trans (hput.within (.inr hyd))

structure CreateDone (sb : Superblock) (R : Slot → Nat) (L : Finset Slot) (start : Nat)
    (type : FileType) (s : Fs) (r : Option Slot) (t : Fs) : Prop where
  failed : r = none → Sound sb R L t
  found : ∀ ip, r = some ip → ip ∉ L ∧ Sound sb (addRef R ip) (insert ip L) t ∧
    (t.icache ip).d.type = type
  stays : Stays R s t
  exact : ∀ K, Traced sb R K s → K start →
    (r = none ∧ Same s t) ∨ ∃ ip, r = some ip ∧ (Same s t ∧ K (t.icache ip).inum ∨
      ∃ d, Within (sb.metaOf (t.icache ip).inum d) 6 s t)

theorem createOld_sound {start : Nat} (henter : Entered sb R L start dp s t)
    (h : Sound sb (addRef (addRef R dp) ip) (insert dp L) u) (hs : Stays (addRef R dp) t u)
    (hsame : Same t u)
    (hstep : ∀ K, Traced sb R K s → K start → K (u.icache ip).inum) :
    Wp (createOld sb dp ip type) u (CreateDone sb R L start type s)
      (WalkFailed sb R start s) := by
  have hsu := henter.stays.trans hs.of_add
  have hir := addRef_pos R ip
  rw [addRef_comm] at h
  have hdpos : 0 < addRef (addRef R ip) dp dp := addRef_pos ..
  apply wp_step (iunlockput_sound h henter.notin)
  rintro _ w ⟨hw, hs', hput⟩
  have hsw := hsu.trans hs'.of_add
  have hsame' (K : Nat → Prop) (hK : Traced sb R K s) (hstart : K start) :
      Same s w ∧ K (w.icache ip).inum := by
    obtain ⟨hst, hd⟩ := henter.exact K hK hstart
    have hsame := hst.trans hsame
    rw [← (hs dp (addRef_pos R dp)).1] at hd
    have hlast := (hK.same hsame hsu).not_last h hdpos
      (fun jp => (le_addRef R ip jp).trans (le_addRef ..)) (le_addRef R ip dp) hd
    rw [(hs' ip hir).1]
    exact ⟨hsame.trans (hput.none hlast), hstep K hK hstart⟩
  have hwalk : Walked sb R L start s (some (ip, [])) w := by
    refine ⟨(fun he => by cases he), fun jp name he => ?_, hsw, fun K hK hstart => ?_⟩
    · cases he
      exact hw
    · obtain ⟨hsame, hi⟩ := hsame' K hK hstart
      refine ⟨hsame, fun jp name he => ?_⟩
      cases he
      exact hi
  apply wp_seq hwalk.ilock
  intro _ x henter'
  have hmem : ip ∈ insert ip L := mem_insert_self ..
  apply wp_get_bind
  apply wp_ite
  · rintro ⟨htype, hfile⟩
    refine wp_pure ⟨(fun he => by cases he), fun jp he => ?_, henter'.stays, fun K hK hstart => ?_⟩
    · cases he
      exact ⟨henter'.notin, henter'.sound, hfile.trans htype.symm⟩
    · exact .inr ⟨ip, rfl, .inl (henter'.exact K hK hstart)⟩
  · intro _
    apply wp_step henter'.leave
    rintro _ y ⟨hy, hs'', hsame''⟩
    refine wp_pure ⟨fun _ => hy, (fun jp he => by cases he), hs'', fun K hK hstart => ?_⟩
    exact .inl ⟨rfl, hsame'' K hK hstart⟩

theorem create_sound (h : Sound sb R L s) (hcwd : 0 < R cwd) (path : List Byte) :
    Wp (create sb cwd path type major minor) s (CreateDone sb R L (s.start cwd path) type s)
      (CallFailed sb R [s.start cwd path] 6 s) := by
  have hmem : s.start cwd path ∈ [s.start cwd path] := List.mem_cons_self
  apply wp_bind (namex_sound h hcwd true path) fun e t he => he.call hmem 6
  intro r t ht
  cases r with
  | none =>
    refine wp_pure ⟨fun _ => ht.failed rfl, (fun jp he => by cases he), ht.stays,
      fun K hK hstart => ?_⟩
    exact .inl ⟨rfl, (ht.exact K hK hstart).1⟩
  | some r =>
    obtain ⟨dp, name⟩ := r
    apply wp_bind ht.ilock fun e u he => he.call hmem 6
    intro _ u henter
    have hdpm : dp ∈ insert dp L := mem_insert_self ..
    have hu := henter.sound
    apply wp_bind (dirlookup_safe hu hdpm name)
    · rintro e w ⟨he, rfl⟩
      exact ⟨he, fun K hK hstarts =>
        ⟨0, 0, (henter.exact K hK (hstarts _ hmem)).1.within _ 6⟩⟩
    rintro r w ⟨hd, hr⟩
    cases r with
    | none =>
      obtain ⟨rfl, -⟩ := hr
      apply (createNew_sound hu henter.notin).mono
      · rintro r x ⟨ip, rfl, hx⟩
        refine ⟨(fun he => by cases he), fun jp he => ?_, henter.stays.trans hx.stays,
          fun K hK hstart => .inr ⟨ip, rfl, .inr ⟨(w.icache dp).inum, ?_⟩⟩⟩
        · cases he
          exact ⟨hx.notin, hx.sound, hx.type⟩
        · exact hx.within.after_same (henter.exact K hK hstart).1
      · rintro e x ⟨he, i, hin⟩
        exact ⟨he, fun K hK hstarts =>
          ⟨i, _, hin.after_same (henter.exact K hK (hstarts _ hmem)).1⟩⟩
    | some r =>
      obtain ⟨ip, off⟩ := r
      obtain ⟨hw, hs, hsame, -, k, -, hk, -, hinum⟩ := hr
      refine (createOld_sound henter hw hs hsame fun K hK hstart => ?_).mono (fun _ _ hx => hx)
        fun e x he => he.call hmem 6
      obtain ⟨hsu, hKd⟩ := henter.exact K hK hstart
      have hl := hu.live hdpm
      rw [← hu.inode_eq hdpm] at hd
      rw [hsu.1] at hl hk hd hinum
      rw [hinum]
      exact hK.step _ k hKd hl hd hk.1 hk.2.1

theorem mkInode_sound (h : Sound sb R L s) (hcwd : 0 < R cwd) (path : List Byte) :
    Wp (mkInode sb cwd path type major minor) s
      (CallDone sb R L [s.start cwd path] 6 s.fresh)
      (CallFailed sb R [s.start cwd path] 6 s.fresh) := by
  have h := h.fresh
  apply wp_beginOp
  show Wp _ s.fresh (CallDone sb R L [s.fresh.start cwd path] 6 s.fresh)
    (CallFailed sb R [s.fresh.start cwd path] 6 s.fresh)
  generalize s.fresh = s at h
  have hmem : s.start cwd path ∈ [s.start cwd path] := List.mem_cons_self
  apply wp_seq (create_sound h hcwd path)
  intro r t ht
  cases r with
  | none =>
    refine wp_pure (.of_same (ht.failed rfl) ht.stays (fun K hK hstart => ?_) hmem 6 _)
    rcases ht.exact K hK hstart with ⟨-, hsame⟩ | ⟨ip, he, -⟩
    · exact hsame
    · cases he
  | some ip =>
    obtain ⟨hip, ht', -⟩ := ht.found ip rfl
    apply wp_step (iunlockput_sound ht' hip)
    rintro _ u ⟨hu, hs, hput⟩
    refine wp_pure ⟨hu, ht.stays.trans hs, fun K hK hstarts => ⟨?_, fun hr => by cases hr⟩⟩
    rcases ht.exact K hK (hstarts _ hmem) with ⟨he, -⟩ | ⟨jp, he, hres⟩
    · cases he
    cases he
    rcases hres with ⟨hsame, hi⟩ | ⟨d, hin⟩
    · exact ⟨_, 0, (hsame.within _ 6).trans (hput.within (.inl rfl))⟩
    · exact ⟨_, d, hin.trans (hput.within (.inl rfl))⟩

structure OpenDone (sb : Superblock) (R : Slot → Nat) (L : Finset Slot) (start : Nat)
    (omode : Word) (s : Fs) (r : Option Slot) (t : Fs) : Prop where
  failed : r = none → Sound sb R L t
  found : ∀ ip, r = some ip → ip ∉ L ∧ Sound sb (addRef R ip) (insert ip L) t ∧
    (omode ≠ 0 → (t.disk.inode (t.icache ip).inum).type ≠ .dir)
  stays : Stays R s t
  exact : ∀ K, Traced sb R K s → K start →
    (r = none ∧ Same s t) ∨ ∃ ip, r = some ip ∧
      (Same s t ∧ K (t.icache ip).inum ∨
        omode &&& oCreate ≠ 0 ∧ ∃ d, Within (sb.metaOf (t.icache ip).inum d) 6 s t)

theorem openOld_sound (h : Sound sb R L s) (hcwd : 0 < R cwd) (path : List Byte) (omode : Word) :
    Wp (openOld sb cwd path omode) s (OpenDone sb R L (s.start cwd path) omode s)
      (CallFailed sb R [s.start cwd path] 6 s) := by
  have hmem : s.start cwd path ∈ [s.start cwd path] := List.mem_cons_self
  apply wp_bind (namei_sound h hcwd path) fun e t he => he.call hmem 6
  rintro _ t ⟨r, rfl, ht⟩
  cases r with
  | none =>
    refine wp_pure ⟨fun _ => ht.failed rfl, (fun jp he => by cases he), ht.stays,
      fun K hK hstart => ?_⟩
    exact .inl ⟨rfl, (ht.exact K hK hstart).1⟩
  | some r =>
    obtain ⟨ip, name⟩ := r
    apply wp_bind ht.ilock fun e u he => he.call hmem 6
    intro _ u henter
    have hipm : ip ∈ insert ip L := mem_insert_self ..
    apply wp_get_bind
    apply wp_ite
    · intro _
      apply wp_step henter.leave
      rintro _ w ⟨hw, hs, hsame⟩
      refine wp_pure ⟨fun _ => hw, (fun jp he => by cases he), hs, fun K hK hstart => ?_⟩
      exact .inl ⟨rfl, hsame K hK hstart⟩
    intro hnot
    refine wp_pure ⟨(fun he => by cases he), fun jp he => ?_, henter.stays, fun K hK hstart => ?_⟩
    · cases he
      refine ⟨henter.notin, henter.sound, fun hmode hdir => hnot ⟨?_, hmode⟩⟩
      rwa [← henter.sound.inode_eq hipm]
    · exact .inr ⟨ip, rfl, .inl (henter.exact K hK hstart)⟩

theorem openInode_sound (h : Sound sb R L s) (hcwd : 0 < R cwd) (path : List Byte) (omode : Word) :
    Wp (openInode sb cwd path omode) s (OpenDone sb R L (s.start cwd path) omode s.fresh)
      (CallFailed sb R [s.start cwd path] 6 s.fresh) := by
  have h := h.fresh
  apply wp_beginOp
  show Wp _ s.fresh (OpenDone sb R L (s.fresh.start cwd path) omode s.fresh)
    (CallFailed sb R [s.fresh.start cwd path] 6 s.fresh)
  generalize s.fresh = s at h
  apply wp_ite
  · intro hcreate
    apply (create_sound h hcwd path).post
    intro r t ht
    refine ⟨ht.failed, fun ip he => ?_, ht.stays, fun K hK hstart => ?_⟩
    · obtain ⟨hip, ht', htype⟩ := ht.found ip he
      refine ⟨hip, ht', fun _ => ?_⟩
      rw [ht'.inode_eq (mem_insert_self ..), htype]
      decide
    · refine (ht.exact K hK hstart).imp_right ?_
      rintro ⟨ip, he, hres⟩
      exact ⟨ip, he, hres.imp_right fun hres => ⟨hcreate, hres⟩⟩
  · exact fun _ => openOld_sound h hcwd path omode

end Xv6Signals
