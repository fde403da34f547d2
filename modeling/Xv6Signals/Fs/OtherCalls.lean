import Xv6Signals.Fs.Effects

namespace Xv6Signals
open Lib

variable {sb : Superblock} {s t u : Fs} {ip jp cwd : Slot} {i n : Nat}
  {R : Slot → Nat} {L : Finset Slot} {K : Nat → Prop} {src : List Byte}

structure ChdirDone (sb : Superblock) (R : Slot → Nat) (L : Finset Slot) (start : Nat) (cwd : Slot)
    (s : Fs) (r : Option Slot) (t : Fs) : Prop where
  failed : r = none → Sound sb (addRef R cwd) L t
  found : ∀ ip, r = some ip → Sound sb (addRef R ip) L t
  stays : Stays R s t
  exact : ∀ K, Traced sb (addRef R cwd) K s → K start → Logs sb 0 s t

theorem sysChdir_sound (h : Sound sb (addRef R cwd) L s) (path : List Byte) :
    Wp (sysChdir sb cwd path) s (ChdirDone sb R L (s.start cwd path) cwd s.fresh)
      (CallFailed sb (addRef R cwd) [s.start cwd path] 0 s.fresh) := by
  have h := h.fresh
  apply wp_beginOp
  show Wp _ s.fresh (ChdirDone sb R L (s.fresh.start cwd path) cwd s.fresh)
    (CallFailed sb (addRef R cwd) [s.fresh.start cwd path] 0 s.fresh)
  generalize s.fresh = s at h
  have hcpos := addRef_pos R cwd
  have hmem : s.start cwd path ∈ [s.start cwd path] := List.mem_cons_self
  apply wp_bind (namei_sound h hcpos path) fun e t he => he.call hmem 0
  rintro _ t ⟨r, rfl, ht⟩
  cases r with
  | none =>
    refine wp_pure ⟨fun _ => ht.failed rfl, (fun jp he => by cases he), ht.stays.of_add,
      fun K hK hstart => ?_⟩
    exact ⟨0, 0, (ht.exact K hK hstart).1.within _ 0⟩
  | some r =>
    obtain ⟨ip, name⟩ := r
    apply wp_bind ht.ilock fun e u he => he.call hmem 0
    intro _ u henter
    apply wp_get_bind
    apply wp_ite
    · intro _
      apply wp_step henter.leave
      rintro _ w ⟨hw, hs, hsame⟩
      refine wp_pure ⟨fun _ => hw, (fun jp he => by cases he), hs.of_add, fun K hK hstart => ?_⟩
      exact ⟨0, 0, (hsame K hK hstart).within _ 0⟩
    intro _
    apply wp_step (iunlock_sound henter.sound henter.notin)
    rintro _ w ⟨hw, hs, hsame⟩
    rw [addRef_comm] at hw
    have hsw : Stays (addRef R cwd) s w := henter.stays.trans hs.of_add
    apply wp_bind (iput_sound hw)
    · rintro e x ⟨rfl, -, rfl⟩
      refine ⟨by decide, fun K hK hstarts => ⟨0, 0, ?_⟩⟩
      exact ((henter.exact K hK (hstarts _ hmem)).1.trans hsame).within _ 0
    rintro _ x ⟨hx, hs', hput⟩
    refine wp_pure ⟨(fun he => by cases he), fun jp he => ?_, hsw.of_add.trans hs'.of_add,
      fun K hK hstart => ?_⟩
    · cases he
      exact hx
    have hsw' := (henter.exact K hK hstart).1.trans hsame
    exact ⟨_, 0, (hput.within (.inl rfl)).after_same hsw'⟩

theorem putInode_sound (h : Sound sb (addRef R ip) L s) : Wp (putInode sb ip) s
      (fun _ t => Sound sb R L t ∧ Stays R s t ∧ Put sb R ip s.fresh t)
      (fun e t => e = .deadlock ∧ ip ∈ L ∧ t = s.fresh) := by
  apply wp_beginOp
  exact (iput_sound h.fresh).post (fun _ _ ht => ht)

def ChunkDone (sb : Superblock) (ip : Slot) (off : Nat) (src : List Byte) (s : Fs) (r : Int)
    (t : Fs) : Prop :=
  Same s.fresh t ∧ ((s.disk.inode (s.icache ip).inum).type ≠ .dev → r = -1) ∨
    r = src.length ∧ Written sb s.disk t.disk (s.icache ip).inum off src ∧
      (0 < src.length → Within (sb.metaOf (s.icache ip).inum 0) (placesOf off src.length).length
        s.fresh t)

theorem writeChunk_sound (h : Sound sb R L s) (hip : 0 < R ip)
    (hdir : (s.disk.inode (s.icache ip).inum).type ≠ .dir) (off : Nat) (src : List Byte)
    (hlen : src.length < 2 ^ 32) :
    Wp (writeChunk sb ip off src) s
      (fun r t => Sound sb R L t ∧ Stays R s t ∧ ChunkDone sb ip off src s r t)
      (fun e t => e ≠ .freeingFreeBlock ∧
        (0 < src.length → Within (sb.metaOf (s.icache ip).inum 0) (placesOf off src.length).length
          s.fresh t)) := by
  have h := h.fresh
  apply wp_beginOp
  apply wp_bind (ilock_safe h hip)
  · exact fun e t he => ⟨he.1, fun _ => he.2.within _ _⟩
  rintro _ t ⟨hm, ht, hs, hsame⟩
  have hipm : ip ∈ insert ip L := Finset.mem_insert_self ..
  have hinum : (t.icache ip).inum = (s.icache ip).inum := (hs ip hip).1
  have hvol := ht.vol_eq hipm
  have hl := ht.live hipm
  have ho := ht.proper.owned
  have htype : (t.icache ip).d.type = (s.disk.inode (s.icache ip).inum).type := by
    rw [← ht.inode_eq hipm, hsame.1, hinum]
    rfl
  have hstays : Stays R s t := hs
  -- nothing is written
  have hskip (r : Int) (hr : (t.icache ip).d.type ≠ .dev → r = -1) : Wp (do iunlock ip; pure r) t
        (fun r t => Sound sb R L t ∧ Stays R s t ∧ ChunkDone sb ip off src s r t) (fun e t => e ≠
          .freeingFreeBlock ∧ (0 < src.length → Within (sb.metaOf (s.icache ip).inum 0)
            (placesOf off src.length).length s.fresh t)) := by
    apply wp_step (iunlock_sound ht hm)
    rintro _ u ⟨hu, hs', hsame'⟩
    refine wp_pure ⟨hu, hstays.trans hs', .inl ⟨hsame.trans hsame', ?_⟩⟩
    rwa [← htype]
  by_cases hdev : (t.icache ip).d.type = .dev
  · apply wp_bind (P := fun _ u => u = t) (F := fun _ _ => False)
    · apply wp_get_bind
      rw [if_pos hdev]
      exact wp_pure rfl
    · exact fun _ _ he => he.elim
    · rintro r u rfl
      exact hskip r fun hne => (hne hdev).elim
  apply wp_bind (writei_wp off (by rwa [hvol]) (by rwa [hvol]) hdev hlen)
  · rintro e u ⟨rfl, -, ⟨bs, hw⟩, -⟩
    refine ⟨by decide, fun hpos => ?_⟩
    refine (hw.within hpos (by rwa [hvol]) le_rfl ?_ fun b hb => .inl hb).after_same hsame
    rw [hinum]
    exact .inr (.inl rfl)
  rintro r u ⟨hbad, hok⟩
  by_cases href : Refused (t.icache ip).d.size off src.length
  · obtain ⟨rfl, rfl⟩ := hbad href
    exact hskip _ fun _ => rfl
  obtain ⟨rfl, hst⟩ := hok href
  obtain ⟨hw, hkeep⟩ := ht.stored hipm hst
  obtain ⟨hu, hs'⟩ := hkeep (ht.proper.file hw (by rwa [ht.inode_eq hipm, htype]))
  apply wp_step (iunlock_sound hu hm)
  rintro _ w ⟨hw', hs'', hsame'⟩
  refine wp_pure ⟨hw', hstays.trans (hs'.trans hs''), .inr ⟨rfl, ?_, fun hpos => ?_⟩⟩
  · rw [hsame.1, hinum] at hw
    rw [hsame'.1]
    exact hw
  · refine ((hst.logs.within hst.written.owned ((hst.written.live _).2 (by rwa [hvol])) hpos
      le_rfl ?_ fun b hb => .inl hb).after_same hsame).before_same hsame'
    rw [hinum]
    exact .inr (.inl rfl)

theorem execInode_sound (h : Sound sb R L s) (hcwd : 0 < R cwd) (path : List Byte)
    (reads : List (Nat × Nat)) :
    Wp (execInode sb cwd path reads) s
      (fun _ t => Sound sb R L t ∧ Stays R s t ∧
        ∀ K, Traced sb R K s.fresh → K (s.start cwd path) → Same s.fresh t)
      (CallFailed sb R [s.start cwd path] 0 s.fresh) := by
  have h := h.fresh
  apply wp_beginOp
  show Wp _ s.fresh (fun _ t => Sound sb R L t ∧ Stays R s.fresh t ∧
        ∀ K, Traced sb R K s.fresh → K (s.fresh.start cwd path) → Same s.fresh t)
    (CallFailed sb R [s.fresh.start cwd path] 0 s.fresh)
  generalize s.fresh = s at h
  have hmem : s.start cwd path ∈ [s.start cwd path] := List.mem_cons_self
  apply wp_bind (namei_sound h hcwd path) fun e t he => he.call hmem 0
  rintro _ t ⟨r, rfl, ht⟩
  cases r with
  | none => exact wp_pure ⟨ht.failed rfl, ht.stays, fun K hK hstart => (ht.exact K hK hstart).1⟩
  | some r =>
    obtain ⟨ip, name⟩ := r
    apply wp_bind ht.ilock fun e u he => he.call hmem 0
    intro _ u henter
    have hipm : ip ∈ insert ip L := Finset.mem_insert_self ..
    have hvol := henter.sound.vol_eq hipm
    have ho := henter.sound.proper.owned
    have hl := henter.sound.live hipm
    apply wp_bind (P := fun _ w => w = u) (F := fun _ _ => False)
    · apply wp_forM (fun _ w => w = u) rfl
      rintro r _ w rfl
      apply wp_seq (readi_wp (by rwa [hvol]) (by rwa [hvol]) r.1 r.2)
      rintro _ x ⟨-, rfl⟩
      exact wp_pure rfl
    · exact fun _ _ he => he.elim
    · rintro _ w rfl
      apply wp_step henter.leave
      rintro _ x ⟨hx, hs, hsame⟩
      exact wp_pure ⟨hx, hs, hsame⟩

end Xv6Signals
