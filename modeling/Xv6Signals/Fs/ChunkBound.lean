import Xv6Signals.Fs.Contents
import Xv6Signals.Log.Machine

namespace Xv6Signals
open Lib Function List

variable {sb : Superblock} {s t u : Fs} {ip : Slot} {k j n m bn b off : Nat} {src : List Byte}

def Fs.indirect (s : Fs) (ip : Slot) : Nat := (s.icache ip).d.addrs 12

def Fs.owed (s : Fs) (ip : Slot) : Nat := if s.indirect ip = 0 then 1 else 0

/-- A part of a write that logs at most `n` blocks, besides the indirect block and the block of the
bitmap that it has been owing for it. -/
structure Charged (ip : Slot) (n : Nat) (s t : Fs) : Prop where
  logs : ∃ l : List Nat, l.length + t.owed ip ≤ n + s.owed ip ∧
    ∀ x ∈ t.logged, x ∈ s.logged ∨ x = t.indirect ip ∧ x ≠ 0 ∨ x ∈ l
  kept : s.indirect ip ≠ 0 → t.indirect ip = s.indirect ip
  boot : t.disk.used 0 = true

theorem Charged.refl (h : s.disk.used 0 = true) (ip : Slot) : Charged ip 0 s s :=
  ⟨⟨[], Nat.le_refl _, fun _ hx => .inl hx⟩, fun _ => rfl, h⟩

theorem Charged.mono (h : Charged ip n s t) (hle : n ≤ m) : Charged ip m s t := by
  obtain ⟨⟨l, hl, hx⟩, hk, hb⟩ := h
  exact ⟨⟨l, by omega, hx⟩, hk, hb⟩

theorem Charged.trans (h : Charged ip n s t) (h' : Charged ip m t u) : Charged ip (n + m) s u := by
  obtain ⟨⟨l, hl, hx⟩, hk, -⟩ := h
  obtain ⟨⟨l', hl', hx'⟩, hk', hb⟩ := h'
  refine ⟨⟨l ++ l', by rw [length_append]; omega, fun x hm => ?_⟩, fun hs => ?_, hb⟩
  · rw [mem_append]
    rcases hx' x hm with hm | hm | hm
    · rcases hx x hm with hm | ⟨rfl, hne⟩ | hm
      · exact .inl hm
      · exact .inr (.inl ⟨(hk' hne).symm, hne⟩)
      · exact .inr (.inr (.inl hm))
    · exact .inr (.inl hm)
    · exact .inr (.inr (.inr hm))
  · rw [hk' (by rwa [hk hs]), hk hs]

def Fs.log (s : Fs) (b : Nat) : Fs := { s with logged := b :: s.logged }

theorem balloc_charged (sb : Superblock) (hboot : s.disk.used 0 = true) : Wp (balloc sb) s
      (fun b t => b ≠ 0 ∧ t.icache = s.icache ∧ t.disk.used 0 = true ∧
        t.logged = b :: sb.bblock b :: s.logged)
      fun _ t => t = s := by
  apply (balloc_wp sb s).mono
  · rintro b t ⟨hfree, -, rfl⟩
    have hb : b ≠ 0 := by
      rintro rfl
      rw [hboot] at hfree
      cases hfree
    refine ⟨hb, rfl, ?_, rfl⟩
    exact (update_of_ne hb.symm ..).trans hboot
  · exact fun _ _ he => he.2.1

theorem addrAt_charged (hboot : s.disk.used 0 = true) (hk : k ≠ 12) :
    Wp (addrAt sb ip k) s (fun b t => Charged ip 2 s (t.log b)) fun _ t => t = s := by
  apply wp_get_bind
  apply wp_ite
  · intro _
    apply wp_seq (balloc_charged sb hboot)
    rintro b t ⟨-, hic, hb, hlog⟩
    apply wp_modify_bind
    have hind : ((t.setCopy ip ((t.icache ip).d.setAddr k b)).log b).indirect ip = s.indirect ip := by
      show ((t.setInode ip _).icache ip).d.addrs 12 = (s.icache ip).d.addrs 12
      rw [Fs.setInode_self, ← hic]
      exact update_of_ne hk.symm ..
    refine wp_pure ⟨⟨[b, sb.bblock b], ?_, fun x hx => ?_⟩, fun _ => hind, hb⟩
    · rw [Fs.owed, Fs.owed, hind, length_cons, length_singleton]
    · have hx : x ∈ b :: t.logged := hx
      rw [hlog] at hx
      simp only [mem_cons] at hx ⊢
      tauto
  · intro _
    refine wp_pure ⟨⟨[(s.icache ip).d.addrs k], ?_, fun x hx => ?_⟩, fun _ => rfl, hboot⟩
    · show 1 + s.owed ip ≤ 2 + s.owed ip
      omega
    · rcases mem_cons.1 hx with rfl | hx
      · exact .inr (.inr (mem_singleton_self _))
      · exact .inl hx

theorem indirect_charged (hboot : s.disk.used 0 = true) :
    Wp (addrAt sb ip 12) s (fun b t => b = t.indirect ip ∧ b ≠ 0 ∧ Charged ip 0 s t)
      fun _ t => t = s := by
  apply wp_get_bind
  apply wp_ite
  · intro hz
    have howed : s.owed ip = 1 := if_pos hz
    apply wp_seq (balloc_charged sb hboot)
    rintro b t ⟨hne, hic, hb, hlog⟩
    apply wp_modify_bind
    have hind : (t.setCopy ip ((t.icache ip).d.setAddr 12 b)).indirect ip = b := by
      show ((t.setInode ip _).icache ip).d.addrs 12 = b
      rw [Fs.setInode_self]
      show update (t.icache ip).d.addrs 12 b 12 = b
      rw [update_self]
    refine wp_pure ⟨hind.symm, hne, ⟨[sb.bblock b], ?_, fun x hx => ?_⟩, fun h => (h hz).elim, hb⟩
    · rw [howed, Fs.owed, hind, if_neg hne, length_singleton]
    have hx : x ∈ t.logged := hx
    rw [hlog] at hx
    rw [hind]
    simp only [mem_cons] at hx ⊢
    rcases hx with rfl | hx | hx
    · exact .inr (.inl ⟨rfl, hne⟩)
    · exact .inr (.inr (.inl hx))
    · exact .inl hx
  · exact fun hne => wp_pure ⟨rfl, hne, .refl hboot ip⟩

theorem entryAt_charged (hboot : s.disk.used 0 = true) (hne : s.indirect ip ≠ 0) :
    Wp (entryAt sb (s.indirect ip) j) s (fun b t => Charged ip 2 s (t.log b)) fun _ t => t = s := by
  apply wp_get_bind
  apply wp_ite
  · intro _
    apply wp_seq (balloc_charged sb hboot)
    rintro b t ⟨-, hic, hb, hlog⟩
    apply wp_modify_bind
    apply wp_modify_bind
    have hind : t.indirect ip = s.indirect ip := by rw [Fs.indirect, hic, Fs.indirect]
    refine wp_pure ⟨⟨[b, sb.bblock b], ?_, fun x hx => ?_⟩, fun _ => hind, hb⟩
    · show 2 + t.owed ip ≤ 2 + s.owed ip
      rw [Fs.owed, Fs.owed, hind]
    have hx : x ∈ b :: s.indirect ip :: t.logged := hx
    show _ ∨ x = t.indirect ip ∧ _ ∨ _
    rw [hlog] at hx
    rw [hind]
    simp only [mem_cons] at hx ⊢
    rcases hx with hx | rfl | hx
    · exact .inr (.inr (.inl hx))
    · exact .inr (.inl ⟨rfl, hne⟩)
    · tauto
  · intro _
    refine wp_pure ⟨⟨[(s.disk.data (s.indirect ip)).word j], ?_, fun x hx => ?_⟩, fun _ => rfl, hboot⟩
    · show 1 + s.owed ip ≤ 2 + s.owed ip
      omega
    · rcases mem_cons.1 hx with rfl | hx
      · exact .inr (.inr (mem_singleton_self _))
      · exact .inl hx

theorem bmap_charged (hboot : s.disk.used 0 = true) (bn : Nat) :
    Wp (bmap sb ip bn) s (fun b t => Charged ip 2 s (t.log b)) fun _ t => Charged ip 2 s t := by
  have hrefl := (Charged.refl hboot ip).mono (Nat.zero_le 2)
  apply wp_ite
  · intro hlt
    apply (addrAt_charged hboot (by omega)).mono
    · exact fun _ _ h => h
    · rintro _ _ rfl
      exact hrefl
  intro _
  apply wp_ite
  · intro _
    apply wp_bind (indirect_charged hboot)
    · rintro _ _ rfl
      exact hrefl
    rintro _ t ⟨rfl, hne, ht⟩
    apply (entryAt_charged ht.boot hne).mono
    · exact fun _ _ h => (ht.trans h).mono (Nat.le_refl 2)
    · rintro _ _ rfl
      exact ht.mono (Nat.zero_le 2)
  · exact fun _ => wp_throw hrefl

theorem writeLoop_charged (fuel : Nat) (hboot : s.disk.used 0 = true)
    (hoff : src = [] ∨ off % 512 = 0) :
    Wp (writeLoop sb ip fuel off src) s
      (fun _ t => Charged ip (2 * ((src.length + 511) / 512)) s t)
      fun _ t => Charged ip (2 * ((src.length + 511) / 512)) s t := by
  have hrefl (n : Nat) := (Charged.refl hboot ip).mono (Nat.zero_le n)
  induction fuel generalizing s off src with
  | zero => exact hrefl _
  | succ fuel ih =>
    apply wp_ite
    · exact fun _ => hrefl _
    intro hsrc
    have hpos := length_pos_of_ne_nil hsrc
    have hoff := hoff.resolve_left hsrc
    apply wp_bind (bmap_charged hboot (off / 512))
    · exact fun _ _ h => h.mono (by omega)
    intro b t ht
    apply wp_modify_bind
    apply wp_modify_bind
    rw [hoff, Nat.sub_zero]
    -- the data of the block make no difference
    have ht : Charged ip 2 s { t with
        disk := t.disk.setData b ((t.disk.data b).write 0 (src.take (min src.length 512))),
        logged := b :: t.logged } := ⟨ht.logs, ht.kept, ht.boot⟩
    have hlen : 2 + 2 * (((src.drop (min src.length 512)).length + 511) / 512) ≤
        2 * ((src.length + 511) / 512) := by
      rw [length_drop]
      omega
    have hrest : src.drop (min src.length 512) = [] ∨ (off + min src.length 512) % 512 = 0 := by
      rw [drop_eq_nil_iff]
      omega
    apply (ih ht.boot hrest fun n => (Charged.refl ht.boot ip).mono (Nat.zero_le n)).mono
    · exact fun _ _ h => (ht.trans h).mono hlen
    · exact fun _ _ h => (ht.trans h).mono hlen

theorem writeLoop_chunk (hboot : s.disk.used 0 = true) (hn : src.length ≤ 1536)
    (hoff : off + src.length ≤ 140 * 512)
    (hfirst : off % 512 ≠ 0 → (s.vol ip).addr (s.icache ip).inum (off / 512) ≠ 0) :
    Wp (writeLoop sb ip src.length off src) s (fun _ t => Charged ip 7 s t)
      fun _ t => Charged ip 7 s t := by
  by_cases halign : off % 512 = 0
  · apply (writeLoop_charged src.length hboot (.inr halign)).mono
    · exact fun _ _ h => h.mono (by omega)
    · exact fun _ _ h => h.mono (by omega)
  cases hlen : src.length with
  | zero => exact (Charged.refl hboot ip).mono (Nat.zero_le 7)
  | succ fuel =>
    apply wp_ite
    · exact fun _ => (Charged.refl hboot ip).mono (Nat.zero_le 7)
    intro _
    apply wp_step (bmap_there (by omega) (hfirst halign))
    rintro b t ⟨-, rfl⟩
    apply wp_modify_bind
    apply wp_modify_bind
    have ht : Charged ip 1 t { t with
        disk := t.disk.setData b ((t.disk.data b).write (off % 512)
          (src.take (min src.length (512 - off % 512)))),
        logged := b :: t.logged } := by
      refine ⟨⟨[b], Nat.add_comm .. ▸ Nat.le_refl _, fun x hx => ?_⟩, fun _ => rfl, hboot⟩
      rcases mem_cons.1 hx with rfl | hx
      · exact .inr (.inr (mem_singleton_self _))
      · exact .inl hx
    have hbound : 1 + 2 * (((src.drop (min src.length (512 - off % 512))).length + 511) / 512) ≤
        7 := by
      rw [length_drop]
      omega
    have hrest : src.drop (min src.length (512 - off % 512)) = [] ∨
        (off + min src.length (512 - off % 512)) % 512 = 0 := by
      rw [drop_eq_nil_iff]
      omega
    apply (writeLoop_charged fuel ht.boot hrest).mono
    · exact fun _ _ h => (ht.trans h).mono hbound
    · exact fun _ _ h => (ht.trans h).mono hbound

theorem growTo_logs (sb : Superblock) (ip : Slot) (n off : Nat) (t : Fs) : Wp (growTo sb ip n off) t
      (fun _ u => ∀ x ∈ u.logged, x ∈ t.logged ∨ x = sb.iblock (t.icache ip).inum)
      fun _ _ => False := by
  apply wp_get_bind
  apply wp_ite
  · intro _
    apply wp_store (g := fun d => { d with size := off })
    exact fun x hx => (mem_cons.1 hx).symm
  · exact fun _ => wp_pure fun x hx => .inl hx

theorem Charged.card (h : Charged ip n s t) {i : Nat} (hu : ∀ x ∈ u.logged, x ∈ t.logged ∨ x = i) :
    (u.logged.toFinset \ s.logged.toFinset).card ≤ n + 3 := by
  obtain ⟨l, hl, hx⟩ := h.logs
  have howed : s.owed ip ≤ 1 := by
    unfold Fs.owed
    split <;> omega
  have hsub : u.logged.toFinset \ s.logged.toFinset ⊆ (i :: t.indirect ip :: l).toFinset := by
    intro x hm
    rw [Finset.mem_sdiff, mem_toFinset, mem_toFinset] at hm
    rw [mem_toFinset, mem_cons, mem_cons]
    rcases hu x hm.1 with hm' | hm'
    · rcases hx x hm' with hm' | hm' | hm'
      · exact (hm.2 hm').elim
      · exact .inr (.inl hm'.1)
      · exact .inr (.inr hm')
    · exact .inl hm'
  refine (Finset.card_le_card hsub).trans ((toFinset_card_le _).trans ?_)
  rw [length_cons, length_cons]
  omega

/-- One piece of `filewrite` logs no more blocks than were reserved for it, on a file system of any
size: an inode whose blocks below its size are all there is written at any offset. Block 0 is the
boot block, which is never free. -/
theorem chunk_fits_reservation (hboot : s.disk.used 0 = true)
    (hfull : ∀ bn, bn * 512 < (s.icache ip).d.size → (s.vol ip).addr (s.icache ip).inum bn ≠ 0)
    (hn : src.length ≤ (maxOpBlocks - 1 - 1 - 2) / 2 * 512) (off : Nat) :
    Wp (writei sb ip off src) s
      (fun _ t => (t.logged.toFinset \ s.logged.toFinset).card ≤ maxOpBlocks)
      fun _ t => (t.logged.toFinset \ s.logged.toFinset).card ≤ maxOpBlocks := by
  have hn : src.length ≤ 1536 := hn
  have hnone : (s.logged.toFinset \ s.logged.toFinset).card ≤ maxOpBlocks := by
    rw [Finset.sdiff_self, Finset.card_empty]
    exact Nat.zero_le _
  apply wp_get_bind
  apply wp_ite
  · exact fun _ => wp_pure hnone
  intro _
  apply wp_ite
  · exact fun _ => wp_pure hnone
  intro hok
  apply wp_ite
  · exact fun _ => wp_pure hnone
  intro hbig
  have hfirst (ho : off % 512 ≠ 0) : (s.vol ip).addr (s.icache ip).inum (off / 512) ≠ 0 :=
    hfull _ (by omega)
  apply wp_bind (writeLoop_chunk hboot hn (by omega) hfirst)
  · exact fun _ t ht => ht.card (i := 0) fun x hx => .inl hx
  · intro _ t ht
    apply wp_step (growTo_logs sb ip src.length (off + src.length) t)
    exact fun _ u hu => wp_pure (ht.card hu)

def oneBlockFile : Fs :=
  let d : Dinode := ⟨.file, 0, 0, 1, 100, fun k => if k = 0 then 59 else 0⟩
  ⟨⟨fun _ => d, fun b => decide (b < 60), fun _ _ => 0⟩, fun _ => ⟨2, 1, true, true, d⟩, []⟩

theorem chunk_fits_reservation_append : ∃ src : List Byte, src.length = 1536 ∧
    Wp (writei mkfsSb slot0 100 src) oneBlockFile
      (fun _ t => (t.logged.toFinset \ oneBlockFile.logged.toFinset).card ≤ maxOpBlocks)
      fun _ t => (t.logged.toFinset \ oneBlockFile.logged.toFinset).card ≤ maxOpBlocks := by
  obtain ⟨src, hlen⟩ : ∃ src : List Byte, src.length = 1536 :=
    ⟨List.replicate 1536 65, length_replicate⟩
  have hsize : (oneBlockFile.icache slot0).d.size = 100 := rfl
  refine ⟨src, hlen, chunk_fits_reservation rfl (fun bn hbn => ?_) hlen.le 100⟩
  obtain rfl : bn = 0 := by omega
  decide

end Xv6Signals
