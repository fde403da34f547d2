import Xv6Signals.Fs.Edit

namespace Xv6Signals
open Lib Function List

variable {sb : Superblock} {s t u : Fs} {ip : Slot} {v v' : Vol} {i j p b k bn off n m : Nat}
  {bs cs src : List Byte} {E : FsPanic → Fs → Prop} {g : Dinode → Dinode}

/-- The volume as the holder of an inode sees it, with the copy that it may have changed. -/
def Fs.vol (s : Fs) (ip : Slot) : Vol := s.disk.setInode (s.icache ip).inum (s.icache ip).d

theorem vol_inode_self (s : Fs) (ip : Slot) :
    (s.vol ip).inode (s.icache ip).inum = (s.icache ip).d :=
  update_self ..

theorem vol_inode_of_ne (hj : j ≠ (s.icache ip).inum) : (s.vol ip).inode j = s.disk.inode j :=
  update_of_ne hj ..

/-- The blocks that a write of `n` bytes at `off` logs: those that it goes to, and those of the
bitmap that mark the ones that it allocates. -/
def Touched (sb : Superblock) (v v' : Vol) (i off n x : Nat) : Prop :=
  ∃ p, p < 141 ∧ touches off n p ∧ v'.held i p ≠ 0 ∧
    (x = v'.held i p ∨ v.held i p = 0 ∧ x = sb.bblock (v'.held i p))

/-- Bytes are written to the contents of an inode: only its copy in memory changes, and on the disk
the bitmap and blocks of the contents. -/
structure WroteTo (sb : Superblock) (ip : Slot) (s t : Fs) (off n : Nat) (bs : List Byte) : Prop where
  inode : t.disk.inode = s.disk.inode
  icache : t.icache = update s.icache ip { s.icache ip with d := (t.icache ip).d }
  edit : Edit sb (s.vol ip) (t.vol ip) (s.icache ip).inum off bs
  logs : ∀ x ∈ t.logged, x ∈ s.logged ∨
    Touched sb (s.vol ip) (t.vol ip) (s.icache ip).inum off n x
  room : ∀ off' n', (∀ p, touches off n p → touches off' n' p) →
    (s.vol ip).missing (s.icache ip).inum off' n' ≤ (s.vol ip).free sb →
    (t.vol ip).missing (s.icache ip).inum off' n' ≤ (t.vol ip).free sb
  kept : (∀ p, p < 141 → touches off n p → (s.vol ip).held (s.icache ip).inum p ≠ 0) →
    t.icache = s.icache

theorem WroteTo.refl (ho : Owned sb (s.vol ip)) (off n : Nat) : WroteTo sb ip s s off n [] :=
  ⟨rfl, (update_eq_self ip s.icache).symm, .refl ho _ off, fun _ hx => .inl hx,
    fun _ _ _ h => h, fun _ => rfl⟩

theorem WroteTo.inum (h : WroteTo sb ip s t off n bs) :
    (t.icache ip).inum = (s.icache ip).inum := by
  rw [h.icache, update_self]

theorem WroteTo.live (h : WroteTo sb ip s t off n bs) (hi : (s.vol ip).live sb (s.icache ip).inum) :
    (t.vol ip).live sb (t.icache ip).inum := by
  rw [h.inum]
  exact (h.edit.live _).2 hi

theorem WroteTo.trans {n' : Nat} (h : WroteTo sb ip s t off m bs)
    (h' : WroteTo sb ip t u (off + bs.length) n' cs)
    (hm : ∀ p, touches off m p → touches off n p)
    (hn : ∀ p, touches (off + bs.length) n' p → touches off n p) :
    WroteTo sb ip s u off n (bs ++ cs) := by
  obtain ⟨hinode, hicache, hedit, hlogs, hroom, hkept⟩ := h'
  rw [h.inum] at hedit hlogs hroom hkept
  constructor
  · exact hinode.trans h.inode
  · rw [hicache, h.icache, update_self, update_self, update_idem]
  · exact h.edit.trans hedit
  · intro x hx
    rcases hlogs x hx with hx | ⟨p, hp, ht, hne, hx⟩
    · rcases h.logs x hx with hx | ⟨p, hp, ht, hne, hx⟩
      · exact .inl hx
      · refine .inr ⟨p, hp, hm p ht, ?_⟩
        rw [hedit.stable p hp hne]
        exact ⟨hne, hx⟩
    refine .inr ⟨p, hp, hn p ht, hne, ?_⟩
    rcases hx with hx | ⟨hz, hx⟩
    · exact .inl hx
    · refine .inr ⟨?_, hx⟩
      by_contra hnz
      rw [h.edit.stable p hp hnz] at hz
      exact hnz hz
  · intro off' n'' hsub hle
    have hle := h.room off' n'' (fun p hp => hsub p (hm p hp)) hle
    exact hroom off' n'' (fun p hp => hsub p (hn p hp)) hle
  · intro hthere
    have he := h.kept fun p hp ht => hthere p hp (hm p ht)
    rw [← he]
    apply hkept
    intro p hp ht
    have hne := hthere p hp (hn p ht)
    rwa [h.edit.stable p hp hne]

theorem WroteTo.after_nil (h : WroteTo sb ip s t off n []) (h' : WroteTo sb ip t u off n bs) :
    WroteTo sb ip s u off n bs := by
  have ht := h.trans (n := n) h' (fun _ h => h) fun _ h => h
  rwa [nil_append] at ht

theorem WroteTo.of_alloc (h : Alloc sb (s.vol ip) (t.vol ip) (s.icache ip).inum p b)
    (ho : Owned sb (s.vol ip)) (hi : (s.vol ip).live sb (s.icache ip).inum)
    (hp : touches off n p) (hinode : t.disk.inode = s.disk.inode)
    (hicache : t.icache = update s.icache ip { s.icache ip with d := (t.icache ip).d })
    (hlogs : ∀ x ∈ t.logged, x ∈ s.logged ∨ x = b ∨ x = sb.bblock b ∨
      touches off n 12 ∧ x = (t.vol ip).held (s.icache ip).inum 12 ∧ x ≠ 0) :
    WroteTo sb ip s t off n [] := by
  have hb : b ≠ 0 := by
    have := ho.nmeta_le h.free
    have := sb.nmeta_pos
    omega
  have hne : (t.vol ip).held (s.icache ip).inum p ≠ 0 := by rwa [h.new]
  refine ⟨hinode, hicache, h.edit ho hi off, fun x hx => ?_, fun off' n' hsub hle => ?_,
    fun hthere => ?_⟩
  · rcases hlogs x hx with hx | hx | hx | ⟨ht, hx, hx0⟩
    · exact .inl hx
    · exact .inr ⟨p, h.lt, hp, hne, .inl (hx.trans h.new.symm)⟩
    · exact .inr ⟨p, h.lt, hp, hne, .inr ⟨h.zero, by rw [h.new, hx]⟩⟩
    · exact .inr ⟨12, by decide, ht, hx ▸ hx0, .inl hx⟩
  · exact h.room ho (hsub p hp) hle
  · exact (hthere p h.lt hp h.zero).elim

theorem balloc_wp (sb : Superblock) (s : Fs) : Wp (balloc sb) s
      (fun b t => s.disk.used b = false ∧ b < sb.size ∧
        t = ⟨(s.disk.setUsed b true).setData b fun _ => 0, s.icache,
          b :: sb.bblock b :: s.logged⟩)
      (fun e t => e = .outOfBlocks ∧ t = s ∧ ∀ b, b < sb.size → s.disk.used b = true) := by
  apply wp_get_bind
  split
  · rename_i b hb
    refine ⟨?_, mem_range.1 (mem_of_find?_eq_some hb), rfl⟩
    simpa using find?_some hb
  · rename_i hb
    refine ⟨rfl, rfl, fun b hlt => ?_⟩
    simpa using find?_eq_none.1 hb b (mem_range.2 hlt)

theorem no_room (hfull : ∀ b, b < sb.size → v.used b = true) (hp : p < 141) (ht : touches off n p)
    (hz : v.held i p = 0) : ¬ v.missing i off n ≤ v.free sb := by
  have hfree : v.free sb = 0 := by
    rw [Vol.free, Finset.card_eq_zero, Finset.filter_eq_empty_iff]
    intro b hb
    rw [hfull b (Finset.mem_range.1 hb)]
    exact Bool.noConfusion
  have hmiss : 0 < v.missing i off n :=
    Finset.card_pos.2 ⟨p, Finset.mem_filter.2 ⟨Finset.mem_range.2 hp, ht, hz⟩⟩
  omega

theorem addrAt_wp (ho : Owned sb (s.vol ip)) (hi : (s.vol ip).live sb (s.icache ip).inum)
    (hk : k < 13) (ht : touches off n k) :
    Wp (addrAt sb ip k) s
      (fun b t => WroteTo sb ip s t off n [] ∧ (t.icache ip).d.addrs k = b ∧ b ≠ 0)
      (fun e t => e = .outOfBlocks ∧ t = s ∧
        ¬ (s.vol ip).missing (s.icache ip).inum off n ≤ (s.vol ip).free sb) := by
  apply wp_get_bind
  apply wp_ite
  · intro hz
    have hz' : ((s.vol ip).inode (s.icache ip).inum).addrs k = 0 := by rwa [vol_inode_self]
    apply wp_bind (balloc_wp sb s)
    · rintro e t ⟨he, rfl, hfull⟩
      exact ⟨he, rfl, no_room hfull (by omega) ht ((held_of_lt hk).trans hz')⟩
    rintro b t ⟨hfree, hlt, rfl⟩
    apply wp_modify_bind
    apply wp_pure
    have hb : b ≠ 0 := by
      have := ho.nmeta_le hfree
      have := sb.nmeta_pos
      omega
    refine ⟨?_, ?_, hb⟩
    · refine .of_alloc (p := k) (.addr ho hi hk hz' hfree hlt ?_ ?_ rfl rfl) ho hi ht rfl ?_ ?_
      · intro j hj
        rw [vol_inode_of_ne hj]
        refine (vol_inode_of_ne ?_).trans rfl
        simpa [Fs.setCopy, Fs.setInode] using hj
      · simp [Fs.vol, Fs.setCopy, Fs.setInode, Vol.setInode]
      · simp [Fs.setCopy, Fs.setInode]
      · intro x hx
        simp only [Fs.setCopy, Fs.setInode, mem_cons] at hx
        tauto
    · simp [Fs.setCopy, Fs.setInode, Dinode.setAddr]
  · intro hz
    exact wp_pure ⟨.refl ho off n, rfl, hz⟩

theorem held_entry (hind : (v.inode i).addrs 12 ≠ 0) (j : Nat) :
    v.held i (j + 13) = (v.data ((v.inode i).addrs 12)).word j := by
  rw [Vol.held, if_neg (by omega), if_neg hind, Nat.add_sub_cancel]

theorem entryAt_wp (ho : Owned sb (s.vol ip)) (hi : (s.vol ip).live sb (s.icache ip).inum)
    (hj : j < 128) (hind : (s.icache ip).d.addrs 12 ≠ 0) (ht : touches off n (j + 13))
    (ht' : touches off n 12) :
    Wp (entryAt sb ((s.icache ip).d.addrs 12) j) s
      (fun b t => WroteTo sb ip s t off n [] ∧
        (t.vol ip).held (s.icache ip).inum (j + 13) = b ∧ b ≠ 0)
      (fun e t => e = .outOfBlocks ∧ t = s ∧
        ¬ (s.vol ip).missing (s.icache ip).inum off n ≤ (s.vol ip).free sb) := by
  have hind' : ((s.vol ip).inode (s.icache ip).inum).addrs 12 ≠ 0 := by rwa [vol_inode_self]
  have hheld : (s.vol ip).held (s.icache ip).inum (j + 13) =
      (s.disk.data ((s.icache ip).d.addrs 12)).word j := by
    rw [held_entry hind', vol_inode_self]
    rfl
  apply wp_get_bind
  apply wp_ite
  · intro hz
    apply wp_bind (balloc_wp sb s)
    · rintro e t ⟨he, rfl, hfull⟩
      exact ⟨he, rfl, no_room hfull (by omega) ht (hheld.trans hz)⟩
    rintro b t ⟨hfree, hlt, rfl⟩
    apply wp_modify_bind
    apply wp_modify_bind
    apply wp_pure
    have hne : (s.icache ip).d.addrs 12 ≠ b := by
      apply ho.ne_of_free hfree (i := (s.icache ip).inum) (p := 12)
      refine ⟨hi, by decide, ?_, hind⟩
      rw [held_of_lt (by decide), vol_inode_self]
    have hb : b ≠ 0 := by
      have := ho.nmeta_le hfree
      have := sb.nmeta_pos
      omega
    refine have hall := .entry ho hi hj hind' ?_ hfree hlt rfl rfl ?_
      ⟨.of_alloc hall ho hi ht rfl ?_ fun x hx => ?_, hall.new, hb⟩
    · exact (update_eq_self ip s.icache).symm
    · simp only [Fs.setDisk, mem_cons] at hx
      rcases hx with rfl | rfl | rfl | hx
      · refine .inr (.inr (.inr ⟨ht', ?_, hind⟩))
        rw [held_of_lt (by decide)]
        exact congrArg (fun d => d.addrs 12) (vol_inode_self _ ip).symm
      · exact .inr (.inl rfl)
      · exact .inr (.inr (.inl rfl))
      · exact .inl hx
    · rw [← held_entry hind', hheld, hz]
    · rw [vol_inode_self]
      simp [Fs.vol, Fs.setDisk, Vol.setInode, Vol.setData, Vol.setUsed, hne]
  · intro hz
    exact wp_pure ⟨.refl ho off n, hheld, hz⟩

theorem addr_of_lt (hbn : bn < 12) : v.addr i bn = (v.inode i).addrs bn := by
  rw [Vol.addr, place, if_pos hbn, held_of_lt (by omega)]

theorem addr_of_le (hbn : 12 ≤ bn) : v.addr i bn = v.held i (bn - 12 + 13) := by
  rw [Vol.addr, place, if_neg (by omega)]
  congr 1
  omega

theorem bmap_wp (ho : Owned sb (s.vol ip)) (hi : (s.vol ip).live sb (s.icache ip).inum)
    (hoff : off < 140 * 512) (hn : 0 < n) :
    Wp (bmap sb ip (off / 512)) s
      (fun b t => WroteTo sb ip s t off n [] ∧
        (t.vol ip).addr (s.icache ip).inum (off / 512) = b ∧ b ≠ 0)
      (fun e t => e = .outOfBlocks ∧ WroteTo sb ip s t off n [] ∧
        ¬ (s.vol ip).missing (s.icache ip).inum off n ≤ (s.vol ip).free sb) := by
  have htouch : touches off n (place (off / 512)) := touches_place le_rfl (by omega)
  apply wp_ite
  · intro hlt
    rw [place, if_pos hlt] at htouch
    apply (addrAt_wp ho hi (by omega) htouch).mono
    · rintro b t ⟨hw, hb, hne⟩
      refine ⟨hw, ?_, hne⟩
      rw [addr_of_lt hlt, ← hw.inum, vol_inode_self, hb]
    · rintro e t ⟨he, rfl, hroom⟩
      exact ⟨he, .refl ho off n, hroom⟩
  intro hge
  have hle : 12 ≤ off / 512 := Nat.le_of_not_lt hge
  have hind : touches off n 12 := touches_indirect hle (by omega)
  rw [place, if_neg hge, (by omega : off / 512 + 1 = off / 512 - 12 + 13)] at htouch
  rw [if_pos (by omega)]
  apply wp_bind (addrAt_wp ho hi (by decide) hind)
  · rintro e t ⟨he, rfl, hroom⟩
    exact ⟨he, .refl ho off n, hroom⟩
  rintro ind t ⟨hw, rfl, hne⟩
  apply (entryAt_wp hw.edit.owned (hw.live hi) (by omega) hne htouch hind).mono
  · rintro b u ⟨hw', hb, hne⟩
    refine ⟨hw.after_nil hw', ?_, hne⟩
    rw [addr_of_le hle, ← hw.inum, hb]
  · rintro e u ⟨he, rfl, hroom⟩
    refine ⟨he, hw, fun hle => hroom ?_⟩
    rw [hw.inum]
    exact hw.room off n (fun _ h => h) hle

theorem bmap_there (hbn : bn < 140) (hne : (s.vol ip).addr (s.icache ip).inum bn ≠ 0) :
    Wp (bmap sb ip bn) s (fun b t => b = (s.vol ip).addr (s.icache ip).inum bn ∧ t = s)
      fun _ _ => False := by
  have haddrs : ((s.vol ip).inode (s.icache ip).inum).addrs = (s.icache ip).d.addrs := by
    rw [vol_inode_self]
  have haddrAt (k : Nat) (hk : (s.icache ip).d.addrs k ≠ 0) :
      Wp (addrAt sb ip k) s (fun b t => b = (s.icache ip).d.addrs k ∧ t = s) fun _ _ => False := by
    apply wp_get_bind
    rw [if_neg hk]
    exact wp_pure ⟨rfl, rfl⟩
  unfold bmap
  by_cases hlt : bn < 12
  · rw [addr_of_lt hlt, haddrs] at hne ⊢
    rw [if_pos hlt]
    exact haddrAt bn hne
  have hle : 12 ≤ bn := Nat.le_of_not_lt hlt
  have hind : (s.icache ip).d.addrs 12 ≠ 0 := by
    intro hz
    rw [addr_of_le hle, Vol.held, if_neg (by omega), haddrs, if_pos hz] at hne
    exact hne rfl
  have hind' : ((s.vol ip).inode (s.icache ip).inum).addrs 12 ≠ 0 := by rwa [haddrs]
  rw [addr_of_le hle, held_entry hind', haddrs] at hne ⊢
  rw [if_neg hlt, if_pos (by omega)]
  apply wp_seq (haddrAt 12 hind)
  rintro ind t ⟨rfl, rfl⟩
  apply wp_get_bind
  apply wp_ite
  · exact fun hz => (hne hz).elim
  · exact fun _ => wp_pure ⟨rfl, rfl⟩

theorem WroteTo.write (ho : Owned sb (s.vol ip)) (hi : (s.vol ip).live sb (s.icache ip).inum)
    (hbn : off / 512 < 140) (hb : (s.vol ip).addr (s.icache ip).inum (off / 512) = b) (hne : b ≠ 0)
    (hfit : off % 512 + bs.length ≤ 512) (hn : 0 < n) :
    WroteTo sb ip s { s.setDisk (s.disk.setData b ((s.disk.data b).write (off % 512) bs)) with
      logged := b :: s.logged } off n bs := by
  subst hb
  have hedit : Edit sb (s.vol ip) (Fs.vol { s.setDisk (s.disk.setData
      ((s.vol ip).addr (s.icache ip).inum (off / 512))
      ((s.disk.data ((s.vol ip).addr (s.icache ip).inum (off / 512))).write (off % 512) bs)) with
        logged := (s.vol ip).addr (s.icache ip).inum (off / 512) :: s.logged } ip)
      (s.icache ip).inum off bs :=
    .write ho hi hbn hne hfit rfl rfl rfl
  have hplace := hedit.stable _ (place_lt hbn) hne
  refine ⟨rfl, (update_eq_self ip s.icache).symm, hedit, fun x hx => ?_,
    fun off' n' _ hle => ?_, fun _ => rfl⟩
  · rcases mem_cons.1 hx with rfl | hx
    · refine .inr ⟨place (off / 512), place_lt hbn, touches_place le_rfl (by omega), ?_, .inl ?_⟩
      · rw [hplace]
        exact hne
      · rw [hplace, Vol.addr]
    · exact .inl hx
  · refine (missing_le_of_stable (fun _ h => h) fun p hp hnz => ?_).trans hle
    rwa [hedit.stable p hp hnz]

theorem writeLoop_wp (fuel : Nat) (ho : Owned sb (s.vol ip))
    (hi : (s.vol ip).live sb (s.icache ip).inum) (hoff : off + src.length ≤ 140 * 512)
    (hfuel : src.length ≤ fuel) :
    Wp (writeLoop sb ip fuel off src) s
      (fun _ t => WroteTo sb ip s t off src.length src)
      (fun e t => e = .outOfBlocks ∧ (∃ bs, WroteTo sb ip s t off src.length bs) ∧
        ¬ (s.vol ip).missing (s.icache ip).inum off src.length ≤ (s.vol ip).free sb) := by
  induction fuel generalizing s off src with
  | zero =>
    cases eq_nil_of_length_eq_zero (Nat.le_zero.1 hfuel)
    exact wp_pure (.refl ho off 0)
  | succ fuel ih =>
    apply wp_ite
    · rintro rfl
      exact wp_pure (.refl ho off 0)
    intro hne
    have hpos : 0 < src.length := length_pos_iff.2 hne
    apply wp_bind (bmap_wp ho hi (by omega) hpos)
    · rintro e t ⟨he, hw, hroom⟩
      exact ⟨he, ⟨[], hw⟩, hroom⟩
    rintro b t ⟨hw, hb, hne⟩
    rw [← hw.inum] at hb
    -- the part that fits in the block
    obtain ⟨m, hmin⟩ : ∃ m, m = min src.length (512 - off % 512) := ⟨_, rfl⟩
    rw [← hmin]
    have hlen : (src.take m).length = m := by
      rw [length_take]
      omega
    have hw := hw.after_nil
      (.write hw.edit.owned (hw.live hi) (by omega) hb hne
        (by omega : off % 512 + (src.take m).length ≤ 512) hpos)
    have hrest : ∀ p, touches (off + (src.take m).length) (src.drop m).length p →
        touches off src.length p := by
      intro p hp
      rw [hlen, length_drop] at hp
      exact touches_rest (by omega) hp
    have hoff' : off + m = off + (src.take m).length := by rw [hlen]
    apply wp_modify_bind
    apply wp_modify_bind
    apply (ih hw.edit.owned (hw.live hi) ?_ ?_).mono
    · intro _ u hw'
      rw [hoff'] at hw'
      have hall := hw.trans hw' (n := src.length) (fun _ h => h) hrest
      rwa [take_append_drop] at hall
    · rintro e u ⟨he, ⟨bs, hw'⟩, hroom⟩
      rw [hoff'] at hw' hroom
      refine ⟨he, ⟨_, hw.trans hw' (n := src.length) (fun _ h => h) hrest⟩, fun hle => hroom ?_⟩
      rw [hw.inum]
      refine (missing_le_of_stable hrest fun _ _ h => h).trans ?_
      exact hw.room off src.length (fun _ h => h) hle
    · rw [length_drop]
      omega
    · rw [length_drop]
      omega

theorem readLoop_wp (fuel : Nat)
    (hthere : ∀ k, off ≤ k → k < off + n → k < 140 * 512 ∧
      (s.vol ip).addr (s.icache ip).inum (k / 512) ≠ 0) (hfuel : n ≤ fuel) :
    Wp (readLoop sb ip fuel off n) s
      (fun r t => r = ((s.vol ip).byte (s.icache ip).inum).read off n ∧ t = s)
      fun _ _ => False := by
  induction fuel generalizing off n with
  | zero =>
    cases Nat.le_zero.1 hfuel
    exact wp_pure ⟨rfl, rfl⟩
  | succ fuel ih =>
    apply wp_ite
    · rintro rfl
      exact wp_pure ⟨rfl, rfl⟩
    intro hn
    obtain ⟨hlt, hne⟩ := hthere off le_rfl (by omega)
    apply wp_seq (bmap_there (by omega) hne)
    rintro b t ⟨rfl, rfl⟩
    apply wp_get_bind
    obtain ⟨m, hm⟩ : ∃ m, m = min n (512 - off % 512) := ⟨_, rfl⟩
    rw [← hm]
    apply wp_seq (ih (fun k hle hlt => hthere k (by omega) (by omega)) (by omega))
    rintro rest u ⟨rfl, rfl⟩
    refine wp_pure ⟨?_, rfl⟩
    rw [(by omega : n = m + (n - m)), Bytes.read_add, ← (by omega : n = m + (n - m))]
    congr 1
    apply map_congr_left
    intro j hj
    have hj := mem_range.1 hj
    have hdiv : (off + j) / 512 = off / 512 := by omega
    have hmod : (off + j) % 512 = off % 512 + j := by omega
    rw [Vol.byte, hdiv, hmod]
    rfl

theorem readi_wp (ho : Owned sb (s.vol ip)) (hi : (s.vol ip).live sb (s.icache ip).inum)
    (off n : Nat) :
    Wp (readi sb ip off n) s
      (fun r t => r = (if (s.icache ip).d.size < off ∨ (off + n) % 2 ^ 32 < off then none
        else some (((s.vol ip).byte (s.icache ip).inum).read off
          (min n ((s.icache ip).d.size - off)))) ∧ t = s)
      fun _ _ => False := by
  apply wp_get_bind
  by_cases hbad : (s.icache ip).d.size < off ∨ (off + n) % 2 ^ 32 < off
  · rw [if_pos hbad, if_pos hbad]
    exact wp_pure ⟨rfl, rfl⟩
  rw [if_neg hbad, if_neg hbad]
  have hmin : (if (s.icache ip).d.size < off + n then (s.icache ip).d.size - off else n) =
      min n ((s.icache ip).d.size - off) := by
    split <;> omega
  rw [hmin]
  refine wp_seq (readLoop_wp _ (fun k hle hlt => ?_) le_rfl) ?_
  · apply ho.addr_ne hi
    rw [vol_inode_self]
    omega
  · rintro r t ⟨rfl, rfl⟩
    exact wp_pure ⟨rfl, rfl⟩

def Refused (size off n : Nat) : Prop :=
  size < off ∨ (off + n) % 2 ^ 32 < off ∨ 140 * 512 < (off + n) % 2 ^ 32

instance decidableRefused (size off n : Nat) : Decidable (Refused size off n) := by
  unfold Refused
  infer_instance

def WriteLogs (sb : Superblock) (ip : Slot) (s t : Fs) (off n : Nat) : Prop :=
  ∀ x ∈ t.logged, x ∈ s.logged ∨ x = sb.iblock (s.icache ip).inum ∨
    Touched sb (s.vol ip) (t.vol ip) (s.icache ip).inum off n x

structure Stored (sb : Superblock) (ip : Slot) (s t : Fs) (off : Nat) (bs : List Byte) : Prop where
  written : Written sb (s.vol ip) (t.vol ip) (s.icache ip).inum off bs
  icache : t.icache = update s.icache ip { s.icache ip with d := (t.icache ip).d }
  synced : s.disk = s.vol ip → t.disk = t.vol ip
  logs : WriteLogs sb ip s t off bs.length

theorem setInode_inode_self (v : Vol) (i : Nat) : v.setInode i (v.inode i) = v := by
  simp only [Vol.setInode, update_eq_self]

theorem held_ne_of_touches (ho : Owned sb v) (hi : v.live sb i) (hle : off + n ≤ (v.inode i).size)
    (hp : p < 141) (ht : touches off n p) : v.held i p ≠ 0 := by
  unfold touches at ht
  split at ht
  · rename_i hlt
    have := (ho.full i p hi (by omega)).2
    rwa [addr_of_lt hlt, ← held_of_lt (by omega)] at this
  split at ht
  · rename_i hp12
    have := (ho.full i 12 hi (by omega)).2
    rw [addr_of_le le_rfl] at this
    intro hz
    rw [hp12, held_of_lt (by decide)] at hz
    rw [Vol.held, if_neg (by omega), if_pos hz] at this
    exact this rfl
  · have := (ho.full i (p - 1) hi (by omega)).2
    rwa [addr_of_le (by omega), (by omega : p - 1 - 12 + 13 = p)] at this

def Fs.store (sb : Superblock) (s : Fs) (ip : Slot) (d : Dinode) : Fs :=
  ⟨s.disk.setInode (s.icache ip).inum d, update s.icache ip { s.icache ip with d := d },
    sb.iblock (s.icache ip).inum :: s.logged⟩

theorem wp_store {Q : PUnit → Fs → Prop} (h : Q ⟨⟩ (s.store sb ip (g (s.icache ip).d))) :
    Wp (do modify fun s => s.setCopy ip (g (s.icache ip).d); iupdate sb ip) s Q E := by
  unfold Fs.store at h
  apply wp_modify_bind
  apply wp_get_bind
  apply wp_modify_bind
  apply wp_modify
  simpa [Fs.setCopy, Fs.setInode, Fs.setDisk] using h

theorem wp_store_bind {α : Type} {Q : α → Fs → Prop} {f : PUnit → FsM α}
    (h : Wp (f ⟨⟩) (s.store sb ip (g (s.icache ip).d)) Q E) :
    Wp (do modify fun s => s.setCopy ip (g (s.icache ip).d); iupdate sb ip >>= f) s Q E := by
  rw [← bind_assoc]
  apply wp_bind (wp_store (Q := fun _ t => t = s.store sb ip (g (s.icache ip).d))
    (E := fun _ _ => False) rfl) fun _ _ h => h.elim
  rintro _ _ rfl
  exact h

theorem store_icache_self (s : Fs) (ip : Slot) (d : Dinode) :
    (s.store sb ip d).icache ip = { s.icache ip with d := d } :=
  update_self ..

theorem store_vol (sb : Superblock) (s : Fs) (ip : Slot) (d : Dinode) :
    (s.store sb ip d).vol ip = (s.store sb ip d).disk := by
  rw [Fs.vol, store_icache_self]
  simp only [Fs.store, Vol.setInode, update_idem]

theorem growTo_wp (h : WroteTo sb ip s t off src.length src) (ho : Owned sb (s.vol ip))
    (hi : (s.vol ip).live sb (s.icache ip).inum) (hoff : off ≤ (s.icache ip).d.size) :
    Wp (growTo sb ip src.length (off + src.length)) t
      (fun _ u => Stored sb ip s u off src) fun _ _ => False := by
  have hself : (t.vol ip).inode (s.icache ip).inum = (t.icache ip).d := by
    rw [← h.inum, vol_inode_self]
  have hsize : (t.icache ip).d.size = ((s.vol ip).inode (s.icache ip).inum).size := by
    rw [← hself, h.edit.size]
  have hoff' : off ≤ ((s.vol ip).inode (s.icache ip).inum).size := by rwa [vol_inode_self]
  have hlogs (x : Nat) (hx : x ∈ t.logged) : x ∈ s.logged ∨ x = sb.iblock (s.icache ip).inum ∨
      Touched sb (s.vol ip) (t.vol ip) (s.icache ip).inum off src.length x := by
    rcases h.logs x hx with hx | hx
    · exact .inl hx
    · exact .inr (.inr hx)
  apply wp_get_bind
  apply wp_ite
  · rintro ⟨-, hlt⟩
    have hmax : max (t.icache ip).d.size (off + src.length) = off + src.length :=
      Nat.max_eq_right hlt.le
    apply wp_store (g := fun d => { d with size := off + src.length })
    have hvol := store_vol sb t ip { (t.icache ip).d with size := off + src.length }
    have hheld (p : Nat) : (t.store sb ip { (t.icache ip).d with size := off + src.length }).disk.held
        (s.icache ip).inum p = (t.vol ip).held (s.icache ip).inum p := by
      simp only [Vol.held, hself]
      simp only [Fs.store, h.inum, Vol.setInode, update_self]
      rfl
    refine ⟨?_, ?_, fun _ => hvol.symm, fun x hx => ?_⟩
    · rw [hvol]
      refine h.edit.written ho hi hoff' (fun j hj => ?_) ?_ rfl rfl
      · rw [← h.inum] at hj
        rw [vol_inode_of_ne hj]
        exact update_of_ne hj ..
      · rw [hself, hmax, ← h.inum]
        exact update_self ..
    · rw [store_icache_self, Fs.store, h.icache]
      simp only [update_self, update_idem]
    · rw [hvol]
      rcases mem_cons.1 hx with hx | hx
      · rw [h.inum] at hx
        exact .inr (.inl hx)
      · simp only [Touched, hheld]
        exact hlogs x hx
  · intro hnot
    have hle : off + src.length ≤ ((s.vol ip).inode (s.icache ip).inum).size := by
      rw [not_and, hsize] at hnot
      omega
    have hkept := h.kept fun p hp ht => held_ne_of_touches ho hi hle hp ht
    refine ⟨h.edit.written ho hi hoff' (fun _ _ => rfl) ?_ rfl rfl, h.icache, fun hs => ?_, hlogs⟩
    · rw [Nat.max_eq_left]
      rwa [h.edit.size]
    · rw [Fs.vol, hkept, ← vol_inode_self s ip, ← hs, ← h.inode, setInode_inode_self]

theorem writei_wp (off : Nat) (ho : Owned sb (s.vol ip))
    (hi : (s.vol ip).live sb (s.icache ip).inum) (hdev : (s.icache ip).d.type ≠ .dev)
    (hn : src.length < 2 ^ 32) :
    Wp (writei sb ip off src) s
      (fun r t => (Refused (s.icache ip).d.size off src.length → r = -1 ∧ t = s) ∧
        (¬ Refused (s.icache ip).d.size off src.length →
          r = src.length ∧ Stored sb ip s t off src))
      (fun e t => e = .outOfBlocks ∧ ¬ Refused (s.icache ip).d.size off src.length ∧
        (∃ bs, WroteTo sb ip s t off src.length bs) ∧
        ¬ (s.vol ip).missing (s.icache ip).inum off src.length ≤ (s.vol ip).free sb) := by
  have hsize := ho.size_le hi
  rw [vol_inode_self] at hsize
  apply wp_get_bind
  rw [if_neg hdev]
  apply wp_ite
  · intro hbad
    have hbad : Refused (s.icache ip).d.size off src.length := by
      unfold Refused
      tauto
    exact wp_pure ⟨fun _ => ⟨rfl, rfl⟩, fun hok => (hok hbad).elim⟩
  intro hok
  apply wp_ite
  · intro hbig
    exact wp_pure ⟨fun _ => ⟨rfl, rfl⟩, fun hok => (hok (.inr (.inr hbig))).elim⟩
  intro hbig
  have hok' : ¬ Refused (s.icache ip).d.size off src.length := by
    unfold Refused
    tauto
  apply wp_bind (writeLoop_wp _ ho hi (by omega) le_rfl)
  · rintro e t ⟨he, hw, hroom⟩
    exact ⟨he, hok', hw, hroom⟩
  · intro _ t hw
    refine wp_bind (growTo_wp hw ho hi (by omega)) (fun _ _ h => h.elim) fun _ u hst => ?_
    exact wp_pure ⟨fun hbad => (hok' hbad).elim, fun _ => ⟨rfl, hst⟩⟩

end Xv6Signals
