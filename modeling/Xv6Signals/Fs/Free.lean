import Xv6Signals.Fs.Blocks

namespace Xv6Signals
open Lib Function

variable {sb : Superblock} {s t u : Fs} {ip : Slot} {v v' : Vol} {i j p b k : Nat}

structure Freed (sb : Superblock) (ip : Slot) (s t : Fs) (P : Nat → Prop) : Prop where
  inode : t.disk.inode = s.disk.inode
  data : t.disk.data = s.disk.data
  used : ∀ b, t.disk.used b = true ↔ s.disk.used b = true ∧
    ∀ p, P p → ¬ Holds sb (s.vol ip) (s.icache ip).inum p b
  icache : t.icache = update s.icache ip { s.icache ip with d := (t.icache ip).d }
  logs : ∀ x ∈ t.logged, x ∈ s.logged ∨ ∃ p b, Holds sb (s.vol ip) (s.icache ip).inum p b ∧
    x = sb.bblock b

theorem Freed.refl (sb : Superblock) (ip : Slot) (s : Fs) : Freed sb ip s s fun _ => False :=
  ⟨rfl, rfl, fun _ => ⟨fun h => ⟨h, fun _ h => h.elim⟩, fun h => h.1⟩,
    (update_eq_self ip s.icache).symm, fun _ h => .inl h⟩

theorem Freed.mono {P Q : Nat → Prop} (h : Freed sb ip s t P)
    (hPQ : ∀ p b, Holds sb (s.vol ip) (s.icache ip).inum p b → (P p ↔ Q p)) :
    Freed sb ip s t Q := by
  refine ⟨h.inode, h.data, fun b => ?_, h.icache, h.logs⟩
  rw [h.used]
  constructor
  · rintro ⟨hb, hn⟩
    exact ⟨hb, fun p hp hh => hn p ((hPQ p b hh).2 hp) hh⟩
  · rintro ⟨hb, hn⟩
    exact ⟨hb, fun p hp hh => hn p ((hPQ p b hh).1 hp) hh⟩

theorem bfree_wp {P : Nat → Prop} (h : Freed sb ip s t P) (ho : Owned sb (s.vol ip))
    (hh : Holds sb (s.vol ip) (s.icache ip).inum p b) (hp : ¬ P p) :
    Wp (bfree sb b) t (fun _ u => Freed sb ip s u (fun q => P q ∨ q = p) ∧ u.icache = t.icache)
      fun _ _ => False := by
  have hused : t.disk.used b = true := by
    rw [h.used]
    refine ⟨ho.marked _ p b hh, fun q hq hh' => ?_⟩
    obtain ⟨-, rfl⟩ := ho.once _ p _ q b hh hh'
    exact hp hq
  apply wp_get_bind
  rw [if_neg (by rw [hused]; exact Bool.noConfusion)]
  apply wp_modify_bind
  refine wp_modify ⟨⟨h.inode, h.data, fun c => ?_, h.icache, fun x hx => ?_⟩, rfl⟩
  · show update t.disk.used b false c = true ↔ _
    by_cases hc : c = b
    · subst hc
      rw [update_self]
      exact ⟨fun he => Bool.noConfusion he, fun he => (he.2 p (.inr rfl) hh).elim⟩
    rw [update_of_ne hc, h.used]
    constructor
    · rintro ⟨hu, hn⟩
      refine ⟨hu, fun q hq hh' => ?_⟩
      rcases hq with hq | rfl
      · exact hn q hq hh'
      · exact hc (hh'.eq.symm.trans hh.eq)
    · rintro ⟨hu, hn⟩
      exact ⟨hu, fun q hq => hn q (.inl hq)⟩
  · rcases List.mem_cons.1 hx with rfl | hx
    · exact .inr ⟨p, b, hh, rfl⟩
    · exact h.logs x hx

theorem Freed.clear {P : Nat → Prop} (h : Freed sb ip s t P) (k : Nat) :
    Freed sb ip s (t.setCopy ip ((t.icache ip).d.setAddr k 0)) P := by
  refine ⟨h.inode, h.data, h.used, ?_, h.logs⟩
  rw [Fs.setCopy, Fs.setInode, h.icache]
  simp only [update_self, update_idem]

theorem truncAddrs_wp (ho : Owned sb (s.vol ip)) (hi : (s.vol ip).live sb (s.icache ip).inum) :
    Wp ((List.range 12).forM (truncAddr sb ip)) s
      (fun _ t => Freed sb ip s t (· < 12) ∧
        ∀ c, (t.icache ip).d.addrs c = if c < 12 then 0 else (s.icache ip).d.addrs c)
      fun _ _ => False := by
  apply wp_forM_range (fun k t => Freed sb ip s t (· < k) ∧
    ∀ c, (t.icache ip).d.addrs c = if c < k then 0 else (s.icache ip).d.addrs c)
  · refine ⟨(Freed.refl sb ip s).mono fun _ _ _ => ⟨fun h => h.elim, fun h => ?_⟩, fun c => ?_⟩
    · exact Nat.not_lt_zero _ h
    · rw [if_neg (Nat.not_lt_zero c)]
  rintro k t hk ⟨hf, haddrs⟩
  have hak := haddrs k
  rw [if_neg (Nat.lt_irrefl k)] at hak
  have hheld : (s.vol ip).held (s.icache ip).inum k = (s.icache ip).d.addrs k := by
    rw [held_of_lt (by omega), vol_inode_self]
  have hnext (c : Nat) (hc : c ≠ k) : (if c < k + 1 then 0 else (s.icache ip).d.addrs c) =
      if c < k then 0 else (s.icache ip).d.addrs c := by
    by_cases hlt : c < k
    · rw [if_pos hlt, if_pos (by omega)]
    · rw [if_neg hlt, if_neg (by omega)]
  apply wp_get_bind
  rw [hak]
  apply wp_ite
  · intro hz
    refine wp_pure ⟨hf.mono fun q b hh => ?_, fun c => ?_⟩
    · constructor
      · intro hq
        omega
      · intro hq
        by_contra hlt
        have hqk : q = k := by omega
        rw [hqk] at hh
        exact hh.ne (hh.eq.symm.trans (hheld.trans hz))
    · by_cases hc : c = k
      · rw [hc, hak, hz, if_pos (by omega)]
      · rw [haddrs, hnext c hc]
  · intro hne
    have hh : Holds sb (s.vol ip) (s.icache ip).inum k ((s.icache ip).d.addrs k) :=
      ⟨hi, by omega, hheld, hne⟩
    apply wp_seq (bfree_wp hf ho hh (Nat.lt_irrefl k))
    rintro _ u ⟨hf', hic⟩
    refine wp_modify ⟨(hf'.clear k).mono fun q b _ => ?_, fun c => ?_⟩
    · omega
    · simp only [Fs.setCopy, Fs.setInode, update_self, Dinode.setAddr, hic]
      by_cases hc : c = k
      · rw [hc, update_self, if_pos (by omega)]
      · rw [update_of_ne hc, haddrs, hnext c hc]

theorem truncIndirect_wp (ho : Owned sb (s.vol ip)) (hi : (s.vol ip).live sb (s.icache ip).inum)
    (hf : Freed sb ip s t (· < 12))
    (haddrs : ∀ c, (t.icache ip).d.addrs c = if c < 12 then 0 else (s.icache ip).d.addrs c) :
    Wp (truncIndirect sb ip) t
      (fun _ u => Freed sb ip s u (· < 141) ∧ ∀ c, c < 13 → (u.icache ip).d.addrs c = 0)
      fun _ _ => False := by
  have hind : (t.icache ip).d.addrs 12 = (s.icache ip).d.addrs 12 := by
    rw [haddrs, if_neg (by decide)]
  have hind' : ((s.vol ip).inode (s.icache ip).inum).addrs 12 = (s.icache ip).d.addrs 12 := by
    rw [vol_inode_self]
  apply wp_get_bind
  rw [hind]
  apply wp_ite
  · intro hz
    refine wp_pure ⟨hf.mono fun q b hh => ⟨fun hq => by omega, fun _ => ?_⟩, fun c hc => ?_⟩
    · by_contra hq
      refine hh.ne (hh.eq.symm.trans ?_)
      unfold Vol.held
      rw [hind', if_pos hz]
      split
      · rw [(by omega : q = 12), hind', hz]
      · rfl
    · rw [haddrs]
      split
      · rfl
      · rw [(by omega : c = 12), hz]
  intro hne
  have hheld (j : Nat) : (s.vol ip).held (s.icache ip).inum (j + 13) =
      (s.disk.data ((s.icache ip).d.addrs 12)).word j := by
    rw [held_entry (by rwa [hind']), hind']
    rfl
  apply wp_bind (P := fun _ u => Freed sb ip s u (fun q => q < 12 ∨ 13 ≤ q ∧ q < 141) ∧
    u.icache = t.icache) (F := fun _ _ => False)
  · apply (wp_forM_range (fun j u => Freed sb ip s u (fun q => q < 12 ∨ 13 ≤ q ∧ q < j + 13) ∧
      u.icache = t.icache) ⟨hf.mono fun q b _ => by omega, rfl⟩ ?_).post (fun _ _ h => h)
    rintro j u hj ⟨hf', hic⟩
    rw [hf.data, ← hheld]
    apply wp_ite
    · intro hz
      refine wp_pure ⟨hf'.mono fun q b hh => ⟨fun hq => by omega, fun hq => ?_⟩, hic⟩
      by_contra hno
      have hqj : q = j + 13 := by omega
      rw [hqj] at hh
      exact hh.ne (hh.eq.symm.trans hz)
    · intro hnz
      have hh : Holds sb (s.vol ip) (s.icache ip).inum (j + 13)
          ((s.vol ip).held (s.icache ip).inum (j + 13)) := ⟨hi, by omega, rfl, hnz⟩
      apply (bfree_wp hf' ho hh (by omega)).post
      rintro _ w ⟨hw, hic'⟩
      exact ⟨hw.mono fun q b _ => by omega, hic'.trans hic⟩
  · exact fun _ _ h => h
  · rintro _ u ⟨hf', hic⟩
    have hh : Holds sb (s.vol ip) (s.icache ip).inum 12 ((s.icache ip).d.addrs 12) :=
      ⟨hi, by decide, by rw [held_of_lt (by decide), hind'], hne⟩
    apply wp_seq (bfree_wp hf' ho hh (by omega))
    rintro _ w ⟨hw, hic'⟩
    refine wp_modify ⟨(hw.clear 12).mono fun q b hh => ?_, fun c hc => ?_⟩
    · have := hh.lt
      omega
    · simp only [Fs.setCopy, Fs.setInode, update_self, Dinode.setAddr, hic', hic]
      by_cases hc12 : c = 12
      · rw [hc12, update_self]
      · rw [update_of_ne hc12, haddrs, if_pos (by omega)]

def Superblock.bitmapBlock (sb : Superblock) (x : Nat) : Prop := ∃ b, b < sb.size ∧ x = sb.bblock b

structure Removed (sb : Superblock) (v v' : Vol) (i : Nat) : Prop where
  owned : Owned sb v'
  others : ∀ j, j ≠ i → Untouched v v' j
  free : (v'.inode i).type = .free

structure FreedInode (sb : Superblock) (ip : Slot) (s t : Fs) : Prop where
  removed : Removed sb (s.vol ip) t.disk (s.icache ip).inum
  others : ∀ jp, jp ≠ ip → t.icache jp = s.icache jp
  inum : (t.icache ip).inum = (s.icache ip).inum
  logs : ∀ x ∈ t.logged, x ∈ s.logged ∨ x = sb.iblock (s.icache ip).inum ∨ sb.bitmapBlock x

theorem Freed.inum {P : Nat → Prop} (h : Freed sb ip s t P) :
    (t.icache ip).inum = (s.icache ip).inum := by
  rw [h.icache, update_self]

theorem Freed.removed (h : Freed sb ip s t (· < 141)) (ho : Owned sb (s.vol ip)) {w : Vol}
    (hother : ∀ j, j ≠ (s.icache ip).inum → w.inode j = s.disk.inode j)
    (haddrs : ∀ c, c < 13 → (w.inode (s.icache ip).inum).addrs c = 0)
    (hfree : (w.inode (s.icache ip).inum).type = .free) (hused : w.used = t.disk.used)
    (hdata : w.data = t.disk.data) : Removed sb (s.vol ip) w (s.icache ip).inum := by
  have hun : ∀ j, j ≠ (s.icache ip).inum → Untouched (s.vol ip) w j := by
    intro j hj
    refine ⟨(hother j hj).trans (vol_inode_of_ne hj).symm, fun _ _ _ => ?_⟩
    rw [hdata, h.data]
    rfl
  refine ⟨ho.remove hun (fun p _ => ?_) (fun hl => (hl.2 hfree).elim) fun b => ?_, hun, hfree⟩
  · unfold Vol.held
    split
    · exact haddrs p ‹_›
    · rw [haddrs 12 (by decide), if_pos rfl]
  rw [hused, h.used]
  constructor
  · rintro ⟨hb, hn⟩
    exact ⟨hb, fun p hh => hn p hh.lt hh⟩
  · rintro ⟨hb, hn⟩
    exact ⟨hb, fun p _ => hn p⟩

theorem itrunc_wp (ho : Owned sb (s.vol ip)) (hi : (s.vol ip).live sb (s.icache ip).inum) :
    Wp (itrunc sb ip) s
      (fun _ t => ∃ u, Freed sb ip s u (· < 141) ∧ (∀ c, c < 13 → (u.icache ip).d.addrs c = 0) ∧
        t = u.store sb ip { (u.icache ip).d with size := 0 })
      fun _ _ => False := by
  apply wp_seq (truncAddrs_wp ho hi)
  rintro _ t ⟨hf, haddrs⟩
  apply wp_seq (truncIndirect_wp ho hi hf haddrs)
  rintro _ u ⟨hf, haddrs⟩
  exact wp_store (g := fun d => { d with size := 0 }) ⟨u, hf, haddrs, rfl⟩

theorem ifree_wp (ho : Owned sb (s.vol ip)) (hi : (s.vol ip).live sb (s.icache ip).inum) :
    Wp (ifree sb ip) s (fun _ t => FreedInode sb ip s t) fun _ _ => False := by
  apply wp_seq (itrunc_wp ho hi)
  rintro _ _ ⟨u, hf, haddrs, rfl⟩
  apply wp_store_bind (g := fun d => { d with type := .free })
  have hinum := hf.inum
  refine wp_modify ⟨hf.removed ho (fun j hj => ?_) (fun c hc => ?_) ?_ rfl rfl, fun jp hj => ?_, ?_,
    fun x hx => ?_⟩
  · rw [← hinum] at hj
    simp only [Fs.setInode, Fs.store, Vol.setInode, update_self, update_of_ne hj,
      hf.inode]
  · simp only [Fs.setInode, Fs.store, Vol.setInode, update_self, hinum]
    exact haddrs c hc
  · simp only [Fs.setInode, Fs.store, Vol.setInode, update_self, hinum]
  · rw [Fs.setInode_of_ne hj]
    simp only [Fs.store, update_of_ne hj]
    rw [hf.icache, update_of_ne hj]
  · rw [Fs.setInode_self, store_icache_self, store_icache_self, hinum]
  · simp only [Fs.setInode, Fs.store, update_self, List.mem_cons, hinum] at hx
    rcases hx with hx | hx | hx
    · exact .inr (.inl hx)
    · exact .inr (.inl hx)
    · rcases hf.logs x hx with hx | ⟨p, b, hh, rfl⟩
      · exact .inl hx
      · exact .inr (.inr ⟨b, (ho.area _ p b hh).2, rfl⟩)

end Xv6Signals
