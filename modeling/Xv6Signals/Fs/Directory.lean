import Xv6Signals.Fs.Cache

namespace Xv6Signals
open Lib List

variable {sb : Superblock} {s t u : Fs} {ip jp dp : Slot} {v v' : Vol} {i j d k n m off inum : Nat}
  {R : Slot → Nat} {L : Finset Slot} {bs name : List Byte} {test : Dirent → Bool} {msg : FsPanic}
  {ms : Nat → Prop}

def Scanned (v : Vol) (d k : Nat) (test : Dirent → Bool) (r : Nat × Option Dirent) : Prop :=
  match r.2 with
  | some de => ∃ c, k ≤ c ∧ r.1 = 16 * c ∧ 16 * c + 16 ≤ (v.inode d).size ∧ de = v.entry d c ∧
      test de = true ∧ ∀ j, k ≤ j → j < c → test (v.entry d j) = false
  | none => r.1 = max (16 * k) (v.inode d).size ∧ ∀ j, k ≤ j → 16 * j < (v.inode d).size →
      16 * j + 16 ≤ (v.inode d).size ∧ test (v.entry d j) = false

theorem findEntry_wp (fuel : Nat) (ho : Owned sb (s.vol dp))
    (hi : (s.vol dp).live sb (s.icache dp).inum) (hfuel : (s.icache dp).d.size < 16 * (fuel + k)) :
    Wp (findEntry sb dp msg test fuel (16 * k)) s
      (fun r t => t = s ∧ Scanned (s.vol dp) (s.icache dp).inum k test r)
      (fun e t => e = msg ∧ (s.icache dp).d.size % 16 ≠ 0 ∧ t = s) := by
  have hself := vol_inode_self s dp
  have hmax := ho.size_le hi
  induction fuel generalizing k with
  | zero =>
    refine wp_pure ⟨rfl, ?_, fun j hj hlt => ?_⟩
    · rw [hself]
      omega
    · rw [hself] at hlt
      omega
  | succ fuel ih =>
    apply wp_get_bind
    apply wp_ite
    · intro hlt
      apply wp_step (readi_wp ho hi (16 * k) 16)
      rintro r t ⟨hr, rfl⟩
      rw [hself] at hmax
      rw [if_neg (by omega)] at hr
      subst hr
      apply wp_ite
      · intro hlen
        rw [Option.getD_some, Bytes.length_read] at hlen
        have hk : 16 * k + 16 ≤ (t.icache dp).d.size := by omega
        rw [hlen, Option.getD_some]
        apply wp_ite
        · intro htest
          refine wp_pure ⟨rfl, k, le_rfl, rfl, ?_, rfl, htest, fun j hj hlt => by omega⟩
          rwa [hself]
        intro htest
        have htest : test ((t.vol dp).entry (t.icache dp).inum k) = false := by
          exact Bool.eq_false_iff.2 htest
        rw [(by omega : 16 * k + 16 = 16 * (k + 1))]
        apply (ih (by omega)).post
        rintro ⟨c, r⟩ u ⟨rfl, hr⟩
        refine ⟨rfl, ?_⟩
        cases r with
        | some de =>
          obtain ⟨c, hc, hoff, hsize, hde, hok, hno⟩ := hr
          refine ⟨c, by omega, hoff, hsize, hde, hok, fun j hj hlt => ?_⟩
          by_cases hjk : j = k
          · rwa [hjk]
          · exact hno j (by omega) hlt
        | none =>
          obtain ⟨hoff, hno⟩ := hr
          refine ⟨?_, fun j hj hlt => ?_⟩
          · rw [hself] at hoff ⊢
            omega
          · by_cases hjk : j = k
            · rw [hjk, hself]
              exact ⟨hk, htest⟩
            · exact hno j (by omega) hlt
      · intro hlen
        rw [Option.getD_some, Bytes.length_read] at hlen
        exact wp_throw ⟨rfl, by omega, rfl⟩
    · intro hlt
      refine wp_pure ⟨rfl, ?_, fun j hj hlt => ?_⟩
      · rw [hself]
        omega
      · rw [hself] at hlt
        omega

theorem scanDir_wp (ho : Owned sb (s.vol dp)) (hi : (s.vol dp).live sb (s.icache dp).inum)
    (msg : FsPanic) (test : Dirent → Bool) (k : Nat) :
    Wp (scanDir sb dp msg test (16 * k)) s
      (fun r t => t = s ∧ Scanned (s.vol dp) (s.icache dp).inum k test r)
      (fun e t => e = msg ∧ (s.icache dp).d.size % 16 ≠ 0 ∧ t = s) := by
  apply wp_get_bind
  exact findEntry_wp _ ho hi (by omega)

def Vol.names (v : Vol) (d k : Nat) (name : List Byte) : Prop :=
  16 * k + 16 ≤ (v.inode d).size ∧ (v.entry d k).inum ≠ 0 ∧ namecmp name (v.entry d k).name = 0

def Looked (sb : Superblock) (R : Slot → Nat) (L : Finset Slot) (s : Fs) (d : Nat)
    (name : List Byte) (r : Option (Slot × Nat)) (t : Fs) : Prop :=
  match r with
  | none => t = s ∧ ∀ k, ¬ s.disk.names d k name
  | some (ip, off) => Sound sb (addRef R ip) L t ∧ Stays R s t ∧ Same s t ∧
      (R ip = 0 → (t.icache ip).valid = false) ∧
      ∃ k, off = 16 * k ∧ s.disk.names d k name ∧ (∀ j, j < k → ¬ s.disk.names d j name) ∧
        (t.icache ip).inum = (s.disk.entry d k).inum

theorem dirlookup_sound (h : Sound sb R L s) (hdp : dp ∈ L) (name : List Byte) :
    Wp (dirlookup sb dp name) s
      (fun r t => (s.icache dp).d.type = .dir ∧ Looked sb R L s (s.icache dp).inum name r t)
      (fun e t => (e = .dirlookupNotDir ∧ (s.icache dp).d.type ≠ .dir ∨
        e = .dirlookupRead ∧ (s.icache dp).d.size % 16 ≠ 0 ∨
        e = .igetNoInodes ∧ ∀ jp, 0 < R jp) ∧ t = s) := by
  have hvol := h.vol_eq hdp
  have hi := h.live hdp
  have ho := h.proper.owned
  apply wp_get_bind
  apply wp_ite
  · exact fun hd => wp_throw ⟨.inl ⟨rfl, hd⟩, rfl⟩
  intro hd
  have hd := Decidable.not_not.1 hd
  apply wp_bind (scanDir_wp (by rwa [hvol]) (by rwa [hvol]) .dirlookupRead _ 0)
  · rintro e t ⟨he, hmod, rfl⟩
    exact ⟨.inr (.inl ⟨he, hmod⟩), rfl⟩
  rintro ⟨off, r⟩ t ⟨rfl, hr⟩
  rw [hvol] at hr
  cases r with
  | none =>
    refine wp_pure ⟨hd, rfl, fun k hk => ?_⟩
    have hno := (hr.2 k (Nat.zero_le k) (by have := hk.1; omega)).2
    exact of_decide_eq_false hno hk.2
  | some de =>
    obtain ⟨k, -, hoff, hk, hde, htest, hno⟩ := hr
    subst hde
    have htest := of_decide_eq_true htest
    have hlt := h.proper.inRange _ k hi (by rw [h.inode_eq hdp]; exact hd) hk
    apply wp_bind (iget_sound h hlt)
    · rintro e u ⟨he, rfl⟩
      exact ⟨.inr (.inr he), rfl⟩
    · rintro ip u ⟨hu, hs, hsame, hinum, hnew⟩
      refine wp_pure ⟨hd, hu, hs, hsame, hnew, k, hoff, ⟨hk, htest⟩, fun j hj hn => ?_, hinum⟩
      exact of_decide_eq_false (hno j (Nat.zero_le j) hj) hn.2

theorem dirlookup_safe (h : Sound sb R L s) (hdp : dp ∈ L) (name : List Byte) :
    Wp (dirlookup sb dp name) s
      (fun r t => (s.icache dp).d.type = .dir ∧ Looked sb R L s (s.icache dp).inum name r t)
      (fun e t => e ≠ .freeingFreeBlock ∧ t = s) := by
  apply (dirlookup_sound h hdp name).mono (fun _ _ hr => hr)
  rintro e t ⟨he, rfl⟩
  refine ⟨?_, rfl⟩
  rintro rfl
  simp at he

def Within (ms : Nat → Prop) (n : Nat) (s t : Fs) : Prop :=
  ∃ l : List Nat, l.length ≤ n ∧ ∀ x ∈ t.logged, x ∈ s.logged ∨ ms x ∨ x ∈ l

theorem Within.trans (h : Within ms n s t) (h' : Within ms m t u) : Within ms (n + m) s u := by
  obtain ⟨l, hl, hx⟩ := h
  obtain ⟨l', hl', hx'⟩ := h'
  refine ⟨l ++ l', by rw [length_append]; omega, fun x hm => ?_⟩
  rw [mem_append]
  rcases hx' x hm with hm | hm | hm
  · rcases hx x hm with hm | hm | hm
    · exact .inl hm
    · exact .inr (.inl hm)
    · exact .inr (.inr (.inl hm))
  · exact .inr (.inl hm)
  · exact .inr (.inr (.inr hm))

theorem Within.mono (h : Within ms n s t) (hle : n ≤ m) : Within ms m s t := by
  obtain ⟨l, hl, hx⟩ := h
  exact ⟨l, hl.trans hle, hx⟩

theorem Within.of_logs (h : ∀ x ∈ t.logged, x ∈ s.logged ∨ ms x) (n : Nat) : Within ms n s t :=
  ⟨[], Nat.zero_le n, fun x hx => (h x hx).imp_right .inl⟩

theorem Within.of_cons {x : Nat} (h : t.logged = x :: s.logged) (hx : ms x) : Within ms 0 s t := by
  refine .of_logs (fun y hy => ?_) 0
  rw [h] at hy
  rcases mem_cons.1 hy with rfl | hy
  · exact .inr hx
  · exact .inl hy

theorem Same.within (h : Same s t) (ms : Nat → Prop) (n : Nat) : Within ms n s t :=
  .of_logs (fun _ hx => .inl (h.2 ▸ hx)) n

theorem Within.after_same (h : Same s t) (h' : Within ms n t u) : Within ms n s u := by
  obtain ⟨l, hl, hx⟩ := h'
  rw [h.2] at hx
  exact ⟨l, hl, hx⟩

theorem Within.before_same (h : Within ms n s t) (h' : Same t u) : Within ms n s u := by
  obtain ⟨l, hl, hx⟩ := h
  rw [← h'.2] at hx
  exact ⟨l, hl, hx⟩

def placesOf (off n : Nat) : List Nat :=
  12 :: (List.range' (off / 512) ((off + n - 1) / 512 + 1 - off / 512)).map place

theorem mem_placesOf {p : Nat} (h : touches off n p) (hn : 0 < n) : p ∈ placesOf off n := by
  unfold touches at h
  by_cases hp : p = 12
  · exact hp ▸ mem_cons_self
  apply mem_cons_of_mem
  rw [mem_map]
  split at h
  · refine ⟨p, mem_range'_1.2 (by omega), ?_⟩
    rw [place, if_pos ‹_›]
  · refine ⟨p - 1, mem_range'_1.2 (by omega), ?_⟩
    rw [place, if_neg (by omega)]
    omega

theorem WriteLogs.within (h : WriteLogs sb ip s t off n)
    (ho : Owned sb (t.vol ip)) (hi : (t.vol ip).live sb (s.icache ip).inum) (hn : 0 < n)
    (hm : (placesOf off n).length ≤ m) (hms : ms (sb.iblock (s.icache ip).inum))
    (hbm : ∀ x, sb.bitmapBlock x → ms x) : Within ms m s t := by
  refine ⟨(placesOf off n).map ((t.vol ip).held (s.icache ip).inum), ?_, fun x hx => ?_⟩
  · rwa [length_map]
  rcases h x hx with hx | rfl | ⟨p, hp, ht, hne, hx⟩
  · exact .inl hx
  · exact .inr (.inl hms)
  · rcases hx with rfl | ⟨-, rfl⟩
    · exact .inr (.inr (mem_map_of_mem (mem_placesOf ht hn)))
    · exact .inr (.inl (hbm _ ⟨_, (ho.area _ p _ ⟨hi, hp, rfl, hne⟩).2, rfl⟩))

theorem length_placesOf_entry (k : Nat) : (placesOf (16 * k) 16).length = 2 := by
  rw [placesOf, length_cons, length_map, length_range']
  omega

theorem WroteTo.within (h : WroteTo sb ip s t off n bs) (hn : 0 < n)
    (hi : (s.vol ip).live sb (s.icache ip).inum)
    (hm : (placesOf off n).length ≤ m) (hms : ms (sb.iblock (s.icache ip).inum))
    (hbm : ∀ x, sb.bitmapBlock x → ms x) : Within ms m s t := by
  have hlogs : WriteLogs sb ip s t off n := fun x hx => (h.logs x hx).imp_right .inr
  exact hlogs.within h.edit.owned ((h.edit.live _).2 hi) hn hm hms hbm

structure Added (sb : Superblock) (v v' : Vol) (d k inum : Nat) (name : List Byte) : Prop where
  written : Written sb v v' d (16 * k) (Dirent.encode ⟨inum, strncpy 14 name⟩)
  le : 16 * k ≤ (v.inode d).size
  free : 16 * k < (v.inode d).size → 16 * k + 16 ≤ (v.inode d).size ∧ (v.entry d k).inum = 0

theorem length_entry (inum : Nat) (name : List Byte) :
    (Dirent.encode ⟨inum, strncpy 14 name⟩).length = 16 := by
  rw [length_encode, length_strncpy]

theorem writeEntry_sound (ms : Nat → Prop) (h : Sound sb R L s) (hdp : dp ∈ L)
    (hd : (s.icache dp).d.type = .dir) (hlen : bs.length = 16)
    (hinum : (Dirent.decode bs).inum < sb.ninodes)
    (hle : 16 * k ≤ (s.disk.inode (s.icache dp).inum).size)
    (hms : ms (sb.iblock (s.icache dp).inum)) (hbm : ∀ x, sb.bitmapBlock x → ms x) :
    Wp (writei sb dp (16 * k) bs) s
      (fun r t => Within ms 2 s t ∧ (r ≠ 16 ∨ r = 16 ∧ Sound sb R L t ∧ Stays R s t ∧
        Written sb s.disk t.disk (s.icache dp).inum (16 * k) bs))
      (fun e t => e = .outOfBlocks ∧ Within ms 2 s t) := by
  have hvol := h.vol_eq hdp
  have hi := h.live hdp
  have ho := h.proper.owned
  have hplaces : (placesOf (16 * k) bs.length).length ≤ 2 := by
    rw [hlen, length_placesOf_entry]
  apply (writei_wp (16 * k) (by rwa [hvol]) (by rwa [hvol]) (by rw [hd]; decide)
    (by rw [hlen]; decide)).mono
  · rintro r t ⟨hbad, hok⟩
    by_cases href : Refused (s.icache dp).d.size (16 * k) bs.length
    · obtain ⟨rfl, rfl⟩ := hbad href
      exact ⟨(Same.refl t).within ms 2, .inl (by decide)⟩
    obtain ⟨rfl, hst⟩ := hok href
    obtain ⟨hw, hkeep⟩ := h.stored hdp hst
    obtain ⟨ht, hs⟩ := hkeep (h.proper.entry hw hlen hle hinum)
    refine ⟨hst.logs.within hst.written.owned ?_ (by omega) hplaces hms hbm, .inr ⟨?_, ht, hs, hw⟩⟩
    · exact (hst.written.live _).2 (by rwa [hvol])
    · rw [hlen]
      rfl
  · rintro e t ⟨he, -, ⟨bs', hw⟩, -⟩
    exact ⟨he, hw.within (by omega) (by rwa [hvol]) hplaces hms hbm⟩

theorem addEntry_sound (ms : Nat → Prop) (h : Sound sb R L s) (hdp : dp ∈ L)
    (hd : (s.icache dp).d.type = .dir) (hinum : inum < sb.ninodes)
    (hms : ms (sb.iblock (s.icache dp).inum)) (hbm : ∀ x, sb.bitmapBlock x → ms x) :
    Wp (addEntry sb dp name inum) s
      (fun r t => r = 0 ∧ Sound sb R L t ∧ Stays R s t ∧ Within ms 2 s t ∧
        ∃ k, Added sb s.disk t.disk (s.icache dp).inum k inum name)
      (fun e t => (e = .dirlinkRead ∨ e = .dirlink ∨ e = .outOfBlocks) ∧ Within ms 2 s t) := by
  have hvol := h.vol_eq hdp
  have hi := h.live hdp
  have ho := h.proper.owned
  apply wp_bind (scanDir_wp (by rwa [hvol]) (by rwa [hvol]) .dirlinkRead _ 0)
  · rintro e t ⟨he, -, rfl⟩
    exact ⟨.inl he, (Same.refl t).within ms 2⟩
  rintro ⟨off, r⟩ t ⟨rfl, hr⟩
  rw [hvol] at hr
  -- where the new entry goes
  have hplace : ∃ k, off = 16 * k ∧ 16 * k ≤ (t.disk.inode (t.icache dp).inum).size ∧
      (16 * k < (t.disk.inode (t.icache dp).inum).size →
        16 * k + 16 ≤ (t.disk.inode (t.icache dp).inum).size ∧
          (t.disk.entry (t.icache dp).inum k).inum = 0) := by
    cases r with
    | none =>
      obtain ⟨hoff, hall⟩ := hr
      have hmod : (t.disk.inode (t.icache dp).inum).size % 16 = 0 := by
        by_contra hmod
        have := (hall ((t.disk.inode (t.icache dp).inum).size / 16) (Nat.zero_le _) (by omega)).1
        omega
      exact ⟨(t.disk.inode (t.icache dp).inum).size / 16, by omega, by omega, fun hlt => by omega⟩
    | some de =>
      obtain ⟨k, -, hoff, hk, rfl, htest, -⟩ := hr
      exact ⟨k, hoff, by omega, fun _ => ⟨hk, of_decide_eq_true htest⟩⟩
  obtain ⟨k, rfl, hle, hfree⟩ := hplace
  have hdec : (Dirent.decode (Dirent.encode ⟨inum, strncpy 14 name⟩)).inum < sb.ninodes := by
    rw [decode_encode (hinum.trans_le sb.ninodes_le)]
    exact hinum
  apply wp_bind (writeEntry_sound ms h hdp hd (length_entry inum name) hdec hle hms hbm)
  · rintro e u ⟨he, hin⟩
    exact ⟨.inr (.inr he), hin⟩
  rintro r u ⟨hin, hr⟩
  apply wp_ite
  · exact fun _ => wp_throw ⟨.inr (.inl rfl), hin⟩
  · intro hok
    rcases hr with hr | ⟨-, hu, hs, hw⟩
    · exact (hok hr).elim
    · exact wp_pure ⟨rfl, hu, hs, hin, k, hw, hle, hfree⟩

theorem dirlink_sound (ms : Nat → Prop) (h : Sound sb R L s) (hdp : dp ∈ L)
    (hinum : inum < sb.ninodes) (hms : ms (sb.iblock (s.icache dp).inum))
    (hbm : ∀ x, sb.bitmapBlock x → ms x) :
    Wp (dirlink sb dp name inum) s
      (fun r t => (s.icache dp).d.type = .dir ∧ Sound sb R L t ∧ Stays R s t ∧ Within ms 2 s t ∧
        (r = -1 ∧ Same s t ∧ (∃ k, s.disk.names (s.icache dp).inum k name) ∨
          r = 0 ∧ (∀ k, ¬ s.disk.names (s.icache dp).inum k name) ∧
            ∃ k, Added sb s.disk t.disk (s.icache dp).inum k inum name))
      (fun e t => e ≠ .freeingFreeBlock ∧ Within ms 2 s t) := by
  apply wp_bind (dirlookup_safe h hdp name)
  · rintro e t ⟨he, rfl⟩
    exact ⟨he, (Same.refl t).within ms 2⟩
  rintro r t ⟨hd, hr⟩
  cases r with
  | none =>
    obtain ⟨rfl, hno⟩ := hr
    apply (addEntry_sound ms h hdp hd hinum hms hbm).mono
    · rintro r u ⟨hr, hu, hs, hin, hadd⟩
      exact ⟨hd, hu, hs, hin, .inr ⟨hr, hno, hadd⟩⟩
    rintro e u ⟨he, hin⟩
    refine ⟨?_, hin⟩
    rintro rfl
    simp at he
  | some r =>
    obtain ⟨ht, hs, hsame, hnew, k, -, hk, -, -⟩ := hr
    apply wp_bind (iput_sound ht)
    · rintro e u ⟨rfl, -, rfl⟩
      exact ⟨by decide, hsame.within ms 2⟩
    rintro _ u ⟨hu, hs', hput⟩
    -- the reference was taken by the lookup, so it is not the last one of a valid entry
    have hsame' := hput.none fun hlast => by
      have := hnew hlast.1
      rw [hlast.2.1] at this
      cases this
    have hsame := hsame.trans hsame'
    exact wp_pure ⟨hd, hu, hs.trans hs', hsame.within ms 2, .inl ⟨rfl, hsame, k, hk⟩⟩

theorem isdirempty_sound (h : Sound sb R L s) (hdp : dp ∈ L) :
    Wp (isdirempty sb dp) s (fun _ t => t = s) (fun e t => e = .isdirempty ∧ t = s) := by
  have hvol := h.vol_eq hdp
  have hi := h.live hdp
  have ho := h.proper.owned
  apply wp_bind (scanDir_wp (by rwa [hvol]) (by rwa [hvol]) .isdirempty _ 2)
  · exact fun _ _ h => ⟨h.1, h.2.2⟩
  · exact fun _ _ h => wp_pure h.1

end Xv6Signals
