import Xv6Signals.Fs.Calls

namespace Xv6Signals
open Lib Function

variable {sb : Superblock} {v v' w : Vol} {i j p q b b' k bn off n : Nat} {bs : List Byte}

/-- The block number at a place of an inode: 0 to 11 are the direct blocks, 12 is the indirect
block, and 13 to 140 are the entries of the indirect block. -/
def Vol.held (v : Vol) (i p : Nat) : Nat :=
  if p < 13 then (v.inode i).addrs p
  else if (v.inode i).addrs 12 = 0 then 0
  else (v.data ((v.inode i).addrs 12)).word (p - 13)

def place (bn : Nat) : Nat := if bn < 12 then bn else bn + 1

def Vol.addr (v : Vol) (i bn : Nat) : Nat := v.held i (place bn)

def Vol.byte (v : Vol) (i : Nat) : Bytes := fun k => v.data (v.addr i (k / 512)) (k % 512)

def Vol.entry (v : Vol) (i k : Nat) : Dirent := .decode ((v.byte i).read (16 * k) 16)

def Vol.live (sb : Superblock) (v : Vol) (i : Nat) : Prop :=
  i < sb.ninodes ∧ (v.inode i).type ≠ .free

instance decidableLive (sb : Superblock) (v : Vol) (i : Nat) : Decidable (v.live sb i) :=
  inferInstanceAs (Decidable (_ ∧ _))

structure Holds (sb : Superblock) (v : Vol) (i p b : Nat) : Prop where
  live : v.live sb i
  lt : p < 141
  eq : v.held i p = b
  ne : b ≠ 0

/-- Every block below the size of an inode is there; the blocks that inodes hold are data blocks
that are marked in the bitmap, each is held once, and nothing else is marked. -/
structure Owned (sb : Superblock) (v : Vol) : Prop where
  full : ∀ i bn, v.live sb i → bn * 512 < (v.inode i).size → bn < 140 ∧ v.addr i bn ≠ 0
  area : ∀ i p b, Holds sb v i p b → sb.nmeta ≤ b ∧ b < sb.size
  marked : ∀ i p b, Holds sb v i p b → v.used b = true
  once : ∀ i p j q b, Holds sb v i p b → Holds sb v j q b → i = j ∧ p = q
  found : ∀ b, sb.nmeta ≤ b → b < sb.size → v.used b = true → ∃ i p, Holds sb v i p b
  reserved : ∀ b, b < sb.nmeta → v.used b = true

theorem Superblock.nmeta_pos (sb : Superblock) : 0 < sb.nmeta := Nat.sub_pos_of_lt sb.nblocks_lt

theorem place_lt (h : bn < 140) : place bn < 141 := by
  unfold place
  split <;> omega

theorem place_ne (bn : Nat) : place bn ≠ 12 := by
  unfold place
  split <;> omega

theorem place_inj {bn' : Nat} (h : place bn = place bn') : bn = bn' := by
  unfold place at h
  split at h <;> split at h <;> omega

theorem held_of_lt (hp : p < 13) : v.held i p = (v.inode i).addrs p := if_pos hp

theorem held_eq_of_inode (hi : v'.inode i = v.inode i)
    (hd : v.held i 12 ≠ 0 → v'.data (v.held i 12) = v.data (v.held i 12)) (p : Nat) :
    v'.held i p = v.held i p := by
  rw [held_of_lt (by decide : 12 < 13)] at hd
  unfold Vol.held
  rw [hi]
  split
  · rfl
  · split
    · rfl
    · rename_i hne
      rw [hd hne]

structure Untouched (v v' : Vol) (i : Nat) : Prop where
  inode : v'.inode i = v.inode i
  data : ∀ p, p < 141 → v.held i p ≠ 0 → v'.data (v.held i p) = v.data (v.held i p)

theorem Untouched.refl (v : Vol) (i : Nat) : Untouched v v i := ⟨rfl, fun _ _ _ => rfl⟩

theorem Untouched.held (h : Untouched v v' i) (p : Nat) : v'.held i p = v.held i p :=
  held_eq_of_inode h.inode (h.data 12 (by decide)) p

theorem Untouched.trans (h : Untouched v v' i) (h' : Untouched v' w i) : Untouched v w i := by
  refine ⟨h'.inode.trans h.inode, fun p hp hne => ?_⟩
  have h₂ := h'.data p hp
  rw [h.held] at h₂
  exact (h₂ hne).trans (h.data p hp hne)

theorem Untouched.addr (h : Untouched v v' i) (bn : Nat) : v'.addr i bn = v.addr i bn :=
  h.held (place bn)

theorem Untouched.live (h : Untouched v v' i) : v'.live sb i ↔ v.live sb i := by
  rw [Vol.live, Vol.live, h.inode]

theorem Untouched.byte (h : Untouched v v' i) (hk : k < 140 * 512) (hne : v.addr i (k / 512) ≠ 0) :
    v'.byte i k = v.byte i k := by
  have hbn : k / 512 < 140 := by omega
  rw [Vol.byte, Vol.byte, h.addr, Vol.addr, h.data _ (place_lt hbn) hne]

theorem Owned.addr_ne (h : Owned sb v) (hi : v.live sb i) (hk : k < (v.inode i).size) :
    k < 140 * 512 ∧ v.addr i (k / 512) ≠ 0 := by
  have hfull := h.full i (k / 512) hi (by omega)
  exact ⟨by omega, hfull.2⟩

theorem Owned.size_le (h : Owned sb v) (hi : v.live sb i) : (v.inode i).size ≤ 140 * 512 := by
  by_contra hgt
  have := (h.addr_ne hi (Nat.lt_of_not_le hgt)).1
  omega

theorem Untouched.bytes (h : Untouched v v' i) (ho : Owned sb v) (hi : v.live sb i)
    (hk : k < (v.inode i).size) : v'.byte i k = v.byte i k := by
  obtain ⟨hlt, hne⟩ := ho.addr_ne hi hk
  exact h.byte hlt hne

theorem Untouched.entry (h : Untouched v v' i) (ho : Owned sb v) (hi : v.live sb i)
    (hk : 16 * k + 16 ≤ (v.inode i).size) : v'.entry i k = v.entry i k := by
  rw [Vol.entry, Vol.entry, Bytes.read_congr]
  intro j hj
  exact h.bytes ho hi (by omega)

theorem Owned.ne_of_free (h : Owned sb v) (hb : v.used b = false) (hh : Holds sb v i p b') :
    b' ≠ b := by
  rintro rfl
  exact Bool.false_ne_true (hb.symm.trans (h.marked i p b' hh))

theorem Owned.nmeta_le (h : Owned sb v) (hb : v.used b = false) : sb.nmeta ≤ b := by
  by_contra hlt
  exact Bool.false_ne_true (hb.symm.trans (h.reserved b (Nat.lt_of_not_le hlt)))

theorem Owned.congr (h : Owned sb v) (hlive : ∀ j, v'.live sb j ↔ v.live sb j)
    (hused : v'.used = v.used)
    (hheld : ∀ j q, v.live sb j → q < 141 → v'.held j q = v.held j q)
    (hfull : ∀ j bn, v.live sb j → bn * 512 < (v'.inode j).size → bn < 140 ∧ v'.addr j bn ≠ 0) :
    Owned sb v' := by
  have hholds (j q b : Nat) : Holds sb v' j q b ↔ Holds sb v j q b := by
    constructor
    · intro hh
      have hl := (hlive j).1 hh.live
      exact ⟨hl, hh.lt, (hheld j q hl hh.lt).symm.trans hh.eq, hh.ne⟩
    · intro hh
      exact ⟨(hlive j).2 hh.live, hh.lt, (hheld j q hh.live hh.lt).trans hh.eq, hh.ne⟩
  constructor
  · intro j bn hl
    exact hfull j bn ((hlive j).1 hl)
  · intro j q b hh
    exact h.area j q b ((hholds j q b).1 hh)
  · intro j q b hh
    rw [hused]
    exact h.marked j q b ((hholds j q b).1 hh)
  · intro j q j' q' b hh hh'
    exact h.once j q j' q' b ((hholds j q b).1 hh) ((hholds j' q' b).1 hh')
  · intro b hle hlt hb
    rw [hused] at hb
    obtain ⟨j, q, hh⟩ := h.found b hle hlt hb
    exact ⟨j, q, (hholds j q b).2 hh⟩
  · intro b hb
    rw [hused]
    exact h.reserved b hb

theorem Owned.extend (h : Owned sb v) (hi : v.live sb i) (hp : p < 141) (hzero : v.held i p = 0)
    (hfree : v.used b = false) (hb : b < sb.size) (hlive : ∀ j, v'.live sb j ↔ v.live sb j)
    (hsize : ∀ j, (v'.inode j).size = (v.inode j).size)
    (hused : v'.used = update v.used b true) (hnew : v'.held i p = b)
    (hheld : ∀ j q, v.live sb j → q < 141 → (j = i → q ≠ p) → v'.held j q = v.held j q) :
    Owned sb v' := by
  have hle := h.nmeta_le hfree
  have hpos := sb.nmeta_pos
  have hholds (j q c : Nat) : Holds sb v' j q c ↔ Holds sb v j q c ∨ j = i ∧ q = p ∧ c = b := by
    by_cases he : j = i ∧ q = p
    · obtain ⟨rfl, rfl⟩ := he
      constructor
      · intro hh
        exact .inr ⟨rfl, rfl, hh.eq.symm.trans hnew⟩
      · rintro (hh | ⟨-, -, rfl⟩)
        · exact (hh.ne (hh.eq.symm.trans hzero)).elim
        · exact ⟨(hlive j).2 hi, hp, hnew, by omega⟩
    · have hne : j = i → q ≠ p := fun hj hq => he ⟨hj, hq⟩
      constructor
      · intro hh
        have hl := (hlive j).1 hh.live
        exact .inl ⟨hl, hh.lt, (hheld j q hl hh.lt hne).symm.trans hh.eq, hh.ne⟩
      · rintro (hh | ⟨rfl, rfl, -⟩)
        · exact ⟨(hlive j).2 hh.live, hh.lt, (hheld j q hh.live hh.lt hne).trans hh.eq, hh.ne⟩
        · exact (he ⟨rfl, rfl⟩).elim
  constructor
  · intro j bn hl hlt
    rw [hsize] at hlt
    have hl := (hlive j).1 hl
    obtain ⟨hbn, hne⟩ := h.full j bn hl hlt
    refine ⟨hbn, ?_⟩
    rw [Vol.addr, hheld j _ hl (place_lt hbn)]
    · exact hne
    · rintro rfl hq
      rw [Vol.addr, hq, hzero] at hne
      exact hne rfl
  · intro j q c hh
    rcases (hholds j q c).1 hh with hh | ⟨-, -, rfl⟩
    · exact h.area j q c hh
    · exact ⟨hle, hb⟩
  · intro j q c hh
    rw [hused]
    rcases (hholds j q c).1 hh with hh | ⟨-, -, rfl⟩
    · rw [update_of_ne (h.ne_of_free hfree hh)]
      exact h.marked j q c hh
    · exact update_self ..
  · intro j q j' q' c hh hh'
    rcases (hholds j q c).1 hh with hh | ⟨rfl, rfl, rfl⟩ <;>
      rcases (hholds j' q' c).1 hh' with hh' | ⟨rfl, rfl, hc⟩
    · exact h.once j q j' q' c hh hh'
    · exact (h.ne_of_free hfree hh hc).elim
    · exact (h.ne_of_free hfree hh' rfl).elim
    · exact ⟨rfl, rfl⟩
  · intro c hle hlt hc
    rw [hused] at hc
    by_cases he : c = b
    · exact ⟨i, p, (hholds i p c).2 (.inr ⟨rfl, rfl, he⟩)⟩
    · rw [update_of_ne he] at hc
      obtain ⟨j, q, hh⟩ := h.found c hle hlt hc
      exact ⟨j, q, (hholds j q c).2 (.inl hh)⟩
  · intro c hc
    rw [hused]
    by_cases he : c = b
    · rw [he, update_self]
    · rw [update_of_ne he]
      exact h.reserved c hc

theorem Owned.remove (h : Owned sb v) (hother : ∀ j, j ≠ i → Untouched v v' j)
    (hnone : ∀ p, p < 141 → v'.held i p = 0) (hsize : v'.live sb i → (v'.inode i).size = 0)
    (hused : ∀ b, v'.used b = true ↔ v.used b = true ∧ ∀ p, ¬ Holds sb v i p b) :
    Owned sb v' := by
  have hholds (j q c : Nat) : Holds sb v' j q c ↔ Holds sb v j q c ∧ j ≠ i := by
    constructor
    · intro hh
      have hne : j ≠ i := by
        rintro rfl
        exact hh.ne (hh.eq.symm.trans (hnone q hh.lt))
      have hu := hother j hne
      exact ⟨⟨hu.live.1 hh.live, hh.lt, (hu.held q).symm.trans hh.eq, hh.ne⟩, hne⟩
    · rintro ⟨hh, hne⟩
      have hu := hother j hne
      exact ⟨hu.live.2 hh.live, hh.lt, (hu.held q).trans hh.eq, hh.ne⟩
  constructor
  · intro j bn hl hlt
    by_cases hj : j = i
    · subst hj
      rw [hsize hl] at hlt
      exact (Nat.not_lt_zero _ hlt).elim
    · have hu := hother j hj
      rw [hu.inode] at hlt
      rw [hu.addr]
      exact h.full j bn (hu.live.1 hl) hlt
  · intro j q c hh
    exact h.area j q c ((hholds j q c).1 hh).1
  · intro j q c hh
    obtain ⟨hh, hne⟩ := (hholds j q c).1 hh
    rw [hused]
    refine ⟨h.marked j q c hh, fun p hh' => ?_⟩
    exact hne (h.once j q i p c hh hh').1
  · intro j q j' q' c hh hh'
    exact h.once j q j' q' c ((hholds j q c).1 hh).1 ((hholds j' q' c).1 hh').1
  · intro c hle hlt hc
    obtain ⟨hc, hnot⟩ := (hused c).1 hc
    obtain ⟨j, q, hh⟩ := h.found c hle hlt hc
    refine ⟨j, q, (hholds j q c).2 ⟨hh, ?_⟩⟩
    rintro rfl
    exact hnot q hh
  · intro c hc
    rw [hused]
    refine ⟨h.reserved c hc, fun p hh => ?_⟩
    have := (h.area i p c hh).1
    omega

theorem Owned.create (h : Owned sb v) (hfree : (v.inode i).type = .free)
    (hother : ∀ j, j ≠ i → v'.inode j = v.inode j) (hsize : (v'.inode i).size = 0)
    (haddrs : ∀ k, (v'.inode i).addrs k = 0) (hused : v'.used = v.used) (hdata : v'.data = v.data) :
    Owned sb v' := by
  refine h.remove (i := i) (fun j hj => ⟨hother j hj, fun _ _ _ => by rw [hdata]⟩) (fun p _ => ?_)
    (fun _ => hsize) fun b => ?_
  · unfold Vol.held
    rw [haddrs, haddrs, if_pos rfl, ite_self]
  · rw [hused]
    exact ⟨fun hb => ⟨hb, fun p hh => hh.live.2 hfree⟩, fun hb => hb.1⟩

end Xv6Signals
