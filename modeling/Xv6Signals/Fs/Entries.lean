import Xv6Signals.Fs.Effects
import Xv6Signals.Lib.Slots

namespace Xv6Signals
open Lib Function

variable {sb : Superblock} {v v' : Vol} {d i j k n inum off : Nat} {x name bs : List Byte}

def Vol.slots (v : Vol) (d : Nat) : Slots (List Byte) Nat := fun k =>
  if 16 * k + 16 ≤ (v.inode d).size ∧ (v.entry d k).inum ≠ 0 then
    some (cut 14 (v.entry d k).name, (v.entry d k).inum)
  else none

theorem slots_eq_some_iff : v.slots d k = some (x, i) ↔
    16 * k + 16 ≤ (v.inode d).size ∧ i ≠ 0 ∧ (v.entry d k).inum = i ∧
      cut 14 (v.entry d k).name = x := by
  unfold Vol.slots
  constructor
  · intro h
    split at h
    · rename_i hk
      cases h
      exact ⟨hk.1, hk.2, rfl, rfl⟩
    · cases h
  · rintro ⟨hk, hne, rfl, rfl⟩
    rw [if_pos ⟨hk, hne⟩]

theorem slots_eq_none_iff : v.slots d k = none ↔
    (16 * k + 16 ≤ (v.inode d).size → (v.entry d k).inum = 0) := by
  unfold Vol.slots
  split
  · rename_i hk
    exact ⟨(fun h => by cases h), fun h => (hk.2 (h hk.1)).elim⟩
  · rename_i hk
    exact ⟨fun _ hsize => by_contra fun hne => hk ⟨hsize, hne⟩, fun _ => rfl⟩

theorem names_iff_slots : v.names d k name ↔ ∃ i, v.slots d k = some (cut 14 name, i) := by
  simp only [slots_eq_some_iff]
  constructor
  · rintro ⟨hk, hne, hcmp⟩
    exact ⟨_, hk, hne, rfl, ((namecmp_eq_zero_iff ..).1 hcmp).symm⟩
  · rintro ⟨i, hk, hne, rfl, hname⟩
    exact ⟨hk, hne, (namecmp_eq_zero_iff ..).2 hname.symm⟩

theorem slots_below (v : Vol) (d : Nat) : (v.slots d).Below ((v.inode d).size / 16) := by
  intro k hk
  exact slots_eq_none_iff.2 fun hsize => by omega

theorem slots_congr (hsize : (v'.inode i).size = (v.inode i).size)
    (hentry : ∀ k, 16 * k + 16 ≤ (v.inode i).size → v'.entry i k = v.entry i k) :
    v'.slots i = v.slots i := by
  funext k
  unfold Vol.slots
  rw [hsize]
  by_cases hk : 16 * k + 16 ≤ (v.inode i).size
  · rw [hentry k hk]
  · rw [if_neg fun h => hk h.1, if_neg fun h => hk h.1]

theorem Untouched.slots (h : Untouched v v' i) (ho : Owned sb v) (hi : v.live sb i) :
    v'.slots i = v.slots i :=
  slots_congr (by rw [h.inode]) fun _ hk => h.entry ho hi hk

theorem Written.slots (h : Written sb v v' d (16 * k) bs) (hlen : bs.length = 16)
    (hle : 16 * k ≤ (v.inode d).size) :
    v'.slots d = update (v.slots d) k (if (Dirent.decode bs).inum ≠ 0 then
      some (cut 14 (Dirent.decode bs).name, (Dirent.decode bs).inum) else none) := by
  have hsize := h.size
  rw [hlen] at hsize
  funext j
  by_cases hj : j = k
  · rw [hj, update_self, Vol.slots, h.entry_self hlen, hsize]
    by_cases hz : (Dirent.decode bs).inum ≠ 0
    · rw [if_pos ⟨by omega, hz⟩, if_pos hz]
    · rw [if_neg fun he => hz he.2, if_neg hz]
  rw [update_of_ne hj, Vol.slots, Vol.slots, hsize]
  by_cases hk : 16 * j + 16 ≤ (v.inode d).size
  · rw [h.entry_of_ne hlen hj hk]
    simp only [hk, true_and, (by omega : 16 * j + 16 ≤ max (v.inode d).size (16 * k + 16))]
  · have hk' : ¬ 16 * j + 16 ≤ max (v.inode d).size (16 * k + 16) := by omega
    rw [if_neg fun he => hk' he.1, if_neg fun he => hk he.1]

theorem Added.free_slot (h : Added sb v v' d k inum name) : v.slots d k = none :=
  slots_eq_none_iff.2 fun hk => (h.free (by omega)).2

theorem Added.slots (h : Added sb v v' d k inum name) (hinum : inum < 2 ^ 16) :
    v'.slots d = update (v.slots d) k
      (if inum ≠ 0 then some (cut 14 name, inum) else none) := by
  rw [h.written.slots (length_entry inum name) h.le, decode_encode hinum, cut_strncpy]

theorem Written.slots_clear (h : Written sb v v' d (16 * k) (List.replicate 16 0))
    (hk : 16 * k + 16 ≤ (v.inode d).size) :
    v'.slots d = update (v.slots d) k none := by
  rw [h.slots List.length_replicate (by omega), decode_zero, if_neg (by decide)]

end Xv6Signals
