import Xv6Signals.Fs.Edit

namespace Xv6Signals
open Lib List

variable {sb : Superblock} {v v' : Vol} {i j k n off : Nat} {p q name : List Byte} {bs : List Byte}
  {de : Dirent}

/-- What a name means: the bytes before the first NUL, at most `n` of them. -/
def cut (n : Nat) (p : List Byte) : List Byte := (p.takeWhile (· ≠ 0)).take n

theorem cut_succ (n : Nat) (p : List Byte) :
    cut (n + 1) p = if p.headD 0 = 0 then [] else p.headD 0 :: cut n p.tail := by
  cases p with
  | nil => rfl
  | cons b p =>
    unfold cut
    by_cases hb : b = 0
    · rw [headD_cons, if_pos hb, takeWhile_cons_of_neg (by simpa using hb), take_nil]
    · rw [headD_cons, if_neg hb, takeWhile_cons_of_pos (by simpa using hb),
        take_succ_cons, tail_cons]

theorem strncmp_eq_zero_iff (n : Nat) (p q : List Byte) :
    strncmp n p q = 0 ↔ cut n p = cut n q := by
  induction n generalizing p q with
  | zero => simp [strncmp, cut]
  | succ n ih =>
    rw [cut_succ, cut_succ, strncmp]
    by_cases hp : p.headD 0 = 0
    · rw [if_neg fun h => h.1 hp, if_pos hp, hp]
      split
      · simp_all
      rename_i hq
      have : (q.headD 0).toNat ≠ 0 := fun h => hq (BitVec.eq_of_toNat_eq h)
      have hzero : (0 : Byte).toNat = 0 := rfl
      rw [hzero]
      constructor
      · intro h
        exact (this (by omega)).elim
      · intro h
        cases h
    · rw [if_neg hp]
      by_cases hpq : p.headD 0 = q.headD 0
      · rw [if_pos ⟨hp, hpq⟩, ih, ← hpq, if_neg hp]
        simp
      rw [if_neg fun h => hpq h.2]
      have : (p.headD 0).toNat ≠ (q.headD 0).toNat := fun h => hpq (BitVec.eq_of_toNat_eq h)
      split
      · simp_all
      · simp only [List.cons.injEq, hpq, false_and, iff_false]
        omega

theorem namecmp_eq_zero_iff (p q : List Byte) : namecmp p q = 0 ↔ cut 14 p = cut 14 q :=
  strncmp_eq_zero_iff 14 p q

theorem length_strncpy (n : Nat) (p : List Byte) : (strncpy n p).length = n := by
  induction n generalizing p with
  | zero => rfl
  | succ n ih =>
    unfold strncpy
    split
    · exact length_replicate
    · rw [length_cons, ih]

theorem cut_strncpy (n : Nat) (p : List Byte) : cut n (strncpy n p) = cut n p := by
  induction n generalizing p with
  | zero => rfl
  | succ n ih =>
    rw [cut_succ, cut_succ, strncpy]
    split
    · simp [replicate_succ]
    · rename_i hne
      simp only [headD_cons, tail_cons, if_neg hne, ih]

theorem decode_encode (h : de.inum < 2 ^ 16) : Dirent.decode de.encode = de := by
  obtain ⟨inum, name⟩ := de
  have h : inum < 2 ^ 16 := h
  simp only [Dirent.encode, Dirent.decode, getD_cons_zero, getD_cons_succ,
    drop_succ_cons, drop_zero, BitVec.toNat_ofNat, Dirent.mk.injEq, and_true]
  omega

theorem decode_zero : Dirent.decode (List.replicate 16 0) = ⟨0, List.replicate 14 0⟩ := rfl

theorem length_encode (de : Dirent) : de.encode.length = de.name.length + 2 := rfl

theorem Written.entry_self (h : Written sb v v' i (16 * k) bs) (hlen : bs.length = 16) :
    v'.entry i k = .decode bs := by
  have hread : (v'.byte i).read (16 * k) 16 = bs := by
    have hw := Bytes.read_write (v.byte i) (16 * k) bs
    rw [hlen] at hw
    refine (Bytes.read_congr fun c hc => ?_).trans hw
    exact h.bytes _ (.inr ⟨by omega, by omega⟩)
  rw [Vol.entry, hread]

theorem Written.entry_of_ne (h : Written sb v v' i (16 * k) bs) (hlen : bs.length = 16)
    (hj : j ≠ k) (hsize : 16 * j + 16 ≤ (v.inode i).size) : v'.entry i j = v.entry i j := by
  have hread : (v'.byte i).read (16 * j) 16 = (v.byte i).read (16 * j) 16 := by
    apply Bytes.read_congr
    intro c hc
    rw [h.bytes _ (.inl (by omega)), Bytes.write_outside (by omega)]
  rw [Vol.entry, hread]
  rfl

theorem Written.entry_others (h : Written sb v v' i off bs) (ho : Owned sb v) (hj : j ≠ i)
    (hl : v.live sb j) (hsize : 16 * k + 16 ≤ (v.inode j).size) : v'.entry j k = v.entry j k :=
  (h.others j hj hl).entry ho hl hsize

end Xv6Signals
