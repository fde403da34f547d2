import Xv6Signals.Lib.Memory

namespace Lib
open List

abbrev Bytes := Nat → Byte

variable {m : Bytes} {a i j k n v : Nat} {bs : List Byte}

def Bytes.read (m : Bytes) (a n : Nat) : List Byte := (List.range n).map fun i => m (a + i)

def Bytes.write (m : Bytes) (a : Nat) (bs : List Byte) : Bytes :=
  fun k => if a ≤ k then bs.getD (k - a) (m k) else m k

@[simp] theorem Bytes.length_read (m : Bytes) (a n : Nat) : (m.read a n).length = n := by
  rw [Bytes.read, length_map, length_range]

theorem Bytes.getElem_read (h : i < (m.read a n).length) : (m.read a n)[i] = m (a + i) := by
  simp only [Bytes.read, getElem_map, getElem_range]

theorem Bytes.read_add (m : Bytes) (a n k : Nat) :
    m.read a (n + k) = m.read a n ++ m.read (a + n) k := by
  simp only [Bytes.read, range_add, map_append, map_map]
  congr 1
  apply map_congr_left
  intro i _
  show m (a + (n + i)) = m (a + n + i)
  rw [Nat.add_assoc]

theorem Bytes.read_congr {m' : Bytes} (h : ∀ i, i < n → m (a + i) = m' (a + i)) :
    m.read a n = m'.read a n := by
  apply map_congr_left
  intro i hi
  exact h i (mem_range.1 hi)

theorem Bytes.write_at (h : i < bs.length) : m.write a bs (a + i) = bs[i] := by
  rw [Bytes.write, if_pos (Nat.le_add_right a i), Nat.add_sub_cancel_left,
    getD_eq_getElem _ _ h]

theorem Bytes.write_outside (h : k < a ∨ a + bs.length ≤ k) : m.write a bs k = m k := by
  unfold Bytes.write
  split
  · rw [getD_eq_default _ _ (by omega)]
  · rfl

theorem Bytes.read_write (m : Bytes) (a : Nat) (bs : List Byte) :
    (m.write a bs).read a bs.length = bs := by
  apply ext_getElem
  · rw [Bytes.length_read]
  · intro i h h'
    rw [Bytes.getElem_read, Bytes.write_at h']

theorem Bytes.read_write_outside (h : j + n ≤ a ∨ a + bs.length ≤ j) :
    (m.write a bs).read j n = m.read j n := by
  apply Bytes.read_congr
  intro i hi
  apply Bytes.write_outside
  omega

theorem Bytes.write_nil (m : Bytes) (a : Nat) : m.write a [] = m := by
  funext k
  apply Bytes.write_outside
  rw [length_nil]
  omega

theorem Bytes.write_append (m : Bytes) (a : Nat) (bs cs : List Byte) :
    m.write a (bs ++ cs) = (m.write a bs).write (a + bs.length) cs := by
  funext k
  simp only [Bytes.write, getD_eq_getElem?_getD]
  by_cases hk : a + bs.length ≤ k
  · have hle : bs.length ≤ k - a := by omega
    rw [if_pos (by omega : a ≤ k), if_pos hk, getElem?_append_right hle,
      getElem?_eq_none hle, Option.getD_none, Nat.sub_sub, ite_self]
  · rw [if_neg hk]
    by_cases ha : a ≤ k
    · rw [if_pos ha, if_pos ha, getElem?_append_left (by omega)]
    · rw [if_neg ha, if_neg ha]

theorem Bytes.write_congr {m' : Bytes} (h : m k = m' k ∨ a ≤ k ∧ k < a + bs.length) :
    m.write a bs k = m'.write a bs k := by
  rcases h with h | ⟨hle, hlt⟩
  · simp only [Bytes.write, h]
  · have hi : k - a < bs.length := by omega
    simp only [Bytes.write, if_pos hle, getD_eq_getElem _ _ hi]

def Bytes.wordAt (m : Bytes) (a : Nat) : Nat := (bytesWord (m.read a 4)).toNat

def Bytes.setWordAt (m : Bytes) (a v : Nat) : Bytes := m.write a (wordBytes (BitVec.ofNat 32 v))

theorem Bytes.wordAt_lt (m : Bytes) (a : Nat) : m.wordAt a < 2 ^ 32 := BitVec.isLt _

theorem Bytes.wordAt_setWordAt (m : Bytes) (a v : Nat) :
    (m.setWordAt a v).wordAt a = v % 2 ^ 32 := by
  have h := m.read_write a (wordBytes (BitVec.ofNat 32 v))
  rw [length_wordBytes] at h
  rw [Bytes.wordAt, Bytes.setWordAt, h, bytesWord_wordBytes, BitVec.toNat_ofNat]

theorem Bytes.wordAt_setWordAt_outside (h : k + 4 ≤ a ∨ a + 4 ≤ k) :
    (m.setWordAt a v).wordAt k = m.wordAt k := by
  rw [Bytes.wordAt, Bytes.setWordAt, Bytes.read_write_outside, Bytes.wordAt]
  rw [length_wordBytes]
  exact h

def Bytes.word (m : Bytes) (j : Nat) : Nat := (bytesWord (m.read (4 * j) 4)).toNat

def Bytes.setWord (m : Bytes) (j v : Nat) : Bytes := m.write (4 * j) (wordBytes (BitVec.ofNat 32 v))

theorem Bytes.word_setWord (m : Bytes) (j : Nat) (hv : v < 2 ^ 32) : (m.setWord j v).word j = v :=
  (m.wordAt_setWordAt (4 * j) v).trans (Nat.mod_eq_of_lt hv)

theorem Bytes.word_setWord_of_ne (h : k ≠ j) : (m.setWord j v).word k = m.word k :=
  Bytes.wordAt_setWordAt_outside (by omega)

@[simp] theorem Bytes.word_zero (j : Nat) : Bytes.word (fun _ => 0) j = 0 := by
  have h : bytesWord ((List.range 4).map fun _ => (0 : Byte)) = 0 := by decide
  rw [Bytes.word, Bytes.read, h]
  rfl

end Lib
