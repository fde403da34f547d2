import Mathlib.Algebra.Ring.Nat
import Mathlib.Data.List.GetD
import Mathlib.Logic.Function.Basic

namespace Lib
open List BitVec

abbrev Byte := BitVec 8

/-- A byte-addressed memory with `w`-bit addresses, which wrap around. -/
abbrev Mem (w : Nat) := BitVec w → Byte

variable {w : Nat} {m m' : Mem w} {a b x : BitVec w} {bs : List Byte}

def offset (a x : BitVec w) : Nat := (x - a).toNat

theorem offset_add (a : BitVec w) {i : Nat} (hi : i < 2 ^ w) :
    offset a (a + BitVec.ofNat w i) = i := by
  have h : a + BitVec.ofNat w i - a = BitVec.ofNat w i := by
    rw [BitVec.add_comm, BitVec.add_sub_cancel]
  rw [offset, h, toNat_ofNat, Nat.mod_eq_of_lt hi]

theorem add_offset (a x : BitVec w) : a + BitVec.ofNat w (offset a x) = x := by
  rw [offset, ofNat_toNat, setWidth_eq, BitVec.add_comm, BitVec.sub_add_cancel]

def Mem.store (m : Mem w) (a : BitVec w) (bs : List Byte) : Mem w :=
  fun x => bs.getD (offset a x) (m x)

theorem Mem.store_outside (h : bs.length ≤ offset a x) : m.store a bs x = m x := by
  rw [Mem.store, getD_eq_default _ _ h]

theorem Mem.store_at {i : Nat} (hi : i < bs.length) (hw : bs.length ≤ 2 ^ w) :
    m.store a bs (a + BitVec.ofNat w i) = bs[i] := by
  rw [Mem.store, offset_add a (by omega), getD_eq_getElem _ _ hi]

def Mem.load (m : Mem w) (a : BitVec w) (n : Nat) : List Byte :=
  (List.range n).map fun i => m (a + BitVec.ofNat w i)

@[simp] theorem Mem.length_load (m : Mem w) (a : BitVec w) (n : Nat) : (m.load a n).length = n := by
  simp only [Mem.load, length_map, length_range]

theorem Mem.load_congr {n : Nat}
    (h : ∀ i, i < n → m (a + BitVec.ofNat w i) = m' (a + BitVec.ofNat w i)) :
    m.load a n = m'.load a n := by
  apply map_congr_left
  intro i hi
  exact h i (mem_range.1 hi)

theorem Mem.load_store (m : Mem w) (a : BitVec w) (bs : List Byte) (hw : bs.length ≤ 2 ^ w) :
    (m.store a bs).load a bs.length = bs := by
  apply ext_getElem
  · simp only [Mem.length_load]
  · intro i h₁ h₂
    simp only [Mem.load, getElem_map, getElem_range]
    exact Mem.store_at h₂ hw

theorem Mem.load_store_disjoint {n : Nat}
    (h : ∀ i, i < n → bs.length ≤ offset b (a + BitVec.ofNat w i)) :
    (m.store b bs).load a n = m.load a n :=
  Mem.load_congr fun i hi => Mem.store_outside (h i hi)

def wordBytes (v : BitVec 32) : List Byte :=
  [v.extractLsb' 0 8, v.extractLsb' 8 8, v.extractLsb' 16 8, v.extractLsb' 24 8]

def bytesWord : List Byte → BitVec 32
  | [b₀, b₁, b₂, b₃] => b₃ ++ b₂ ++ b₁ ++ b₀
  | _ => 0

@[simp] theorem length_wordBytes (v : BitVec 32) : (wordBytes v).length = 4 := rfl

theorem bytesWord_wordBytes (v : BitVec 32) : bytesWord (wordBytes v) = v := by
  apply eq_of_getLsbD_eq
  intro i hi
  simp only [wordBytes, bytesWord, getLsbD_append, getLsbD_extractLsb']
  split
  · simp_all
  split
  · rename_i h₀ h₁
    simp only [h₁, decide_true, Bool.true_and]
    congr 1
    omega
  split
  · rename_i h₀ h₁ h₂
    simp only [h₂, decide_true, Bool.true_and]
    congr 1
    omega
  · rename_i h₀ h₁ h₂
    rw [decide_eq_true (by omega), Bool.true_and]
    congr 1
    omega

theorem wordBytes_bytesWord (b₀ b₁ b₂ b₃ : Byte) :
    wordBytes (bytesWord [b₀, b₁, b₂, b₃]) = [b₀, b₁, b₂, b₃] := by
  have h (v : BitVec 32) (s : Nat) (b : Byte)
      (hv : ∀ i, i < 8 → v.getLsbD (s + i) = b.getLsbD i) : v.extractLsb' s 8 = b := by
    apply eq_of_getLsbD_eq
    intro i hi
    rw [getLsbD_extractLsb', decide_eq_true hi, Bool.true_and, hv i hi]
  simp only [wordBytes, bytesWord, List.cons.injEq, and_true]
  refine ⟨h _ _ _ ?_, h _ _ _ ?_, h _ _ _ ?_, h _ _ _ ?_⟩
  all_goals
    intro i hi
    simp only [getLsbD_append]
  · rw [if_pos (by omega), Nat.zero_add]
  · rw [if_neg (by omega), if_pos (by omega), Nat.add_sub_cancel_left]
  · rw [if_neg (by omega), if_neg (by omega), if_pos (by omega)]
    congr 1
    omega
  · rw [if_neg (by omega), if_neg (by omega), if_neg (by omega)]
    congr 1
    omega

def Mem.loadWord (m : Mem w) (a : BitVec w) : BitVec 32 := bytesWord (m.load a 4)

def Mem.storeWord (m : Mem w) (a : BitVec w) (v : BitVec 32) : Mem w := m.store a (wordBytes v)

theorem Mem.loadWord_storeWord (m : Mem 32) (a : BitVec 32) (v : BitVec 32) :
    (m.storeWord a v).loadWord a = v := by
  have h := m.load_store a (wordBytes v) (by rw [length_wordBytes]; decide)
  rw [length_wordBytes] at h
  rw [Mem.loadWord, Mem.storeWord, h, bytesWord_wordBytes]

theorem Mem.loadWord_storeWord_next (m : Mem 32) (a : BitVec 32) (v : BitVec 32) :
    (m.storeWord (a + 4) v).loadWord a = m.loadWord a := by
  rw [Mem.loadWord, Mem.storeWord, Mem.load_store_disjoint, Mem.loadWord]
  intro i hi
  rw [length_wordBytes, offset]
  bv_omega

theorem Mem.store_load (m : Mem w) (a : BitVec w) (n : Nat) : m.store a (m.load a n) = m := by
  funext x
  by_cases h : offset a x < n
  · have hlen : offset a x < (m.load a n).length := by
      rw [Mem.length_load]
      exact h
    rw [Mem.store, getD_eq_getElem _ _ hlen]
    simp only [Mem.load, getElem_map, getElem_range, add_offset]
  · rw [Mem.store_outside]
    rw [Mem.length_load]
    omega

theorem Mem.storeWord_loadWord (m : Mem w) (a : BitVec w) : m.storeWord a (m.loadWord a) = m := by
  have hload := m.store_load a 4
  have hbytes : m.load a 4 = [m (a + BitVec.ofNat w 0), m (a + BitVec.ofNat w 1),
    m (a + BitVec.ofNat w 2), m (a + BitVec.ofNat w 3)] := rfl
  rw [hbytes] at hload
  rw [Mem.storeWord, Mem.loadWord, hbytes, wordBytes_bytesWord, hload]

def wordsBytes (vs : List (BitVec 32)) : List Byte := vs.flatMap wordBytes

def bytesWords : List Byte → List (BitVec 32)
  | b₀ :: b₁ :: b₂ :: b₃ :: bs => bytesWord [b₀, b₁, b₂, b₃] :: bytesWords bs
  | _ => []

theorem length_wordsBytes (vs : List (BitVec 32)) : (wordsBytes vs).length = 4 * vs.length := by
  induction vs with
  | nil => rfl
  | cons v vs ih =>
    have h : wordsBytes (v :: vs) = wordBytes v ++ wordsBytes vs := rfl
    rw [h, length_append, ih, length_wordBytes, length_cons]
    omega

theorem bytesWords_wordsBytes (vs : List (BitVec 32)) : bytesWords (wordsBytes vs) = vs := by
  induction vs with
  | nil => rfl
  | cons v vs ih =>
    change bytesWord (wordBytes v) :: bytesWords (wordsBytes vs) = v :: vs
    rw [bytesWord_wordBytes, ih]

end Lib
