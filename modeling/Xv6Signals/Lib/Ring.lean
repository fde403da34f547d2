import Mathlib.Algebra.Ring.Nat
import Mathlib.Data.List.Basic
import Mathlib.Logic.Function.Basic

namespace Lib
open List BitVec Nat

universe u

variable {α : Type u} {w n : Nat} {cells : Nat → α} {lo hi : BitVec w} {items front rest : List α}
  {x : α}

def cellOf (n : Nat) (c : BitVec w) : Nat := c.toNat % n

/-- A ring of `n` cells holds these items from the counter `lo` up to the counter `hi`, both of
which wrap around. -/
structure Ring (n : Nat) (cells : Nat → α) (lo hi : BitVec w) (items : List α) : Prop where
  top : hi = lo + BitVec.ofNat w items.length
  room : items.length ≤ n
  get : ∀ i, items[i]? = none ∨ items[i]? = some (cells (cellOf n (lo + BitVec.ofNat w i)))

/-- The number of cells divides the range of the counters and is smaller. -/
structure RingSize (n w : Nat) : Prop where
  dvd : n ∣ 2 ^ w
  lt : n < 2 ^ w

theorem RingSize.cellOf_add (hn : RingSize n w) (c : BitVec w) (i : Nat) :
    cellOf n (c + BitVec.ofNat w i) = (c.toNat + i) % n := by
  rw [cellOf, toNat_add, toNat_ofNat, add_mod_mod, mod_mod_of_dvd _ hn.dvd]

theorem RingSize.cellOf_ne (hn : RingSize n w) (c : BitVec w) {i j : Nat} (hij : i < j)
    (hj : j < i + n) : cellOf n (c + BitVec.ofNat w i) ≠ cellOf n (c + BitVec.ofNat w j) := by
  rw [hn.cellOf_add, hn.cellOf_add]
  intro h
  have hdvd := dvd_of_mod_eq_zero (sub_mod_eq_zero_of_mod_eq h.symm)
  have hle := le_of_dvd (by omega) hdvd
  omega

theorem Ring.nil (n : Nat) (cells : Nat → α) (c : BitVec w) : Ring n cells c c [] where
  top := (BitVec.add_zero c).symm
  room := Nat.zero_le n
  get := fun _ => .inl rfl

section
variable (hn : RingSize n w) (h : Ring n cells lo hi items)
include hn h

theorem Ring.length_lt : items.length < 2 ^ w := Nat.lt_of_le_of_lt h.room hn.lt

theorem Ring.count : (hi - lo).toNat = items.length := by
  have hlt := h.length_lt hn
  rw [h.top, BitVec.add_comm, BitVec.add_sub_cancel, toNat_ofNat, mod_eq_of_lt hlt]

theorem Ring.empty_iff : lo = hi ↔ items = [] := by
  rw [← length_eq_zero_iff, ← h.count hn]
  constructor
  · intro he
    rw [he, BitVec.sub_self]
    rfl
  · intro h0
    have hsub : hi - lo = 0#w := eq_of_toNat_eq h0
    rw [← BitVec.sub_add_cancel hi lo, hsub, BitVec.zero_add]

theorem Ring.full_iff : hi = lo + BitVec.ofNat w n ↔ items.length = n := by
  have hlt := h.length_lt hn
  constructor
  · intro he
    rw [← h.count hn, he, BitVec.add_comm, BitVec.add_sub_cancel, toNat_ofNat,
      mod_eq_of_lt hn.lt]
  · intro hl
    rw [h.top, hl]

theorem Ring.push (x : α) (hl : items.length < n) :
    Ring n (Function.update cells (cellOf n hi) x) lo (hi + 1) (items ++ [x]) where
  top := by
    rw [length_append, length_singleton, ofNat_add, ← BitVec.add_assoc, ← h.top]
    rfl
  room := by
    rw [length_append, length_singleton]
    exact hl
  get := by
    intro i
    rcases Nat.lt_trichotomy i items.length with hi | rfl | hi
    · rw [getElem?_append_left hi, Function.update_of_ne]
      · exact h.get i
      · rw [h.top]
        exact hn.cellOf_ne lo hi (by omega)
    · rw [h.top, Function.update_self, getElem?_append_right (Nat.le_refl _), Nat.sub_self]
      exact .inr rfl
    · left
      rw [List.getElem?_eq_none_iff, length_append, length_singleton]
      exact hi

end

theorem Ring.get_lt (h : Ring n cells lo hi items) {i : Nat} (hi : i < items.length) :
    items[i]? = some (cells (cellOf n (lo + BitVec.ofNat w i))) := by
  rcases h.get i with hget | hget
  · rw [List.getElem?_eq_none_iff] at hget
    omega
  · exact hget

theorem Ring.head (h : Ring n cells lo hi (x :: rest)) : cells (cellOf n lo) = x := by
  rcases h.get 0 with h0 | h0
  · cases h0
  · rw [BitVec.add_zero] at h0
    exact (Option.some.inj h0).symm

theorem Ring.tail (h : Ring n cells lo hi (x :: rest)) : Ring n cells (lo + 1) hi rest where
  top := by
    rw [h.top, length_cons, Nat.add_comm, ofNat_add, BitVec.add_assoc]
    rfl
  room := le_of_succ_le h.room
  get := by
    intro i
    have hi := h.get (i + 1)
    rw [getElem?_cons_succ, Nat.add_comm, ofNat_add, ← BitVec.add_assoc] at hi
    exact hi

theorem Ring.left (h : Ring n cells lo hi (front ++ rest)) :
    Ring n cells lo (lo + BitVec.ofNat w front.length) front where
  top := rfl
  room := by
    have hroom := h.room
    rw [length_append] at hroom
    exact le_of_add_right_le hroom
  get := by
    intro i
    by_cases hi : i < front.length
    · have hget := h.get i
      rw [getElem?_append_left hi] at hget
      exact hget
    · exact .inl (List.getElem?_eq_none_iff.2 (Nat.le_of_not_lt hi))

theorem Ring.init (h : Ring n cells lo hi (front ++ [x])) : Ring n cells lo (hi - 1) front := by
  have hi : hi - 1 = lo + BitVec.ofNat w front.length := by
    rw [h.top, length_append, length_singleton, ofNat_add, ← BitVec.add_assoc]
    exact BitVec.add_sub_cancel _ _
  rw [hi]
  exact h.left

theorem Ring.right (h : Ring n cells lo hi (front ++ rest)) :
    Ring n cells (lo + BitVec.ofNat w front.length) hi rest where
  top := by
    rw [h.top, length_append, ofNat_add, BitVec.add_assoc]
  room := by
    have hroom := h.room
    rw [length_append] at hroom
    exact le_of_add_left_le hroom
  get := by
    intro i
    have hget := h.get (front.length + i)
    rw [getElem?_append_right (Nat.le_add_right _ _), Nat.add_sub_cancel_left,
      ofNat_add, ← BitVec.add_assoc] at hget
    exact hget

def spanOf (n : Nat) (cells : Nat → α) (lo hi : BitVec w) : List α :=
  (List.range (hi - lo).toNat).map fun i => cells (cellOf n (lo + BitVec.ofNat w i))

theorem Ring.span (hn : RingSize n w) (h : Ring n cells lo hi items) :
    spanOf n cells lo hi = items := by
  rw [spanOf, h.count hn]
  apply ext_getElem?
  intro i
  rw [getElem?_map]
  by_cases hi : i < items.length
  · rw [getElem?_range hi, Option.map_some]
    exact (h.get_lt hi).symm
  · rw [List.getElem?_eq_none_iff.2 (by rw [length_range]; omega), Option.map_none,
      List.getElem?_eq_none_iff.2 (by omega)]

end Lib
