import Mathlib.Data.Finset.Basic
import Mathlib.Logic.Function.Basic

namespace Lib
open Function

/-- A table of slots, each of them free or with a key and a value. -/
abbrev Slots (κ α : Type) := Nat → Option (κ × α)

variable {κ α : Type} {t : Slots κ α} {k n m : Nat} {x y : κ} {a b : α}

def Slots.Distinct (t : Slots κ α) : Prop :=
  ∀ j k x a b, t j = some (x, a) → t k = some (x, b) → j = k

def Slots.Below (t : Slots κ α) (n : Nat) : Prop := ∀ k, n ≤ k → t k = none

def Slots.get [DecidableEq κ] (t : Slots κ α) (n : Nat) (x : κ) : Option α :=
  (List.range n).findSome? fun k => (t k).bind fun e => if e.1 = x then some e.2 else none

theorem Slots.bind_eq_some_iff [DecidableEq κ] :
    ((t k).bind fun e => if e.1 = x then some e.2 else none) = some a ↔ t k = some (x, a) := by
  constructor
  · intro h
    obtain ⟨⟨y, c⟩, hk, he⟩ := Option.bind_eq_some_iff.1 h
    split at he
    · rename_i hy
      cases he
      rw [hk, ← hy]
    · cases he
  · intro h
    rw [h, Option.bind_some, if_pos rfl]

theorem Slots.get_of_first [DecidableEq κ] (hk : t k = some (x, a)) (hlt : k < n)
    (hno : ∀ j, j < k → ∀ b, t j ≠ some (x, b)) : t.get n x = some a := by
  refine List.findSome?_eq_some_iff.2 ⟨List.range' 0 k, k, List.range' (k + 1) (n - (k + 1)), ?_,
    Slots.bind_eq_some_iff.2 hk, fun j hj => ?_⟩
  · rw [← List.range'_succ, List.range_eq_range', (by omega : n = k + (n - (k + 1) + 1)),
      ← List.range'_append_1, Nat.zero_add]
    congr 2
    omega
  · have hj := (List.mem_range'_1.1 hj).2
    exact Option.eq_none_iff_forall_ne_some.2 fun b hb =>
      hno j (by omega) b (Slots.bind_eq_some_iff.1 hb)

theorem Slots.get_of_none [DecidableEq κ] (hno : ∀ k a, t k ≠ some (x, a)) (n : Nat) :
    t.get n x = none :=
  List.findSome?_eq_none_iff.2 fun k _ => Option.eq_none_iff_forall_ne_some.2 fun a ha =>
    hno k a (Slots.bind_eq_some_iff.1 ha)

theorem Slots.exists_of_get [DecidableEq κ] (h : t.get n x = some a) : ∃ k, t k = some (x, a) := by
  obtain ⟨k, -, hk⟩ := List.exists_of_findSome?_eq_some h
  exact ⟨k, Slots.bind_eq_some_iff.1 hk⟩

theorem Slots.get_eq_some_iff [DecidableEq κ] (hd : t.Distinct) (hn : t.Below n) :
    t.get n x = some a ↔ ∃ k, t k = some (x, a) := by
  constructor
  · exact Slots.exists_of_get
  rintro ⟨k, hk⟩
  apply Slots.get_of_first hk
  · by_contra hlt
    rw [hn k (Nat.le_of_not_lt hlt)] at hk
    cases hk
  · intro j hj b hjb
    have := hd j k x b a hjb hk
    omega

theorem Slots.get_eq_none_iff [DecidableEq κ] (hd : t.Distinct) (hn : t.Below n) :
    t.get n x = none ↔ ∀ k a, t k ≠ some (x, a) := by
  constructor
  · intro h k a hk
    rw [(Slots.get_eq_some_iff hd hn).2 ⟨k, hk⟩] at h
    cases h
  · exact fun h => Slots.get_of_none h n

theorem Slots.Distinct.put (hd : t.Distinct) (k : Nat) (hx : ∀ j a, t j ≠ some (x, a)) :
    Slots.Distinct (update t k (some (x, a))) := by
  have hold (j : Nat) (c : α) (hj : update t k (some (x, a)) j = some (x, c)) : j = k := by
    by_contra hne
    rw [update_of_ne hne] at hj
    exact hx j c hj
  intro i j y b c hi hj
  by_cases hik : i = k
  · rw [hik, update_self] at hi
    cases hi
    rw [hik, hold j c hj]
  by_cases hjk : j = k
  · rw [hjk, update_self] at hj
    cases hj
    rw [hjk, hold i b hi]
  · rw [update_of_ne hik] at hi
    rw [update_of_ne hjk] at hj
    exact hd i j y b c hi hj

theorem Slots.Distinct.clear (hd : t.Distinct) (k : Nat) : Slots.Distinct (update t k none) := by
  intro i j y b c hi hj
  have hik : i ≠ k := by
    rintro rfl
    rw [update_self] at hi
    cases hi
  have hjk : j ≠ k := by
    rintro rfl
    rw [update_self] at hj
    cases hj
  rw [update_of_ne hik] at hi
  rw [update_of_ne hjk] at hj
  exact hd i j y b c hi hj

section
variable [DecidableEq κ]

theorem Slots.get_put (hd : t.Distinct) (hn : t.Below n) (hfree : t k = none)
    (hx : ∀ j a, t j ≠ some (x, a)) (hm : Slots.Below (update t k (some (x, a))) m) :
    Slots.get (update t k (some (x, a))) m = update (t.get n) x (some a) := by
  have hd' := hd.put (a := a) k hx
  funext y
  apply Option.ext
  intro b
  rw [Slots.get_eq_some_iff hd' hm]
  by_cases hy : y = x
  · subst hy
    rw [update_self]
    constructor
    · rintro ⟨j, hj⟩
      by_cases hjk : j = k
      · rw [hjk, update_self] at hj
        cases hj
        rfl
      · rw [update_of_ne hjk] at hj
        exact (hx j b hj).elim
    · intro h
      cases h
      exact ⟨k, update_self ..⟩
  · rw [update_of_ne hy, Slots.get_eq_some_iff hd hn]
    constructor
    · rintro ⟨j, hj⟩
      by_cases hjk : j = k
      · rw [hjk, update_self] at hj
        cases hj
        exact (hy rfl).elim
      · rw [update_of_ne hjk] at hj
        exact ⟨j, hj⟩
    · rintro ⟨j, hj⟩
      refine ⟨j, ?_⟩
      rw [update_of_ne]
      · exact hj
      · rintro rfl
        rw [hfree] at hj
        cases hj

theorem Slots.get_clear (hd : t.Distinct) (hn : t.Below n) (hk : t k = some (x, a))
    (hm : Slots.Below (update t k none) m) :
    Slots.get (update t k none) m = update (t.get n) x none := by
  have hd' := hd.clear k
  funext y
  apply Option.ext
  intro b
  rw [Slots.get_eq_some_iff hd' hm]
  by_cases hy : y = x
  · subst hy
    rw [update_self]
    constructor
    · rintro ⟨j, hj⟩
      by_cases hjk : j = k
      · rw [hjk, update_self] at hj
        cases hj
      · rw [update_of_ne hjk] at hj
        exact (hjk (hd j k y b a hj hk)).elim
    · intro h
      cases h
  rw [update_of_ne hy, Slots.get_eq_some_iff hd hn]
  constructor
  · rintro ⟨j, hj⟩
    by_cases hjk : j = k
    · rw [hjk, update_self] at hj
      cases hj
    · rw [update_of_ne hjk] at hj
      exact ⟨j, hj⟩
  rintro ⟨j, hj⟩
  refine ⟨j, ?_⟩
  rw [update_of_ne]
  · exact hj
  · rintro rfl
    rw [hk] at hj
    cases hj
    exact hy rfl

end

end Lib
