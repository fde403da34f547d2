import Mathlib.Logic.Function.Iterate
import Mathlib.Logic.Function.Basic

namespace Lib
open Function

variable {A β : Type} [DecidableEq A] {next : A → A} {m : A → β} {d s x : A} {i j n : Nat}

/-- Values are copied one after the other, from `s` on to the places from `d` on; each of them is
read when its turn comes. -/
def copy (next : A → A) (m : A → β) (d s : A) : Nat → A → β
  | 0 => m
  | n + 1 => copy next (update m d (m s)) (next d) (next s) n

theorem copy_succ (next : A → A) (m : A → β) (d s : A) (n : Nat) : copy next m d s (n + 1) =
      update (copy next m d s n) (next^[n] d) (copy next m d s n (next^[n] s)) := by
  induction n generalizing m d s with
  | zero => rfl
  | succ n ih => exact ih (update m d (m s)) (next d) (next s)

theorem copy_outside (h : ∀ i, i < n → x ≠ next^[i] d) : copy next m d s n x = m x := by
  induction n with
  | zero => rfl
  | succ n ih =>
    rw [copy_succ, update_of_ne (h n (Nat.lt_succ_self n))]
    exact ih fun i hi => h i (Nat.lt_succ_of_lt hi)

section Places
variable (hd : ∀ i j, i < j → j < n → next^[i] d ≠ next^[j] d)
include hd

theorem copy_at (hi : i < n) : copy next m d s n (next^[i] d) = copy next m d s i (next^[i] s) := by
  induction n with
  | zero => exact (Nat.not_lt_zero i hi).elim
  | succ n ih =>
    rw [copy_succ]
    rcases Nat.lt_or_eq_of_le (Nat.le_of_lt_succ hi) with hlt | rfl
    · rw [update_of_ne (hd i n hlt (Nat.lt_succ_self n))]
      exact ih (fun i j hij hj => hd i j hij (Nat.lt_succ_of_lt hj)) hlt
    · rw [update_self]

theorem copy_eq (hi : i < n) (hs : ∀ j, j < i → next^[i] s ≠ next^[j] d) :
    copy next m d s n (next^[i] d) = m (next^[i] s) := by
  rw [copy_at hd hi, copy_outside hs]

/-- What is read from a place that was written before is what was written there. -/
theorem copy_again (hi : i < n) (hj : j < i) (hs : next^[i] s = next^[j] d) :
    copy next m d s n (next^[i] d) = copy next m d s n (next^[j] d) := by
  have hd' (k l : Nat) (hkl : k < l) (hl : l < i) : next^[k] d ≠ next^[l] d :=
    hd k l hkl (Nat.lt_trans hl hi)
  rw [copy_at hd hi, hs, copy_at hd' hj, copy_at hd (Nat.lt_trans hj hi)]

end Places

end Lib
