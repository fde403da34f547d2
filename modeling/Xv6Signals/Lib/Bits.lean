import Mathlib.Data.Fin.Basic

namespace Lib
open BitVec

variable {w : Nat} {v : BitVec w} {i : Fin w}

/-- The word `1 << i`, with which a word is read and written as a set of bit numbers. -/
def bit (i : Fin w) : BitVec w := 1#w <<< i.val

theorem getLsbD_bit (i : Fin w) (j : Nat) : (bit i).getLsbD j = decide (i.val = j) := by
  rw [bit, ← twoPow_eq, getLsbD_twoPow]
  simp only [i.isLt, decide_true, Bool.true_and]

theorem getLsbD_or_bit (v : BitVec w) (i : Fin w) (j : Nat) :
    (v ||| bit i).getLsbD j = (v.getLsbD j || decide (i.val = j)) := by
  rw [getLsbD_or, getLsbD_bit]

theorem getLsbD_clear (v : BitVec w) (i : Fin w) (j : Nat) :
    ((v ||| bit i) ^^^ bit i).getLsbD j = (v.getLsbD j && !decide (i.val = j)) := by
  rw [getLsbD_xor, getLsbD_or_bit, getLsbD_bit]
  cases v.getLsbD j <;> cases decide (i.val = j) <;> rfl

theorem clear_of_unset (h : v.getLsbD i = false) : (v ||| bit i) ^^^ bit i = v := by
  apply eq_of_getLsbD_eq
  intro j hj
  rw [getLsbD_clear]
  by_cases he : i.val = j
  · subst he
    rw [h, Bool.false_and]
  · rw [decide_eq_false he, Bool.not_false, Bool.and_true]

theorem eq_or_bit_iff (v : BitVec w) (i : Fin w) : v = v ||| bit i ↔ v.getLsbD i = true := by
  constructor
  · intro h
    rw [h, getLsbD_or_bit, decide_eq_true rfl, Bool.or_true]
  intro h
  apply eq_of_getLsbD_eq
  intro j hj
  rw [getLsbD_or_bit]
  by_cases he : i.val = j
  · subst he
    rw [h, Bool.true_or]
  · rw [decide_eq_false he, Bool.or_false]

theorem and_bit_eq_zero (v : BitVec w) (i : Fin w) : v &&& bit i = 0 ↔ v.getLsbD i = false := by
  constructor
  · intro h
    have hi := congrArg (fun u => u.getLsbD i) h
    rw [getLsbD_and, getLsbD_bit, decide_eq_true rfl, Bool.and_true] at hi
    exact hi.trans getLsbD_zero
  intro h
  apply eq_of_getLsbD_eq
  intro j hj
  rw [getLsbD_and, getLsbD_bit]
  by_cases he : i.val = j
  · subst he
    rw [h, Bool.false_and]
    exact getLsbD_zero.symm
  · rw [decide_eq_false he, Bool.and_false]
    exact getLsbD_zero.symm

end Lib
