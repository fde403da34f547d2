import Mathlib.Data.Nat.SuccPred
import Xv6Signals.Lib.Bytes
import Xv6Signals.Lib.Copy

namespace Xv6Signals
open Lib Function Bytes

variable {m m' : Bytes} {dst src n : Nat}

/-- `memmove` of string.c. A target that begins inside the source is filled from its end: the two
pointers are decremented before each store. -/
def StringC.memmove (m : Bytes) (dst src n : Nat) : Bytes :=
  if src < dst ∧ dst < (src + n) % 2 ^ 32 then copy Nat.pred m (dst + n - 1) (src + n - 1) n
  else copy Nat.succ m dst src n

/-- `memmove` of ulib.c, which always copies upwards and takes a signed length. -/
def Ulib.memmove (m : Bytes) (dst src : Nat) (n : Int) : Bytes := copy Nat.succ m dst src n.toNat

theorem eq_write_read (hat : ∀ i, i < n → m' (dst + i) = m (src + i))
    (hout : ∀ x, x < dst ∨ dst + n ≤ x → m' x = m x) : m' = m.write dst (m.read src n) := by
  have hlen := length_read m src n
  funext x
  by_cases hx : x < dst ∨ dst + n ≤ x
  · rw [hout x hx, write_outside (by rwa [hlen])]
  · obtain ⟨i, rfl⟩ := Nat.exists_eq_add_of_le (by omega : dst ≤ x)
    rw [hat i (by omega), write_at (by omega), getElem_read]

theorem copyUp_distinct (dst n : Nat) (i j : Nat) (hij : i < j) (_ : j < n) :
    Nat.succ^[i] dst ≠ Nat.succ^[j] dst := by
  rw [Nat.succ_iterate, Nat.succ_iterate]
  omega

theorem copyUp_outside {x : Nat} (hx : x < dst ∨ dst + n ≤ x) :
    copy Nat.succ m dst src n x = m x := by
  refine copy_outside fun i hi => ?_
  rw [Nat.succ_iterate]
  omega

theorem copyUp_eq {i : Nat} (hi : i < n) (h : dst ≤ src ∨ src + i < dst) :
    copy Nat.succ m dst src n (dst + i) = m (src + i) := by
  have heq := copy_eq (m := m) (s := src) (copyUp_distinct dst n) hi fun j hj => ?_
  · rwa [Nat.succ_iterate, Nat.succ_iterate] at heq
  · rw [Nat.succ_iterate, Nat.succ_iterate]
    omega

theorem copyDown_eq {i : Nat} (hi : i < n) (h : src < dst) :
    copy Nat.pred m (dst + n - 1) (src + n - 1) n (dst + i) = m (src + i) := by
  have hdistinct (i j : Nat) (_ : i < j) (_ : j < n) :
      Nat.pred^[i] (dst + n - 1) ≠ Nat.pred^[j] (dst + n - 1) := by
    rw [Nat.pred_iterate, Nat.pred_iterate]
    omega
  have heq := copy_eq (m := m) (s := src + n - 1) hdistinct (by omega : n - 1 - i < n)
    fun j hj => ?_
  · rw [Nat.pred_iterate, Nat.pred_iterate] at heq
    rwa [(by omega : dst + n - 1 - (n - 1 - i) = dst + i),
      (by omega : src + n - 1 - (n - 1 - i) = src + i)] at heq
  · rw [Nat.pred_iterate, Nat.pred_iterate]
    omega

theorem StringC.memmove_eq (hd : dst + n ≤ 2 ^ 32) :
    StringC.memmove m dst src n = m.write dst (m.read src n) := by
  unfold StringC.memmove
  split
  · rename_i h
    refine eq_write_read (fun i hi => copyDown_eq hi h.1) fun x hx => copy_outside fun i hi => ?_
    rw [Nat.pred_iterate]
    omega
  · rename_i h
    refine eq_write_read (fun i hi => copyUp_eq hi ?_) fun x hx => copyUp_outside hx
    by_contra hc
    have hlt : src + n < 2 ^ 32 := by omega
    rw [Nat.mod_eq_of_lt hlt] at h
    omega

/-- What an upward copy needs to be a move: where the target begins inside the source, the source
repeats itself; and a length that is negative as a signed number finds the bytes moved already. -/
def CopiesUp (m : Bytes) (dst src : Nat) (n : BitVec 32) : Prop :=
  if 0 ≤ n.toInt then src < dst → ∀ i, dst + i < src + n.toNat → m (dst + i) = m (src + i)
  else ∀ i, i < n.toNat → m (dst + i) = m (src + i)

/-- Going up through an overlap, the copy repeats the bytes before the target over and over. -/
theorem copyUp_iff (hlt : src < dst) : copy Nat.succ m dst src n = m.write dst (m.read src n) ↔
      ∀ i, dst + i < src + n → m (dst + i) = m (src + i) := by
  have hagain (i : Nat) (hi : dst + i < src + n) :
      copy Nat.succ m dst src n (dst + (dst - src + i)) = copy Nat.succ m dst src n (dst + i) := by
    have heq := copy_again (m := m) (s := src) (i := dst - src + i) (j := i)
      (copyUp_distinct dst n) (by omega) (by omega) ?_
    · rwa [Nat.succ_iterate, Nat.succ_iterate] at heq
    · rw [Nat.succ_iterate, Nat.succ_iterate]
      omega
  constructor
  · intro h i hi
    have hmoved {j : Nat} (hj : j < n) : copy Nat.succ m dst src n (dst + j) = m (src + j) := by
      rw [h, write_at (by rwa [length_read]), getElem_read]
    have heq := hagain i hi
    rw [hmoved (by omega), hmoved (by omega)] at heq
    rwa [(by omega : dst + i = src + (dst - src + i))]
  · intro h
    refine eq_write_read (fun i => ?_) fun x hx => copyUp_outside hx
    -- a byte that comes from the target is the one that was stored there
    induction i using Nat.strong_induction_on with
    | _ i ih =>
      intro hi
      by_cases hin : src + i < dst
      · exact copyUp_eq hi (.inr hin)
      obtain ⟨j, rfl⟩ := Nat.exists_eq_add_of_le (by omega : dst - src ≤ i)
      rw [hagain j (by omega), ih j (by omega) (by omega), ← h j (by omega)]
      exact congrArg m (by omega)

/-- The kernel's `memmove` moves the bytes, for every memory and for ranges that overlap in any way.
The one of the user library leaves the same memory exactly when an upward copy does. -/
theorem memmove_agree_iff (m : Bytes) (dst src : Nat) (n : BitVec 32)
    (hd : dst + n.toNat ≤ 2 ^ 32) :
    StringC.memmove m dst src n.toNat = m.write dst (m.read src n.toNat) ∧
      (Ulib.memmove m dst src n.toInt = StringC.memmove m dst src n.toNat ↔
        CopiesUp m dst src n) := by
  refine ⟨StringC.memmove_eq hd, ?_⟩
  rw [StringC.memmove_eq hd, Ulib.memmove, CopiesUp]
  by_cases hn : 0 ≤ n.toInt
  · have hnat : n.toInt.toNat = n.toNat := by
      rw [BitVec.toInt_eq_toNat_cond] at hn ⊢
      split at hn <;> omega
    rw [if_pos hn, hnat]
    by_cases hlt : src < dst
    · rw [copyUp_iff hlt]
      exact ⟨fun h _ => h, fun h => h hlt⟩
    · refine iff_of_true ?_ fun h => (hlt h).elim
      exact eq_write_read (fun i hi => copyUp_eq hi (.inl (by omega))) fun x hx => copyUp_outside hx
  · rw [if_neg hn, Int.toNat_of_nonpos (by omega)]
    show m = _ ↔ _
    constructor
    · intro h i hi
      have hat := congrFun h (dst + i)
      rwa [Bytes.write_at (by rwa [Bytes.length_read]), Bytes.getElem_read] at hat
    · exact fun h => eq_write_read h fun _ _ => rfl

theorem memmove_agree_iff_back : CopiesUp (BitVec.ofNat 8) 0 1 2 ∧
    Ulib.memmove (BitVec.ofNat 8) 0 1 2 = StringC.memmove (BitVec.ofNat 8) 0 1 2 := by
  have h : CopiesUp (BitVec.ofNat 8) 0 1 2 := fun hlt => (Nat.not_lt_zero 1 hlt).elim
  exact ⟨h, ((memmove_agree_iff (BitVec.ofNat 8) 0 1 2 (by decide)).2).2 h⟩

/-- Two bytes moved up by one: the first is stored twice. -/
theorem memmove_smears : Ulib.memmove (BitVec.ofNat 8) 1 0 2 2 = 0 ∧
    StringC.memmove (BitVec.ofNat 8) 1 0 2 2 = 1 := by
  decide

end Xv6Signals
