import Xv6Signals.Delivery
import Xv6Signals.ProcTable.Machine

namespace Xv6Signals
open Lib Function

variable {n i j : Nat} {procs : Nat → Proc} {pid : Int} {sig : Sig} {r : Int × (Nat → Proc)}

/-- The loop of `kill` over the `left` slots from slot `i` on, with the value it returns and the
table it leaves. The cas puts back the value it expects: it only tells whether the signal was
pending. -/
def killScan (procs : Nat → Proc) (pid : Int) (sig : Sig) (i : Nat) : Nat → Int × (Nat → Proc)
  | 0 => (-1, procs)
  | left + 1 =>
    if ((procs i).pid : Int) = pid then
      let expectedOn := (procs i).psignals ||| bit sig
      if (procs i).psignals = expectedOn then killScan procs pid sig (i + 1) left
      else (0, update procs i ((procs i).post sig))
    else killScan procs pid sig (i + 1) left

theorem signum_lt {signum : Int} (h : 0 ≤ signum ∧ signum ≤ 31) : signum.toNat < 32 := by
  omega

def killCall (n : Nat) (procs : Nat → Proc) (pid signum : Int) : Int × (Nat → Proc) :=
  if h : 0 ≤ signum ∧ signum ≤ 31 then killScan procs pid ⟨signum.toNat, signum_lt h⟩ 0 n
  else (-1, procs)

def Takes (procs : Nat → Proc) (pid : Int) (sig : Sig) (i : Nat) : Prop :=
  ((procs i).pid : Int) = pid ∧ (procs i).pending sig = false

inductive KillScanned (procs : Nat → Proc) (pid : Int) (sig : Sig) (i n : Nat) :
    Int × (Nat → Proc) → Prop
  | taken {j : Nat} : i ≤ j → j < n → Takes procs pid sig j →
      (∀ k, i ≤ k → k < j → ¬ Takes procs pid sig k) →
      KillScanned procs pid sig i n (0, update procs j ((procs j).post sig))
  | missed : (∀ k, i ≤ k → k < n → ¬ Takes procs pid sig k) →
      KillScanned procs pid sig i n (-1, procs)

theorem KillScanned.pass (h : KillScanned procs pid sig (i + 1) n r)
    (hi : ¬ Takes procs pid sig i) : KillScanned procs pid sig i n r := by
  have hfirst {m : Nat} (hm : ∀ k, i + 1 ≤ k → k < m → ¬ Takes procs pid sig k) :
      ∀ k, i ≤ k → k < m → ¬ Takes procs pid sig k := by
    intro k hk hlt
    by_cases he : k = i
    · rw [he]
      exact hi
    · exact hm k (by omega) hlt
  cases h with
  | taken hij hj ht hb => exact .taken (by omega) hj ht (hfirst hb)
  | missed hm => exact .missed (hfirst hm)

theorem killScan_scanned (procs : Nat → Proc) (pid : Int) (sig : Sig) (i left : Nat) :
    KillScanned procs pid sig i (i + left) (killScan procs pid sig i left) := by
  induction left generalizing i with
  | zero => exact .missed fun k hk hlt => by omega
  | succ left ih =>
    have hnext := ih (i + 1)
    rw [Nat.add_right_comm, Nat.add_assoc] at hnext
    rw [killScan]
    split
    · rename_i hpid
      simp only [eq_or_bit_iff]
      split
      · rename_i hp
        apply hnext.pass
        intro ht
        exact Bool.false_ne_true (ht.2.symm.trans hp)
      · rename_i hp
        have ht : Takes procs pid sig i := ⟨hpid, Bool.eq_false_iff.2 hp⟩
        exact .taken (Nat.le_refl _) (by omega) ht fun k hk hlt => by omega
    · rename_i hpid
      exact hnext.pass fun ht => hpid ht.1

theorem kill_eq_scan {Cpu : Type} (s : Config Cpu) (pid : Nat) :
    kill n s pid sig = { s with procs := (killScan s.procs pid sig 0 n).2 } := by
  have htakes (i : Nat) : ((s.procs i).pid = pid ∧
      (s.procs i).psignals ≠ (s.procs i).psignals ||| bit sig) ↔ Takes s.procs pid sig i := by
    rw [Takes, Int.natCast_inj, Ne, eq_or_bit_iff, Bool.not_eq_true, Proc.pending]
  have hs := killScan_scanned s.procs pid sig 0 n
  rw [Nat.zero_add] at hs
  generalize killScan s.procs pid sig 0 n = r at hs
  cases hs with
  | @taken j _ hj ht hb =>
    have hfind : killTarget n s.procs pid sig = some j := by
      rw [killTarget, List.find?_range_eq_some]
      refine ⟨decide_eq_true ((htakes j).2 ht), List.mem_range.2 hj, fun k hk => ?_⟩
      rw [Bool.not_eq_true', decide_eq_false_iff_not, htakes]
      exact hb k (Nat.zero_le _) hk
    rw [kill, hfind]
    rfl
  | missed hm =>
    have hfind : killTarget n s.procs pid sig = none := by
      rw [killTarget, List.find?_range_eq_none]
      intro k hk
      rw [Bool.not_eq_true', decide_eq_false_iff_not, htakes]
      exact hm k (Nat.zero_le _) hk
    rw [kill, hfind]

def HasPid (n : Nat) (procs : Nat → Proc) (pid : Int) (i : Nat) : Prop :=
  i < n ∧ (procs i).state ≠ .unused ∧ ((procs i).pid : Int) = pid

structure PidsValid (n : Nat) (procs : Nat → Proc) : Prop where
  pos : ∀ i < n, (procs i).state ≠ .unused → 0 < (procs i).pid
  distinct : ∀ i < n, ∀ j < n, (procs i).state ≠ .unused → (procs j).state ≠ .unused →
    (procs i).pid = (procs j).pid → i = j

structure Killed (n : Nat) (procs : Nat → Proc) (pid : Int) (sig : Sig) (r : Int × (Nat → Proc)) :
    Prop where
  ret : r.1 = 0 ↔ ∃ i, HasPid n procs pid i
  sent : ∀ i, HasPid n procs pid i → r.2 = update procs i
    { procs i with psignals := (procs i).psignals ||| bit sig }
  absent : (¬ ∃ i, HasPid n procs pid i) → r = (-1, procs)

/-- The cases in which the scan for a slot that takes the signal does what `kill` is for. -/
def Sendable (n : Nat) (procs : Nat → Proc) (pid : Int) (sig : Sig) : Prop :=
  (∃ i, HasPid n procs pid i ∧
    (sig ≠ 1 ∧ Takes procs pid sig i ∧ (∀ j < i, ¬ Takes procs pid sig j) ∨
      sig = 1 ∧ (procs i).pending 1 = true ∧ ∃ j < n, Takes procs pid sig j)) ∨
  (∀ i, ¬ HasPid n procs pid i) ∧ ∀ j < n, ¬ Takes procs pid sig j

theorem PidsValid.unique (h : PidsValid n procs) (hi : HasPid n procs pid i)
    (hj : HasPid n procs pid j) : i = j := by
  apply h.distinct i hi.1 j hj.1 hi.2.1 hj.2.1
  have he := hi.2.2.trans hj.2.2.symm
  omega

theorem or_bit_of_pending {p : Proc} (h : p.pending sig = true) :
    { p with psignals := p.psignals ||| bit sig } = p := by
  rw [← (eq_or_bit_iff p.psignals sig).2 h]

theorem or_bit_pending (p : Proc) (sig : Sig) :
    Proc.pending { p with psignals := p.psignals ||| bit sig } sig = true := by
  rw [Proc.pending, getLsbD_or_bit, decide_eq_true rfl, Bool.or_true]

theorem post_ne_one {p : Proc} (h : sig ≠ 1) :
    p.post sig = { p with psignals := p.psignals ||| bit sig } := by
  rw [Proc.post, if_neg h]

theorem killed_iff_of_taken (hv : PidsValid n procs) (hj : j < n) (ht : Takes procs pid sig j)
    (hb : ∀ k, 0 ≤ k → k < j → ¬ Takes procs pid sig k) :
    Killed n procs pid sig (0, update procs j ((procs j).post sig)) ↔
      Sendable n procs pid sig := by
  constructor
  · intro h
    obtain ⟨i, hi⟩ := h.ret.1 rfl
    refine .inl ⟨i, hi, ?_⟩
    have hsent := h.sent i hi
    have hati := congrFun hsent i
    have hatj := congrFun hsent j
    simp only [update_self] at hati hatj
    by_cases hij : i = j
    · subst hij
      refine .inl ⟨?_, ht, fun k hk => hb k (Nat.zero_le _) hk⟩
      rintro rfl
      rw [update_self] at hati
      have hp := or_bit_pending (procs i) 1
      rw [← hati, Proc.post, if_pos rfl, ht.2] at hp
      cases hp
    rw [update_of_ne hij] at hati
    rw [update_of_ne (Ne.symm hij)] at hatj
    have hone : sig = 1 := by
      by_contra hne
      have hp := or_bit_pending (procs j) sig
      rw [← post_ne_one hne, hatj, ht.2] at hp
      cases hp
    subst hone
    refine .inr ⟨rfl, ?_, j, hj, ht⟩
    rw [hati]
    exact or_bit_pending (procs i) 1
  · rintro (⟨i, hi, hcase⟩ | ⟨-, hnone⟩)
    · have hnot : ¬ (¬ ∃ i, HasPid n procs pid i) := fun h => h ⟨i, hi⟩
      refine ⟨⟨fun _ => ⟨i, hi⟩, fun _ => rfl⟩, fun i' hi' => ?_, fun h => (hnot h).elim⟩
      cases hv.unique hi hi'
      rcases hcase with ⟨hne, hti, hbi⟩ | ⟨rfl, hp, -⟩
      · have hij : i = j := by
          rcases Nat.lt_trichotomy i j with h | h | h
          · exact (hb i (Nat.zero_le _) h hti).elim
          · exact h
          · exact (hbi j h ht).elim
        subst hij
        rw [post_ne_one hne]
      · rw [or_bit_of_pending hp, Proc.post, if_pos rfl, update_eq_self,
          update_eq_self]
    · exact (hnone j hj ht).elim

/-- Over every table, `kill` gives the signal to the process with the pid, and to nobody else,
exactly in these cases. -/
theorem kill_delivers_iff (hv : PidsValid n procs) (signum : Int) (h : 0 ≤ signum ∧ signum ≤ 31) :
    Killed n procs pid ⟨signum.toNat, signum_lt h⟩ (killCall n procs pid signum) ↔
      Sendable n procs pid ⟨signum.toNat, signum_lt h⟩ := by
  rw [killCall, dif_pos h]
  generalize (⟨signum.toNat, signum_lt h⟩ : Sig) = sig
  have hs := killScan_scanned procs pid sig 0 n
  rw [Nat.zero_add] at hs
  generalize killScan procs pid sig 0 n = r at hs
  cases hs with
  | taken _ hj ht hb => exact killed_iff_of_taken hv hj ht hb
  | missed hm =>
    constructor
    · intro hk
      refine .inr ⟨fun i hi => ?_, fun j hj => hm j (Nat.zero_le _) hj⟩
      cases hk.ret.2 ⟨i, hi⟩
    rintro (⟨i, hi, ⟨-, ht, -⟩ | ⟨-, -, j, hj, ht⟩⟩ | ⟨hnone, -⟩)
    · exact (hm i (Nat.zero_le _) hi.1 ht).elim
    · exact (hm j (Nat.zero_le _) hj ht).elim
    refine ⟨⟨?_, ?_⟩, fun i hi => (hnone i hi).elim, fun _ => rfl⟩
    · intro hret
      cases hret
    · rintro ⟨i, hi⟩
      exact (hnone i hi).elim

def oneProcTable (psignals : Word) : Nat → Proc := fun i =>
  if i = 0 then { Proc.empty with state := .runnable, pid := 1, psignals := psignals }
  else Proc.empty

theorem oneProcTable_live {psignals : Word} (h : (oneProcTable psignals i).state ≠ .unused) :
    i = 0 := by
  by_contra hi
  apply h
  rw [oneProcTable, if_neg hi]
  rfl

theorem oneProcTable_valid (psignals : Word) : PidsValid 64 (oneProcTable psignals) where
  pos := by
    intro i _ hi
    cases oneProcTable_live hi
    exact Nat.one_pos
  distinct := by
    intro i _ j _ hi hj _
    rw [oneProcTable_live hi, oneProcTable_live hj]

theorem kill_delivers_iff_one :
    Killed 64 (oneProcTable 0) 1 5 (killCall 64 (oneProcTable 0) 1 5) := by
  refine (kill_delivers_iff (oneProcTable_valid 0) 5 (by decide)).2 (.inl ⟨0, ?_, .inl ⟨?_, ?_, ?_⟩⟩)
  · exact ⟨by decide, by decide, rfl⟩
  · decide
  · exact ⟨rfl, by decide⟩
  · intro j hj
    exact (Nat.not_lt_zero j hj).elim

/-- A second `kill` for a signal that is still pending reports that there is no such process. -/
theorem kill_pending_fails : PidsValid 64 (oneProcTable 0x20) ∧
    HasPid 64 (oneProcTable 0x20) 1 0 ∧ (killCall 64 (oneProcTable 0x20) 1 5).1 = -1 ∧
    ¬ Killed 64 (oneProcTable 0x20) 1 5 (killCall 64 (oneProcTable 0x20) 1 5) := by
  have hpid : HasPid 64 (oneProcTable 0x20) 1 0 := ⟨by decide, by decide, rfl⟩
  have hret : (killCall 64 (oneProcTable 0x20) 1 5).1 = -1 := by decide +kernel
  refine ⟨oneProcTable_valid _, hpid, hret, fun h => ?_⟩
  have hzero := h.ret.2 ⟨0, hpid⟩
  rw [hret] at hzero
  cases hzero

end Xv6Signals
