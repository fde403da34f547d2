import Xv6Signals.Delivery
import Xv6Signals.Lifecycle

namespace Xv6Signals
open Lib

variable {p q r : Proc} {sig : Sig} {k : Nat}

/-- The process as a pass finds it when it comes to signal `k`, as far as the frame, the memory and
the masks go: the lower signals with handlers that were not blocked at their turn have been pushed.
-/
def Proc.interruptedAt (p : Proc) : Nat → Proc
  | 0 => p
  | k + 1 =>
    let q := p.interruptedAt k
    if h : k < 32 then
      if q.delivers ⟨k, h⟩ then delivered q ⟨k, h⟩ else q
    else q

def Proc.maskAt (p : Proc) (sig : Sig) : Word := (p.interruptedAt sig).sigmask

theorem interruptedAt_succ (hk : k < 32) : p.interruptedAt (k + 1) =
    if (p.interruptedAt k).delivers ⟨k, hk⟩ then delivered (p.interruptedAt k) ⟨k, hk⟩
    else p.interruptedAt k := by
  simp only [Proc.interruptedAt, dif_pos hk]

theorem interruptedAt_psignals (p : Proc) (k : Nat) :
    (p.interruptedAt k).psignals = p.psignals := by
  induction k with
  | zero => rfl
  | succ k ih =>
    simp only [Proc.interruptedAt]
    split
    · split
      · exact ih
      · exact ih
    · exact ih

def SameFrame (p q : Proc) : Prop :=
  q = { p with psignals := q.psignals, killed := q.killed, frozen := q.frozen, state := q.state }

/-- What a pass that has come to signal `k` has left: the pushed frames, the signals below `k`
cleared and the others as they were. -/
structure PassedTo (p : Proc) (k : Nat) (q : Proc) : Prop where
  frame : SameFrame (p.interruptedAt k) q
  ahead : ∀ sig : Sig, k ≤ sig.val → q.pending sig = p.pending sig
  behind : ∀ sig : Sig, sig.val < k → q.pending sig = false

theorem PassedTo.delivers (h : PassedTo p k q) (hk : k < 32) :
    (p.interruptedAt k).delivers ⟨k, hk⟩ = q.delivers ⟨k, hk⟩ := by
  have hp : (p.interruptedAt k).pending ⟨k, hk⟩ = q.pending ⟨k, hk⟩ := by
    rw [h.ahead _ (Nat.le_refl _), Proc.pending, interruptedAt_psignals, Proc.pending]
  have hf := h.frame
  unfold SameFrame at hf
  rw [Proc.delivers, Proc.delivers, hp, hf]
  rfl

theorem PassedTo.step (h : PassedTo p k q) (hk : k < 32) (hs : SignalStep q ⟨k, hk⟩ r) :
    PassedTo p (k + 1) r where
  frame := by
    have hf := h.frame
    unfold SameFrame at hf ⊢
    rw [interruptedAt_succ hk, h.delivers hk]
    rcases hs.image with ⟨hd, -, hr⟩ | ⟨hd, hr⟩
    · rw [if_pos hd, hr, hf]
      rfl
    · rw [if_neg (by rw [hd]; exact Bool.false_ne_true), hr, hf]
  ahead := by
    intro sig hsig
    have hne : sig ≠ ⟨k, hk⟩ := by
      intro he
      rw [he] at hsig
      exact Nat.not_succ_le_self k hsig
    rw [hs.pending_of_ne hne, h.ahead sig (by omega)]
  behind := by
    intro sig hsig
    by_cases he : sig = ⟨k, hk⟩
    · rw [Proc.pending, hs.psignals, getLsbD_clear, he, decide_eq_true rfl, Bool.not_true,
        Bool.and_false]
    · have hlt : sig.val < k := by
        have : sig.val ≠ k := fun hv => he (Fin.ext hv)
        omega
      rw [hs.pending_of_ne he, h.behind sig hlt]

theorem passTo_passed (hk : k ≤ 32) (h : passTo p k = .ok q) : PassedTo p k q := by
  refine passTo_keeps ⟨rfl, fun _ _ => rfl, fun _ hs => (Nat.not_lt_zero _ hs).elim⟩ ?_ hk h
  intro k hk q r hq hs
  exact hq.step hk hs

theorem PassedTo.sigmask (h : PassedTo p k q) : q.sigmask = (p.interruptedAt k).sigmask := by
  have hf := h.frame
  unfold SameFrame at hf
  rw [hf]

/-- A pass in user mode leaves every blocked pending signal alone exactly when there is none: one
that is pending and in the mask at its turn is always discarded. -/
theorem blocked_kept_iff (hu : p.tf.fromUser = true) (h : handleSignals p = .ok q) :
    (∀ sig r, sig ≠ sigkill → sig ≠ sigstop → passTo p sig = .ok r → p.pending sig = true →
      r.sigmask.getLsbD sig = true →
        q.pending sig = true ∧ ∃ v, signalStep r sig = .ok { r with psignals := v }) ↔
    ∀ sig, sig ≠ sigkill → sig ≠ sigstop → p.pending sig = true →
      (p.maskAt sig).getLsbD sig = false := by
  have h := handleSignals_ok h hu
  constructor
  · intro hkept sig hkill hstop hp
    rw [← Bool.not_eq_true]
    intro hb
    obtain ⟨r, hr, -⟩ := passTo_from (P := fun _ => True) (fun _ _ _ _ _ => trivial)
      (show sig.val ≤ 32 by omega) (Nat.le_refl _) h
    have hmask : r.sigmask.getLsbD sig = true := by
      rw [(passTo_passed (by omega) hr).sigmask]
      exact hb
    have hpending := (hkept sig r hkill hstop hr hp hmask).1
    rw [(passTo_passed (Nat.le_refl _) h).behind sig sig.isLt] at hpending
    cases hpending
  · intro hfree sig r hkill hstop hr hp hmask
    have hb := hfree sig hkill hstop hp
    rw [Proc.maskAt, ← (passTo_passed (by omega) hr).sigmask, hmask] at hb
    cases hb

def maskedProc (mask word : Word) : Proc :=
  { userinit (Mem.storeWord (fun _ => 0) 0x104 word) 0x80400000 with
    psignals := 0x30
    sigmask := mask
    sigHandlers := fun sig => if sig = 4 then 0x100 else if sig = 5 then sigIgn else sigDfl }

theorem blocked_kept_iff_unblocked : ∃ q, handleSignals (maskedProc 0x40 0x1) = .ok q ∧
    ∀ sig r, sig ≠ sigkill → sig ≠ sigstop → passTo (maskedProc 0x40 0x1) sig = .ok r →
      (maskedProc 0x40 0x1).pending sig = true → r.sigmask.getLsbD sig = true →
        q.pending sig = true ∧ ∃ v, signalStep r sig = .ok { r with psignals := v } := by
  have hok : (handleSignals (maskedProc 0x40 0x1)).isOk = true := by decide +kernel
  cases h : handleSignals (maskedProc 0x40 0x1) with
  | error e =>
    rw [h] at hok
    cases hok
  | ok q => exact ⟨q, rfl, (blocked_kept_iff (by decide) h).2 (by decide +kernel)⟩

/-- Signal 5 is blocked by the mask that goes with the handler of signal 4. -/
theorem blocked_signal_discarded : ∃ q r, (maskedProc 0 0x20).tf.fromUser = true ∧
    handleSignals (maskedProc 0 0x20) = .ok q ∧ passTo (maskedProc 0 0x20) 5 = .ok r ∧
    (maskedProc 0 0x20).pending 5 = true ∧ r.sigmask.getLsbD 5 = true ∧
    q.pending 5 = false := by
  have hpass : ∀ k, (passTo (maskedProc 0 0x20) k).isOk = true →
      ∃ q, passTo (maskedProc 0 0x20) k = .ok q := by
    intro k hk
    cases h : passTo (maskedProc 0 0x20) k with
    | error e =>
      rw [h] at hk
      cases hk
    | ok q => exact ⟨q, rfl⟩
  obtain ⟨q, hq⟩ := hpass 32 (by decide +kernel)
  obtain ⟨r, hr⟩ := hpass 5 (by decide +kernel)
  refine ⟨q, r, by decide, ?_, hr, by decide, ?_, ?_⟩
  · rw [handleSignals_eq (by decide)]
    exact hq
  · rw [(passTo_passed (by decide) hr).sigmask]
    decide +kernel
  · exact (passTo_passed (Nat.le_refl _) hq).behind 5 (by decide)

end Xv6Signals
