import Xv6Signals.Lib.Except
import Xv6Signals.Signals

namespace Xv6Signals
open Lib

variable {p q : Proc} {sig : Sig}

theorem kload_ok {a v : Word} (h : p.kload a = .ok v) : v = p.mem.loadWord a := by
  unfold Proc.kload at h
  split at h
  · cases h
    rfl
  · cases h

theorem kstore_ok {a : Word} {bs : List Byte} (h : p.kstore a bs = .ok q) :
    allBytes (userMapped p.sz) a bs.length = true ∧ q = { p with mem := p.mem.store a bs } := by
  unfold Proc.kstore at h
  split at h
  · rename_i hm
    cases h
    exact ⟨hm, rfl⟩
  · split at h <;> cases h

theorem switchMask_ok (h : p.switchMask sig = .ok q) :
    q = { p with
      sigmask := p.mem.loadWord (p.sigHandlers sig + 4)
      sigmaskBackup := p.sigmask } := by
  obtain ⟨mask, hmask, h⟩ := bind_eq_ok h
  cases h
  rw [kload_ok hmask]

def callFrame (m : Mem 32) (esp : Word) (sig : Sig) : Mem 32 :=
  ((m.store (esp - 7) sigretCaller).store (esp - 11) (wordBytes (BitVec.ofNat 32 sig))).store
    (esp - 15) (wordBytes (esp - 7))

def Proc.roomBelow (p : Proc) : Bool :=
  allBytes (userMapped p.sz) (p.tf.esp - 7) 7 && allBytes (userMapped p.sz) (p.tf.esp - 11) 4 &&
    allBytes (userMapped p.sz) (p.tf.esp - 15) 4

theorem pushCall_ok (h : p.pushCall sig = .ok q) : p.roomBelow = true ∧
      q = { p with
        mem := callFrame p.mem p.tf.esp sig
        tf := { p.tf with esp := p.tf.esp - 15 } } := by
  obtain ⟨p₁, h₁, h⟩ := bind_eq_ok h
  obtain ⟨p₂, h₂, h₃⟩ := bind_eq_ok h
  obtain ⟨hm₁, rfl⟩ := kstore_ok h₁
  obtain ⟨hm₂, rfl⟩ := kstore_ok h₂
  obtain ⟨hm₃, rfl⟩ := kstore_ok h₃
  have e₁ : p.tf.esp + -7 = p.tf.esp - 7 := by bv_omega
  have e₂ : p.tf.esp - 7 + -4 = p.tf.esp - 11 := by bv_omega
  have e₃ : p.tf.esp - 11 + -4 = p.tf.esp - 15 := by bv_omega
  simp only [Proc.addEsp, e₁, e₂, e₃] at hm₁ hm₂ hm₃ ⊢
  refine ⟨?_, rfl⟩
  simp only [Proc.roomBelow, Bool.and_eq_true]
  exact ⟨⟨hm₁, hm₂⟩, hm₃⟩

def delivered (p : Proc) (sig : Sig) : Proc :=
  let mem := p.mem.store p.kstack (wordsBytes p.tf.toWords)
  { p with
    mem := callFrame mem p.tf.esp sig
    tfBackup := p.kstack
    sigmask := mem.loadWord (p.sigHandlers sig + 4)
    sigmaskBackup := p.sigmask
    tf := { p.tf with esp := p.tf.esp - 15, eip := p.sigHandlers sig } }

theorem userHandler_ok (h : userHandler p sig = .ok q) :
    p.roomBelow = true ∧ q = delivered p sig := by
  obtain ⟨p₁, h₁, h⟩ := bind_eq_ok h
  obtain ⟨p₂, h₂, h₃⟩ := bind_eq_ok h
  cases h₃
  rw [switchMask_ok h₁] at h₂
  obtain ⟨hroom, rfl⟩ := pushCall_ok h₂
  exact ⟨hroom, rfl⟩

theorem post_eq (p : Proc) (sig : Sig) : ∃ v, p.post sig = { p with psignals := v } := by
  unfold Proc.post
  split
  · exact ⟨p.psignals, rfl⟩
  · exact ⟨_, rfl⟩

def Proc.pending (p : Proc) (sig : Sig) : Bool := p.psignals.getLsbD sig

inductive SignalStep (p : Proc) (sig : Sig) : Proc → Prop
  | idle : p.pending sig = false → SignalStep p sig p
  | discard : p.pending sig = true →
      p.blocks sig = true ∨ p.disposition sig = .ignore → SignalStep p sig (p.consume sig)
  | cont : p.pending sig = true → p.blocks sig = false → p.disposition sig = .cont →
      SignalStep p sig (sigcontHandler (p.consume sig))
  | stop : p.pending sig = true → p.blocks sig = false → p.disposition sig = .stop →
      SignalStep p sig (sigstopHandler (p.consume sig))
  | kill : p.pending sig = true → p.blocks sig = false → p.disposition sig = .kill →
      SignalStep p sig (sigkillHandler (p.consume sig))
  | user : p.pending sig = true → p.blocks sig = false → p.disposition sig = .user →
      p.roomBelow = true → SignalStep p sig (delivered (p.consume sig) sig)

theorem signalStep_ok (h : signalStep p sig = .ok q) : SignalStep p sig q := by
  simp only [signalStep, eq_or_bit_iff] at h
  split at h
  · rename_i hb
    cases h
    exact .discard hb.2 (.inl hb.1)
  rename_i hb
  split at h
  · rename_i hp
    have hb : p.blocks sig = false := by
      rw [Bool.eq_false_iff]
      exact fun hb' => hb ⟨hb', hp⟩
    unfold handleSignal at h
    have hd : (p.consume sig).disposition sig = p.disposition sig := rfl
    rw [hd] at h
    cases hk : p.disposition sig with
    | ignore =>
      rw [hk] at h
      cases h
      exact .discard hp (.inr hk)
    | cont =>
      rw [hk] at h
      cases h
      exact .cont hp hb hk
    | stop =>
      rw [hk] at h
      cases h
      exact .stop hp hb hk
    | kill =>
      rw [hk] at h
      cases h
      exact .kill hp hb hk
    | user =>
      rw [hk] at h
      obtain ⟨hroom, rfl⟩ := userHandler_ok h
      exact .user hp hb hk hroom
  · rename_i hp
    cases h
    exact .idle (Bool.eq_false_iff.2 hp)

def Proc.delivers (p : Proc) (sig : Sig) : Bool :=
  p.pending sig && !p.blocks sig && p.disposition sig == .user

theorem SignalStep.image (h : SignalStep p sig q) :
    p.delivers sig = true ∧ p.roomBelow = true ∧ q = delivered (p.consume sig) sig ∨
      p.delivers sig = false ∧ q = { p with
        psignals := q.psignals, killed := q.killed, frozen := q.frozen, state := q.state } := by
  cases h with
  | idle hp => exact .inr ⟨by rw [Proc.delivers, hp]; rfl, rfl⟩
  | discard hp hd =>
    refine .inr ⟨?_, rfl⟩
    rcases hd with hd | hd
    · rw [Proc.delivers, hp, hd]
      rfl
    · rw [Proc.delivers, hd]
      exact Bool.and_false _
  | cont hp hb hd =>
    refine .inr ⟨?_, rfl⟩
    rw [Proc.delivers, hd]
    exact Bool.and_false _
  | stop hp hb hd =>
    refine .inr ⟨?_, ?_⟩
    · rw [Proc.delivers, hd]
      exact Bool.and_false _
    · unfold sigstopHandler
      split <;> rfl
  | kill hp hb hd =>
    refine .inr ⟨?_, rfl⟩
    rw [Proc.delivers, hd]
    exact Bool.and_false _
  | user hp hb hd hr =>
    refine .inl ⟨?_, hr, rfl⟩
    rw [Proc.delivers, hp, hb, hd]
    rfl

theorem SignalStep.sigHandlers (h : SignalStep p sig q) : q.sigHandlers = p.sigHandlers := by
  cases h with
  | stop _ _ _ =>
    unfold sigstopHandler
    split <;> rfl
  | _ => rfl

theorem SignalStep.psignals (h : SignalStep p sig q) :
    q.psignals = (p.psignals ||| bit sig) ^^^ bit sig := by
  cases h with
  | idle hp => exact (clear_of_unset hp).symm
  | stop _ _ _ =>
    unfold sigstopHandler
    split <;> rfl
  | _ => rfl

theorem SignalStep.pending_of_ne {sig' : Sig} (h : SignalStep p sig q) (hne : sig' ≠ sig) :
    q.pending sig' = p.pending sig' := by
  have hd : decide (sig.val = sig'.val) = false :=
    decide_eq_false fun he => hne (Fin.ext he.symm)
  rw [Proc.pending, h.psignals, getLsbD_clear, hd, Bool.not_false, Bool.and_true, Proc.pending]

theorem SignalStep.killed (h : SignalStep p sig q) (hk : p.killed = true) : q.killed = true := by
  cases h with
  | stop _ _ _ =>
    unfold sigstopHandler
    split <;> exact hk
  | kill _ _ _ => rfl
  | _ => exact hk

def passTo (p : Proc) (k : Nat) : Except Fault Proc :=
  ((List.finRange 32).take k).foldlM signalStep p

theorem handleSignals_eq (h : p.tf.fromUser = true) : handleSignals p = passTo p 32 := by
  rw [handleSignals, if_pos h]
  rfl

theorem passTo_succ {k : Nat} (hk : k < 32) :
    passTo p (k + 1) = passTo p k >>= fun q => signalStep q ⟨k, hk⟩ := by
  have hl : k < (List.finRange 32).length := by
    rw [List.length_finRange]
    exact hk
  have hg : (List.finRange 32)[k] = ⟨k, hk⟩ := by
    rw [List.getElem_finRange]
    rfl
  rw [passTo, List.take_succ_eq_append_getElem hl, List.foldlM_append, hg]
  simp only [List.foldlM_cons, List.foldlM_nil, bind_pure]
  rfl

/-- The loop rule of `handle_signals`: what each iteration carries on from its signal to the next
holds after any number of them. -/
theorem passTo_keeps {P : Nat → Proc → Prop} (h0 : P 0 p)
    (hstep : ∀ k (hk : k < 32) q r, P k q → SignalStep q ⟨k, hk⟩ r → P (k + 1) r) {k : Nat}
    (hk : k ≤ 32) (h : passTo p k = .ok q) : P k q := by
  induction k generalizing q with
  | zero =>
    cases h
    exact h0
  | succ k ih =>
    rw [passTo_succ hk] at h
    obtain ⟨r, hr, h⟩ := bind_eq_ok h
    exact hstep k hk r q (ih (by omega) hr) (signalStep_ok h)

theorem passTo_from {P : Proc → Prop} (hP : ∀ sig q r, P q → SignalStep q sig r → P r) {k m : Nat}
    (hkm : k ≤ m) (hm : m ≤ 32) (h : passTo p m = .ok q) :
    ∃ r, passTo p k = .ok r ∧ (P r → P q) := by
  induction m, hkm using Nat.le_induction generalizing q with
  | base => exact ⟨q, h, id⟩
  | succ m hkm ih =>
    rw [passTo_succ hm] at h
    obtain ⟨q', hq', h⟩ := bind_eq_ok h
    obtain ⟨r, hr, hrq⟩ := ih (by omega) hq'
    exact ⟨r, hr, fun h' => hP _ _ _ (hrq h') (signalStep_ok h)⟩

theorem handleSignals_ok (h : handleSignals p = .ok q) (hu : p.tf.fromUser = true) :
    passTo p 32 = .ok q :=
  (handleSignals_eq hu).symm.trans h

end Xv6Signals
