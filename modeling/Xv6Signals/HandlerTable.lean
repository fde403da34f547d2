import Xv6Signals.Delivery
import Xv6Signals.Lib.Machine
import Xv6Signals.Lifecycle

namespace Xv6Signals
open Lib

variable {p q r : Proc} {sig : Sig}

theorem tableWord_setTableWord (p : Proc) {i j : Nat} (v : Word) (hi : i ≤ 32) (hj : j ≤ 32) :
    (p.setTableWord i v).tableWord j = if j = i then v else p.tableWord j := by
  unfold Proc.setTableWord
  by_cases hi' : i < 32
  · rw [dif_pos hi']
    by_cases hj' : j < 32
    · simp only [Proc.tableWord, dif_pos hj', Function.update_apply, Fin.mk.injEq]
    · have hne : j ≠ i := by omega
      simp only [Proc.tableWord, dif_neg hj', if_neg hne]
  · rw [dif_neg hi']
    by_cases hj' : j < 32
    · have hne : j ≠ i := by omega
      simp only [Proc.tableWord, dif_pos hj', if_neg hne]
    · have he : j = i := by omega
      simp only [Proc.tableWord, dif_neg hj', if_pos he]

theorem tableWord_setEntry (p : Proc) (sig : Sig) (a : Sigaction) {j : Nat} (hj : j ≤ 32) :
    (p.setEntry sig a).tableWord j =
      if j = sig + 1 then a.sigmask else if j = sig then a.saHandler else p.tableWord j := by
  have hs := sig.isLt
  rw [Proc.setEntry, tableWord_setTableWord _ _ (by omega) hj,
    tableWord_setTableWord _ _ (by omega) hj]

theorem tableWord_sig (p : Proc) (sig : Sig) : p.tableWord sig = p.sigHandlers sig :=
  dif_pos sig.isLt

theorem setEntry_sigHandlers (p : Proc) (sig i : Sig) (a : Sigaction) :
    (p.setEntry sig a).sigHandlers i =
      if i.val = sig + 1 then a.sigmask else if i = sig then a.saHandler else p.sigHandlers i := by
  rw [← tableWord_sig, tableWord_setEntry p sig a (by omega), tableWord_sig]
  simp only [Fin.ext_iff]

def Proc.given (p : Proc) (sig : Sig) (act oldact : Word) : Sigaction :=
  readSigaction (p.storeOld sig oldact) act

theorem sigaction_some {signum : Int} (act oldact : Word) (h : sigactionSig signum = some sig) :
    (sigaction p signum act oldact).2 =
      { p.setEntry sig (p.given sig act oldact) with mem := p.storeOld sig oldact } := by
  simp only [sigaction, h]
  rfl

theorem sigaction_none {signum : Int} (act oldact : Word) (h : sigactionSig signum = none) :
    (sigaction p signum act oldact).2 = p := by
  simp only [sigaction, h]

theorem sigactionSig_ne {signum : Int} (h : sigactionSig signum = some sig) :
    sig ≠ sigkill ∧ sig ≠ sigstop := by
  unfold sigactionSig at h
  split at h
  · cases h
  rename_i hs
  split at h
  · rename_i hr
    cases h
    constructor
    · intro he
      exact hs (.inr (by rw [← he]; exact (Int.toNat_of_nonneg hr.1).symm))
    · intro he
      exact hs (.inl (by rw [← he]; exact (Int.toNat_of_nonneg hr.1).symm))
  · cases h

/-- What reaches the handler table and the pending signals of a process; `fork` goes on in the
child. -/
inductive TableCall
  | user (mem : Mem 32)
  | sigaction (signum : Int) (act oldact : Word)
  | sigprocmask (mask : Word)
  | fork (slot : Proc) (page : Word) (self : Nat)
  | exec (sz : Word) (mem : Mem 32) (eip esp : Word)
  | kill (sig : Sig)
  | signals

def TableCall.apply (p : Proc) : TableCall → Option Proc
  | .user mem => some (p.userStore mem)
  | .sigaction signum act oldact => some (Xv6Signals.sigaction p signum act oldact).2
  | .sigprocmask mask => some (Xv6Signals.sigprocmask p mask).2
  | .fork slot page self => some (forkChild (allocated slot page) p self)
  | .exec sz mem eip esp => some (Xv6Signals.exec p sz mem eip esp)
  | .kill sig => some (p.post sig)
  | .signals => (handleSignals p).toOption

def tableMachine : Machine Proc TableCall where
  init := fun p => ∃ slot page, p = allocated slot page
  next := TableCall.apply

def Proc.KillStopDefault (p : Proc) : Prop :=
  p.sigHandlers sigkill = sigDfl ∧ p.sigHandlers sigstop = sigDfl

/-- No call on the signal below `SIGKILL` or `SIGSTOP` passes a mask. -/
def Harmless (p : Proc) : TableCall → Prop
  | .sigaction signum act oldact => ∀ sig, sigactionSig signum = some sig →
      sigkill.val = sig + 1 ∨ sigstop.val = sig + 1 → (p.given sig act oldact).sigmask = 0
  | _ => True

theorem handleSignals_sigHandlers (h : handleSignals p = .ok q) :
    q.sigHandlers = p.sigHandlers := by
  by_cases hu : p.tf.fromUser = true
  · refine passTo_keeps (P := fun _ q => q.sigHandlers = p.sigHandlers) rfl ?_ (Nat.le_refl 32)
      (handleSignals_ok h hu)
    intro k hk q r hq hr
    exact hr.sigHandlers.trans hq
  · rw [handleSignals, if_neg hu] at h
    cases h
    rfl

theorem setEntry_eq_dfl {i : Sig} {a : Sigaction} (hi : p.sigHandlers i = sigDfl) (hne : i ≠ sig) :
    (p.setEntry sig a).sigHandlers i = sigDfl ↔ (i.val = sig + 1 → a.sigmask = 0) := by
  rw [setEntry_sigHandlers, if_neg hne, hi]
  by_cases hs : i.val = sig + 1
  · rw [if_pos hs]
    exact ⟨fun h _ => h, fun h => h hs⟩
  · rw [if_neg hs]
    exact ⟨fun _ h => absurd h hs, fun _ => rfl⟩

theorem apply_killStopDefault {c : TableCall} (hd : p.KillStopDefault) (h : c.apply p = some q) :
    q.KillStopDefault ↔ Harmless p c := by
  have same (hs : q.sigHandlers = p.sigHandlers) : q.KillStopDefault ↔ True := by
    rw [Proc.KillStopDefault, hs]
    exact iff_true_intro hd
  cases c with
  | user mem => cases h; exact same rfl
  | sigprocmask mask => cases h; exact same rfl
  | fork slot page self => cases h; exact same rfl
  | kill sig =>
    cases h
    obtain ⟨v, hv⟩ := post_eq p sig
    exact same (by rw [hv])
  | signals =>
    simp only [TableCall.apply] at h
    cases hp : handleSignals p with
    | error e => rw [hp] at h; cases h
    | ok r =>
      rw [hp] at h
      cases h
      exact same (handleSignals_sigHandlers hp)
  | exec sz mem eip esp =>
    cases h
    have keep {i : Sig} (hi : p.sigHandlers i = sigDfl) :
        (Xv6Signals.exec p sz mem eip esp).sigHandlers i = sigDfl := by
      simp only [Xv6Signals.exec, defaultSighandlers, hi, ne_eq, not_true_eq_false, false_and,
        ↓reduceIte]
    exact iff_true_intro ⟨keep hd.1, keep hd.2⟩
  | sigaction signum act oldact =>
    cases h
    simp only [Harmless]
    cases hs : sigactionSig signum with
    | none =>
      rw [sigaction_none act oldact hs]
      exact ⟨fun _ _ => nofun, fun _ => hd⟩
    | some sig =>
      obtain ⟨hk, ht⟩ := sigactionSig_ne hs
      rw [sigaction_some act oldact hs]
      have hkill := setEntry_eq_dfl (a := p.given sig act oldact) hd.1 hk.symm
      have hstop := setEntry_eq_dfl (a := p.given sig act oldact) hd.2 ht.symm
      constructor
      · rintro ⟨h₁, h₂⟩ _ he h
        cases he
        rcases h with h | h
        · exact hkill.1 h₁ h
        · exact hstop.1 h₂ h
      · intro h
        exact ⟨hkill.2 fun he => h sig rfl (.inl he), hstop.2 fun he => h sig rfl (.inr he)⟩

theorem killStopDefault_reach (h : tableMachine.Reach Harmless p) : p.KillStopDefault := by
  refine h.invariant ?_ ?_
  · rintro _ ⟨slot, page, rfl⟩
    exact ⟨rfl, rfl⟩
  · intro p c q _ hd hc hq
    exact (apply_killStopDefault hd hq).2 hc

theorem passTo_pending {k : Nat} (hk : k ≤ 32) (h : passTo p k = .ok q) :
    q.sigHandlers = p.sigHandlers ∧ ∀ sig : Sig, k ≤ sig → q.pending sig = p.pending sig := by
  refine passTo_keeps
    (P := fun k q => q.sigHandlers = p.sigHandlers ∧ ∀ sig : Sig, k ≤ sig →
      q.pending sig = p.pending sig) ⟨rfl, fun _ _ => rfl⟩ ?_ hk h
  rintro k hk q r ⟨hs, hp⟩ hr
  refine ⟨hr.sigHandlers.trans hs, fun sig hsig => ?_⟩
  have hne : sig ≠ ⟨k, hk⟩ := by
    rintro rfl
    exact absurd hsig (Nat.not_succ_le_self k)
  rw [hr.pending_of_ne hne, hp sig (by omega)]

theorem signalStep_handles (hp : p.pending sig = true) (hb : p.blocks sig = false) :
    signalStep p sig = handleSignal (p.consume sig) sig := by
  have he : p.psignals = p.psignals ||| bit sig := (eq_or_bit_iff _ _).2 hp
  rw [signalStep, if_neg (fun h => by rw [hb] at h; cases h.1), if_pos he]

theorem passTo_kill (hd : p.KillStopDefault) (hp : p.pending sigkill = true)
    (h : passTo p sigkill = .ok q) :
    passTo p (sigkill + 1) = .ok (sigkillHandler (q.consume sigkill)) := by
  obtain ⟨hs, hq⟩ := passTo_pending (by decide) h
  have hdisp : (q.consume sigkill).disposition sigkill = .kill := by
    change q.disposition sigkill = .kill
    rw [Proc.disposition, hs, hd.1]
    rfl
  have hb : q.blocks sigkill = false := Bool.and_false _
  rw [passTo_succ (by decide), h]
  change signalStep q sigkill = _
  rw [signalStep_handles (by rw [hq sigkill (Nat.le_refl _), hp]) hb, handleSignal, hdisp]

theorem passTo_stop (hd : p.KillStopDefault) (hp : p.pending sigstop = true)
    (h : passTo p sigstop = .ok q) :
    passTo p (sigstop + 1) = .ok (sigstopHandler (q.consume sigstop)) := by
  obtain ⟨hs, hq⟩ := passTo_pending (by decide) h
  have hdisp : (q.consume sigstop).disposition sigstop = .stop := by
    change q.disposition sigstop = .stop
    rw [Proc.disposition, hs, hd.2]
    rfl
  have hb : q.blocks sigstop = false := by
    rw [Proc.blocks, blocked, bne_self_eq_false, Bool.and_false, Bool.false_and]
  rw [passTo_succ (by decide), h]
  change signalStep q sigstop = _
  rw [signalStep_handles (by rw [hq sigstop (Nat.le_refl _), hp]) hb, handleSignal, hdisp]

theorem passTo_killed (hd : p.KillStopDefault) (hp : p.pending sigkill = true)
    (h : passTo p 32 = .ok q) : q.killed = true := by
  have hkeep : ∀ sig (q r : Proc), q.killed = true → SignalStep q sig r → r.killed = true :=
    fun _ _ _ hq hr => hr.killed hq
  obtain ⟨r, hr, _⟩ := passTo_from hkeep (k := sigkill) (by decide) (Nat.le_refl 32) h
  obtain ⟨r', hr', hq⟩ := passTo_from hkeep (k := sigkill + 1) (by decide) (Nat.le_refl 32) h
  rw [passTo_kill hd hp hr] at hr'
  cases hr'
  exact hq rfl

/-- As long as no call on signal 8 or 16 passes a mask, and exactly then, `SIGKILL` and `SIGSTOP`
keep their defaults; a pass that gets to them then kills, and stops, the process. -/
theorem kill_stop_default (h : tableMachine.Reach Harmless p) :
    p.KillStopDefault ∧
    (∀ c q, c.apply p = some q → (q.KillStopDefault ↔ Harmless p c)) ∧
    (p.tf.fromUser = true → p.pending sigkill = true →
      (∀ q, passTo p sigkill = .ok q → ∃ r, passTo p (sigkill + 1) = .ok r ∧ r.killed = true) ∧
      ∀ q, handleSignals p = .ok q → q.killed = true) ∧
    (p.tf.fromUser = true → p.pending sigstop = true → ∀ q, passTo p sigstop = .ok q →
      passTo p (sigstop + 1) = .ok (sigstopHandler (q.consume sigstop))) := by
  have hd := killStopDefault_reach h
  refine ⟨hd, fun c q => apply_killStopDefault hd, fun hu hp => ⟨fun q hq => ?_, fun q hq => ?_⟩,
    fun _ hp q hq => passTo_stop hd hp hq⟩
  · exact ⟨_, passTo_kill hd hp hq, rfl⟩
  · exact passTo_killed hd hp (handleSignals_ok hq hu)

def userSlot : Proc := { Proc.empty with tf := { (default : TrapFrame) with cs := userCs } }

theorem kill_stop_default_fresh : ∃ p q, tableMachine.Reach Harmless p ∧
    handleSignals p = .ok q ∧ q.killed = true := by
  have h : tableMachine.Reach Harmless (allocated userSlot 0x80400000) := .init ⟨_, _, rfl⟩
  have hl : tableMachine.Permits Harmless (allocated userSlot 0x80400000)
      [.sigprocmask 0x200, .kill sigkill] := ⟨trivial, trivial, trivial⟩
  obtain ⟨p, hp, hu, hk, ho⟩ := h.exists_run (P := fun p => p.tf.fromUser = true ∧
    p.pending sigkill = true ∧ (handleSignals p).toOption.isSome = true) hl (by decide +kernel)
  cases hq : handleSignals p with
  | error e => rw [hq] at ho; cases ho
  | ok q => exact ⟨p, q, hp, hq, ((kill_stop_default hp).2.2.1 hu hk).2 q hq⟩

def maskRun : List TableCall :=
  [.exec 0x4000 (fun a => if a = 0x1004 then 1 else 0) 0 0x3000, .sigaction 8 0x1000 0,
    .kill sigkill]

theorem sigkill_ignored : ∃ p, tableMachine.Reachable p ∧ p.tf.fromUser = true ∧
    p.pending sigkill = true ∧ p.sigHandlers sigkill = sigIgn ∧
    ((handleSignals p).toOption.any fun q => !q.killed) = true :=
  (Machine.Reach.init (M := tableMachine) ⟨userSlot, 0x80400000, rfl⟩).exists_run (l := maskRun)
    (P := fun p : Proc => p.tf.fromUser = true ∧ p.pending sigkill = true ∧
      p.sigHandlers sigkill = sigIgn ∧ ((handleSignals p).toOption.any fun q => !q.killed) = true)
    (Machine.permits_true ..) (by decide +kernel)

end Xv6Signals
