import Xv6Signals.Delivery
import Xv6Signals.Lifecycle

namespace Xv6Signals
open Lib

variable {p q r : Proc} {sig : Sig} {k : Nat}

theorem and_bit_ne_zero (v : Word) (sig : Sig) : (v &&& bit sig != 0) = v.getLsbD sig := by
  rw [Bool.eq_iff_iff, bne_iff_ne, Ne, and_bit_eq_zero, Bool.not_eq_false]

theorem blocks_eq_false (p : Proc) (sig : Sig) : p.blocks sig = false ↔
    p.sigmask.getLsbD sig = false ∨ sig = sigstop ∨ sig = sigkill := by
  rw [Proc.blocks, blocked, and_bit_ne_zero]
  cases p.sigmask.getLsbD sig with
  | false => exact iff_of_true rfl (.inl rfl)
  | true =>
    simp only [Bool.true_and, Bool.and_eq_false_iff, bne_eq_false_iff_eq, Bool.true_eq_false,
      false_or]

def Proc.due (p : Proc) (sig : Sig) : Bool := p.pending sig && !p.blocks sig

def Proc.Plain (p : Proc) : Prop :=
  ∀ sig, p.due sig = true → p.sigHandlers sig = sigDfl ∨ p.sigHandlers sig = sigIgn

def Proc.acts (p : Proc) (sig : Sig) : Bool := p.due sig && p.sigHandlers sig == sigDfl

def Proc.actOn (p : Proc) (sig : Sig) : Proc :=
  { p with
    psignals := (p.psignals ||| bit sig) ^^^ bit sig
    killed := p.killed || (p.acts sig && sig != sigstop && sig != sigcont)
    frozen := if p.acts sig then if sig = sigcont then false else if sig = sigstop then true
      else p.frozen else p.frozen }

theorem actOn_idle (h : p.acts sig = false) : p.actOn sig = p.consume sig := by
  simp only [Proc.actOn, Proc.consume, h, Bool.false_and, Bool.or_false, Bool.false_eq_true,
    if_false]

theorem actOn_acts (hrun : p.state = .running) (h : p.acts sig = true) :
    handleSignal (p.consume sig) sig = .ok (p.actOn sig) := by
  have hdfl : p.sigHandlers sig = sigDfl := beq_iff_eq.1 (Bool.and_eq_true_iff.1 h).2
  have hign : p.sigHandlers sig ≠ sigIgn := by
    rw [hdfl]
    decide
  have hdisp : (p.consume sig).disposition sig =
      if sig = sigcont then .cont else if sig = sigstop then .stop else .kill := by
    show p.disposition sig = _
    rw [Proc.disposition, if_neg hign, if_pos hdfl]
  have hne : ¬ (p.consume sig).state = .sleeping := by
    show ¬ p.state = .sleeping
    rw [hrun]
    decide
  rw [handleSignal, hdisp]
  by_cases hc : sig = sigcont
  · subst hc
    simp only [if_true, sigcontHandler, Proc.actOn, Proc.consume, h, bne_self_eq_false,
      Bool.and_false, Bool.or_false]
  by_cases hs : sig = sigstop
  · subst hs
    simp only [if_neg hc, if_true, sigstopHandler, if_neg hne, Proc.actOn, h, bne_self_eq_false,
      Bool.and_false, Bool.false_and, Bool.or_false]
    rfl
  · simp only [if_neg hc, if_neg hs, sigkillHandler, if_neg hne, Proc.actOn, h, if_true,
      bne_iff_ne.2 hc, bne_iff_ne.2 hs, Bool.and_true, Bool.or_true]
    rfl

theorem signalStep_plain (hrun : p.state = .running)
    (h : p.due sig = true → p.sigHandlers sig = sigDfl ∨ p.sigHandlers sig = sigIgn) :
    signalStep p sig = .ok (p.actOn sig) := by
  simp only [signalStep, eq_or_bit_iff]
  by_cases hp : p.psignals.getLsbD sig = true
  · by_cases hb : p.blocks sig = true
    · have hidle : p.acts sig = false := by
        rw [Proc.acts, Proc.due, hb, Bool.not_true, Bool.and_false, Bool.false_and]
      rw [if_pos ⟨hb, hp⟩, actOn_idle hidle]
    · have hdue : p.due sig = true := by
        rw [Proc.due, Proc.pending, hp, Bool.eq_false_iff.2 hb]
        rfl
      rw [if_neg fun hc => hb hc.1, if_pos hp]
      rcases h hdue with hd | hi
      · apply actOn_acts hrun
        rw [Proc.acts, hdue, hd]
        rfl
      have hidle : p.acts sig = false := by
        rw [Proc.acts, hi]
        exact Bool.and_false _
      have hdisp : (p.consume sig).disposition sig = .ignore := if_pos hi
      rw [actOn_idle hidle, handleSignal, hdisp]
  · have hunset : p.psignals.getLsbD sig = false := Bool.eq_false_iff.2 hp
    have hidle : p.acts sig = false := by
      rw [Proc.acts, Proc.due, Proc.pending, hunset, Bool.false_and, Bool.false_and]
    rw [if_neg fun hc => hp hc.2, if_neg hp, actOn_idle hidle, Proc.consume, clear_of_unset hunset]

structure ActedTo (p : Proc) (k : Nat) (q : Proc) : Prop where
  rest : q = { p with psignals := q.psignals, killed := q.killed, frozen := q.frozen }
  ahead : ∀ sig : Sig, k ≤ sig.val → q.pending sig = p.pending sig
  killed : q.killed = true ↔ p.killed = true ∨
    ∃ sig : Sig, sig.val < k ∧ p.acts sig = true ∧ sig ≠ sigstop ∧ sig ≠ sigcont
  frozen : q.frozen = if sigcont.val < k ∧ p.acts sigcont = true then false
    else if sigstop.val < k ∧ p.acts sigstop = true then true else p.frozen

theorem ActedTo.due (h : ActedTo p k q) (hk : k < 32) : q.due ⟨k, hk⟩ = p.due ⟨k, hk⟩ := by
  rw [Proc.due, h.ahead _ (Nat.le_refl k), Proc.due, h.rest]
  rfl

theorem ActedTo.acts (h : ActedTo p k q) (hk : k < 32) : q.acts ⟨k, hk⟩ = p.acts ⟨k, hk⟩ := by
  rw [Proc.acts, h.due hk, Proc.acts, h.rest]

theorem ActedTo.start (p : Proc) : ActedTo p 0 p where
  rest := rfl
  ahead := fun _ _ => rfl
  killed := ⟨.inl, fun h => h.elim id fun ⟨_, hlt, _⟩ => (Nat.not_lt_zero _ hlt).elim⟩
  frozen := rfl

theorem ActedTo.step (h : ActedTo p k q) (hk : k < 32) : ActedTo p (k + 1) (q.actOn ⟨k, hk⟩) where
  rest := by
    rw [h.rest]
    rfl
  ahead := by
    intro sig hsig
    have hne : k ≠ sig.val := by omega
    show ((q.psignals ||| bit ⟨k, hk⟩) ^^^ bit ⟨k, hk⟩).getLsbD sig = _
    rw [getLsbD_clear, decide_eq_false hne, Bool.not_false, Bool.and_true]
    exact h.ahead sig (by omega)
  killed := by
    simp only [Proc.actOn, Bool.or_eq_true, h.killed, h.acts hk, Bool.and_eq_true, bne_iff_ne]
    constructor
    · rintro ((hp | ⟨sig, hlt, hsig⟩) | ⟨⟨ha, hs⟩, hc⟩)
      · exact .inl hp
      · exact .inr ⟨sig, by omega, hsig⟩
      · exact .inr ⟨⟨k, hk⟩, Nat.lt_succ_self k, ha, hs, hc⟩
    rintro (hp | ⟨sig, hlt, ha, hs, hc⟩)
    · exact .inl (.inl hp)
    · by_cases he : sig.val = k
      · subst he
        exact .inr ⟨⟨ha, hs⟩, hc⟩
      · exact .inl (.inr ⟨sig, by omega, ha, hs, hc⟩)
  frozen := by
    simp only [Proc.actOn, h.frozen, h.acts hk]
    by_cases hc : k = sigcont
    · subst hc
      -- the turn of `SIGCONT`: `SIGSTOP` has had its turn
      have hle : sigstop.val < sigcont.val := by decide
      simp only [Fin.eta, if_true, Nat.lt_irrefl, false_and, if_false, Nat.lt_succ_self, true_and,
        hle, Nat.lt_succ_of_lt hle]
    have hc' : (⟨k, hk⟩ : Sig) ≠ sigcont := fun he => hc (congrArg Fin.val he)
    have hlt : sigcont.val < k + 1 ↔ sigcont.val < k := by omega
    simp only [if_neg hc', hlt]
    by_cases hs : k = sigstop
    · subst hs
      have hle : ¬ sigcont.val < sigstop.val := by decide
      simp only [Fin.eta, if_true, Nat.lt_irrefl, false_and, if_false, Nat.lt_succ_self, true_and,
        hle]
    · have hs' : (⟨k, hk⟩ : Sig) ≠ sigstop := fun he => hs (congrArg Fin.val he)
      have hlt' : sigstop.val < k + 1 ↔ sigstop.val < k := by omega
      simp only [if_neg hs', hlt', ite_self]

theorem passTo_plain (hrun : p.state = .running) (hplain : p.Plain) (hk : k ≤ 32) :
    ∃ q, passTo p k = .ok q ∧ ActedTo p k q := by
  induction k with
  | zero => exact ⟨p, rfl, .start p⟩
  | succ k ih =>
    obtain ⟨q, hq, hacted⟩ := ih (by omega)
    have hrest := hacted.rest
    have hstate : q.state = .running := by
      rw [hrest]
      exact hrun
    have hstep : signalStep q ⟨k, hk⟩ = .ok (q.actOn ⟨k, hk⟩) := by
      apply signalStep_plain hstate
      intro hdue
      rw [hacted.due hk] at hdue
      rw [hrest]
      exact hplain _ hdue
    exact ⟨_, by rw [passTo_succ hk, hq]; exact hstep, hacted.step hk⟩

theorem handleSignals_plain (hu : p.tf.fromUser = true) (hrun : p.state = .running)
    (hplain : p.Plain) : ∃ q, handleSignals p = .ok q ∧ ActedTo p 32 q := by
  rw [handleSignals_eq hu]
  exact passTo_plain hrun hplain (Nat.le_refl 32)

theorem acts_iff (p : Proc) (sig : Sig) : p.acts sig = true ↔
    p.pending sig = true ∧ p.sigHandlers sig = sigDfl ∧
      (p.sigmask.getLsbD sig = false ∨ sig = sigstop ∨ sig = sigkill) := by
  rw [Proc.acts, Proc.due, Bool.and_eq_true, Bool.and_eq_true, Bool.not_eq_true', beq_iff_eq,
    blocks_eq_false]
  exact ⟨fun ⟨⟨hp, hb⟩, hd⟩ => ⟨hp, hd, hb⟩, fun ⟨hp, hd, hb⟩ => ⟨⟨hp, hb⟩, hd⟩⟩

/-- A pass over a table of default and ignored signals does what they say. -/
theorem default_actions (p : Proc) (hrun : p.state = .running) (hu : p.tf.fromUser = true)
    (htable : ∀ sig, p.sigHandlers sig = sigDfl ∨ p.sigHandlers sig = sigIgn) :
    ∃ q, handleSignals p = .ok q ∧
      (q.killed = true ↔ p.killed = true ∨ ∃ sig, p.pending sig = true ∧ sig ≠ sigstop ∧
        sig ≠ sigcont ∧ p.sigHandlers sig = sigDfl ∧
          (p.sigmask.getLsbD sig = false ∨ sig = sigkill)) ∧
      (q.frozen = if p.pending sigcont = true ∧ p.sigmask.getLsbD sigcont = false ∧
          p.sigHandlers sigcont = sigDfl then false
        else if p.pending sigstop = true ∧ p.sigHandlers sigstop = sigDfl then true
        else p.frozen) ∧
      q.tf = p.tf ∧ q.sigmask = p.sigmask ∧ q.sigHandlers = p.sigHandlers := by
  obtain ⟨q, hq, hacted⟩ := handleSignals_plain hu hrun fun sig _ => htable sig
  have hcont : p.acts sigcont = true ↔ p.pending sigcont = true ∧
      p.sigmask.getLsbD sigcont = false ∧ p.sigHandlers sigcont = sigDfl := by
    rw [acts_iff]
    constructor
    · rintro ⟨hp, hd, hb | hb | hb⟩
      · exact ⟨hp, hb, hd⟩
      · cases hb
      · cases hb
    · rintro ⟨hp, hb, hd⟩
      exact ⟨hp, hd, .inl hb⟩
  have hstop : p.acts sigstop = true ↔ p.pending sigstop = true ∧
      p.sigHandlers sigstop = sigDfl := by
    rw [acts_iff]
    exact ⟨fun ⟨hp, hd, _⟩ => ⟨hp, hd⟩, fun ⟨hp, hd⟩ => ⟨hp, hd, .inr (.inl rfl)⟩⟩
  refine ⟨q, hq, ?_, ?_, ?_⟩
  · rw [hacted.killed]
    apply or_congr_right
    constructor
    · rintro ⟨sig, _, ha, hs, hc⟩
      obtain ⟨hp, hd, hb⟩ := (acts_iff p sig).1 ha
      exact ⟨sig, hp, hs, hc, hd, hb.imp_right fun hb => hb.resolve_left hs⟩
    · rintro ⟨sig, hp, hs, hc, hd, hb⟩
      exact ⟨sig, sig.isLt, (acts_iff p sig).2 ⟨hp, hd, hb.imp_right .inr⟩, hs, hc⟩
  · have hc : sigcont.val < 32 := by decide
    have hs : sigstop.val < 32 := by decide
    rw [hacted.frozen]
    simp only [hc, hs, true_and, hcont, hstop]
  · rw [hacted.rest]
    exact ⟨rfl, rfl, rfl⟩

def runningProc (pending mask : Word) (frozen : Bool) : Proc :=
  { userinit (fun _ => 0) 0x80400000 with
    state := .running
    psignals := pending
    sigmask := mask
    frozen := frozen }

theorem default_actions_stop : ∃ q, handleSignals (runningProc 0x20008 0x20008 false) = .ok q ∧
    q.frozen = true ∧ q.killed = false := by
  obtain ⟨q, hq, hkilled, hfrozen, _⟩ :=
    default_actions (runningProc 0x20008 0x20008 false) rfl (by decide) (fun _ => .inl rfl)
  refine ⟨q, hq, hfrozen.trans (by decide), ?_⟩
  rw [Bool.eq_false_iff, Ne, hkilled]
  decide

def SameSignals (p q : Proc) : Prop :=
  q.psignals = p.psignals ∧ q.sigmask = p.sigmask ∧ q.sigHandlers = p.sigHandlers

theorem SameSignals.plain (h : SameSignals p q) : q.Plain ↔ p.Plain := by
  obtain ⟨hp, hm, ht⟩ := h
  unfold Proc.Plain Proc.due Proc.pending Proc.blocks
  rw [hp, hm, ht]

theorem SameSignals.acts (h : SameSignals p q) (sig : Sig) : q.acts sig = p.acts sig := by
  obtain ⟨hp, hm, ht⟩ := h
  unfold Proc.acts Proc.due Proc.pending Proc.blocks
  rw [hp, hm, ht]

end Xv6Signals
