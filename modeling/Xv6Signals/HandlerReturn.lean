import Xv6Signals.UserFrame

namespace Xv6Signals
open Lib

variable {s t s₂ s₃ : Task} {p q : Proc} {e : Event} {sig : Sig} {tf : TrapFrame} {mask : Word}

theorem SignalStep.eq_of_not_pending (h : SignalStep p sig q) (hp : p.pending sig = false) :
    q = p := by
  cases h with
  | idle _ => rfl
  | discard h _ => cases hp.symm.trans h
  | cont h _ _ => cases hp.symm.trans h
  | stop h _ _ => cases hp.symm.trans h
  | kill h _ _ => cases hp.symm.trans h
  | user h _ _ _ => cases hp.symm.trans h

theorem SignalStep.eq_delivered (h : SignalStep p sig q) (hd : p.delivers sig = true) :
    p.roomBelow = true ∧ q = delivered (p.consume sig) sig := by
  rcases h.image with ⟨_, hr, hq⟩ | ⟨hd', _⟩
  · exact ⟨hr, hq⟩
  · cases hd.symm.trans hd'

theorem pending_bit (h : p.psignals = bit sig) {sig' : Sig} (hne : sig' ≠ sig) :
    p.pending sig' = false := by
  rw [Proc.pending, h, getLsbD_bit]
  exact decide_eq_false fun he => hne (Fin.ext he.symm)

theorem consume_pending (h : p.psignals = bit sig) (sig' : Sig) :
    (p.consume sig).pending sig' = false := by
  rw [Proc.pending, Proc.consume, h, getLsbD_clear, getLsbD_bit, Bool.and_not_self]

theorem handleSignals_single (hu : p.tf.fromUser = true) (hp : p.psignals = bit sig)
    (hd : p.delivers sig = true) (h : handleSignals p = .ok q) :
    p.roomBelow = true ∧ q = delivered (p.consume sig) sig := by
  have hpass := passTo_keeps (p := p) (P := fun k r => (k ≤ sig → r = p) ∧
      (sig < k → p.roomBelow = true ∧ r = delivered (p.consume sig) sig))
    ⟨fun _ => rfl, fun h => absurd h (Nat.not_lt_zero _)⟩ ?_ (Nat.le_refl 32)
    (handleSignals_ok h hu)
  · exact hpass.2 sig.isLt
  rintro k hk r r' ⟨hbefore, hafter⟩ hr
  refine ⟨fun hks => ?_, fun hks => ?_⟩
  · have hrp := hbefore (by omega)
    subst hrp
    refine hr.eq_of_not_pending (pending_bit hp fun he => ?_)
    have := congrArg Fin.val he
    simp only at this
    omega
  rcases Nat.lt_or_eq_of_le (Nat.le_of_lt_succ hks) with hlt | heq
  · obtain ⟨hroom, rfl⟩ := hafter hlt
    refine ⟨hroom, hr.eq_of_not_pending ?_⟩
    exact consume_pending hp _
  have hrp := hbefore (by omega)
  subst hrp
  have hsig : (⟨k, hk⟩ : Sig) = sig := Fin.ext heq.symm
  rw [hsig] at hr
  exact hr.eq_delivered hd

structure Backed (s : Task) (tf : TrapFrame) (mask : Word) : Prop where
  kstack : kallocPage s.proc.kstack = true
  sz : s.proc.sz.toNat < kernBase
  pointer : s.proc.tfBackup = s.proc.kstack
  frame : frameAt s.proc.mem s.proc.kstack = tf
  mask : s.proc.sigmaskBackup = mask

theorem Backed.keep (hb : Backed s tf mask) (hk : t.proc.kstack = s.proc.kstack)
    (hsz : t.proc.sz.toNat < kernBase) (hp : t.proc.tfBackup = s.proc.tfBackup)
    (hm : SameKernel s.proc.mem t.proc.mem) (hmask : t.proc.sigmaskBackup = s.proc.sigmaskBackup) :
    Backed t tf mask where
  kstack := by
    rw [hk]
    exact hb.kstack
  sz := hsz
  pointer := by rw [hp, hk, hb.pointer]
  frame := by rw [hk, hm.frameAt hb.kstack, hb.frame]
  mask := by rw [hmask, hb.mask]

theorem Backed.delivered {mode : Mode} (hr : p.roomBelow = true) (hk : kallocPage p.kstack = true)
    (hsz : p.sz.toNat < kernBase) : Backed ⟨delivered p sig, mode⟩ p.tf p.sigmask :=
  ⟨hk, hsz, rfl, frameAt_delivered hr hk, rfl⟩

def Task.clobbers (s : Task) : Prop := s.AtCall sysSigactionNum ∧ argint s.proc 0 = some 31

instance (s : Task) : Decidable s.clobbers := inferInstanceAs (Decidable (_ ∧ _))

/-- What the handler may do before it returns: anything but a `sigret` of its own, a `sigaction` on
signal 31, a fork followed into the child, or taking another signal for a user handler. -/
def HandlerRuns (s : Task) : Event → Prop
  | .go => ¬ s.AtCall sysSigretNum ∧ ¬ s.clobbers ∧ s.delivers = false
  | .child _ _ _ | .wreck _ => False
  | _ => True

instance (s : Task) (e : Event) : Decidable (HandlerRuns s e) :=
  match e with
  | .go => inferInstanceAs (Decidable (_ ∧ _))
  | .child _ _ _ | .wreck _ => .isFalse id
  | .trap _ _ | .call _ _ _ | .exec _ _ _ _ | .kill _ => .isTrue trivial

def Returns (s : Task) : Event → Prop
  | .go => s.mode ≠ .user ∧ s.delivers = false
  | .kill _ => True
  | _ => False

instance (s : Task) (e : Event) : Decidable (Returns s e) :=
  match e with
  | .go => inferInstanceAs (Decidable (_ ∧ _))
  | .kill _ => .isTrue trivial
  | .trap _ _ | .call _ _ _ | .exec _ _ _ _ | .child _ _ _ | .wreck _ => .isFalse id

theorem sigactionSig_val {signum : Int} (h : sigactionSig signum = some sig) :
    signum = sig.val := by
  unfold sigactionSig at h
  split at h
  · cases h
  split at h
  · rename_i hr
    cases h
    exact (Int.toNat_of_nonneg hr.1).symm
  · cases h

theorem setEntry_tfBackup {a : Sigaction} (h : sig.val + 1 < 32) :
    (p.setEntry sig a).tfBackup = p.tfBackup := by
  simp only [Proc.setEntry, Proc.setTableWord, dif_pos h, dif_pos sig.isLt]

theorem sysSigaction_tfBackup (h : argint p 0 ≠ some 31) :
    (sysSigaction p).2.tfBackup = p.tfBackup := by
  unfold sysSigaction
  split
  · rename_i signum act oldact hsig _ _
    simp only
    cases hs : sigactionSig signum.toInt with
    | none => rw [sigaction_none _ _ hs]
    | some sig =>
      rw [sigaction_some _ _ hs]
      refine setEntry_tfBackup ?_
      by_contra hlast
      have hsig31 : sig.val = 31 := by omega
      have hint : signum.toInt = (31 : Word).toInt := by
        rw [sigactionSig_val hs, hsig31]
        rfl
      rw [BitVec.eq_of_toInt_eq hint] at hsig
      exact h hsig
  · rfl

theorem Backed.step (hb : Backed s tf mask) (hok : HandlerRuns s e) (h : trapStep s e = some t) :
    Backed t tf mask := by
  cases trapStep_cases h with
  | kill =>
    obtain ⟨v, hv⟩ := post_eq s.proc _
    rw [hv]
    exact hb.keep rfl hb.sz rfl (.refl _) rfl
  | trap _ _ _ => exact hb.keep rfl hb.sz rfl (.user _ _ _) rfl
  | sigprocmask _ =>
    rw [sysSigprocmask_image]
    exact hb.keep rfl hb.sz rfl (.refl _) rfl
  | sigaction hc =>
    have hptr := sysSigaction_tfBackup fun ha => hok.2.1 ⟨hc, ha⟩
    have hmem := sysSigaction_sameKernel hb.sz
    rw [sysSigaction_image]
    exact hb.keep rfl hb.sz hptr hmem rfl
  | sigret hc _ => exact absurd hc hok.1
  | call _ _ hsz => exact hb.keep rfl hsz rfl (.user _ _ _) rfl
  | exec _ hsz => exact hb.keep rfl hsz rfl (.user _ _ _) rfl
  | child _ _ => exact hok.elim
  | irq _ _ => exact hb.keep rfl hb.sz rfl (.refl _) rfl
  | signal hk hp hq =>
    have hd := hok.2.2
    rw [hp.delivers hk] at hd
    rcases hq.image with ⟨hd', _, _⟩ | ⟨_, hq⟩
    · cases hd.symm.trans hd'
    · rw [hq]
      exact hb.keep rfl hb.sz rfl (.refl _) rfl
  | wreck _ => exact hok.elim
  | sigretEnd _ _ => exact hb.keep rfl hb.sz rfl (.refl _) rfl
  | pop _ _ => exact hb.keep rfl hb.sz rfl (.refl _) rfl

def Returning (tf : TrapFrame) (mask : Word) (s : Task) : Prop :=
  match s.mode with
  | .trap => s.AtCall sysSigretNum ∧ Backed s tf mask
  | .sigret _ => s.proc.tf = tf ∧ s.proc.sigmask = mask
  | .trapret _ | .user => s.proc.tf = { tf with eax := 0 } ∧ s.proc.sigmask = mask

theorem restore_backed (hb : Backed s tf mask) (h : s.proc.restore = .ok q) :
    q.tf = tf ∧ q.sigmask = mask := by
  unfold Proc.restore at h
  split at h
  · cases h
    refine ⟨?_, hb.mask⟩
    change frameAt s.proc.mem s.proc.tfBackup = tf
    rw [hb.pointer, hb.frame]
  · cases h

theorem Returning.atCall (hr : Returning tf mask s) (hm : s.mode = .trap) :
    s.AtCall sysSigretNum ∧ Backed s tf mask := by
  simpa only [Returning, hm] using hr

theorem Returning.not_atCall {num : Word} (hr : Returning tf mask s) (hc : s.AtCall num)
    (hne : num ≠ sysSigretNum) : False :=
  hne (hc.2.2.symm.trans (hr.atCall hc.1).1.2.2)

theorem Returning.kill (hr : Returning tf mask s) (v : Word) :
    Returning tf mask { s with proc := { s.proc with psignals := v } } := by
  obtain ⟨p, mode⟩ := s
  cases mode with
  | trap => exact ⟨hr.1, hr.2.keep rfl hr.2.sz rfl (.refl _) rfl⟩
  | _ => exact hr

theorem Returning.signal {next : Nat → Mode} {k : Nat} (hr : Returning tf mask s)
    (hp : s.mode.Pass next k) (hf : q.tf = s.proc.tf) (hm : q.sigmask = s.proc.sigmask) :
    Returning tf mask ⟨q, next (k + 1)⟩ := by
  obtain ⟨p, mode⟩ := s
  cases hp <;> exact ⟨hf.trans hr.1, hm.trans hr.2⟩

theorem Returning.step (hr : Returning tf mask s) (hok : Returns s e)
    (h : trapStep s e = some t) : Returning tf mask t := by
  cases trapStep_cases h with
  | kill =>
    obtain ⟨v, hv⟩ := post_eq s.proc _
    rw [hv]
    exact hr.kill v
  | trap _ _ _ => exact hok.elim
  | sigprocmask hc => exact (hr.not_atCall hc (by decide)).elim
  | sigaction hc => exact (hr.not_atCall hc (by decide)).elim
  | sigret hc hq => exact restore_backed (hr.atCall hc.1).2 hq
  | call _ _ _ => exact hok.elim
  | exec _ _ => exact hok.elim
  | child _ _ => exact hok.elim
  | irq hm hn => exact absurd (hr.atCall hm).1.2.1 hn
  | signal hk hp hq =>
    have hd := hok.2
    rw [hp.delivers hk] at hd
    rcases hq.image with ⟨hd', _, _⟩ | ⟨_, hq⟩
    · cases hd.symm.trans hd'
    · exact hr.signal hp (by rw [hq]) (by rw [hq])
  | wreck _ => exact hok.elim
  | sigretEnd hm _ =>
    obtain ⟨hf, hk⟩ : s.proc.tf = tf ∧ s.proc.sigmask = mask := by
      simpa only [Returning, hm] using hr
    refine ⟨?_, hk⟩
    rw [← hf]
    rfl
  | pop hm _ =>
    have hr' : s.proc.tf = { tf with eax := 0 } ∧ s.proc.sigmask = mask := by
      simpa only [Returning, hm] using hr
    exact hr'

/-- A process with one pending signal, which has a user handler, takes the signal; the handler runs
and returns through `sigret`. What the process is resumed with is what was interrupted exactly when
its `eax` was 0. -/
theorem delivery_returns_iff (hu : p.tf.fromUser = true) (hk : kallocPage p.kstack = true)
    (hsz : p.sz.toNat < kernBase) (hp : p.psignals = bit sig) (hd : p.delivers sig = true)
    (hq : handleSignals p = .ok q) (hrun : trapMachine.Path HandlerRuns ⟨q, .user⟩ s₂)
    (hc : s₂.AtCall sysSigretNum) (hret : trapMachine.Path Returns s₂ s₃) (h₃ : s₃.mode = .user) :
    s₃.proc.tf = p.tf ∧ s₃.proc.sigmask = p.sigmask ↔ p.tf.eax = 0 := by
  obtain ⟨hroom, rfl⟩ := handleSignals_single hu hp hd hq
  have hb : Backed s₂ p.tf p.sigmask := by
    refine hrun.invariant (P := fun s => Backed s p.tf p.sigmask) ?_ ?_
    · exact Backed.delivered (p := p.consume sig) hroom hk hsz
    · intro _ _ _ hb hok h
      exact hb.step hok h
  have hr : Returning p.tf p.sigmask s₃ := by
    refine hret.invariant ?_ ?_
    · simp only [Returning, hc.1]
      exact ⟨hc, hb⟩
    · intro _ _ _ hr hok h
      exact hr.step hok h
  simp only [Returning, h₃] at hr
  rw [hr.1, hr.2]
  constructor
  · rintro ⟨hf, _⟩
    rw [← hf]
  · intro h0
    rw [← h0]
    exact ⟨rfl, rfl⟩

def roundTrip (p : Proc) (l₁ l₂ : List Event) : Option (Proc × Task × Task) := do
  let q ← (handleSignals p).toOption
  let s₂ ← trapMachine.run ⟨q, .user⟩ l₁
  let s₃ ← trapMachine.run s₂ l₂
  return (q, s₂, s₃)

theorem roundTrip_sound (p : Proc) (l₁ l₂ : List Event) (P : Task → Task → Prop)
    [∀ s₂ s₃, Decidable (P s₂ s₃)]
    (h : (roundTrip p l₁ l₂).any (fun r => decide (trapMachine.Permits HandlerRuns ⟨r.1, .user⟩ l₁ ∧
      trapMachine.Permits Returns r.2.1 l₂ ∧ P r.2.1 r.2.2)) = true) :
    ∃ q s₂ s₃, handleSignals p = .ok q ∧ trapMachine.Path HandlerRuns ⟨q, .user⟩ s₂ ∧
      trapMachine.Path Returns s₂ s₃ ∧ P s₂ s₃ := by
  obtain ⟨⟨q, s₂, s₃⟩, hr, hP⟩ := (Option.any_eq_true ..).1 h
  obtain ⟨h₁, h₂, hP⟩ := of_decide_eq_true hP
  obtain ⟨q', hq, hr⟩ := Option.bind_eq_some_iff.1 hr
  obtain ⟨s₂', hs₂, hr⟩ := Option.bind_eq_some_iff.1 hr
  obtain ⟨s₃', hs₃, hr⟩ := Option.bind_eq_some_iff.1 hr
  cases hr
  refine ⟨q, s₂, s₃, ?_, .run h₁ hs₂, .run h₂ hs₃, hP⟩
  cases hp : handleSignals p with
  | error e => rw [hp] at hq; cases hq
  | ok q' => rw [hp] at hq; cases hq; rfl

def interrupted (eax : Word) : Proc :=
  { userinit (fun _ => 0) 0x80400000 with
    psignals := bit 5
    sigHandlers := fun i => if i = 5 then 0x100 else sigDfl
    tf := { callFrameRegs eax 0x800 with trapno := 32 } }

theorem delivery_returns_zero : ∃ q s₂ s₃, handleSignals (interrupted 0) = .ok q ∧
    trapMachine.Path HandlerRuns ⟨q, .user⟩ s₂ ∧ trapMachine.Path Returns s₂ s₃ ∧
    s₃.proc.tf = (interrupted 0).tf ∧ s₃.proc.sigmask = (interrupted 0).sigmask := by
  obtain ⟨q, s₂, s₃, hq, h₁, h₂, hc, hm⟩ := roundTrip_sound (interrupted 0)
    [.trap (fun _ => 0) (callFrameRegs sysSigretNum 0x700)] (List.replicate 67 .go)
    (fun s₂ s₃ => s₂.AtCall sysSigretNum ∧ s₃.mode = .user) (by decide +kernel)
  exact ⟨q, s₂, s₃, hq, h₁, h₂, (delivery_returns_iff (by decide) (by decide) (by decide)
    (rfl : _ = bit 5) (by decide) hq h₁ hc h₂ hm).2 rfl⟩

theorem delivery_clobbers_eax : ∃ q s₂ s₃, handleSignals (interrupted 9) = .ok q ∧
    trapMachine.Path HandlerRuns ⟨q, .user⟩ s₂ ∧ trapMachine.Path Returns s₂ s₃ ∧
    s₂.AtCall sysSigretNum ∧ s₃.mode = .user ∧ (interrupted 9).tf.eax = 9 ∧
    s₃.proc.tf.eax = 0 :=
  roundTrip_sound (interrupted 9) [.trap (fun _ => 0) (callFrameRegs sysSigretNum 0x700)]
    (List.replicate 67 .go)
    (fun s₂ s₃ => s₂.AtCall sysSigretNum ∧ s₃.mode = .user ∧ (interrupted 9).tf.eax = 9 ∧
      s₃.proc.tf.eax = 0)
    (by decide +kernel)

end Xv6Signals
