import Xv6Signals.HandlerMap
import Xv6Signals.UserFrame

namespace Xv6Signals
open Lib

variable {p q : Proc} {sig : Sig} {signum : Int} {act oldact : Word}

/-- A call that fails changes nothing, and one that succeeds has installed `*act`. -/
def SigactionAtomic (p : Proc) (signum : Int) (act oldact : Word) : Prop :=
  ((sigaction p signum act oldact).1 ≠ 0 → (sigaction p signum act oldact).2 = p) ∧
  ((sigaction p signum act oldact).1 = 0 → ∃ sig, sigactionSig signum = some sig ∧
    (sigaction p signum act oldact).2.entry sig = readSigaction p.mem act)

theorem entry_setEntry (p : Proc) (sig : Sig) (a : Sigaction) :
    (p.setEntry sig a).entry sig = a := by
  have hlt := sig.isLt
  have hself : sig.val ≠ sig.val + 1 := by omega
  rw [Proc.entry, tableWord_setEntry p sig a (by omega), tableWord_setEntry p sig a (by omega),
    if_neg hself, if_pos rfl, if_pos rfl]

theorem setTableWord_self (p : Proc) (i : Nat) : p.setTableWord i (p.tableWord i) = p := by
  unfold Proc.setTableWord Proc.tableWord
  split
  · rw [Function.update_eq_self]
  · rfl

theorem setEntry_self (p : Proc) (sig : Sig) : p.setEntry sig (p.entry sig) = p := by
  show (p.setTableWord sig (p.tableWord sig)).setTableWord (sig + 1) (p.tableWord (sig + 1)) = p
  rw [setTableWord_self, setTableWord_self]

theorem sigaction_fst (h : sigactionSig signum = some sig) : (sigaction p signum act oldact).1 =
      if (p.given sig act oldact).sigmask = 0 then 1 else 0 := by
  have hle : (p.given sig act oldact).sigmask ≤ 0 ↔ (p.given sig act oldact).sigmask = 0 :=
    BitVec.le_zero_iff
  simp only [sigaction, h]
  show (if (p.given sig act oldact).sigmask ≤ 0 then (1 : Int) else 0) = _
  simp only [hle]

theorem storeOld_eq_mem (p : Proc) (sig : Sig) (oldact : Word) :
    p.storeOld sig oldact = p.mem ↔ oldact = 0 ∨ readSigaction p.mem oldact = p.entry sig := by
  unfold Proc.storeOld
  by_cases h : oldact = 0
  · rw [if_neg (not_not.2 h)]
    exact iff_of_true rfl (.inl h)
  rw [if_pos h]
  constructor
  · intro he
    right
    rw [← readSigaction_writeSigaction p.mem oldact (p.entry sig), he]
  rintro (h0 | he)
  · exact (h h0).elim
  · rw [← he]
    show (p.mem.storeWord oldact (p.mem.loadWord oldact)).storeWord (oldact + 4)
      (p.mem.loadWord (oldact + 4)) = p.mem
    rw [Mem.storeWord_loadWord, Mem.storeWord_loadWord]

/-- The call installs what it was given: its mask is not 0, and filling in `*oldact` does not
change `*act`. -/
def Installs (p : Proc) (sig : Sig) (act oldact : Word) : Prop :=
  (readSigaction p.mem act).sigmask ≠ 0 ∧ p.given sig act oldact = readSigaction p.mem act

/-- The call finds everything as it would leave it, and its mask is 0. -/
def Repeats (p : Proc) (sig : Sig) (act oldact : Word) : Prop :=
  (readSigaction p.mem act).sigmask = 0 ∧ readSigaction p.mem act = p.entry sig ∧
    (oldact = 0 ∨ readSigaction p.mem oldact = p.entry sig)

/-- `sigaction` is atomic on a signal that it accepts exactly when it installs its argument or
repeats what is there. -/
theorem sigaction_atomic_iff (p : Proc) (signum : Int) (act oldact : Word) :
    SigactionAtomic p signum act oldact ↔ ∀ sig, sigactionSig signum = some sig →
      Installs p sig act oldact ∨ Repeats p sig act oldact := by
  unfold SigactionAtomic
  cases hsig : sigactionSig signum with
  | none =>
    have hone : (sigaction p signum act oldact).1 = 1 := by simp only [sigaction, hsig]
    rw [sigaction_none act oldact hsig, hone]
    exact iff_of_true ⟨fun _ => rfl, fun h => by cases h⟩ fun _ h => by cases h
  | some sig =>
    rw [sigaction_some act oldact hsig, sigaction_fst hsig]
    have hentry : ({ p.setEntry sig (p.given sig act oldact) with
        mem := p.storeOld sig oldact } : Proc).entry sig = p.given sig act oldact :=
      entry_setEntry p sig _
    by_cases hmask : (p.given sig act oldact).sigmask = 0
    · rw [if_pos hmask]
      constructor
      · rintro ⟨hsame, _⟩ _ ⟨⟩
        have hp := hsame (by decide)
        have hmem : p.storeOld sig oldact = p.mem := congrArg Proc.mem hp
        have hgiven : p.given sig act oldact = readSigaction p.mem act := by
          rw [Proc.given, hmem]
        rw [hp, hgiven] at hentry
        rw [hgiven] at hmask
        exact .inr ⟨hmask, hentry.symm, (storeOld_eq_mem p sig oldact).1 hmem⟩
      · intro h
        refine ⟨fun _ => ?_, fun h0 => by cases h0⟩
        rcases h sig rfl with ⟨hne, he⟩ | ⟨_, he, hold⟩
        · exact (hne (he ▸ hmask)).elim
        · have hmem := (storeOld_eq_mem p sig oldact).2 hold
          rw [Proc.given, hmem, he, setEntry_self]
    · rw [if_neg hmask]
      constructor
      · rintro ⟨_, hinst⟩ _ ⟨⟩
        obtain ⟨_, ⟨⟩, he⟩ := hinst rfl
        rw [hentry] at he
        exact .inl ⟨he ▸ hmask, he⟩
      intro h
      refine ⟨fun h0 => (h0 rfl).elim, fun _ => ⟨sig, rfl, ?_⟩⟩
      rcases h sig rfl with ⟨_, he⟩ | ⟨hzero, _, hold⟩
      · rw [hentry, he]
      · have hmem := (storeOld_eq_mem p sig oldact).2 hold
        rw [Proc.given, hmem] at hmask
        exact (hmask hzero).elim

/-- `sigaction(2, {7, 0}, 0)` on a fresh process: the call fails, and the handler is in the table.
-/
theorem sigaction_fails_installed :
    let p := (allocated userPage 0x80400000).userStore fun a => if a = 0x1000 then 7 else 0
    (sigaction p 2 0x1000 0).1 = 1 ∧ p.sigHandlers 2 = sigDfl ∧
      (sigaction p 2 0x1000 0).2.sigHandlers 2 = 7 := by
  decide +kernel

theorem loadWord_backup {a : Word} (hk : kallocPage p.kstack = true)
    (ha : a.toNat + 4 ≤ kernBase) : p.backup.mem.loadWord a = p.mem.loadWord a := by
  have hlen : (wordsBytes p.tf.toWords).length = 76 := length_wordsBytes _
  simp only [kallocPage, Bool.and_eq_true, decide_eq_true_eq] at hk
  obtain ⟨hlo, hhi⟩ := hk
  rw [kernBase] at hlo hhi ha
  rw [physTop] at hhi
  show bytesWord ((p.mem.store p.kstack _).load a 4) = _
  rw [Mem.load_store_disjoint, Mem.loadWord]
  intro i hi
  rw [hlen, offset]
  bv_omega

/-- When the signal is delivered, the process resumes in the handler that was registered last, with
the mask that was registered with it, exactly when no later call has written over the handler's
word in the table and the mask also stands in the second word of the handler's code. -/
theorem delivery_agrees_iff (slot : Proc) (page : Word) {cs : List SigCall}
    (hcs : ∀ c ∈ cs, c.sig ≠ sigkill ∧ c.sig ≠ sigstop)
    (htable : p.sigHandlers = (runCalls (allocated slot page) cs).sigHandlers)
    (hk : kallocPage p.kstack = true) (h : userHandler p sig = .ok q) :
    let hist := history (allocated slot page) cs
    (latest hist sig).saHandler.toNat + 8 ≤ kernBase →
    (q.tf.eip = (latest hist sig).saHandler ∧ q.sigmask = (latest hist sig).sigmask ↔
      lastWord slot.tfBackup hist sig = (latest hist sig).saHandler ∧
        p.mem.loadWord ((latest hist sig).saHandler + 4) = (latest hist sig).sigmask) := by
  intro hist hlt
  have hword : p.sigHandlers sig = lastWord slot.tfBackup hist sig := by
    rw [htable, ← tableWord_sig]
    exact runCalls_tableWord hcs (by omega)
  obtain ⟨_, hq⟩ := userHandler_ok h
  have heip : q.tf.eip = lastWord slot.tfBackup hist sig := by
    rw [hq, ← hword]
    rfl
  have hmask : q.sigmask = p.backup.mem.loadWord (p.sigHandlers sig + 4) := by
    rw [hq]
    rfl
  rw [heip, hmask, hword]
  apply and_congr_right
  intro he
  rw [he, loadWord_backup hk]
  rw [kernBase] at hlt ⊢
  bv_omega

def handlerCall : SigCall :=
  ⟨fun a => if a = 0x1001 then 1 else if a = 0x1004 then 6 else 0, 5, 0x1000, 0⟩

def registeredProc (word : Word) : Proc :=
  { runCalls (allocated userPage 0x80400000) [handlerCall] with
    mem := Mem.storeWord (fun _ => 0) 0x104 word
    tf := { userPage.tf with esp := 0x3000 } }

theorem delivery_agrees_lucky : ∃ q, userHandler (registeredProc 6) 5 = .ok q ∧
    q.tf.eip = 0x100 ∧ q.sigmask = 6 := by
  have hok : (userHandler (registeredProc 6) 5).isOk = true := by decide +kernel
  cases h : userHandler (registeredProc 6) 5 with
  | error e =>
    rw [h] at hok
    cases hok
  | ok q =>
    have hlatest : latest (history (allocated userPage 0x80400000) [handlerCall]) 5 =
        ⟨0x100, 6⟩ := by decide +kernel
    have hcs : ∀ c ∈ [handlerCall], c.sig ≠ sigkill ∧ c.sig ≠ sigstop := by decide
    have hpage : kallocPage (registeredProc 6).kstack = true := by decide +kernel
    have htable : (registeredProc 6).sigHandlers =
        (runCalls (allocated userPage 0x80400000) [handlerCall]).sigHandlers := rfl
    have hagrees := delivery_agrees_iff userPage 0x80400000 hcs htable hpage h
    dsimp only at hagrees
    rw [hlatest] at hagrees
    exact ⟨q, rfl, (hagrees (by decide +kernel)).2 (by decide +kernel)⟩

/-- The handler's code has 0 in its second word, and the handler runs with an empty mask. -/
theorem delivery_mask_lost :
    latest (history (allocated userPage 0x80400000) [handlerCall]) 5 = ⟨0x100, 6⟩ ∧
      ((userHandler (registeredProc 0) 5).toOption.any fun q =>
        q.tf.eip == 0x100 && q.sigmask == 0) = true := by
  decide +kernel

end Xv6Signals
