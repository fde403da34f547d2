import Xv6Signals.HandlerTable

namespace Xv6Signals
open Lib

variable {p q : Proc} {sig : Sig}

structure SigCall where
  mem : Mem 32
  sig : Sig
  act : Word
  oldact : Word

def SigCall.run (c : SigCall) (p : Proc) : Proc :=
  (sigaction (p.userStore c.mem) c.sig.val c.act c.oldact).2

def SigCall.given (c : SigCall) (p : Proc) : Sigaction :=
  (p.userStore c.mem).given c.sig c.act c.oldact

def runCalls (p : Proc) : List SigCall → Proc
  | [] => p
  | c :: cs => c.run (runCalls p cs)

def history (p : Proc) : List SigCall → List (Sig × Sigaction)
  | [] => []
  | c :: cs => (c.sig, c.given (runCalls p cs)) :: history p cs

def latest : List (Sig × Sigaction) → Sig → Sigaction
  | [], _ => ⟨sigDfl, 0⟩
  | (s, a) :: hist, sig => if sig = s then a else latest hist sig

/-- The word that was last written at an index of the table, where the mask of a call goes to the
index after that of its handler. -/
def lastWord (tfBackup : Word) : List (Sig × Sigaction) → Nat → Word
  | [], j => if j < 32 then sigDfl else tfBackup
  | (s, a) :: hist, j =>
    if j = s + 1 then a.sigmask else if j = s then a.saHandler else lastWord tfBackup hist j

theorem sigactionSig_eq (h : sig ≠ sigkill) (h' : sig ≠ sigstop) :
    sigactionSig sig.val = some sig := by
  have hlt := sig.isLt
  have hs : ¬ ((sig.val : Int) = sigstop.val ∨ (sig.val : Int) = sigkill.val) := by
    rintro (he | he)
    · exact h' (Fin.ext (Int.ofNat.inj he))
    · exact h (Fin.ext (Int.ofNat.inj he))
  rw [sigactionSig, if_neg hs, dif_pos ⟨by omega, by omega⟩]
  rfl

variable {c : SigCall}

theorem SigCall.run_eq (h : c.sig ≠ sigkill) (h' : c.sig ≠ sigstop) :
    c.run p = { p.setEntry c.sig (c.given p) with
      mem := (p.userStore c.mem).storeOld c.sig c.oldact } := by
  rw [SigCall.run, sigaction_some _ _ (sigactionSig_eq h h')]
  unfold Proc.setEntry Proc.setTableWord
  repeat' split
  all_goals rfl

theorem run_tableWord (h : c.sig ≠ sigkill) (h' : c.sig ≠ sigstop) {j : Nat} (hj : j ≤ 32) :
    (c.run p).tableWord j = if j = c.sig + 1 then (c.given p).sigmask
      else if j = c.sig then (c.given p).saHandler else p.tableWord j := by
  rw [SigCall.run_eq h h', ← tableWord_setEntry p c.sig (c.given p) hj]
  rfl

theorem runCalls_tableWord {slot : Proc} {page : Word} {cs : List SigCall}
    (hcs : ∀ c ∈ cs, c.sig ≠ sigkill ∧ c.sig ≠ sigstop) {j : Nat} (hj : j ≤ 32) :
    (runCalls (allocated slot page) cs).tableWord j =
      lastWord slot.tfBackup (history (allocated slot page) cs) j := by
  induction cs with
  | nil =>
    simp only [runCalls, history, lastWord, Proc.tableWord, allocated, dite_eq_ite]
  | cons c cs ih =>
    obtain ⟨hk, hs⟩ := hcs c (List.mem_cons_self ..)
    rw [runCalls, run_tableWord hk hs hj, ih fun c hc => hcs c (List.mem_cons_of_mem _ hc)]
    rfl

theorem readSigaction_writeSigaction (m : Mem 32) (a : Word) (act : Sigaction) :
    readSigaction (writeSigaction m a act) a = act := by
  simp only [readSigaction, writeSigaction, Mem.loadWord_storeWord, Mem.loadWord_storeWord_next]

theorem run_oldact (h : c.sig ≠ sigkill) (h' : c.sig ≠ sigstop) (ho : c.oldact ≠ 0) :
    readSigaction (c.run p).mem c.oldact = p.entry c.sig := by
  rw [SigCall.run_eq h h']
  simp only [Proc.storeOld, if_pos ho]
  exact readSigaction_writeSigaction _ _ _

/-- The call leaves the entries of the other signals, and every field but the table, as they
were. -/
def Frame (p q : Proc) (sig : Sig) : Prop :=
  (∀ s, s ≠ sig → q.entry s = p.entry s) ∧
    { q with sigHandlers := p.sigHandlers, mem := p.mem } = p

section

variable (h : c.sig ≠ sigkill) (h' : c.sig ≠ sigstop)
include h h'

theorem run_fields :
    { c.run p with sigHandlers := p.sigHandlers, mem := p.mem, tfBackup := p.tfBackup } = p := by
  rw [SigCall.run_eq h h']
  unfold Proc.setEntry Proc.setTableWord
  repeat' split
  all_goals rfl

theorem run_fields_iff : { c.run p with sigHandlers := p.sigHandlers, mem := p.mem } = p ↔
      (c.run p).tableWord 32 = p.tableWord 32 := by
  constructor
  · intro he
    exact (congrArg Proc.tfBackup he :)
  · intro (ht : (c.run p).tfBackup = p.tfBackup)
    have hf := run_fields (p := p) h h'
    rw [← ht] at hf
    exact hf

theorem frame_iff_words : Frame p (c.run p) c.sig ↔
      ∀ j : Nat, j ≤ 32 → j ≠ c.sig ∨ c.sig ≠ 0 → (c.run p).tableWord j = p.tableWord j := by
  rw [Frame, run_fields_iff h h']
  constructor
  · rintro ⟨hent, hlast⟩ j hj hne
    by_cases hj32 : j = 32
    · rw [hj32, hlast]
    by_cases hjs : j = c.sig
    · have hpos : c.sig.val ≠ 0 := by
        rcases hne with hne | hne
        · exact absurd hjs hne
        · exact fun he => hne (Fin.ext he)
      have he := hent ⟨j - 1, by omega⟩ (by rw [Ne, Fin.ext_iff]; simp only; omega)
      have hm := congrArg Sigaction.sigmask he
      simp only [Proc.entry] at hm
      rw [Nat.sub_add_cancel (by omega)] at hm
      exact hm
    · have he := hent ⟨j, by omega⟩ (by rw [Ne, Fin.ext_iff]; exact hjs)
      exact congrArg Sigaction.saHandler he
  · intro hw
    refine ⟨fun i hi => ?_, hw 32 (Nat.le_refl 32) (.inl (by omega))⟩
    have hne : i.val ≠ c.sig := fun he => hi (Fin.ext he)
    have hs : (i.val + 1 ≠ c.sig ∨ c.sig ≠ 0) := by
      by_cases h0 : c.sig = 0
      · rw [h0]
        exact .inl (Nat.succ_ne_zero _)
      · exact .inr h0
    rw [Proc.entry, Proc.entry, hw i (by omega) (.inl hne), hw (i + 1) (by omega) hs]

theorem frame_iff : Frame p (c.run p) c.sig ↔ p.tableWord (c.sig + 1) = (c.given p).sigmask ∧
      (c.sig = 0 ∨ p.tableWord c.sig = (c.given p).saHandler) := by
  have hlt := c.sig.isLt
  rw [frame_iff_words h h']
  constructor
  · intro hw
    constructor
    · rw [← hw (c.sig + 1) (by omega) (.inl (by omega)), run_tableWord h h' (by omega), if_pos rfl]
    by_cases h0 : c.sig = 0
    · exact .inl h0
    · rw [← hw c.sig (by omega) (.inr h0), run_tableWord h h' (by omega), if_neg (by omega),
        if_pos rfl]
      exact .inr rfl
  rintro ⟨hm, hh⟩ j hj hne
  rw [run_tableWord h h' hj]
  split
  · rename_i he
    rw [he, hm]
  split
  · rename_i he
    rcases hh with hh | hh
    · rcases hne with hne | hne
      · exact absurd he hne
      · exact absurd hh hne
    · rw [he, hh]
  · rfl

end

/-- The later call repeats the most recent one on its signal, up to the handler for signal 0, and
the two words of that entry have not been written since with anything else. -/
def Undisturbed (tfBackup : Word) (hist : List (Sig × Sigaction)) (sig : Sig) (a : Sigaction) :
    Prop :=
  lastWord tfBackup hist sig = (latest hist sig).saHandler ∧
  lastWord tfBackup hist (sig + 1) = (latest hist sig).sigmask ∧
  a.sigmask = (latest hist sig).sigmask ∧ (sig = 0 ∨ a.saHandler = (latest hist sig).saHandler)

/-- A call of `sigaction` reads back the most recent call on its signal and leaves everything else
alone exactly when it is undisturbed. -/
theorem sigaction_map_iff (slot : Proc) (page : Word) {cs : List SigCall}
    (hcs : ∀ c' ∈ c :: cs, c'.sig ≠ sigkill ∧ c'.sig ≠ sigstop) (ho : c.oldact ≠ 0) :
    let p := runCalls (allocated slot page) cs
    let hist := history (allocated slot page) cs
    readSigaction (c.run p).mem c.oldact = latest hist c.sig ∧ Frame p (c.run p) c.sig ↔
      Undisturbed slot.tfBackup hist c.sig (c.given p) := by
  intro p hist
  obtain ⟨hk, hs⟩ := hcs c (List.mem_cons_self ..)
  have word {j : Nat} (hj : j ≤ 32) : p.tableWord j = lastWord slot.tfBackup hist j :=
    runCalls_tableWord (fun c' hc' => hcs c' (List.mem_cons_of_mem _ hc')) hj
  have hlt := c.sig.isLt
  have hentry : p.entry c.sig =
      ⟨lastWord slot.tfBackup hist c.sig, lastWord slot.tfBackup hist (c.sig + 1)⟩ := by
    rw [Proc.entry, word (by omega), word (by omega)]
  rw [run_oldact hk hs ho, frame_iff hk hs, hentry, word (by omega), word (by omega)]
  constructor
  · rintro ⟨he, hm, hh⟩
    rw [Undisturbed, ← he]
    exact ⟨rfl, rfl, hm.symm, hh.imp_right Eq.symm⟩
  · rintro ⟨h₁, h₂, hm, hh⟩
    rw [h₁, h₂]
    exact ⟨rfl, hm.symm, hh.imp_right Eq.symm⟩

def actMem : Mem 32 := fun a => if a = 0x1000 then 7 else if a = 0x1004 then 5 else 0

def userPage : Proc := { userSlot with sz := 0x4000 }

theorem sigaction_map_repeated :
    let p := runCalls (allocated userPage 0x80400000) [⟨actMem, 5, 0x1000, 0⟩]
    let c : SigCall := ⟨actMem, 5, 0x1000, 0x2000⟩
    readSigaction (c.run p).mem c.oldact = ⟨7, 5⟩ ∧ Frame p (c.run p) c.sig := by
  refine (sigaction_map_iff userPage 0x80400000 ?_ ?_).2 ?_
  · decide
  · decide
  · unfold Undisturbed
    decide +kernel

/-- After `sigaction(2, {7, 5}, 0)` on a fresh process, the entry of signal 3 has changed and a
call on signal 3 reads the mask back as its old handler. -/
theorem sigaction_overlaps :
    let p := allocated userPage 0x80400000
    let c : SigCall := ⟨actMem, 2, 0x1000, 0⟩
    let c' : SigCall := ⟨actMem, 3, 0x1000, 0x2000⟩
    0 < (c.given p).sigmask ∧ (c.run p).entry 3 ≠ p.entry 3 ∧
      latest (history p [c]) 3 = ⟨sigDfl, 0⟩ ∧
      readSigaction (c'.run (c.run p)).mem c'.oldact = ⟨5, 0⟩ := by
  decide +kernel

end Xv6Signals
