import Xv6Signals.Lib.Machine
import Xv6Signals.Delivery

namespace Xv6Signals
open Lib List Bool

/-- Where a call of `kill` stands at the process it has found: before its `cas`, with the word that
`expected_on` was formed from, before the load or the store of `|=`, or returned. -/
inductive KillPc
  | cas (sig : Sig) (loaded : Word)
  | load (sig : Sig)
  | store (sig : Sig) (loaded : Word)
  | returned (sig : Sig) (ret : Int)
  deriving DecidableEq, Repr

/-- Where the process stands in `handle_signals`: outside, at the start of an iteration, or before
one of the two `cas`s, with the word that `expected` was formed from. -/
inductive PassPc
  | idle
  | load (sig : Nat)
  | maskedCas (sig : Sig) (loaded : Word)
  | cas (sig : Sig) (loaded : Word)
  deriving DecidableEq, Repr

/-- The signal words of one process, the calls of `kill` aimed at it, and its own pass. -/
structure Pending where
  psignals : Word
  sigmask : Word
  calls : List KillPc
  pass : PassPc
  deriving DecidableEq, Repr

/-- One access: a new call of `kill` loads the word, a call or the pass goes on, or the process
changes its mask between two iterations or outside the pass. -/
inductive Access
  | kill (sig : Sig)
  | call (i : Nat)
  | pass
  | mask (v : Word)
  deriving DecidableEq, Repr

def killStep (word : Word) : KillPc → Option (Word × KillPc)
  | .cas sig loaded =>
    if word = loaded ||| bit sig then some (word, .returned sig (-1))
    else if sig = 1 then some (word, .returned sig 0)
    else some (word, .load sig)
  | .load sig => some (word, .store sig word)
  | .store sig loaded => some (loaded ||| bit sig, .returned sig 0)
  | .returned _ _ => none

/-- A `cas` of the pass, which takes the signal out of the word or goes on at `other`. -/
def Pending.casSignal (s : Pending) (sig : Sig) (loaded : Word) (other : PassPc) : Pending :=
  if s.psignals = loaded ||| bit sig then
    { s with psignals := (loaded ||| bit sig) ^^^ bit sig, pass := .load (sig + 1) }
  else { s with pass := other }

def Pending.passStep (s : Pending) : Pending :=
  match s.pass with
  | .idle => { s with pass := .load 0 }
  | .load k =>
    if h : k < 32 then
      if blocked s.sigmask ⟨k, h⟩ then { s with pass := .maskedCas ⟨k, h⟩ s.psignals }
      else { s with pass := .cas ⟨k, h⟩ s.psignals }
    else { s with pass := .idle }
  | .maskedCas sig loaded => s.casSignal sig loaded (.cas sig loaded)
  | .cas sig loaded => s.casSignal sig loaded (.load (sig + 1))

def PassPc.between : PassPc → Bool
  | .idle | .load _ => true
  | _ => false

def Pending.step (s : Pending) : Access → Option Pending
  | .kill sig => some { s with calls := s.calls ++ [.cas sig s.psignals] }
  | .call i =>
    match s.calls[i]? with
    | none => none
    | some pc =>
      (killStep s.psignals pc).map fun r => { s with psignals := r.1, calls := s.calls.set i r.2 }
  | .pass => some s.passStep
  | .mask v => if s.pass.between then some { s with sigmask := v } else none

def pendingMachine : Machine Pending Access where
  init := fun s => s.psignals = 0 ∧ s.calls = [] ∧ s.pass = .idle
  next := Pending.step

def Pending.pending (s : Pending) (sig : Sig) : Bool := s.psignals.getLsbD sig

def Pending.consumes (s : Pending) (a : Access) (sig : Sig) : Bool :=
  match a, s.pass with
  | .pass, .maskedCas sig' loaded | .pass, .cas sig' loaded =>
    sig' == sig && s.psignals == loaded ||| bit sig'
  | _, _ => false

def Pending.succeeds (s : Pending) (a : Access) (sig : Sig) : Bool :=
  match a with
  | .call i =>
    (s.calls[i]?.bind (killStep s.psignals)).any fun r => r.2 == .returned sig 0
  | _ => false

def KillPc.unraced (word : Word) : KillPc → Bool
  | .store sig loaded => word ||| bit sig == loaded ||| bit sig
  | _ => true

/-- No call is made for signal 1, and no `|=` loses or brings back a bit of another signal. -/
def Unraced (s : Pending) : Access → Prop
  | .kill sig => sig ≠ 1
  | .call i => (s.calls[i]?).all (KillPc.unraced s.psignals) = true
  | _ => True

instance (s : Pending) (a : Access) : Decidable (Unraced s a) :=
  match a with
  | .kill sig => inferInstanceAs (Decidable (sig ≠ 1))
  | .call _ => inferInstanceAs (Decidable (_ = true))
  | .pass | .mask _ => .isTrue trivial

def KillPc.sig : KillPc → Sig
  | .cas sig _ | .load sig | .store sig _ | .returned sig _ => sig

def KillPc.mayPost (sig : Sig) : KillPc → Bool
  | .returned _ _ => false
  | pc => pc.sig == sig

variable {s t u : Pending} {a : Access} {sig : Sig} {pc pc' : KillPc} {word word' : Word}
  {l : List KillPc} {loaded : Word} {i : Nat}

theorem killStep_cases (h : killStep word pc = some (word', pc')) :
    word' = word ∧ pc'.sig = pc.sig ∧ (pc.sig ≠ 1 → ∀ sig, pc' ≠ .returned sig 0) ∧
        (∀ sig, pc'.mayPost sig = true → pc.mayPost sig = true) ∨
      ∃ sig loaded, pc = .store sig loaded ∧ word' = loaded ||| bit sig ∧
        pc' = .returned sig 0 := by
  cases pc with
  | cas sig loaded =>
    simp only [killStep] at h
    split at h
    · cases h
      refine .inl ⟨rfl, rfl, fun _ _ he => ?_, nofun⟩
      cases he
    split at h
    · rename_i hsig
      cases h
      exact .inl ⟨rfl, rfl, fun hne => absurd hsig hne, nofun⟩
    · cases h
      exact .inl ⟨rfl, rfl, nofun, fun _ he => he⟩
  | load sig =>
    cases h
    exact .inl ⟨rfl, rfl, nofun, fun _ he => he⟩
  | store sig loaded =>
    cases h
    exact .inr ⟨sig, loaded, rfl, rfl, rfl⟩
  | returned sig ret => cases h

inductive PendingStep (s : Pending) : Access → Pending → Prop
  | kill {sig : Sig} :
      PendingStep s (.kill sig) { s with calls := s.calls ++ [.cas sig s.psignals] }
  | call {i : Nat} {pc pc' : KillPc} : s.calls[i]? = some pc → pc'.sig = pc.sig →
      (∀ sig, s.succeeds (.call i) sig = false) →
      (∀ sig, pc'.mayPost sig = true → pc.mayPost sig = true) →
      PendingStep s (.call i) { s with calls := s.calls.set i pc' }
  | post {i : Nat} {sig : Sig} {loaded : Word} : s.calls[i]? = some (.store sig loaded) →
      (∀ sig', s.succeeds (.call i) sig' = true → sig' = sig) →
      PendingStep s (.call i)
        { s with psignals := loaded ||| bit sig, calls := s.calls.set i (.returned sig 0) }
  | pass {pc : PassPc} : (∀ sig, s.consumes .pass sig = false) →
      PendingStep s .pass { s with pass := pc }
  | consume {sig : Sig} {pc : PassPc} : s.pending sig = true →
      (∀ sig', s.consumes .pass sig' = decide (sig' = sig)) →
      PendingStep s .pass
        { s with psignals := (s.psignals ||| bit sig) ^^^ bit sig, pass := pc }
  | mask {v : Word} : PendingStep s (.mask v) { s with sigmask := v }

theorem casSignal_step (other : PassPc)
    (hc : ∀ sig', s.consumes .pass sig' = (sig == sig' && s.psignals == loaded ||| bit sig)) :
    PendingStep s .pass (s.casSignal sig loaded other) := by
  unfold Pending.casSignal
  split
  · rename_i he
    have hp : s.pending sig = true := by
      rw [Pending.pending, he, getLsbD_or_bit, decide_eq_true rfl, Bool.or_true]
    have hor := (eq_or_bit_iff s.psignals sig).2 hp
    rw [← he]
    rw [hor]
    refine .consume hp fun sig' => ?_
    rw [hc, he, beq_self_eq_true, Bool.and_true, beq_comm]
    rfl
  · rename_i hne
    refine .pass fun sig' => ?_
    rw [hc, beq_false_of_ne hne, Bool.and_false]

theorem passStep_step (s : Pending) : PendingStep s .pass s.passStep := by
  unfold Pending.passStep
  split
  · rename_i hp
    refine .pass fun sig => ?_
    simp only [Pending.consumes, hp]
  · rename_i k hp
    have hc : ∀ sig, s.consumes .pass sig = false := fun sig => by
      simp only [Pending.consumes, hp]
    split
    · split <;> exact .pass hc
    · exact .pass hc
  · rename_i sig loaded hp
    refine casSignal_step _ fun sig' => ?_
    simp only [Pending.consumes, hp]
  · rename_i sig loaded hp
    refine casSignal_step _ fun sig' => ?_
    simp only [Pending.consumes, hp]

theorem pending_step_cases (hsig : ∀ pc ∈ s.calls, pc.sig ≠ 1) (h : s.step a = some t) :
    PendingStep s a t := by
  cases a with
  | kill sig =>
    cases h
    exact .kill
  | call i =>
    simp only [Pending.step] at h
    split at h
    · cases h
    rename_i pc hpc
    obtain ⟨⟨word, pc'⟩, hk, rfl⟩ := Option.map_eq_some_iff.1 h
    have hsucc : ∀ sig, s.succeeds (.call i) sig = (pc' == .returned sig 0) := fun sig => by
      simp only [Pending.succeeds, hpc, Option.bind_some, hk, Option.any_some]
    rcases killStep_cases hk with ⟨rfl, hs, hr, hm⟩ | ⟨sig, loaded, rfl, rfl, rfl⟩
    · refine .call hpc hs (fun sig => ?_) hm
      rw [hsucc]
      exact beq_false_of_ne (hr (hsig pc (mem_of_getElem? hpc)) sig)
    refine .post hpc fun sig' h' => ?_
    rw [hsucc] at h'
    have he := eq_of_beq h'
    cases he
    rfl
  | pass =>
    cases h
    exact passStep_step s
  | mask v =>
    simp only [Pending.step] at h
    split at h
    · cases h
      exact .mask
    · cases h

theorem kill_uninterrupted (p : Proc) (hp : p.psignals = s.psignals) (sig : Sig) :
    ∃ l t ret, (∀ a ∈ l, a = .call s.calls.length) ∧
      pendingMachine.run s (.kill sig :: l) = some t ∧
      t.psignals = (p.post sig).psignals ∧ t.calls[s.calls.length]? = some (.returned sig ret) := by
  by_cases hset : s.psignals = s.psignals ||| bit sig
  · refine ⟨[.call s.calls.length], { s with calls := s.calls ++ [.returned sig (-1)] }, -1, ?_⟩
    refine ⟨by simp, ?_, ?_, by simp⟩
    · simp [Machine.run, pendingMachine, Pending.step, killStep, ← hset]
    unfold Proc.post
    split
    · exact hp.symm
    · change _ = p.psignals ||| bit sig
      rw [hp]
      exact hset
  by_cases hone : sig = 1
  · refine ⟨[.call s.calls.length], { s with calls := s.calls ++ [.returned sig 0] }, 0, ?_⟩
    refine ⟨by simp, ?_, ?_, by simp⟩
    · subst hone
      simp [Machine.run, pendingMachine, Pending.step, killStep, hset]
    · rw [Proc.post, if_pos hone]
      exact hp.symm
  · refine ⟨List.replicate 3 (.call s.calls.length), { s with
      psignals := s.psignals ||| bit sig, calls := s.calls ++ [.returned sig 0] }, 0, ?_⟩
    refine ⟨fun a ha => (mem_replicate.1 ha).2, ?_, ?_, by simp⟩
    · simp [List.replicate, Machine.run, pendingMachine, Pending.step, killStep, hset, hone]
    · rw [Proc.post, if_neg hone, ← hp]

theorem casSignal_set (pc other : PassPc) (h : s.pending sig = true) :
    { s with pass := pc }.casSignal sig s.psignals other =
      { s with psignals := (s.psignals ||| bit sig) ^^^ bit sig, pass := .load (sig + 1) } :=
  if_pos ((eq_or_bit_iff ..).2 h)

theorem casSignal_unset (pc other : PassPc) (h : s.pending sig = false) :
    { s with pass := pc }.casSignal sig s.psignals other = { s with pass := other } := by
  refine if_neg fun he => ?_
  cases h.symm.trans ((eq_or_bit_iff ..).1 he)

theorem iteration_uninterrupted {p q : Proc} {k : Nat} (hk : k < 32) (hpass : s.pass = .load k)
    (hp : p.psignals = s.psignals) (h : SignalStep p ⟨k, hk⟩ q) :
    ∃ l, (∀ a ∈ l, a = .pass) ∧
      pendingMachine.run s l = some { s with psignals := q.psignals, pass := .load (k + 1) } := by
  rw [h.psignals, hp]
  have hcas : ({ s with pass := .cas ⟨k, hk⟩ s.psignals } : Pending).passStep =
      { s with
        psignals := (s.psignals ||| bit ⟨k, hk⟩) ^^^ bit ⟨k, hk⟩
        pass := .load (k + 1) } := by
    cases hset : s.pending ⟨k, hk⟩ with
    | true => exact casSignal_set _ _ hset
    | false =>
      rw [clear_of_unset hset]
      exact casSignal_unset _ _ hset
  have hload : s.passStep = if blocked s.sigmask ⟨k, hk⟩ then
      { s with pass := .maskedCas ⟨k, hk⟩ s.psignals }
      else { s with pass := .cas ⟨k, hk⟩ s.psignals } := by
    simp only [Pending.passStep, hpass, dif_pos hk]
  cases hb : blocked s.sigmask ⟨k, hk⟩ with
  | false =>
    rw [hb] at hload
    refine ⟨[.pass, .pass], by simp, ?_⟩
    change some s.passStep.passStep = _
    rw [hload]
    exact congrArg some hcas
  | true =>
    rw [hb] at hload
    cases hset : s.pending ⟨k, hk⟩ with
    | true =>
      refine ⟨[.pass, .pass], by simp, ?_⟩
      change some s.passStep.passStep = _
      rw [hload]
      exact congrArg some (casSignal_set _ _ hset)
    | false =>
      refine ⟨[.pass, .pass, .pass], by simp, ?_⟩
      change some s.passStep.passStep.passStep = _
      rw [hload]
      have hmasked : ({ s with pass := .maskedCas ⟨k, hk⟩ s.psignals } : Pending).passStep =
          { s with pass := .cas ⟨k, hk⟩ s.psignals } := casSignal_unset _ _ hset
      rw [if_pos rfl, hmasked, hcas]

theorem unraced_store (hok : Unraced s (.call i)) (hpc : s.calls[i]? = some (.store sig loaded)) :
    loaded ||| bit sig = s.psignals ||| bit sig := by
  simp only [Unraced, hpc, Option.all_some, KillPc.unraced, beq_iff_eq] at hok
  exact hok.symm

theorem pending_kept (h : PendingStep s a t) (hok : Unraced s a) (hc : s.consumes a sig = false)
    (hp : s.pending sig = true) : t.pending sig = true := by
  cases h with
  | post hpc _ =>
    rw [Pending.pending, unraced_store hok hpc, getLsbD_or_bit]
    exact or_eq_true_iff.2 (.inl hp)
  | consume _ hc' =>
    rw [hc'] at hc
    rw [Pending.pending, getLsbD_clear, and_eq_true, not_eq_true',
      decide_eq_false_iff_not]
    exact ⟨hp, fun he => of_decide_eq_false hc (Fin.ext he.symm)⟩
  | _ => exact hp

theorem succeeds_pending (h : PendingStep s a t) (hs : s.succeeds a sig = true) :
    t.pending sig = true := by
  cases h with
  | call _ _ hn _ => cases (hn sig).symm.trans hs
  | post _ hn =>
    rw [Pending.pending, hn sig hs, getLsbD_or_bit, decide_eq_true rfl, Bool.or_true]
  | _ => cases hs

theorem mem_set_sig (hl : ∀ pc ∈ l, pc.sig ≠ 1)
    (h : l[i]? = some pc) (hs : pc'.sig = pc.sig) : ∀ pc ∈ l.set i pc', pc.sig ≠ 1 := by
  intro x hx
  rcases mem_or_eq_of_mem_set hx with hx | rfl
  · exact hl x hx
  · rw [hs]
    exact hl pc (mem_of_getElem? h)

def Pending.NoneForOne (s : Pending) : Prop := ∀ pc ∈ s.calls, pc.sig ≠ 1

theorem Pending.NoneForOne.step (hi : s.NoneForOne) (hok : Unraced s a) (h : PendingStep s a t) :
    t.NoneForOne := by
  cases h with
  | kill =>
    intro pc hpc
    rcases mem_append.1 hpc with hpc | hpc
    · exact hi pc hpc
    · rw [mem_singleton.1 hpc]
      exact hok
  | call hpc hsig _ _ => exact mem_set_sig hi hpc hsig
  | post hpc _ => exact mem_set_sig hi hpc rfl
  | _ => exact hi

theorem Pending.NoneForOne.reach (h : pendingMachine.Reach Unraced s) : s.NoneForOne := by
  refine h.invariant ?_ ?_
  · intro s hs pc hpc
    rw [hs.2.1] at hpc
    cases hpc
  · intro s a t _ hi hok h
    exact hi.step hok (pending_step_cases hi h)

theorem pending_along (hi : s.NoneForOne) (hp : s.pending sig = true)
    (h : pendingMachine.Path (fun s a => Unraced s a ∧ s.consumes a sig = false) s t) :
    t.pending sig = true := by
  refine (h.invariant (P := fun s => s.NoneForOne ∧ s.pending sig = true) ⟨hi, hp⟩ ?_).2
  rintro s a t ⟨hi, hp⟩ ⟨hok, hc⟩ h
  have hst := pending_step_cases hi h
  exact ⟨hi.step hok hst, pending_kept hst hok hc hp⟩

/-- How many calls of `kill` were made for each signal, and how often each was consumed. -/
structure Tally where
  kills : Sig → Nat
  consumed : Sig → Nat

def Tally.after (g : Tally) (s : Pending) : Access → Tally
  | .kill sig => { g with kills := fun sig' => g.kills sig' + if sig == sig' then 1 else 0 }
  | .pass => { g with consumed := fun sig => g.consumed sig + (s.consumes .pass sig).toNat }
  | _ => g

def tallyMachine : Machine (Pending × Tally) Access :=
  pendingMachine.track ⟨fun _ => 0, fun _ => 0⟩ Tally.after

/-- Each kill accounts for one consumption: one already made, the pending bit, or one to come from
a call that is still under way. -/
structure PendingInv (s : Pending) (g : Tally) : Prop where
  calls : s.NoneForOne
  bound : ∀ sig, g.consumed sig + (s.pending sig).toNat + s.calls.countP (KillPc.mayPost sig) ≤
    g.kills sig

theorem countP_new (l : List KillPc) (sig sig' : Sig) (word : Word) :
    (l ++ [KillPc.cas sig word]).countP (KillPc.mayPost sig') =
      l.countP (KillPc.mayPost sig') + if sig == sig' then 1 else 0 := by
  rw [countP_append, countP_singleton]
  rfl

theorem countP_set_le (h : l[i]? = some pc) (hm : pc'.mayPost sig = true → pc.mayPost sig = true) :
    (l.set i pc').countP (KillPc.mayPost sig) ≤ l.countP (KillPc.mayPost sig) := by
  obtain ⟨hi, rfl⟩ := List.getElem?_eq_some_iff.1 h
  rw [countP_set hi]
  cases hpc : KillPc.mayPost sig l[i] with
  | false =>
    have hpc' : pc'.mayPost sig = false := eq_false_iff.2 fun h' => by
      cases hpc.symm.trans (hm h')
    rw [hpc', if_neg Bool.false_ne_true]
    exact Nat.le_of_eq (Nat.sub_zero _)
  | true =>
    have hpos : 0 < l.countP (KillPc.mayPost sig) :=
      countP_pos_iff.2 ⟨l[i], getElem_mem hi, hpc⟩
    rw [if_pos rfl]
    split <;> omega

theorem countP_set_lt (h : l[i]? = some (.store sig loaded)) (ret : Int) :
    (l.set i (.returned sig ret)).countP (KillPc.mayPost sig) < l.countP (KillPc.mayPost sig) := by
  obtain ⟨hi, he⟩ := List.getElem?_eq_some_iff.1 h
  have hm : KillPc.mayPost sig l[i] = true := by
    rw [he]
    exact beq_self_eq_true sig
  have hpos : 0 < l.countP (KillPc.mayPost sig) :=
    countP_pos_iff.2 ⟨l[i], getElem_mem hi, hm⟩
  have hr : KillPc.mayPost sig (.returned sig ret) = false := rfl
  rw [countP_set hi, if_pos hm, hr]
  simp only [false_eq_true, if_false]
  omega

theorem PendingInv.step {g : Tally} (hi : PendingInv s g) (hok : Unraced s a)
    (h : PendingStep s a t) : PendingInv t (g.after s a) := by
  refine ⟨hi.calls.step hok h, ?_⟩
  cases h with
  | @kill sig =>
    intro sig'
    have hb := hi.bound sig'
    change g.consumed sig' + (s.pending sig').toNat + (s.calls ++ [_]).countP _ ≤
      g.kills sig' + if sig == sig' then 1 else 0
    rw [countP_new]
    omega
  | @call i pc pc' hpc _ _ hm =>
    intro sig
    have hle := countP_set_le hpc (hm sig)
    have hb := hi.bound sig
    change g.consumed sig + (s.pending sig).toNat + (s.calls.set i pc').countP _ ≤ g.kills sig
    omega
  | @post i sig loaded hpc _ =>
    intro sig'
    have hb := hi.bound sig'
    change g.consumed sig' + ((loaded ||| bit sig).getLsbD sig').toNat +
      (s.calls.set i (.returned sig 0)).countP _ ≤ g.kills sig'
    rw [unraced_store hok hpc, getLsbD_or_bit]
    by_cases he : sig.val = sig'.val
    · have hlt := countP_set_lt hpc 0
      have hsig : sig = sig' := Fin.ext he
      subst hsig
      have hle := toNat_le (s.psignals.getLsbD sig || decide (sig.val = sig.val))
      omega
    · have hle : (s.calls.set i (.returned sig 0)).countP (KillPc.mayPost sig') ≤ _ :=
        countP_set_le hpc nofun
      rw [decide_eq_false he, Bool.or_false]
      change g.consumed sig' + (s.pending sig').toNat + _ ≤ _
      omega
  | pass hc =>
    intro sig
    have hb := hi.bound sig
    simp only [Tally.after, hc, toNat_false]
    exact hb
  | @consume sig pc hp hc =>
    intro sig'
    have hb := hi.bound sig'
    simp only [Tally.after, hc, Pending.pending, getLsbD_clear]
    by_cases he : sig' = sig
    · subst he
      rw [hp] at hb
      simp only [decide_true, Bool.not_true, Bool.and_false, toNat_true, toNat_false]
      simp only [toNat_true] at hb
      exact hb
    · have hv : ¬ sig.val = sig'.val := fun hv => he (Fin.ext hv.symm)
      simp only [decide_eq_false he, decide_eq_false hv, Bool.not_false, Bool.and_true,
        toNat_false]
      exact hb
  | mask => exact hi.bound

theorem PendingInv.reach {s : Pending × Tally} (h : tallyMachine.Reach (fun s => Unraced s.1) s) :
    PendingInv s.1 s.2 := by
  refine h.invariant (P := fun s => PendingInv s.1 s.2) ?_ ?_
  · rintro ⟨⟨psignals, sigmask, calls, pass⟩, g⟩ ⟨⟨hp, hc, _⟩, hg⟩
    cases hp
    cases hc
    cases hg
    refine ⟨fun pc hpc => ?_, fun sig => by simp [Pending.pending]⟩
    cases hpc
  · rintro ⟨s, g⟩ a ⟨t, g'⟩ _ hi hok h
    obtain ⟨t, ht, he⟩ := Option.map_eq_some_iff.1 h
    cases he
    exact hi.step hok (pending_step_cases hi.calls ht)

/-- In every run without signal 1 and without racing stores, a signal whose `kill` has returned 0 is
pending until a pass consumes it, and it is consumed at most once for each call of `kill`. -/
theorem signals_kept (sig : Sig) :
    (∀ s a t u, pendingMachine.Reach Unraced s → Unraced s a → s.step a = some t →
      s.succeeds a sig = true →
      pendingMachine.Path (fun s a => Unraced s a ∧ s.consumes a sig = false) t u →
      u.pending sig = true) ∧
    ∀ s g, tallyMachine.Reach (fun s => Unraced s.1) (s, g) → g.consumed sig ≤ g.kills sig := by
  refine ⟨?_, ?_⟩
  · intro s a t u hs hok hst hsucc hpath
    have hi := Pending.NoneForOne.reach hs
    have h := pending_step_cases hi hst
    exact pending_along (hi.step hok h) (succeeds_pending h hsucc) hpath
  · intro s g h
    have hb := (PendingInv.reach h).bound sig
    simp only at hb
    omega

def Pending.fresh : Pending := ⟨0, 0, [], .idle⟩

theorem signals_kept_second : ∃ s t u g, pendingMachine.Reach Unraced s ∧
    s.succeeds (.call 0) 5 = true ∧ s.step (.call 0) = some t ∧
    pendingMachine.Path (fun s a => Unraced s a ∧ s.consumes a 5 = false) t u ∧
    u.pending 7 = true ∧ u.pending 5 = true ∧
    tallyMachine.Reach (fun s => Unraced s.1) (u, g) ∧ g.consumed 5 ≤ g.kills 5 := by
  let s : Pending := ⟨0, 0, [.store 5 0], .idle⟩
  let t : Pending := ⟨bit 5, 0, [.returned 5 0], .idle⟩
  let u : Pending := ⟨bit 5 ||| bit 7, 0, [.returned 5 0, .returned 7 0], .idle⟩
  have h0 : pendingMachine.Reach Unraced .fresh := .init ⟨rfl, rfl, rfl⟩
  have hs : pendingMachine.Reach Unraced s :=
    h0.run (l := [.kill 5, .call 0, .call 0]) (by decide +kernel) (by decide +kernel)
  have hpath : pendingMachine.Path (fun s a => Unraced s a ∧ s.consumes a 5 = false) t u :=
    .run (l := [.kill 7, .call 1, .call 1, .call 1]) (by decide +kernel) (by decide +kernel)
  have hg0 : tallyMachine.Reach (fun s => Unraced s.1) (.fresh, ⟨fun _ => 0, fun _ => 0⟩) :=
    .init ⟨⟨rfl, rfl, rfl⟩, rfl⟩
  obtain ⟨⟨u', g⟩, hg, rfl⟩ := hg0.exists_run (P := fun r => r.1 = u)
    (l := [.kill 5, .call 0, .call 0, .call 0, .kill 7, .call 1, .call 1, .call 1])
    (by decide +kernel) (by decide +kernel)
  exact ⟨s, t, u, g, hs, by decide +kernel, by decide +kernel, hpath, by decide +kernel,
    (signals_kept 5).1 s (.call 0) t u hs (by decide +kernel) (by decide +kernel)
      (by decide +kernel) hpath, hg, (signals_kept 5).2 u g hg⟩

/-- Two calls load the word before either stores it, and the second store takes back the first; a
call loads the word before a signal is consumed, and its store makes it pending once more. -/
theorem signal_lost_and_doubled :
    (∃ s t u, pendingMachine.Reachable s ∧ s.succeeds (.call 0) 5 = true ∧
      s.step (.call 0) = some t ∧
      pendingMachine.Path (fun s a => s.consumes a 5 = false) t u ∧ u.pending 5 = false) ∧
    ∃ s : Pending × Tally, tallyMachine.Reachable s ∧ s.2.consumed 7 = 2 ∧ s.2.kills 7 = 1 := by
  refine ⟨⟨⟨0, 0, [.store 5 0, .store 7 0], .idle⟩, ⟨bit 5, 0, [.returned 5 0, .store 7 0], .idle⟩,
    ⟨bit 7, 0, [.returned 5 0, .returned 7 0], .idle⟩, ?_, by decide +kernel, by decide +kernel,
    .run (l := [.call 1]) (by decide +kernel) (by decide +kernel), by decide +kernel⟩, ?_⟩
  · have h0 : pendingMachine.Reachable .fresh := .init ⟨rfl, rfl, rfl⟩
    exact h0.run (l := [.kill 5, .kill 7, .call 0, .call 1, .call 0, .call 1]) (by decide +kernel)
  have h0 : tallyMachine.Reachable (.fresh, ⟨fun _ => 0, fun _ => 0⟩) :=
    .init ⟨⟨rfl, rfl, rfl⟩, rfl⟩
  exact h0.exists_run (P := fun s => s.2.consumed 7 = 2 ∧ s.2.kills 7 = 1)
    (l := [.kill 7, .call 0, .call 0, .call 0, .kill 5, .call 1, .call 1] ++
      List.replicate 17 .pass ++ [.call 1] ++ List.replicate 66 .pass)
    (Machine.permits_true ..) (by decide +kernel)

end Xv6Signals
