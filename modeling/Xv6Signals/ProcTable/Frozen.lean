import Xv6Signals.ProcTable.Parents

namespace Xv6Signals
open Lib

variable {Cpu : Type} {s t : Config Cpu} {c d : Cpu} {i j p q n : Nat} {pc k b b' : Pc}
  {l : Label Cpu}

/-- The thread is at the `cas` with which it gives up its CPU other than by exiting. -/
def CpuPc.givesUp : CpuPc → Option Nat
  | .running p (.yieldCas _) | .running p (.sleepCas _) | .running p .waitCas => some p
  | _ => none

/-- No process that is both killed and stopped gives up its CPU before it has exited. -/
def Prompt (s : Config Cpu) (l : Label Cpu) : Prop :=
  ∀ p ∈ (s.cpus l.cpu).givesUp, ¬ ((s.procs p).killed = true ∧ (s.procs p).frozen = true)

instance (s : Config Cpu) (l : Label Cpu) : Decidable (Prompt s l) :=
  inferInstanceAs (Decidable (∀ p ∈ (s.cpus l.cpu).givesUp, _))

def Proc.flags (p : Proc) : Bool × Bool := (p.killed, p.frozen)

def ProcState.exited : ProcState → Bool
  | .minusZombie | .zombie | .minusUnused => true
  | _ => false

def Pc.cleared : Pc → Option Nat
  | .waitClearChan i _ | .waitRunning i _ | .waitUnused i _ => some i
  | _ => none

structure FlagInv (s : Config Cpu) : Prop where
  both : ∀ i, (s.procs i).killed = true → (s.procs i).frozen = true →
    s.state i = .running ∧ (∃ c pc, s.cpus c = .running i pc) ∨ (s.state i).exited = true
  cleared : ∀ p b i, s.At p b → b.cleared = some i → (s.procs i).killed = false
  passed : ∀ c i, s.cpus c = .canRunTest i ∨ s.cpus c = .unpick i → (s.procs i).frozen = true

theorem Pc.cleared_owns (h : b.cleared = some i) : b.owns = some (i, .minusUnused) := by
  cases b <;> cases h <;> rfl

theorem Goes.cleared (h : Goes n s p b b') (hb : b'.cleared = some i) :
    b.cleared = some i ∨ ∃ pid, b = .waitClearKilled i pid := by
  cases h with
  | waitClearKilled => cases hb; exact .inr ⟨_, rfl⟩
  | _ => cases hb <;> exact .inl rfl

theorem CpuPc.givesUp_of_handsOver {x : ProcState} (hc : s.cpus c = .running p pc)
    (h : pc.handsOver = some x) (hx : x ≠ .minusZombie) : (s.cpus c).givesUp = some p := by
  rw [hc]
  cases pc <;> cases h <;> first | rfl | exact (hx rfl).elim

theorem FlagInv.boot (mem : Mem 32) (kstack : Word) : FlagInv (boot mem kstack : Config Cpu) := by
  have hk (i : Nat) : ((Xv6Signals.boot mem kstack : Config Cpu).procs i).killed = false := by
    simp only [Xv6Signals.boot, Function.update_apply]
    split <;> rfl
  refine ⟨fun i h => ?_, fun _ _ i _ _ => hk i, ?_⟩
  · cases (hk i).symm.trans h
  · rintro c i (h | h) <;> cases h

theorem Write.flags {q : Proc} {a : CpuPc} (h : Write n s l i q a) : q.flags = (s.procs i).flags ∨
    (∃ k k', s.cpus l.cpu = .running i (.enabled k) ∧ a = .running i (.enabled k')) ∨
    q.flags = (false, (s.procs i).frozen) := by
  cases h with
  | fault hc => exact .inr (.inl ⟨_, _, hc, rfl⟩)
  | pass hc _ => exact .inr (.inl ⟨_, _, hc, rfl⟩)
  | clearKilled _ => exact .inr (.inr rfl)
  | post _ _ _ => exact .inl (post_field (fun _ _ => rfl) ..)
  | sigaction _ => exact .inl (sigaction_field (fun _ _ _ _ => rfl) ..)
  | _ => exact .inl rfl

variable [DecidableEq Cpu]

theorem step_not_killed (hi : Inv s) (h : step n s l = some t)
    (hk : (s.procs i).killed = false) (hs : s.state i ≠ .running) :
    (t.procs i).killed = false := by
  rcases (step_write h i).flags with he | ⟨_, _, hc, _⟩ | he
  · exact (congrArg (·.1) he).trans hk
  · exact (hs (hi.thread _ _ _ hc)).elim
  · exact congrArg (·.1) he

theorem step_clearKilled {pid : Nat} (h : step n s l = some t)
    (hc : s.cpus l.cpu = .running p (.waitClearKilled i pid)) : (t.procs i).killed = false := by
  simp only [step, hc] at h
  cases hch : l.choice <;> rw [hch] at h <;> cases h
  exact congrArg Proc.killed (setProc_self ..)

theorem step_cleared (hi : Inv s)
    (hcl : ∀ p b i, s.At p b → b.cleared = some i → (s.procs i).killed = false)
    (h : step n s l = some t) (ht : t.At p b) (hb : b.cleared = some i) :
    (t.procs i).killed = false := by
  have kept {b : Pc} (ha : s.At p b) (hb : b.cleared = some i) : (t.procs i).killed = false := by
    refine step_not_killed hi h (hcl p b i ha hb) ?_
    obtain ⟨a, _, ho⟩ := ha.owns
    rw [hi.owned a i .minusUnused (ho.trans (Pc.cleared_owns hb))]
    nofun
  rcases step_at h ht with ha | ⟨pc, _, hc, _, _, hg⟩ | he
  · exact kept ha hb
  · rcases hg.cleared hb with hb' | ⟨pid, hpc⟩
    · exact kept (.running hc) hb'
    · rw [Pc.eq_of_base hpc rfl] at hc
      exact step_clearKilled h hc
  · rcases he with rfl | rfl | rfl | rfl <;> cases hb

theorem step_free (hi : Inv s)
    (hcl : ∀ p b i, s.At p b → b.cleared = some i → (s.procs i).killed = false)
    (hfree : ∀ i, s.state i = .unused ∨ s.state i = .embryo → (s.procs i).killed = false)
    (h : step n s l = some t) (ht : t.state i = .unused ∨ t.state i = .embryo) :
    (t.procs i).killed = false := by
  have kept (hs : s.state i = .unused ∨ s.state i = .embryo) : (t.procs i).killed = false := by
    refine step_not_killed hi h (hfree i hs) ?_
    rcases hs with hs | hs <;> rw [hs] <;> nofun
  rcases step_state h i with hst | hst
  · rw [hst] at ht
    exact kept ht
  generalize t.state i = x at hst ht
  generalize t.cpus l.cpu = a at hst
  cases hst with
  | free hc hs =>
    refine step_not_killed hi h (hcl _ _ i (.running hc) rfl) ?_
    rw [hs]
    nofun
  | take _ hs => exact kept (.inl hs)
  | fail hc hk => exact kept (.inr (hi.failing hc hk))
  | @handOver pc _ _ _ hh _ _ => rcases ht with rfl | rfl <;> cases pc <;> cases hh
  | _ => rcases ht with ht | ht <;> cases ht

theorem FlagInv.step_passed (hf : FlagInv s) (hi : Inv s)
    (h : step n s l = some t) (hc : t.cpus c = .canRunTest i ∨ t.cpus c = .unpick i) :
    (t.procs i).frozen = true := by
  by_cases hl : c = l.cpu
  · subst hl
    have hstep := step_control h
    generalize ha : s.cpus l.cpu = a at hstep
    rcases hc with hc | hc <;> rw [hc] at hstep <;> cases hstep
    · rw [‹t.procs = s.procs›]
      assumption
    · rw [‹t.procs = s.procs›]
      exact hf.passed l.cpu i (.inl ha)
  rw [step_others h hl] at hc
  have hfr := hf.passed c i hc
  have hd : (s.cpus c).dispatches i = true := by
    rcases hc with hc | hc <;> rw [hc] <;> exact beq_self_eq_true i
  rcases (step_write h i).flags with he | ⟨_, _, hc', _⟩ | he
  · exact (congrArg (·.2) he).trans hfr
  · exact (hl (hi.unique c l.cpu i (holds_of_dispatches hd) (holds_of_running hc'))).elim
  · exact (congrArg (·.2) he).trans hfr

theorem step_stays (hi : Inv s) (h : step n s l = some t)
    (hc : s.cpus c = .running p pc) (hs : s.state p = .running) :
    ∃ k, t.cpus c = .running p k := by
  by_cases hl : c = l.cpu
  · subst hl
    rcases step_runs h hc with ⟨k, hk, _⟩ | ⟨h', rfl, _⟩
    · exact ⟨k, hk⟩
    · have hst := (hi.thread _ _ _ hc).symm.trans hs
      cases h' <;> cases hst
  · exact ⟨pc, (step_others h hl).trans hc⟩

theorem FlagInv.step_both (hf : FlagInv s) (hi : Inv s) (hi' : Inv t)
    (hok : Prompt s l) (h : step n s l = some t) (hk : (t.procs i).killed = true)
    (hz : (t.procs i).frozen = true) :
    t.state i = .running ∧ (∃ c pc, t.cpus c = .running i pc) ∨ (t.state i).exited = true := by
  rcases (step_write h i).flags with he | ⟨_, _, _, ht⟩ | he
  · have hk₀ := (congrArg (·.1) he).symm.trans hk
    have hz₀ := (congrArg (·.2) he).symm.trans hz
    rcases hf.both i hk₀ hz₀ with ⟨hs, d, pc, hd⟩ | hs
    · rcases step_state h i with hst | hst
      · obtain ⟨k, hk'⟩ := step_stays hi h hd hs
        exact .inl ⟨hst.trans hs, d, k, hk'⟩
      · generalize t.state i = x at hst ⊢
        generalize t.cpus l.cpu = a at hst
        cases hst with
        | unpick hc _ =>
          have hdis : (s.cpus l.cpu).dispatches i = true := by
            rw [hc]
            exact beq_self_eq_true i
          have hdl := hi.unique d l.cpu i (holds_of_running hd) (holds_of_dispatches hdis)
          subst hdl
          cases hd.symm.trans hc
        | @handOver _ _ x hc hh _ _ =>
          by_cases hx : x = .minusZombie
          · rw [hx]
            exact .inr rfl
          · exact (hok i (CpuPc.givesUp_of_handsOver hc hh hx) ⟨hk₀, hz₀⟩).elim
        | fail hc hk' => cases hs.symm.trans (hi.failing hc hk')
        | _ => cases hs.symm.trans ‹s.state i = _›
    · right
      rcases step_state h i with hst | hst
      · rw [hst, hs]
      generalize t.state i = x at hst ⊢
      generalize t.cpus l.cpu = a at hst
      cases hst with
      | bury _ _ => rfl
      | reap _ _ => rfl
      | free hc _ => cases hk₀.symm.trans (hf.cleared _ _ i (.running hc) rfl)
      | fail hc hk' =>
        rw [hi.failing hc hk'] at hs
        cases hs
      | _ =>
        rw [‹s.state i = _›] at hs
        cases hs
  · exact .inl ⟨hi'.thread _ _ _ ht, l.cpu, _, ht⟩
  · cases hk.symm.trans (congrArg (·.1) he)

theorem FlagInv.step (hf : FlagInv s) (hi : Inv s) (hi' : Inv t)
    (hok : Prompt s l) (h : step n s l = some t) : FlagInv t where
  both _ := hf.step_both hi hi' hok h
  cleared _ _ _ := step_cleared hi hf.cleared h
  passed _ _ := hf.step_passed hi h

theorem FlagInv.reach (h : (ptable Cpu n).Reach (fun s l => Unovertaken s l ∧ Prompt s l) s) :
    FlagInv s := by
  refine h.invariant ?_ ?_
  · rintro s ⟨_, mem, kstack, rfl⟩
    exact FlagInv.boot mem kstack
  · intro s l t hr hf hok h
    have hr₀ := hr.mono fun _ _ h => h.1
    exact hf.step (Inv.reach hr₀) (Inv.reach (.step hr₀ hok.1 h)) hok.2 h

/-- In runs in which no hand-over is overtaken and no process that is both killed and stopped gives
up its CPU before it has exited, the scheduler never puts a killed process back for being frozen. -/
theorem killed_not_passed_over {s : Config Cpu}
    (h : (ptable Cpu n).Reach (fun s l => Unovertaken s l ∧ Prompt s l) s) (c : Cpu) (i : Nat)
    (hk : (s.procs i).killed = true) :
    s.cpus c ≠ .unpick i ∧
      (s.cpus c = .frozenTest i → step n s ⟨c, .go⟩ = some (s.goto c (.switchIn i))) := by
  have hi := Inv.reach (h.mono fun _ _ h => h.1)
  have hf := FlagInv.reach h
  have not_frozen (hd : (s.cpus c).dispatches i = true) : (s.procs i).frozen = false := by
    rw [Bool.eq_false_iff]
    intro hz
    rcases hf.both i hk hz with ⟨_, d, pc, hc⟩ | hs
    · have hdc := hi.unique c d i (holds_of_dispatches hd) (holds_of_running hc)
      subst hdc
      rw [hc] at hd
      cases hd
    · rw [hi.dispatch c i hd] at hs
      cases hs
  constructor
  · intro hc
    have hz := not_frozen (by rw [hc]; exact beq_self_eq_true i)
    cases hz.symm.trans (hf.passed c i (.inr hc))
  · intro hc
    have hz := not_frozen (by rw [hc]; exact beq_self_eq_true i)
    simp only [step, hc, cpuStep, hz, Bool.false_eq_true, if_false]

def killedRun (c : Cpu) : List (Label Cpu) :=
  forkFirst c ++ [⟨c, .kill 2 sigkill⟩, ⟨c, .wait⟩] ++ advance c 48 ++ [⟨c, .sleep (.addr 5)⟩] ++
    advance c 13

def stopRun (c : Cpu) : List (Label Cpu) :=
  forkFirst c ++ [⟨c, .kill 2 sigstop⟩, ⟨c, .yield⟩] ++ advance c 42

def stoppedRun (c : Cpu) : List (Label Cpu) :=
  forkFirst c ++ [⟨c, .kill 2 sigstop⟩, ⟨c, .yield⟩] ++ advance c 42 ++ [⟨c, .yield⟩] ++
    advance c 11 ++ [⟨c, .kill 2 sigkill⟩, ⟨c, .wait⟩] ++ advance c 16 ++ [⟨c, .trapret⟩] ++
    advance c 33 ++ [⟨c, .sleep (.addr 5)⟩] ++ advance c 15

theorem killed_not_passed_over_asleep : ∃ s : Config (Fin 1),
    (ptable (Fin 1) 2).Reach (fun s l => Unovertaken s l ∧ Prompt s l) s ∧
    s.cpus 0 = .frozenTest 1 ∧ (s.procs 1).killed = true ∧
    step 2 s ⟨0, .go⟩ = some (s.goto 0 (.switchIn 1)) := by
  have hboot : (ptable (Fin 1) 2).Reach (fun s l => Unovertaken s l ∧ Prompt s l)
      (boot (fun _ => 0) 0x80400000) := boot_reach (by decide) _ _
  obtain ⟨s, hr, hc, hk⟩ := hboot.exists_run (l := killedRun 0)
    (P := fun s => s.cpus 0 = .frozenTest 1 ∧ (s.procs 1).killed = true)
    (by decide +kernel) (by decide +kernel)
  exact ⟨s, hr, hc, hk, (killed_not_passed_over hr 0 1 hk).2 hc⟩

/-- A child that was stopped and then killed, and sleeps on its way out, is put back by the
scheduler: `sigkill_handler` leaves `frozen` set, and the pending bit that let the process run has
been consumed. -/
theorem killed_passed_over : ∃ s : Config (Fin 1), (ptable (Fin 1) 2).Reachable s ∧
    s.cpus 0 = .unpick 1 ∧ (s.procs 1).killed = true ∧ (s.procs 1).frozen = true :=
  (boot_reach (by decide) (fun _ => 0) 0x80400000).exists_run (l := stoppedRun 0)
    (Machine.permits_true ..) (by decide +kernel)

end Xv6Signals
