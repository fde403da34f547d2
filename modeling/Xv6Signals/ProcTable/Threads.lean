import Xv6Signals.ProcTable.Invariant

namespace Xv6Signals
open Lib

variable {Cpu : Type} {s t : Config Cpu} {c d : Cpu} {i j p n : Nat} {pc k k' b b' : Pc}
  {x : ProcState}

theorem Context.resume_base (x : Context) : x.resume.base = x.resume := by
  cases x with
  | forkret => rfl
  | saved h => cases h <;> rfl

/-- Where the thread of process `p` stands, on a CPU or in its saved context. -/
def Config.At (s : Config Cpu) (p : Nat) (b : Pc) : Prop :=
  (∃ c pc, s.cpus c = .running p pc ∧ pc.base = b) ∨
    ∃ h, s.context p = some (.saved h) ∧ (Pc.swtch h).base = b

theorem boot_at (mem : Mem 32) (kstack : Word) (p : Nat) (b : Pc) :
    ¬ (boot mem kstack : Config Cpu).At p b := by
  rintro (⟨_, _, hc, _⟩ | ⟨_, hx, _⟩)
  · cases hc
  · rw [boot_context] at hx
    split at hx <;> cases hx

theorem Config.At.running (h : s.cpus c = .running p pc) : s.At p pc.base := .inl ⟨c, pc, h, rfl⟩

def ProcState.resumable : ProcState → Bool
  | .sleeping | .minusSleeping | .runnable | .minusRunnable | .running => true
  | _ => false

/-- Each thread is in one place, a parked thread can be resumed unless it has exited, and one CPU
at most is about to bury a process, which is then still MINUS_ZOMBIE. -/
structure Settled (s : Config Cpu) : Prop where
  once : ∀ c p pc, s.cpus c = .running p pc → s.context p = none
  parked : ∀ p h, s.context p = some (.saved h) → h ≠ .exit → (s.state p).resumable = true
  dying : ∀ c d p, (s.cpus c).ends .minusZombie p = true → (s.cpus d).ends .minusZombie p = true →
    s.state p = .minusZombie → c = d
  buried : ∀ c p pt, s.cpus c = .clean p pt → pt = .clearChan ∨ pt = .bury →
    s.state p = .minusZombie

theorem Settled.at_unique (hs : Settled s) (hi : Inv s) (h : s.At p b) (h' : s.At p b') :
    b = b' := by
  rcases h with ⟨c, pc, hc, rfl⟩ | ⟨h, hx, rfl⟩
  · rcases h' with ⟨d, k, hd, rfl⟩ | ⟨h, hx, _⟩
    · have hcd := hi.unique c d p (holds_of_running hc) (holds_of_running hd)
      subst hcd
      cases hc.symm.trans hd
      rfl
    · cases (hs.once c p pc hc).symm.trans hx
  · rcases h' with ⟨d, k, hd, _⟩ | ⟨h', hx', rfl⟩
    · cases (hs.once d p k hd).symm.trans hx
    · cases hx.symm.trans hx'
      rfl

theorem Settled.boot (mem : Mem 32) (kstack : Word) : Settled (boot mem kstack : Config Cpu) where
  once _ _ _ := nofun
  parked p h hx := by
    rw [boot_context] at hx
    split at hx <;> cases hx
  dying _ _ _ := nofun
  buried _ _ _ := nofun

theorem Inv.not_forkKalloc (hi : Inv s) (hc : s.cpus c = .running p pc) {r : Nat}
    (hd : s.cpus d = .running r (.enabled (.forkKalloc p))) : False := by
  have ha := pc.state_active
  rw [← hi.thread c p pc hc, hi.embryo hd rfl] at ha
  cases ha

theorem StateStep.resumable {b : CpuPc} (h : StateStep s c i x b) (hi : Inv s)
    (hr : (s.state i).resumable = true) (hc : ∀ pc, s.cpus c ≠ .running i pc) :
    x.resumable = true := by
  have absurd {y : ProcState} (hy : s.state i = y) (hn : y.resumable = false) :
      x.resumable = true := by
    rw [hy, hn] at hr
    cases hr
  cases h with
  | handOver hc' _ _ _ => exact (hc _ hc').elim
  | bury _ hs => exact absurd hs rfl
  | reap _ hs => exact absurd hs rfl
  | free _ hs => exact absurd hs rfl
  | take _ hs => exact absurd hs rfl
  | fail hc' hk => exact absurd (hi.failing hc' hk) rfl
  | _ => rfl

theorem StateStep.of_minusZombie {b : CpuPc} (h : StateStep s c i x b)
    (hi : Inv s) (hz : s.state i = .minusZombie) : s.cpus c = .clean i .bury := by
  cases h with
  | bury hc _ => exact hc
  | fail hc hk => cases hz.symm.trans (hi.failing hc hk)
  | _ => cases hz.symm.trans ‹s.state i = _›

variable [DecidableEq Cpu] {l : Label Cpu}

theorem step_runs (h : step n s l = some t) (hc : s.cpus l.cpu = .running p pc) :
    (∃ k, t.cpus l.cpu = .running p k ∧ Steps n s p pc k) ∨ ∃ h, pc = .swtch h ∧
      t = (s.setContext p (some (.saved h))).goto l.cpu (.clean p .park) := by
  have hstep := step_control h
  rw [hc] at hstep
  generalize t.cpus l.cpu = b at hstep
  cases hstep with
  | thread hf => exact .inl ⟨_, rfl, hf.goes⟩
  | swtch ht => exact .inr ⟨_, rfl, ht⟩

theorem step_ran (h : step n s l = some t) (hc : t.cpus l.cpu = .running p k) :
    (∃ pc, s.cpus l.cpu = .running p pc ∧ Steps n s p pc k) ∨
      ∃ x, s.cpus l.cpu = .switchIn p ∧ s.context p = some x ∧ k = x.resume ∧
        t = (s.setContext p none).goto l.cpu (.running p x.resume) := by
  have hstep := step_control h
  rw [hc] at hstep
  generalize s.cpus l.cpu = a at hstep
  cases hstep with
  | thread hf => exact .inl ⟨_, rfl, hf.goes⟩
  | switchIn hx ht => exact .inr ⟨_, rfl, hx, rfl, ht⟩

def Pc.Entry (b : Pc) : Prop :=
  b = .enabled (.signals 0) ∨ b = .enabled .kernel ∨ b = .waitCas ∨ b = .zombieExit

theorem step_at (h : step n s l = some t) (ht : t.At p b) : s.At p b ∨
      (∃ pc k, s.cpus l.cpu = .running p pc ∧ t.cpus l.cpu = .running p k ∧ k.base = b ∧
        Goes n s p pc.base b) ∨
      b.Entry := by
  rcases ht with ⟨c, k, hc, rfl⟩ | ⟨h', hx, rfl⟩
  · by_cases hcl : c = l.cpu
    · subst hcl
      rcases step_ran h hc with ⟨pc, hpc, hk | hg⟩ | ⟨x, _, hx, rfl, _⟩
      · rw [hk]
        exact .inl (.running hpc)
      · exact .inr (.inl ⟨pc, k, hpc, hc, rfl, hg⟩)
      cases x with
      | forkret => exact .inr (.inr (.inl rfl))
      | saved h' =>
        cases h' with
        | yield k => exact .inl (.inr ⟨.yield k, hx, rfl⟩)
        | sleep => exact .inr (.inr (.inr (.inl rfl)))
        | wait => exact .inr (.inr (.inr (.inr (.inl rfl))))
        | exit => exact .inr (.inr (.inr (.inr (.inr rfl))))
    · rw [step_others h hcl] at hc
      exact .inl (.running hc)
  · left
    rcases step_contexts h with ⟨q, h₁, hq, rfl⟩ | ⟨q, _, _, _, rfl⟩ | hctx
    · rw [goto_context] at hx
      by_cases hp : p = q
      · subst hp
        rw [setContext_self] at hx
        cases hx
        exact .running hq
      · rw [setContext_of_ne _ hp] at hx
        exact .inr ⟨h', hx, rfl⟩
    · rw [goto_context] at hx
      by_cases hp : p = q
      · rw [hp, setContext_self] at hx
        cases hx
      · rw [setContext_of_ne _ hp] at hx
        exact .inr ⟨h', hx, rfl⟩
    · rcases hctx p with hp | ⟨hp, _⟩
      · exact .inr ⟨h', hp.symm.trans hx, rfl⟩
      · cases hp.symm.trans hx

theorem Settled.step_once (hs : Settled s) (hi : Inv s) (h : step n s l = some t)
    (hc : t.cpus c = .running p pc) : t.context p = none := by
  by_cases hcl : c = l.cpu
  · subst hcl
    rcases step_ran h hc with ⟨k, hk, _⟩ | ⟨_, _, _, _, rfl⟩
    · have hnone := hs.once l.cpu p k hk
      rcases step_contexts h with ⟨q, _, hq, rfl⟩ | ⟨q, _, hq, _, _⟩ | hctx
      · rw [goto_self] at hc
        cases hc
      · cases hk.symm.trans hq
      · rcases hctx p with hp | ⟨_, r, hr⟩
        · exact hp.trans hnone
        · exact (hi.not_forkKalloc hk hr).elim
    · rw [goto_context, setContext_self]
  rw [step_others h hcl] at hc
  have hnone := hs.once c p pc hc
  rcases step_contexts h with ⟨q, _, hq, rfl⟩ | ⟨q, _, hq, _, rfl⟩ | hctx
  · have hne : p ≠ q := by
      rintro rfl
      exact hcl (hi.unique c l.cpu p (holds_of_running hc) (holds_of_running hq))
    rw [goto_context, setContext_of_ne _ hne, hnone]
  · rw [goto_context]
    by_cases hp : p = q
    · rw [hp, setContext_self]
    · rw [setContext_of_ne _ hp, hnone]
  · rcases hctx p with hp | ⟨_, r, hr⟩
    · exact hp.trans hnone
    · exact (hi.not_forkKalloc hc hr).elim

theorem Settled.step_parked (hs : Settled s) (hi : Inv s) (h : step n s l = some t)
    {h' : Handover} (hx : t.context p = some (.saved h')) (he : h' ≠ .exit) :
    (t.state p).resumable = true := by
  have kept (hp : s.context p = some (.saved h')) : (t.state p).resumable = true := by
    have hr := hs.parked p h' hp he
    rcases step_state h p with hst | hst
    · rw [hst, hr]
    · refine hst.resumable hi hr fun pc hc => ?_
      cases (hs.once l.cpu p pc hc).symm.trans hp
  rcases step_contexts h with ⟨q, _, hq, rfl⟩ | ⟨q, _, _, _, rfl⟩ | hctx
  · rw [goto_context] at hx
    by_cases hp : p = q
    · subst hp
      rw [setContext_self] at hx
      cases hx
      rw [goto_state, setContext_state, hi.thread _ _ _ hq]
      cases h' <;> first | rfl | exact (he rfl).elim
    · rw [setContext_of_ne _ hp] at hx
      exact kept hx
  · rw [goto_context] at hx
    by_cases hp : p = q
    · rw [hp, setContext_self] at hx
      cases hx
    · rw [setContext_of_ne _ hp] at hx
      exact kept hx
  · rcases hctx p with hp | ⟨hp, _⟩
    · exact kept (hp.symm.trans hx)
    · cases hp.symm.trans hx

theorem ends_of_dying (hi : Inv s) (h : step n s l = some t)
    (hz : s.state p = .minusZombie) (he : (t.cpus c).ends .minusZombie p = true) :
    (s.cpus c).ends .minusZombie p = true ∨
      c = l.cpu ∧ ∀ d, (s.cpus d).ends .minusZombie p = false := by
  by_cases hc : c = l.cpu
  · subst hc
    rcases step_ends h he with he | hh | hs | ⟨hx, _⟩
    · exact .inl he
    · rcases hi.held hh with ⟨pc, hc, hs⟩ | hs
      · refine .inr ⟨rfl, fun d => ?_⟩
        have hl := hi.late l.cpu d p pc hc
        rw [← hs, hz] at hl
        exact hl
      · cases hz.symm.trans hs
    · cases hz.symm.trans hs
    · cases hx
  · rw [step_others h hc] at he
    exact .inl he

theorem Settled.step_dying (hs : Settled s) (hi : Inv s) (hok : Unovertaken s l)
    (h : step n s l = some t) (hc : (t.cpus c).ends .minusZombie p = true)
    (hd : (t.cpus d).ends .minusZombie p = true) (hz : t.state p = .minusZombie) : c = d := by
  rcases step_state h p with hst | hst
  · rw [hst] at hz
    rcases ends_of_dying hi h hz hc with hc | ⟨hc, hn⟩
    · rcases ends_of_dying hi h hz hd with hd | ⟨_, hn⟩
      · exact hs.dying c d p hc hd hz
      · cases hc.symm.trans (hn c)
    · rcases ends_of_dying hi h hz hd with hd | ⟨hd, _⟩
      · cases hd.symm.trans (hn d)
      · rw [hc, hd]
  · rw [hz] at hst
    generalize t.cpus l.cpu = b at hst
    cases hst with
    | handOver hr hx _ _ =>
      have stepper {e : Cpu} (he : (t.cpus e).ends .minusZombie p = true) : e = l.cpu := by
        by_contra hne
        rw [step_others h hne] at he
        cases he.symm.trans (hok.ends hr hx e)
      rw [stepper hc, stepper hd]

theorem Settled.step_buried (hs : Settled s) (hi : Inv s) (h : step n s l = some t)
    {pt : CleanPoint} (hc : t.cpus c = .clean p pt) (hpt : pt = .clearChan ∨ pt = .bury) :
    t.state p = .minusZombie := by
  by_cases hcl : c = l.cpu
  · subst hcl
    have hstep := step_control h
    generalize ha : s.cpus l.cpu = a at hstep
    rw [hc] at hstep
    have kept {pt' : CleanPoint} (ha : s.cpus l.cpu = .clean p pt') (hne : pt' ≠ .bury)
        (hz : s.state p = .minusZombie) : t.state p = .minusZombie := by
      rcases step_state h p with hst | hst
      · rw [hst, hz]
      · cases ha.symm.trans (hst.of_minusZombie hi hz)
        exact (hne rfl).elim
    cases hstep with
    | clean hm =>
      cases hm with
      | zombie hz => exact kept ha nofun hz
      | clearChan => exact kept ha nofun (hs.buried _ _ _ ha (.inl rfl))
      | _ => rcases hpt with hpt | hpt <;> cases hpt
    | swtch _ => rcases hpt with hpt | hpt <;> cases hpt
  · rw [step_others h hcl] at hc
    have hz := hs.buried c p pt hc hpt
    have ends {pt : CleanPoint} {e : Cpu} (he : s.cpus e = .clean p pt)
        (hpt : pt = .clearChan ∨ pt = .bury) : (s.cpus e).ends .minusZombie p = true := by
      rw [he]
      rcases hpt with rfl | rfl <;> exact Bool.and_eq_true_iff.2 ⟨beq_self_eq_true p, rfl⟩
    rcases step_state h p with hst | hst
    · rw [hst, hz]
    · have hb := hst.of_minusZombie hi hz
      exact (hcl (hs.dying c l.cpu p (ends hc hpt) (ends hb (.inr rfl)) hz)).elim

theorem Settled.step (hs : Settled s) (hi : Inv s) (hok : Unovertaken s l)
    (h : step n s l = some t) : Settled t where
  once _ _ _ := hs.step_once hi h
  parked _ _ := hs.step_parked hi h
  dying _ _ _ := hs.step_dying hi hok h
  buried _ _ _ := hs.step_buried hi h

theorem Settled.reach (h : (ptable Cpu n).Reach Unovertaken s) : Settled s := by
  refine h.invariant ?_ ?_
  · rintro s ⟨_, mem, kstack, rfl⟩
    exact Settled.boot mem kstack
  · intro s l t hr hs hok h
    exact hs.step (Inv.reach hr) hok h

end Xv6Signals
