import Xv6Signals.ProcTable.Frozen
import Xv6Signals.ProcTable.Pids

namespace Xv6Signals
open Lib Function

variable {Cpu : Type} {s t : Config Cpu} {c d : Cpu} {i j p q r n : Nat} {pc k b : Pc}
  {l : Label Cpu} {sig : Sig} {g : Nat → Word}

def CpuPc.exits : CpuPc → Option Nat
  | .running p .exitCas => some p
  | _ => none

def ExitsUnfrozen (s : Config Cpu) (l : Label Cpu) : Prop :=
  ∀ p ∈ (s.cpus l.cpu).exits, (s.procs p).frozen = false

instance decidableExitsUnfrozen (s : Config Cpu) (l : Label Cpu) : Decidable (ExitsUnfrozen s l) :=
  inferInstanceAs (Decidable (∀ p ∈ (s.cpus l.cpu).exits, _))

def forkFails : CpuPc → Choice → Bool
  | .running _ (.enabled (.forkKalloc _)), .kalloc a => a == 0
  | .running _ (.enabled (.forkCopy _)), .copyuvm done => !done
  | _, _ => false

/-- No process exits while it is stopped, and no `fork` fails half-way. -/
def Tidy (s : Config Cpu) (l : Label Cpu) : Prop :=
  ExitsUnfrozen s l ∧ forkFails (s.cpus l.cpu) l.choice = false

instance decidableTidy (s : Config Cpu) (l : Label Cpu) : Decidable (Tidy s l) :=
  inferInstanceAs (Decidable (_ ∧ _))

/-- The signals sent to the process of each slot since `allocproc` has emptied its pending set. -/
def postedAfter (n : Nat) (g : Nat → Word) (s : Config Cpu) (l : Label Cpu) : Nat → Word :=
  match s.cpus l.cpu, l.choice with
  | .running _ (.enabled (.forkKalloc i)), .kalloc _ => update g i 0
  | .running _ (.enabled .kernel), .kill pid sig =>
    match killTarget n s.procs pid sig with
    | some i => update g i (g i ||| bit sig)
    | none => g
  | _, _ => g

def ProcState.gone : ProcState → Bool
  | .minusZombie | .zombie | .minusUnused | .unused | .embryo => true
  | _ => false

def Pc.pidCleared : Pc → Option Nat
  | .waitClearParent i _ | .waitClearKilled i _ | .waitClearChan i _ | .waitRunning i _
  | .waitUnused i _ => some i
  | _ => none

def Proc.inherited (p : Proc) : Word × (Sig → Word) := (p.sigmask, p.sigHandlers)

/-- What is left of an earlier occupant is gone when a slot is free, and `fork` has filled in what
a child takes from its parent when it makes it RUNNABLE. -/
structure CleanInv (s : Config Cpu) (g : Nat → Word) : Prop where
  frozen : ∀ i, (s.state i).gone = true → (s.procs i).frozen = false
  free : ∀ i, s.state i = .unused ∨ s.state i = .embryo → (s.procs i).killed = false
  cleared : ∀ p b i, s.At p b → b.cleared = some i → (s.procs i).killed = false
  unused : ∀ i, s.state i = .unused → (s.procs i).pid = 0
  pidCleared : ∀ p b i, s.At p b → b.pidCleared = some i → (s.procs i).pid = 0
  copied : ∀ q i, s.At q (.enabled (.forkRun i)) →
    (s.procs i).parent = some q ∧ (s.procs i).inherited = (s.procs q).inherited
  posted : ∀ q k i, s.At q (.enabled k) → k = .forkCopy i ∨ k = .forkRun i → ∀ sig : Sig,
    (s.procs i).pending sig = true → (g i).getLsbD sig = true

theorem CleanInv.boot (mem : Mem 32) (kstack : Word) :
    CleanInv (boot mem kstack : Config Cpu) g := by
  have hat := @boot_at Cpu mem kstack
  have hproc (i : Nat) : ((Xv6Signals.boot mem kstack : Config Cpu).procs i).killed = false ∧
      ((Xv6Signals.boot mem kstack : Config Cpu).procs i).frozen = false := by
    simp only [Xv6Signals.boot, update_apply]
    split <;> exact ⟨rfl, rfl⟩
  refine ⟨fun i _ => (hproc i).2, fun i _ => (hproc i).1, fun p b _ h => (hat p b h).elim, ?_,
    fun p b _ h => (hat p b h).elim, fun q i h => (hat _ _ h).elim,
    fun q k i h => (hat _ _ h).elim⟩
  intro i hs
  by_cases hi : i = initproc
  · subst hi
    cases hs
  · simp only [Xv6Signals.boot, update_of_ne hi]
    rfl

theorem Config.At.not_embryo {k : Point} (h : s.At q (.enabled k)) (hi : Inv s) (hs : Settled s) :
    s.state q ≠ .embryo := by
  intro he
  rcases h with ⟨c, pc, hc, _⟩ | ⟨h', hx, hb⟩
  · have ha := pc.state_active
    rw [← hi.thread c q pc hc, he] at ha
    cases ha
  · have hr := hs.parked q h' hx (by rintro rfl; cases hb)
    rw [he] at hr
    cases hr

theorem Config.At.embryo {k : Point} (h : s.At q (.enabled k)) (hi : Inv s)
    (hk : k.owns = some (i, .embryo)) : s.state i = .embryo := by
  obtain ⟨a, _, ho⟩ := h.owns
  exact hi.owned a i .embryo (ho.trans hk)

theorem Write.inherited {q : Proc} {a : CpuPc} (h : Write n s l i q a) :
    q.inherited = (s.procs i).inherited ∨
    (∃ k, s.cpus l.cpu = .running i (.enabled k) ∧ k.owns = none) ∨
    ∃ r k, s.cpus l.cpu = .running r (.enabled k) ∧ (k = .forkKalloc i ∨ k = .forkCopy i) := by
  cases h with
  | post _ _ _ => exact .inl (post_field (fun _ _ => rfl) ..)
  | sigaction hc => exact .inr (.inl ⟨_, hc, rfl⟩)
  | sigprocmask hc => exact .inr (.inl ⟨_, hc, rfl⟩)
  | pass hc _ => exact .inr (.inl ⟨_, hc, rfl⟩)
  | alloc hc => exact .inr (.inr ⟨_, _, hc, .inl rfl⟩)
  | copy hc => exact .inr (.inr ⟨_, _, hc, .inr rfl⟩)
  | _ => exact .inl rfl

theorem Write.psignals {q : Proc} {a : CpuPc} (h : Write n s l i q a) :
    q.psignals = (s.procs i).psignals ∨
    (∃ p pid sig, s.cpus l.cpu = .running p (.enabled .kernel) ∧ l.choice = .kill pid sig ∧
      killTarget n s.procs pid sig = some i ∧ q = (s.procs i).post sig) ∨
    (∃ sig : Sig, s.cpus l.cpu = .running i (.enabled (.signals sig)) ∧
      signalStep (s.procs i) sig = .ok q) ∨
    ∃ r a, s.cpus l.cpu = .running r (.enabled (.forkKalloc i)) ∧ q = allocated (s.procs i) a := by
  cases h with
  | post hc hl hk => exact .inr (.inl ⟨_, _, _, hc, hl, hk, rfl⟩)
  | sigaction _ => exact .inl (sigaction_field (fun _ _ _ _ => rfl) ..)
  | pass hc hq => exact .inr (.inr (.inl ⟨_, hc, hq⟩))
  | alloc hc => exact .inr (.inr (.inr ⟨_, _, hc, rfl⟩))
  | _ => exact .inl rfl

theorem post_pending {q : Proc} {sig' : Sig} (h : (q.post sig').pending sig = true) :
    q.pending sig = true ∨ sig = sig' := by
  unfold Proc.post at h
  split at h
  · exact .inl h
  · rw [Proc.pending, getLsbD_or_bit, Bool.or_eq_true, decide_eq_true_eq] at h
    rcases h with h | h
    · exact .inl h
    · exact .inr (Fin.ext h.symm)

theorem postedAfter_cases (n : Nat) (g : Nat → Word) (s : Config Cpu) (l : Label Cpu) (i : Nat) :
    postedAfter n g s l i = g i ∨
    (∃ r, s.cpus l.cpu = .running r (.enabled (.forkKalloc i))) ∨
    ∃ pid sig, l.choice = .kill pid sig ∧ killTarget n s.procs pid sig = some i ∧
      postedAfter n g s l i = g i ||| bit sig := by
  have cases : postedAfter n g s l = g ∨
      (∃ r j, s.cpus l.cpu = .running r (.enabled (.forkKalloc j)) ∧
        postedAfter n g s l = update g j 0) ∨
      ∃ pid sig j, l.choice = .kill pid sig ∧ killTarget n s.procs pid sig = some j ∧
        postedAfter n g s l = update g j (g j ||| bit sig) := by
    unfold postedAfter
    split
    · exact .inr (.inl ⟨_, _, ‹_›, rfl⟩)
    · split
      · exact .inr (.inr ⟨_, _, _, ‹_›, ‹_›, rfl⟩)
      · exact .inl rfl
    · exact .inl rfl
  rcases cases with he | ⟨r, j, hc, he⟩ | ⟨pid, sig, j, hl, hk, he⟩ <;> rw [he]
  · exact .inl rfl
  · by_cases hi : i = j
    · subst hi
      exact .inr (.inl ⟨r, hc⟩)
    · exact .inl (update_of_ne hi ..)
  · by_cases hi : i = j
    · subst hi
      exact .inr (.inr ⟨pid, sig, hl, hk, update_self ..⟩)
    · exact .inl (update_of_ne hi ..)

theorem Pc.pidCleared_owns (h : b.pidCleared = some i) : b.owns = some (i, .minusUnused) := by
  cases b <;> cases h <;> rfl

theorem Goes.pidCleared {b' : Pc} (h : Goes n s p b b') (hb : b'.pidCleared = some i) :
    b.pidCleared = some i ∨ ∃ pid, b = .waitClearPid i pid := by
  cases h with
  | waitClearPid => cases hb; exact .inr ⟨_, rfl⟩
  | _ => cases hb <;> exact .inl rfl

theorem StateStep.gone {x : ProcState} {a : CpuPc} (h : StateStep s c i x a) (hi : Inv s)
    (hx : x.gone = true) : (s.state i).gone = true ∨ s.cpus c = .running i .exitCas := by
  cases h with
  | @handOver pc _ _ hc hh _ _ =>
    cases pc <;> cases hh <;> first | exact .inr hc | cases hx
  | fail hc hk => exact .inl (by rw [hi.failing hc hk]; rfl)
  | bury _ hs => exact .inl (by rw [hs]; rfl)
  | reap _ hs => exact .inl (by rw [hs]; rfl)
  | free _ hs => exact .inl (by rw [hs]; rfl)
  | take _ hs => exact .inl (by rw [hs]; rfl)
  | _ => cases hx

variable [DecidableEq Cpu]

theorem step_point {k : Point} {k' : Pc} (h : step n s l = some t)
    (hc : s.cpus l.cpu = .running p pc) (hb : pc.base = .enabled k) (hk : k ≠ .kernel)
    (ht : t.cpus l.cpu = .running p k') (hne : k'.base ≠ .enabled k) (hpan : k' ≠ .panicked) :
    pointStep s l.cpu p k l.choice = some t := by
  by_cases hpc : pc.base = pc
  · rw [hb] at hpc
    subst hpc
    simp only [step, hc] at h
    rcases Option.or_eq_some_iff.1 h with h | ⟨_, h⟩
    · exact h
    exfalso
    unfold callStep at h
    split at h
    · cases h
      rw [goto_self] at ht
      cases ht
      apply hne
      split <;> rfl
    · cases h
      rw [goto_self] at ht
      cases ht
      exact hne rfl
    all_goals first | exact hk rfl | cases h
  · rcases step_detour h hc ht hpc with hd | hd
    · exact (hne (hd.trans hb)).elim
    · exact (hpan hd).elim

theorem CleanInv.step_frozen (hg : CleanInv s g) (hi : Inv s) (hi' : Inv t) (hok : Tidy s l)
    (h : Xv6Signals.step n s l = some t) (ht : (t.state i).gone = true) :
    (t.procs i).frozen = false := by
  have before : (s.procs i).frozen = false := by
    rcases step_state h i with hst | hst
    · rw [hst] at ht
      exact hg.frozen i ht
    · rcases hst.gone hi ht with hs | hc
      · exact hg.frozen i hs
      · exact hok.1 i (by rw [hc]; rfl)
  rcases (step_write h i).flags with he | ⟨_, _, _, hc⟩ | he
  · exact (congrArg (·.2) he).trans before
  · rw [hi'.thread _ _ _ hc] at ht
    cases ht
  · exact (congrArg (·.2) he).trans before

theorem step_pid_zero (hi : Inv s) (h : step n s l = some t) (hs : s.state i ≠ .embryo)
    (hp : (s.procs i).pid = 0) : (t.procs i).pid = 0 := by
  rcases (step_fields h i).pid with hf | hf
  · exact hf.trans hp
  generalize (t.procs i).pid = x at hf
  generalize t.cpus l.cpu = a at hf
  cases hf with
  | set hc => exact (hs (hi.embryo hc rfl)).elim
  | clear _ => rfl

theorem step_clearPid {pid : Nat} (h : step n s l = some t)
    (hc : s.cpus l.cpu = .running p (.waitClearPid i pid)) : (t.procs i).pid = 0 := by
  simp only [step, hc] at h
  cases hch : l.choice <;> rw [hch] at h <;> cases h
  exact congrArg Proc.pid (setProc_self ..)

theorem CleanInv.step_pidCleared (hg : CleanInv s g) (hi : Inv s)
    (h : Xv6Signals.step n s l = some t) (ht : t.At p b) (hb : b.pidCleared = some i) :
    (t.procs i).pid = 0 := by
  have kept {b : Pc} (ha : s.At p b) (hb : b.pidCleared = some i) : (t.procs i).pid = 0 := by
    refine step_pid_zero hi h ?_ (hg.pidCleared p b i ha hb)
    obtain ⟨a, _, ho⟩ := ha.owns
    rw [hi.owned a i .minusUnused (ho.trans (Pc.pidCleared_owns hb))]
    exact fun he => by cases he
  rcases step_at h ht with ha | ⟨pc, _, hc, _, _, hgo⟩ | he
  · exact kept ha hb
  · rcases hgo.pidCleared hb with hb' | ⟨pid, hpc⟩
    · exact kept (.running hc) hb'
    · rw [Pc.eq_of_base hpc rfl] at hc
      exact step_clearPid h hc
  · rcases he with rfl | rfl | rfl | rfl <;> cases hb

theorem step_gives_up {k : Point} (h : step n s l = some t)
    (hc : s.cpus l.cpu = .running q (.enabled k)) (hk : k = .forkKalloc i ∨ k = .forkCopy i)
    (ht : t.cpus l.cpu = .running q (.enabled .kernel)) :
    forkFails (s.cpus l.cpu) l.choice = true := by
  rcases hk with rfl | rfl
  · have hp := step_point h hc rfl (fun hk => by cases hk) ht (fun hk => by cases hk)
      (fun hk => by cases hk)
    cases hch : l.choice <;> rw [hch] at hp <;> simp only [pointStep, reduceCtorEq] at hp
    split at hp
    · rename_i ha
      rw [hc, ha]
      rfl
    · cases hp
      rw [goto_self] at ht
      cases ht
  · have hp := step_point h hc rfl (fun hk => by cases hk) ht (fun hk => by cases hk)
      (fun hk => by cases hk)
    cases hch : l.choice <;> rw [hch] at hp <;> simp only [pointStep, reduceCtorEq] at hp
    rename_i done
    cases done with
    | false =>
      rw [hc]
      rfl
    | true =>
      cases hp
      rw [goto_self] at ht
      cases ht

theorem CleanInv.step_unused (hg : CleanInv s g) (hi : Inv s) (hok : Tidy s l)
    (h : Xv6Signals.step n s l = some t) (hu : t.state i = .unused) : (t.procs i).pid = 0 := by
  rcases step_state h i with hst | hst
  · have hu₀ := hst.symm.trans hu
    exact step_pid_zero hi h (by rw [hu₀]; exact fun he => by cases he) (hg.unused i hu₀)
  rw [hu] at hst
  generalize ha : t.cpus l.cpu = a at hst
  cases hst with
  | free hc hs =>
    refine step_pid_zero hi h ?_ (hg.pidCleared _ _ i (.running hc) rfl)
    rw [hs]
    exact fun he => by cases he
  | fail hc hk => cases hok.2.symm.trans (step_gives_up h hc hk ha)
  | handOver _ hh _ _ => exact (Pc.handsOver_ne_unused hh).elim

omit [DecidableEq Cpu] in
theorem Config.At.setup_unique {k k' : Point} {r : Nat} (ha : s.At q (.enabled k)) (hi : Inv s)
    (hs : Settled s) (hk : k.owns = some (i, .embryo)) (hc : s.cpus c = .running r (.enabled k'))
    (hk' : k'.owns = some (i, .embryo)) : k' = k := by
  have hr := hi.owner_at ha (.running hc) hk hk'
  subst hr
  cases hs.at_unique hi ha (.running hc)
  rfl

theorem CleanInv.copied_kept (hg : CleanInv s g) (hi : Inv s) (hs : Settled s) (hp : Parents s)
    (h : Xv6Signals.step n s l = some t) (ha : s.At q (.enabled (.forkRun i))) :
    (t.procs i).parent = some q ∧ (t.procs i).inherited = (t.procs q).inherited := by
  obtain ⟨hpar, hinh⟩ := hg.copied q i ha
  have hst := ha.embryo hi rfl
  have child : (t.procs i).inherited = (s.procs i).inherited := by
    rcases (step_write h i).inherited with he | ⟨k, hc, _⟩ | ⟨r, k, hc, hk⟩
    · exact he
    · cases hst.symm.trans (hi.thread _ _ _ hc)
    · rcases hk with rfl | rfl <;> cases ha.setup_unique hi hs rfl hc rfl
  have parent : (t.procs q).inherited = (s.procs q).inherited := by
    rcases (step_write h q).inherited with he | ⟨k, hc, hk⟩ | ⟨r, k, hc, hk⟩
    · exact he
    · cases hs.at_unique hi ha (.running hc)
      cases hk
    · exact (ha.not_embryo hi hs (hi.failing hc hk)).elim
  refine ⟨?_, by rw [child, parent, hinh]⟩
  rcases (step_fields h i).parent with hf | hf
  · rw [hf, hpar]
  exfalso
  generalize (t.procs i).parent = x at hf
  generalize t.cpus l.cpu = a at hf
  cases hf with
  | fork hc => cases ha.setup_unique hi hs rfl hc rfl
  | clear hc => cases hst.symm.trans (hi.owned _ i .minusUnused (Config.owns_inl hc))
  | @adopt r hc =>
    cases hpar.symm.trans (hp.thread r _ i _ (.running hc) rfl)
    cases hs.at_unique hi ha (.running hc)

theorem step_forkCopy {k : Pc} (h : step n s l = some t) (hc : s.cpus l.cpu = .running q pc)
    (hb : pc.base = .enabled (.forkCopy i)) (ht : t.cpus l.cpu = .running q k)
    (hk : k.base = .enabled (.forkRun i)) :
    t = (s.setProc i (forkChild (s.procs i) (s.procs q) q)).goto l.cpu
      (.running q (.enabled (.forkRun i))) := by
  have hp := step_point h hc hb (fun hk => by cases hk) ht (by rw [hk]; exact fun he => by cases he)
    (by rintro rfl; cases hk)
  cases hch : l.choice <;> rw [hch] at hp <;> simp only [pointStep, reduceCtorEq] at hp
  rename_i done
  cases done with
  | true =>
    cases hp
    rfl
  | false =>
    cases hp
    rw [forkFail, goto_self] at ht
    cases ht
    cases hk

theorem CleanInv.step_copied (hg : CleanInv s g) (hi : Inv s) (hs : Settled s) (hp : Parents s)
    (h : Xv6Signals.step n s l = some t) (ht : t.At q (.enabled (.forkRun i))) :
    (t.procs i).parent = some q ∧ (t.procs i).inherited = (t.procs q).inherited := by
  rcases step_at h ht with ha | ⟨pc, k, hc, hk, hb, hgo⟩ | he
  · exact hg.copied_kept hi hs hp h ha
  · generalize hpc : pc.base = a at hgo
    cases hgo with
    | forkCopy =>
      have hne : q ≠ i := by
        rintro rfl
        exact hi.not_own hc (by rw [← Pc.base_owns, hpc]; rfl)
      rw [step_forkCopy h hc hpc hk hb]
      simp only [goto_procs, setProc_self, setProc_of_ne _ hne]
      exact ⟨rfl, rfl⟩
    | signals hk' => rcases hk' with hk' | hk' <;> cases hk'
  · rcases he with he | he | he | he <;> cases he

theorem step_forkKalloc {k : Pc} (h : step n s l = some t) (hc : s.cpus l.cpu = .running q pc)
    (hb : pc.base = .enabled (.forkKalloc i)) (ht : t.cpus l.cpu = .running q k)
    (hk : k.base = .enabled (.forkCopy i)) : (t.procs i).psignals = 0 := by
  have hp := step_point h hc hb (fun hk => by cases hk) ht (by rw [hk]; exact fun he => by cases he)
    (by rintro rfl; cases hk)
  cases hch : l.choice <;> rw [hch] at hp <;> simp only [pointStep, reduceCtorEq] at hp
  split at hp
  · cases hp
    rw [forkFail, goto_self] at ht
    cases ht
    cases hk
  · cases hp
    exact congrArg Proc.psignals (setProc_self ..)

theorem CleanInv.posted_kept {k : Point} (hg : CleanInv s g) (hi : Inv s) (hs : Settled s)
    (h : Xv6Signals.step n s l = some t) (ha : s.At q (.enabled k))
    (hk : k = .forkCopy i ∨ k = .forkRun i) (hp : (t.procs i).pending sig = true) :
    (postedAfter n g s l i).getLsbD sig = true := by
  have hown : k.owns = some (i, .embryo) := by
    rcases hk with rfl | rfl <;> rfl
  have not_reset {r : Nat} (hc : s.cpus l.cpu = .running r (.enabled (.forkKalloc i))) : False := by
    have he := ha.setup_unique hi hs hown hc rfl
    rcases hk with rfl | rfl <;> cases he
  have kept (hp : (s.procs i).pending sig = true) : (postedAfter n g s l i).getLsbD sig = true := by
    have hbit := hg.posted q k i ha hk sig hp
    rcases postedAfter_cases n g s l i with he | ⟨r, hc⟩ | ⟨_, _, _, _, he⟩
    · rw [he, hbit]
    · exact (not_reset hc).elim
    · rw [he, getLsbD_or_bit, hbit]
      rfl
  rcases (step_write h i).psignals with he | ⟨p, pid, sig', hc, hl, hkill, he⟩ | ⟨_, hc, _⟩ |
      ⟨_, _, hc, _⟩
  · rw [Proc.pending, he] at hp
    exact kept hp
  · rw [he] at hp
    rcases post_pending hp with hp | rfl
    · exact kept hp
    · simp only [postedAfter, hc, hl, hkill, update_self, getLsbD_or_bit, decide_true,
        Bool.or_true]
  · cases (ha.embryo hi hown).symm.trans (hi.thread _ _ _ hc)
  · exact (not_reset hc).elim

theorem CleanInv.step_posted {k : Point} (hg : CleanInv s g) (hi : Inv s) (hs : Settled s)
    (h : Xv6Signals.step n s l = some t) (ht : t.At q (.enabled k))
    (hk : k = .forkCopy i ∨ k = .forkRun i) (hp : (t.procs i).pending sig = true) :
    (postedAfter n g s l i).getLsbD sig = true := by
  rcases step_at h ht with ha | ⟨pc, k', hc, hk', hb, hgo⟩ | he
  · exact hg.posted_kept hi hs h ha hk hp
  · generalize hpc : pc.base = a at hgo
    have ha : s.At q a := hpc ▸ .running hc
    cases hgo with
    | forkCopy =>
      rcases hk with hk | hk <;> cases hk
      exact hg.posted_kept hi hs h ha (.inl rfl) hp
    | forkKalloc =>
      rcases hk with hk | hk <;> cases hk
      rw [Proc.pending, step_forkKalloc h hc hpc hk' hb, BitVec.ofNat_eq_ofNat,
        BitVec.getLsbD_zero] at hp
      cases hp
    | signals hk' => rcases hk with rfl | rfl <;> rcases hk' with hk' | hk' <;> cases hk'
    | _ => rcases hk with hk | hk <;> cases hk
  · rcases hk with rfl | rfl <;> rcases he with he | he | he | he <;> cases he

theorem CleanInv.step (hg : CleanInv s g) (hi : Inv s) (hs : Settled s) (hp : Parents s)
    (hi' : Inv t) (hok : Tidy s l) (h : step n s l = some t) :
    CleanInv t (postedAfter n g s l) where
  frozen _ := hg.step_frozen hi hi' hok h
  free _ := step_free hi hg.cleared hg.free h
  cleared _ _ _ := step_cleared hi hg.cleared h
  unused _ := hg.step_unused hi hok h
  pidCleared _ _ _ := hg.step_pidCleared hi h
  copied _ _ := hg.step_copied hi hs hp h
  posted _ _ _ ht hk _ := hg.step_posted hi hs h ht hk

def occupantMachine (Cpu : Type) [DecidableEq Cpu] (n : Nat) :
    Machine ((Config Cpu × Ledger) × (Nat → Word)) (Label Cpu) :=
  (ledgerMachine Cpu n).track (fun _ => 0) fun g s l => postedAfter n g s.1 l

section

variable {s : (Config Cpu × Ledger) × (Nat → Word)}
  (h : (occupantMachine Cpu n).Reach (fun s l => Unovertaken s.1.1 l ∧ Tidy s.1.1 l) s)
include h

theorem occupant_ledger : (ledgerMachine Cpu n).Reach (fun s => Unovertaken s.1) s.1 :=
  Machine.Reach.untrack (M := ledgerMachine Cpu n) (h.mono fun _ _ h => h.1)

theorem CleanInv.reach : CleanInv s.1.1 s.2 := by
  refine h.invariant (P := fun s => CleanInv s.1.1 s.2) ?_ ?_
  · rintro s ⟨⟨⟨_, mem, kstack, hs⟩, _⟩, _⟩
    rw [hs]
    exact CleanInv.boot mem kstack
  intro s l t hr hg hok h
  obtain ⟨u, hu, rfl⟩ := Option.map_eq_some_iff.1 h
  obtain ⟨v, hv, rfl⟩ := Option.map_eq_some_iff.1 hu
  have hr₁ := (occupant_ledger hr).untrack
  exact hg.step (Inv.reach hr₁) (Settled.reach hr₁) (Parents.reach hr₁)
    (Inv.reach (.step hr₁ hok.1 hv)) hok.2 hv

end

/-- In runs in which no hand-over is overtaken, no process exits while it is stopped and no `fork`
fails half-way, the process that a `fork` is about to make RUNNABLE has nothing of the earlier
occupants of its slot, and a free slot has no pid. -/
theorem new_process_clean {s : Config Cpu} {e : Ledger} {g : Nat → Word}
    (h : (occupantMachine Cpu n).Reach (fun s l => Unovertaken s.1.1 l ∧ Tidy s.1.1 l)
      ((s, e), g)) :
    (∀ c q i, s.cpus c = .running q (.enabled (.forkRun i)) →
      (∀ sig : Sig, (s.procs i).pending sig = true → (g i).getLsbD sig = true) ∧
      (s.procs i).killed = false ∧ (s.procs i).frozen = false ∧
      (s.procs i).parent = some q ∧
      (e.name i = some (s.procs i).pid ∧ ∀ j, e.name j = some (s.procs i).pid → j = i) ∧
      (s.procs i).sigmask = (s.procs q).sigmask ∧
      (s.procs i).sigHandlers = (s.procs q).sigHandlers) ∧
    ∀ i, s.state i = .unused → (s.procs i).pid = 0 := by
  have hg := CleanInv.reach h
  have hr := occupant_ledger h
  have hpid := PidInv.reach hr
  have hi := Inv.reach hr.untrack
  refine ⟨fun c q i hc => ?_, hg.unused⟩
  have hst := hi.embryo hc rfl
  obtain ⟨hpar, hinh⟩ := hg.copied q i (.running hc)
  have hname := hpid.thread q _ i none (.running hc) rfl
  exact ⟨hg.posted q _ i (.running hc) (.inr rfl), hg.free i (.inr hst),
    hg.frozen i (by rw [hst]; rfl), hpar, ⟨hname, fun j hj => hpid.unique j i _ hj hname⟩,
    congrArg (·.1) hinh, congrArg (·.2) hinh⟩

def forkAgain (c : Cpu) : List (Label Cpu) :=
  [⟨c, .fork⟩] ++ advance c 6 ++ [⟨c, .kalloc 0x80500000⟩, ⟨c, .copyuvm true⟩]

theorem new_process_clean_in_reused_slot : ∃ (s : Config (Fin 1)) (e : Ledger) (g : Nat → Word),
    (occupantMachine (Fin 1) 2).Reach (fun s l => Unovertaken s.1.1 l ∧ Tidy s.1.1 l)
      ((s, e), g) ∧
    s.cpus 0 = .running 0 (.enabled (.forkRun 1)) ∧ e.returned 2 = 1 ∧
    (s.procs 1).killed = false ∧ (s.procs 1).frozen = false ∧ (s.procs 1).parent = some 0 := by
  have hboot : (occupantMachine (Fin 1) 2).Reach (fun s l => Unovertaken s.1.1 l ∧ Tidy s.1.1 l)
      ((boot (fun _ => 0) 0x80400000, .boot), fun _ => 0) :=
    .init ⟨⟨⟨by decide, _, _, rfl⟩, rfl⟩, rfl⟩
  obtain ⟨⟨⟨s, e⟩, g⟩, hr, hc, he⟩ := hboot.exists_run
    (l := childExits 0 ++ advance 0 26 ++ forkAgain 0)
    (P := fun s => s.1.1.cpus 0 = .running 0 (.enabled (.forkRun 1)) ∧ s.1.2.returned 2 = 1)
    (by decide +kernel) (by decide +kernel)
  obtain ⟨_, hk, hf, hp, _⟩ := (new_process_clean hr).1 0 0 1 hc
  exact ⟨s, e, g, hr, hc, he, hk, hf, hp⟩

/-- A child that exits while it is stopped leaves `frozen` set for the next process in its slot, and
a `fork` that runs out of memory leaves its pid in the free slot. -/
theorem new_process_frozen :
    (∃ s : Config (Fin 1), (ptable (Fin 1) 2).Reachable s ∧
      s.cpus 0 = .running 0 (.enabled (.forkRun 1)) ∧ (s.procs 1).frozen = true) ∧
    ∃ s : Config (Fin 1), (ptable (Fin 1) 2).Reachable s ∧ s.state 1 = .unused ∧
      (s.procs 1).pid = 2 := by
  have hboot : (ptable (Fin 1) 2).Reachable (boot (fun _ => 0) 0x80400000) :=
    boot_reach (by decide) _ _
  constructor
  · exact hboot.exists_run
      (l := stopRun 0 ++ [⟨0, .exit⟩] ++ advance 0 20 ++ [⟨0, .wait⟩] ++ advance 0 13 ++
        forkAgain 0) (Machine.permits_true ..) (by decide +kernel)
  · exact hboot.exists_run (l := advance 0 37 ++ [⟨0, .fork⟩] ++ advance 0 6 ++ [⟨0, .kalloc 0⟩])
      (Machine.permits_true ..) (by decide +kernel)

end Xv6Signals
