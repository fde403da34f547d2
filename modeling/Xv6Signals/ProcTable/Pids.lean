import Xv6Signals.ProcTable.Parents

namespace Xv6Signals
open Lib Function

variable {Cpu : Type} {s t : Config Cpu} {c d : Cpu} {i j p q n : Nat} {pc k b b' : Pc}
  {l : Label Cpu} {o : Option Nat} {x : Nat}

/-- The history of the pids: the one given to the process in a slot, the parent that a process had
when `wait` took it, and how many calls of `wait` have returned each. -/
structure Ledger where
  name : Nat → Option Nat
  taker : Nat → Option Nat
  returned : Nat → Nat

def Ledger.after (g : Ledger) (s : Config Cpu) (l : Label Cpu) : Ledger :=
  match s.cpus l.cpu with
  | .running _ (.forkPidCas i pid) =>
    if s.nextpid = pid then { g with name := update g.name i (some pid) } else g
  | .running _ (.waitReap i) =>
    if s.state i = .zombie then
      { g with taker := update g.taker (s.procs i).pid (s.procs i).parent }
    else g
  | .running _ (.waitUnused i pid) =>
    { g with
      name := update g.name i none
      returned := update g.returned pid (g.returned pid + 1) }
  | _ => g

def Ledger.boot : Ledger :=
  ⟨fun i => if i = initproc then some 1 else none, fun _ => none, fun _ => 0⟩

/-- The slot whose pid a thread knows or has set at a point, with the pid it holds in a variable. -/
def Pc.names : Pc → Option (Nat × Option Nat)
  | .enabled (.forkSetPid i pid) => some (i, some pid)
  | .enabled (.forkKalloc i) | .enabled (.forkCopy i) | .enabled (.forkRun i) => some (i, none)
  | .waitPid i => some (i, none)
  | .waitKfree i pid | .waitClearPid i pid | .waitClearParent i pid | .waitClearKilled i pid
  | .waitClearChan i pid | .waitRunning i pid | .waitUnused i pid => some (i, some pid)
  | _ => none

def Pc.reaps : Pc → Bool
  | .waitPid _ | .waitKfree _ _ | .waitClearPid _ _ | .waitClearParent _ _ | .waitClearKilled _ _
  | .waitClearChan _ _ | .waitRunning _ _ | .waitUnused _ _ => true
  | _ => false

def ProcState.live : ProcState → Bool
  | .unused | .minusUnused | .embryo => false
  | _ => true

inductive NameStep (s t : Config Cpu) (c : Cpu) (i : Nat) : Option Nat → Prop
  | issue {q : Nat} : s.cpus c = .running q (.forkPidCas i s.nextpid) →
      t.cpus c = .running q (.enabled (.forkSetPid i s.nextpid)) → t.nextpid = s.nextpid + 1 →
      NameStep s t c i (some s.nextpid)
  | release {q pid : Nat} : s.cpus c = .running q (.waitUnused i pid) →
      t.cpus c = .running q (.enabled .kernel) → NameStep s t c i none

/-- The pids in the table are those that were issued; none is in two slots, and none that was
returned by `wait` is still there. -/
structure PidInv (s : Config Cpu) (g : Ledger) : Prop where
  fresh : ∀ i x, g.name i = some x → x < s.nextpid ∧ g.returned x = 0
  unique : ∀ i j x, g.name i = some x → g.name j = some x → i = j
  once : ∀ x, g.returned x ≤ 1
  issued : ∀ x, g.returned x ≠ 0 → x < s.nextpid
  thread : ∀ p b i o, s.At p b → b.names = some (i, o) →
    g.name i = some (o.getD (s.procs i).pid)
  live : ∀ i, (s.state i).live = true → g.name i = some (s.procs i).pid
  taker : ∀ p b i o, s.At p b → b.names = some (i, o) → b.reaps = true →
    g.taker (o.getD (s.procs i).pid) = some p

theorem PidInv.boot (mem : Mem 32) (kstack : Word) :
    PidInv (boot mem kstack : Config Cpu) .boot := by
  have hat := @boot_at Cpu mem kstack
  have hname {i x : Nat} (h : Ledger.boot.name i = some x) : i = initproc ∧ x = 1 := by
    simp only [Ledger.boot] at h
    split at h
    · cases h
      exact ⟨‹_›, rfl⟩
    · cases h
  refine ⟨?_, ?_, fun _ => Nat.zero_le _, nofun, fun p b _ _ h => (hat p b h).elim, ?_,
    fun p b _ _ h => (hat p b h).elim⟩
  · intro i x h
    rw [(hname h).2]
    exact ⟨Nat.lt_succ_self 1, rfl⟩
  · intro i j x h h'
    rw [(hname h).1, (hname h').1]
  · intro i h
    by_cases hi : i = initproc
    · subst hi
      rfl
    · simp only [Config.state, Xv6Signals.boot, update_of_ne hi] at h
      cases h

theorem Pc.names_owns (h : b.names = some (i, o)) :
    ∃ x, b.owns = some (i, x) ∧ (b.reaps = true → x = .minusUnused) := by
  cases b with
  | enabled k => cases k <;> cases h <;> exact ⟨_, rfl, nofun⟩
  | _ => cases h <;> exact ⟨_, rfl, fun _ => rfl⟩

theorem StateStep.live {x : ProcState} {a : CpuPc} (h : StateStep s c i x a) (hx : x.live = true) :
    (s.state i).live = true ∨ ∃ q, s.cpus c = .running q (.enabled (.forkRun i)) := by
  cases h with
  | born hc _ => exact .inr ⟨_, hc⟩
  | reap _ _ => cases hx
  | free _ _ => cases hx
  | take _ _ => cases hx
  | fail _ _ => cases hx
  | _ => exact .inl (by rw [‹s.state i = _›]; rfl)

theorem Ledger.after_taker (g : Ledger) (s : Config Cpu) (l : Label Cpu) (x : Nat) :
    (g.after s l).taker x = g.taker x ∨ ∃ q i, s.cpus l.cpu = .running q (.waitReap i) ∧
      s.state i = .zombie ∧ (s.procs i).pid = x ∧ (g.after s l).taker x = (s.procs i).parent := by
  unfold Ledger.after
  split
  · split <;> exact .inl rfl
  · split
    · rename_i q i hc hz
      by_cases hx : x = (s.procs i).pid
      · subst hx
        exact .inr ⟨q, i, hc, hz, rfl, update_self ..⟩
      · exact .inl (update_of_ne hx ..)
    · exact .inl rfl
  · exact .inl rfl
  · exact .inl rfl

theorem Ledger.after_returned (g : Ledger) (s : Config Cpu) (l : Label Cpu) (x : Nat) :
    (g.after s l).returned x = g.returned x ∨ ∃ q i, s.cpus l.cpu = .running q (.waitUnused i x) ∧
      (g.after s l).name i = none ∧ (g.after s l).returned x = g.returned x + 1 := by
  unfold Ledger.after
  split
  · split <;> exact .inl rfl
  · split <;> exact .inl rfl
  · rename_i q i pid hc
    by_cases hx : x = pid
    · subst hx
      exact .inr ⟨q, i, hc, update_self .., update_self ..⟩
    · exact .inl (update_of_ne hx ..)
  · exact .inl rfl

variable {g : Ledger}

theorem PidInv.returning (hg : PidInv s g)
    (hc : s.cpus c = .running q (.waitUnused i x)) : x < s.nextpid ∧ g.returned x = 0 :=
  hg.fresh i x (hg.thread _ _ i _ (.running hc) rfl)

theorem PidInv.step_once (hg : PidInv s g) (x : Nat) : (g.after s l).returned x ≤ 1 := by
  rcases g.after_returned s l x with hr | ⟨_, _, hc, _, hr⟩
  · rw [hr]
    exact hg.once x
  · rw [hr, (hg.returning hc).2]

def Pc.writesPid : Pc → Bool
  | .forkPidCas _ _ | .waitUnused _ _ | .enabled (.forkSetPid _ _) | .waitClearPid _ _ => true
  | _ => false

theorem NameStep.writesPid {x : Option Nat} (h : NameStep s t c i x)
    (hc : s.cpus c = .running p pc) : pc.writesPid = true := by
  cases h with
  | issue hc' _ _ => cases hc.symm.trans hc'; rfl
  | release hc' _ => cases hc.symm.trans hc'; rfl

theorem PidStep.writesPid {a : CpuPc} (h : PidStep s c i x a)
    (hc : s.cpus c = .running p pc) : pc.writesPid = true := by
  cases h with
  | set hc' => cases hc.symm.trans hc'; rfl
  | clear hc' => cases hc.symm.trans hc'; rfl

theorem Goes.names (h : Goes n s p b b') (hb : b'.names = some (i, o)) :
    b.writesPid = false ∧ (b.names = some (i, o) ∧ b'.reaps = b.reaps ∨
        b.names = some (i, none) ∧ o = some (s.procs i).pid ∧ b.reaps = true ∨
        o = none ∧ b = .waitReap i ∧ s.state i = .zombie) ∨
      b = .forkPidCas i s.nextpid ∧ o = some s.nextpid ∧ b'.reaps = false ∨
      (∃ pid, b = .enabled (.forkSetPid i pid) ∧ b' = .enabled (.forkKalloc i) ∧ o = none) ∨
      ∃ pid, b = .waitClearPid i pid ∧ o = some pid := by
  cases h with
  | waitReap hz => cases hb; exact .inl ⟨rfl, .inr (.inr ⟨rfl, rfl, hz⟩)⟩
  | waitPid => cases hb; exact .inl ⟨rfl, .inr (.inl ⟨rfl, rfl, rfl⟩)⟩
  | waitClearPid => cases hb; exact .inr (.inr (.inr ⟨_, rfl, rfl⟩))
  | forkPidCas hn => cases hb; subst hn; exact .inr (.inl ⟨rfl, rfl, rfl⟩)
  | forkSetPid => cases hb; exact .inr (.inr (.inl ⟨_, rfl, rfl, rfl⟩))
  | signals hk => rcases hk with rfl | rfl <;> cases hb
  | _ => cases hb <;> exact .inl ⟨rfl, .inl ⟨rfl, rfl⟩⟩

theorem Pc.writesPid_base (h : pc.base.writesPid = false) : pc.writesPid = false := by
  cases pc with
  | sched h' => rfl
  | swtch h' => rfl
  | wakeup w k => rfl
  | yieldCas k => rfl
  | _ => exact h

theorem PidInv.taker_kept (hg : PidInv s g)
    (hi : Inv s) (ha : s.At p b) (hb : b.names = some (i, o)) (hr : b.reaps = true) :
    (g.after s l).taker (o.getD (s.procs i).pid) = some p := by
  rcases g.after_taker s l (o.getD (s.procs i).pid) with hx | ⟨q, j, hc, hz, hpid, _⟩
  · rw [hx]
    exact hg.taker p b i o ha hb hr
  exfalso
  have hj := hg.live j (by rw [hz]; rfl)
  rw [hpid] at hj
  have hij := hg.unique i j _ (hg.thread p b i o ha hb) hj
  subst hij
  obtain ⟨y, hy, hyr⟩ := Pc.names_owns hb
  obtain ⟨a, _, hao⟩ := ha.owns
  cases hz.symm.trans ((hi.owned a i y (hao.trans hy)).trans (hyr hr))

variable [DecidableEq Cpu]

theorem Ledger.after_name (g : Ledger) (h : step n s l = some t) (i : Nat) :
    (g.after s l).name i = g.name i ∨ NameStep s t l.cpu i ((g.after s l).name i) := by
  unfold Ledger.after
  split
  · rename_i q j pid hc
    split
    · rename_i hpid
      by_cases hij : i = j
      · subst hij hpid
        right
        simp only [step, hc] at h
        cases hch : l.choice <;> rw [hch] at h <;> simp only [cpuStep, threadStep, if_true] at h <;>
          cases h
        simp only [update_self]
        exact .issue hc (goto_self ..) rfl
      · exact .inl (update_of_ne hij ..)
    · exact .inl rfl
  · split <;> exact .inl rfl
  · rename_i q j pid hc
    by_cases hij : i = j
    · subst hij
      right
      simp only [step, hc] at h
      cases hch : l.choice <;> rw [hch] at h <;> cases h
      simp only [update_self]
      refine .release hc ?_
      rw [cas_self, ite_self]
    · exact .inl (update_of_ne hij ..)
  · exact .inl rfl

theorem step_nextpid_le (h : step n s l = some t) : s.nextpid ≤ t.nextpid := by
  rcases step_nextpid h with h | ⟨_, _, _, h⟩ <;> omega

section

variable (hg : PidInv s g) (h : step n s l = some t)
include hg h

theorem PidInv.step_fresh (hx : (g.after s l).name i = some x) :
    x < t.nextpid ∧ (g.after s l).returned x = 0 := by
  rcases g.after_name h i with hn | hn
  · obtain ⟨hlt, hr⟩ := hg.fresh i x (hn.symm.trans hx)
    refine ⟨Nat.lt_of_lt_of_le hlt (step_nextpid_le h), ?_⟩
    rcases g.after_returned s l x with hr' | ⟨q, j, hc, hj, _⟩
    · rw [hr', hr]
    · have hji := hg.unique i j x (hn.symm.trans hx) (hg.thread _ _ j _ (.running hc) rfl)
      subst hji
      cases hx.symm.trans hj
  rw [hx] at hn
  cases hn with
  | issue hc _ hnext =>
    refine ⟨hnext ▸ Nat.lt_succ_self _, ?_⟩
    rcases g.after_returned s l s.nextpid with hr | ⟨_, _, hc', _⟩
    · rw [hr]
      by_contra hne
      exact Nat.lt_irrefl _ (hg.issued _ hne)
    · cases hc.symm.trans hc'

theorem PidInv.step_unique (hi : (g.after s l).name i = some x)
    (hj : (g.after s l).name j = some x) : i = j := by
  have issued {i j : Nat} (hn : NameStep s t l.cpu i (some x)) (hj : g.name j = some x) :
      False := by
    cases hn with
    | issue _ _ _ => exact Nat.lt_irrefl _ (hg.fresh j _ hj).1
  rcases g.after_name h i with hni | hni <;> rcases g.after_name h j with hnj | hnj
  · exact hg.unique i j x (hni.symm.trans hi) (hnj.symm.trans hj)
  · exact (issued (hj ▸ hnj) (hni.symm.trans hi)).elim
  · exact (issued (hi ▸ hni) (hnj.symm.trans hj)).elim
  rw [hi] at hni
  rw [hj] at hnj
  cases hni with
  | issue hc _ _ =>
    generalize hy : some s.nextpid = y at hnj
    cases hnj with
    | issue hc' _ _ =>
      cases hc.symm.trans hc'
      rfl
    | release _ _ => cases hy

theorem PidInv.step_issued (hx : (g.after s l).returned x ≠ 0) : x < t.nextpid := by
  refine Nat.lt_of_lt_of_le ?_ (step_nextpid_le h)
  rcases g.after_returned s l x with hr | ⟨_, _, hc, _, _⟩
  · exact hg.issued x (hr ▸ hx)
  · exact (hg.returning hc).1

end

theorem step_pids (g : Ledger) (h : step n s l = some t)
    (hc : s.cpus l.cpu = .running p pc) (hp : pc.writesPid = false) (i : Nat) :
    (g.after s l).name i = g.name i ∧ (t.procs i).pid = (s.procs i).pid := by
  constructor
  · rcases g.after_name h i with hn | hn
    · exact hn
    · cases hp.symm.trans (hn.writesPid hc)
  · rcases (step_fields h i).pid with hf | hf
    · exact hf
    · cases hp.symm.trans (hf.writesPid hc)

theorem step_pids_owner (g : Ledger) (h : step n s l = some t) (i : Nat) :
    ((g.after s l).name i = g.name i ∧ (t.procs i).pid = (s.procs i).pid) ∨
      ∃ q pc k x, s.cpus l.cpu = .running q pc ∧ t.cpus l.cpu = .running q k ∧
        pc.owns = some (i, x) ∧ k.base ≠ pc.base := by
  rcases g.after_name h i with hn | hn
  · rcases (step_fields h i).pid with hf | hf
    · exact .inl ⟨hn, hf⟩
    · right
      generalize ht : t.cpus l.cpu = a at hf
      generalize (t.procs i).pid = x at hf
      cases hf with
      | set hc => exact ⟨_, _, _, _, hc, rfl, rfl, nofun⟩
      | clear hc => exact ⟨_, _, _, _, hc, rfl, rfl, nofun⟩
  · right
    generalize (g.after s l).name i = x at hn
    cases hn with
    | issue hc ht _ => exact ⟨_, _, _, _, hc, ht, rfl, nofun⟩
    | release hc ht => exact ⟨_, _, _, _, hc, ht, rfl, nofun⟩

theorem step_detour (h : step n s l = some t)
    (hc : s.cpus l.cpu = .running p pc) (hk : t.cpus l.cpu = .running p k) (hb : pc.base ≠ pc) :
    k.base = pc.base ∨ k = .panicked := by
  simp only [step, hc] at h
  cases pc with
  | wakeup w j =>
    cases hch : l.choice <;> rw [hch] at h <;> cases h
    obtain ⟨w', _, hw'⟩ := wakeStep_move n s l.cpu w (fun w => .running p (.wakeup w j))
      (.running p j.resume)
    rw [hk] at hw'
    left
    cases w' <;> cases hw' <;> cases j <;> rfl
  | yieldCas j =>
    cases hch : l.choice <;> rw [hch] at h <;> cases h
    rw [cas_self] at hk
    split at hk <;> cases hk
    · exact .inl rfl
    · exact .inr rfl
  | sched j =>
    cases hch : l.choice <;> rw [hch] at h <;> cases h
    rw [goto_self] at hk
    split at hk <;> cases hk
    · exact .inr rfl
    · left
      cases j <;> rfl
  | swtch j =>
    cases hch : l.choice <;> rw [hch] at h <;> cases h
    rw [goto_self] at hk
    cases hk
  | _ => exact (hb rfl).elim

theorem step_setPid {pid : Nat} (h : step n s l = some t)
    (hc : s.cpus l.cpu = .running p pc) (hb : pc.base = .enabled (.forkSetPid i pid))
    (hk : t.cpus l.cpu = .running p k) (hkb : k.base = .enabled (.forkKalloc i)) :
    (t.procs i).pid = pid := by
  by_cases hpc : pc.base = pc
  · rw [hb] at hpc
    subst hpc
    simp only [step, hc, cpuStep] at h
    cases hch : l.choice <;> rw [hch] at h <;> cases h
    · exact congrArg Proc.pid (setProc_self ..)
    · rw [goto_self] at hk
      split at hk <;> cases hk <;> cases hkb
    · rw [goto_self] at hk
      cases hk
      cases hkb
  · rcases step_detour h hc hk hpc with hd | rfl
    · rw [hb, hkb] at hd
      cases hd
    · cases hkb

section

variable (hg : PidInv s g) (hi : Inv s)
include hg hi

theorem PidInv.step_thread (hs : Settled s) (hp : Parents s) (hi' : Inv t) (hs' : Settled t)
    (h : step n s l = some t) (ht : t.At p b) (hb : b.names = some (i, o)) :
    (g.after s l).name i = some (o.getD (t.procs i).pid) ∧
      (b.reaps = true → (g.after s l).taker (o.getD (t.procs i).pid) = some p) := by
  rcases step_at h ht with ha | ⟨pc, k, hc, hk, rfl, hgo⟩ | he
  · rcases step_pids_owner g h i with ⟨hn, hf⟩ | ⟨r, pc, k, x, hc, hk, ho, hne⟩
    · rw [hn, hf]
      exact ⟨hg.thread p b i o ha hb, hg.taker_kept hi ha hb⟩
    · obtain ⟨y, hy, _⟩ := Pc.names_owns hb
      exact (owner_moved hi hs hi' hs' ha ht hy hc ho hk hne).elim
  · have hpc := Config.At.running hc
    rcases hgo.names hb with ⟨hw, hx⟩ | ⟨hbase, rfl, hr⟩ | ⟨pid, hbase, hkb, rfl⟩ | ⟨pid, hbase, rfl⟩
    · obtain ⟨hn, hf⟩ := step_pids g h hc (Pc.writesPid_base hw) i
      rw [hn, hf]
      rcases hx with ⟨hx, hr⟩ | ⟨hx, rfl, hr⟩ | ⟨rfl, hbase, hz⟩
      · exact ⟨hg.thread p _ i o hpc hx, fun h => hg.taker_kept hi hpc hx (hr.symm.trans h)⟩
      · exact ⟨hg.thread p _ i none hpc hx, fun _ => hg.taker_kept hi hpc (o := none) hx hr⟩
      · rw [Pc.eq_of_base hbase rfl] at hc
        refine ⟨hg.live i (by rw [hz]; rfl), fun _ => ?_⟩
        simp only [Ledger.after, hc, hz, if_true, Option.getD_none, update_self]
        exact hp.thread p _ i _ (.running hc) rfl
    · rw [Pc.eq_of_base hbase rfl] at hc
      refine ⟨?_, fun h => by cases h.symm.trans hr⟩
      simp only [Ledger.after, hc, if_true, update_self, Option.getD_some]
    · refine ⟨?_, fun h => by rw [hkb] at h; cases h⟩
      rw [step_setPid h hc hbase hk hkb]
      rcases g.after_name h i with hn | hn
      · rw [hn]
        exact hg.thread p _ i (some pid) hpc (by rw [hbase]; rfl)
      · generalize (g.after s l).name i = x at hn
        cases hn with
        | issue hc' _ _ => cases hc.symm.trans hc'; cases hbase
        | release hc' _ => cases hc.symm.trans hc'; cases hbase
    · rw [Pc.eq_of_base hbase rfl] at hc
      have hn := hg.thread p _ i (some pid) (.running hc) rfl
      refine ⟨?_, fun _ => hg.taker_kept hi (.running hc) (o := some pid) rfl rfl⟩
      simp only [Ledger.after, hc]
      exact hn
  · rcases he with rfl | rfl | rfl | rfl <;> cases hb

theorem PidInv.step_live (h : step n s l = some t) (hl : (t.state i).live = true) :
    (g.after s l).name i = some (t.procs i).pid := by
  have kept (hs : (s.state i).live = true) : (g.after s l).name i = some (t.procs i).pid := by
    rcases step_pids_owner g h i with ⟨hn, hf⟩ | ⟨r, pc, k, x, hc, _, ho, _⟩
    · rw [hn, hf]
      exact hg.live i hs
    · rw [hi.owned (.inl l.cpu) i x ((Config.owns_inl hc).trans ho)] at hs
      rcases Pc.owns_state ho with rfl | rfl <;> cases hs
  rcases step_state h i with hst | hst
  · rw [hst] at hl
    exact kept hl
  rcases hst.live hl with hs | ⟨q, hc⟩
  · exact kept hs
  · obtain ⟨hn, hf⟩ := step_pids g h hc rfl i
    rw [hn, hf]
    exact hg.thread q _ i none (.running hc) rfl

theorem PidInv.step (hs : Settled s)
    (hp : Parents s) (hi' : Inv t) (hs' : Settled t) (h : step n s l = some t) :
    PidInv t (g.after s l) where
  fresh _ _ := hg.step_fresh h
  unique _ _ _ := hg.step_unique h
  once := hg.step_once
  issued _ := hg.step_issued h
  thread _ _ _ _ ht hb := (hg.step_thread hi hs hp hi' hs' h ht hb).1
  live _ := hg.step_live hi h
  taker _ _ _ _ ht hb := (hg.step_thread hi hs hp hi' hs' h ht hb).2

end

def ledgerMachine (Cpu : Type) [DecidableEq Cpu] (n : Nat) :
    Machine (Config Cpu × Ledger) (Label Cpu) :=
  (ptable Cpu n).track .boot Ledger.after

theorem PidInv.reach {s : Config Cpu × Ledger}
    (h : (ledgerMachine Cpu n).Reach (fun s => Unovertaken s.1) s) : PidInv s.1 s.2 := by
  refine h.invariant (P := fun s => PidInv s.1 s.2) ?_ ?_
  · rintro s ⟨⟨_, mem, kstack, hs⟩, hg⟩
    rw [hs, hg]
    exact PidInv.boot mem kstack
  intro s l t hr hg hok h
  obtain ⟨u, hu, rfl⟩ := Option.map_eq_some_iff.1 h
  have hr₀ := hr.untrack
  have hr₁ := Machine.Reach.step hr₀ hok hu
  exact hg.step (Inv.reach hr₀) (Settled.reach hr₀) (Parents.reach hr₀) (Inv.reach hr₁)
    (Settled.reach hr₁) hu

/-- In runs in which no hand-over is overtaken a process asleep in `wait` is being woken when it has
a zombie child, and each pid is returned by one call of `wait`, made by the parent that the process
had when it was taken. -/
theorem children_reaped_once :
    (∀ s : Config Cpu, (ptable Cpu n).Reach Unovertaken s → ∀ q i, q < n → i < n →
      s.state q = .sleeping → s.context q = some (.saved .wait) →
      (s.procs i).parent = some q → s.state i = .zombie → s.Notifying q i) ∧
    ∀ (s : Config Cpu) (g : Ledger), (ledgerMachine Cpu n).Reach (fun s => Unovertaken s.1) (s, g) →
      (∀ pid, g.returned pid ≤ 1) ∧
      ∀ c q i pid, s.cpus c = .running q (.waitUnused i pid) →
        g.taker pid = some q ∧ g.returned pid = 0 := by
  constructor
  · intro s hr q i hq hi hst hx hpar hz
    exact Notified.reach hr q i hq hi ⟨.swtch .wait, .inr ⟨.wait, hx, rfl⟩, rfl, .inr hst⟩ hpar hz
  · intro s g hr
    have hg := PidInv.reach hr
    refine ⟨hg.once, fun c q i pid hc => ⟨?_, (hg.returning hc).2⟩⟩
    exact hg.taker q _ i (some pid) (.running hc) rfl rfl

def childExits (c : Cpu) : List (Label Cpu) :=
  forkFirst c ++ [⟨c, .wait⟩] ++ advance c 48 ++ [⟨c, .exit⟩] ++ advance c 11

theorem childExits_runs : ∃ s : Config (Fin 1), (ptable (Fin 1) 2).Reach Unovertaken s ∧
    s.state 0 = .sleeping ∧ (s.procs 0).chan = .proc 0 ∧ s.context 0 = some (.saved .wait) ∧
    (s.procs 1).parent = some 0 ∧ s.state 1 = .zombie ∧ ∀ c, (s.cpus c).wake = none :=
  (boot_reach (by decide) (fun _ => 0) 0x80400000).exists_run (l := childExits 0)
    (by decide +kernel) (by decide +kernel)

theorem children_reaped_once_forked :
    (∃ s : Config (Fin 1), (ptable (Fin 1) 2).Reach Unovertaken s ∧ s.state 0 = .sleeping ∧
      s.state 1 = .zombie ∧ s.Notifying 0 1) ∧
    ∃ (s : Config (Fin 1)) (g : Ledger),
      (ledgerMachine (Fin 1) 2).Reach (fun s => Unovertaken s.1) (s, g) ∧
      s.cpus 0 = .running 0 (.waitUnused 1 2) ∧ g.taker 2 = some 0 ∧ g.returned 2 = 0 := by
  constructor
  · obtain ⟨s, hr, hst, _, hx, hpar, hz, _⟩ := childExits_runs
    exact ⟨s, hr, hst, hz,
      children_reaped_once.1 s hr 0 1 (by decide) (by decide) hst hx hpar hz⟩
  have hboot : (ledgerMachine (Fin 1) 2).Reach (fun s => Unovertaken s.1)
      (boot (fun _ => 0) 0x80400000, .boot) := .init ⟨⟨by decide, _, _, rfl⟩, rfl⟩
  obtain ⟨⟨s, g⟩, hr, hc⟩ := hboot.exists_run (l := childExits 0 ++ advance 0 25)
    (P := fun s => s.1.cpus 0 = .running 0 (.waitUnused 1 2)) (by decide +kernel)
    (by decide +kernel)
  exact ⟨s, g, hr, hc, (children_reaped_once.2 s g hr).2 0 0 1 2 hc⟩

/-- The child is a zombie and its parent asleep in `wait`, but the CPU that has buried the child
has not started its wakeup yet. -/
theorem zombie_before_wakeup : ∃ s : Config (Fin 1), (ptable (Fin 1) 2).Reachable s ∧
    s.state 0 = .sleeping ∧ (s.procs 0).chan = .proc 0 ∧ s.context 0 = some (.saved .wait) ∧
    (s.procs 1).parent = some 0 ∧ s.state 1 = .zombie ∧ ∀ c, (s.cpus c).wake = none := by
  obtain ⟨s, hr, h⟩ := childExits_runs
  exact ⟨s, hr.mono fun _ _ _ => trivial, h⟩

end Xv6Signals
