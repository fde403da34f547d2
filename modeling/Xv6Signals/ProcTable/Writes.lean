import Xv6Signals.ProcTable.Transitions

namespace Xv6Signals
open Lib

variable {Cpu : Type} {s t : Config Cpu} {c : Cpu} {i j p n : Nat} {pc : Pc} {l : Label Cpu}
  {q : Proc} {a : CpuPc}

def Pc.comesBack : Pc → Bool
  | .waitRunning _ _ | .waitGiveUpCas => true
  | _ => false

inductive StateStep (s : Config Cpu) (c : Cpu) (i : Nat) : ProcState → CpuPc → Prop
  | pick : s.cpus c = .pick i → s.state i = .runnable → StateStep s c i .running (.frozenTest i)
  | unpick : s.cpus c = .unpick i → s.state i = .running → StateStep s c i .runnable (.pick (i + 1))
  | handOver {pc pc' : Pc} {x : ProcState} : s.cpus c = .running i pc → pc.handsOver = some x →
      s.state i = .running → pc'.state = x → StateStep s c i x (.running i pc')
  | comeBack {pc pc' : Pc} : s.cpus c = .running i pc → pc.comesBack = true →
      s.state i = .minusSleeping → pc'.state = .running →
      StateStep s c i .running (.running i pc')
  | park : s.cpus c = .clean i .park → s.state i = .minusSleeping →
      StateStep s c i .sleeping (.clean i .killedTest)
  | unpark : s.cpus c = .clean i .unpark → s.state i = .sleeping →
      StateStep s c i .runnable (.clean i .ready)
  | ready : s.cpus c = .clean i .ready → s.state i = .minusRunnable →
      StateStep s c i .runnable (.clean i .zombieTest)
  | bury : s.cpus c = .clean i .bury → s.state i = .minusZombie →
      StateStep s c i .zombie (.clean i .parent)
  | wake {ch : Chan} {pc : CpuPc} : (s.cpus c).wake = some ⟨ch, i, .spin⟩ → s.state i = .sleeping →
      pc.wake = some ⟨ch, i, .recheck⟩ → StateStep s c i .minusRunnable pc
  | woken {ch : Chan} {pc : CpuPc} : (s.cpus c).wake = some ⟨ch, i, .finish⟩ →
      s.state i = .minusRunnable → pc.wake = some ⟨ch, i + 1, .test⟩ →
      StateStep s c i .runnable pc
  | reap {q : Nat} : s.cpus c = .running q (.waitReap i) → s.state i = .zombie →
      StateStep s c i .minusUnused (.running q (.waitPid i))
  | free {q pid : Nat} : s.cpus c = .running q (.waitUnused i pid) → s.state i = .minusUnused →
      StateStep s c i .unused (.running q (.enabled .kernel))
  | take {q : Nat} : s.cpus c = .running q (.forkCas i) → s.state i = .unused →
      StateStep s c i .embryo (.running q (.enabled (.forkPid i)))
  | born {q : Nat} : s.cpus c = .running q (.enabled (.forkRun i)) → s.state i = .embryo →
      StateStep s c i .runnable (.running q (.enabled .kernel))
  | fail {q : Nat} {k : Point} : s.cpus c = .running q (.enabled k) →
      k = .forkKalloc i ∨ k = .forkCopy i →
      StateStep s c i .unused (.running q (.enabled .kernel))
  | signal {sig : Nat} : s.cpus c = .running i (.enabled (.signals sig)) → s.state i = .sleeping →
      StateStep s c i .runnable (.running i (.enabled (.signals (sig + 1))))

inductive PidStep (s : Config Cpu) (c : Cpu) (i : Nat) : Nat → CpuPc → Prop
  | set {q pid : Nat} : s.cpus c = .running q (.enabled (.forkSetPid i pid)) →
      PidStep s c i pid (.running q (.enabled (.forkKalloc i)))
  | clear {q pid : Nat} : s.cpus c = .running q (.waitClearPid i pid) →
      PidStep s c i 0 (.running q (.waitClearParent i pid))

inductive ParentStep (s : Config Cpu) (c : Cpu) (i : Nat) : Option Nat → CpuPc → Prop
  | fork {q : Nat} : s.cpus c = .running q (.enabled (.forkCopy i)) →
      ParentStep s c i (some q) (.running q (.enabled (.forkRun i)))
  | clear {q pid : Nat} : s.cpus c = .running q (.waitClearParent i pid) →
      ParentStep s c i none (.running q (.waitClearKilled i pid))
  | adopt {q : Nat} : s.cpus c = .running q (.exitAdopt i) →
      ParentStep s c i (some initproc) (.running q (.exitTest i))

inductive ChanStep (s : Config Cpu) (c : Cpu) (i : Nat) : Chan → Prop
  | sleep {ch : Chan} : s.cpus c = .running i (.sleepChan ch) → ChanStep s c i ch
  | wait : s.cpus c = .running i .waitChan → ChanStep s c i (.proc i)
  | reaped {j pid : Nat} : s.cpus c = .running i (.waitClearChan j pid) → ChanStep s c i .null
  | giveUp : s.cpus c = .running i .waitGiveUp → ChanStep s c i .null
  | bury : s.cpus c = .clean i .clearChan → ChanStep s c i .null

/-- What a step may leave in the record of slot `i`, with the point from which it was written and
the one it leads to. -/
inductive Write (n : Nat) (s : Config Cpu) (l : Label Cpu) (i : Nat) : Proc → CpuPc → Prop
  | same {a : CpuPc} : Write n s l i (s.procs i) a
  | state {x : ProcState} {a : CpuPc} : StateStep s l.cpu i x a →
      Write n s l i { s.procs i with state := x } a
  | chan {ch : Chan} {a : CpuPc} : ChanStep s l.cpu i ch →
      Write n s l i { s.procs i with chan := ch } a
  | pid {x : Nat} {a : CpuPc} : PidStep s l.cpu i x a → Write n s l i { s.procs i with pid := x } a
  | post {p pid : Nat} {sig : Sig} {a : CpuPc} : s.cpus l.cpu = .running p (.enabled .kernel) →
      l.choice = .kill pid sig → killTarget n s.procs pid sig = some i →
      Write n s l i ((s.procs i).post sig) a
  | user {mem : Mem 32} {tf : TrapFrame} {a : CpuPc} :
      s.cpus l.cpu = .running i (.enabled .kernel) →
      Write n s l i { s.procs i with mem := mem, tf := tf } a
  | fault : s.cpus l.cpu = .running i (.enabled .kernel) →
      Write n s l i { s.procs i with killed := true } (.running i (.enabled .kernel))
  | sigaction {signum : Int} {act oldact : Word} {a : CpuPc} :
      s.cpus l.cpu = .running i (.enabled .kernel) →
      Write n s l i (sigaction (s.procs i) signum act oldact).2 a
  | sigprocmask {mask : Word} {a : CpuPc} : s.cpus l.cpu = .running i (.enabled .kernel) →
      Write n s l i (sigprocmask (s.procs i) mask).2 a
  | pass {sig : Sig} {q : Proc} : s.cpus l.cpu = .running i (.enabled (.signals sig)) →
      signalStep (s.procs i) sig = .ok q →
      Write n s l i q (.running i (.enabled (.signals (sig + 1))))
  | alloc {q : Nat} {x : Word} {a : CpuPc} : s.cpus l.cpu = .running q (.enabled (.forkKalloc i)) →
      Write n s l i (allocated (s.procs i) x) a
  | copy {q : Nat} : s.cpus l.cpu = .running q (.enabled (.forkCopy i)) →
      Write n s l i (forkChild (s.procs i) (s.procs q) q) (.running q (.enabled (.forkRun i)))
  | fail {q : Nat} {k : Point} : s.cpus l.cpu = .running q (.enabled k) →
      k = .forkKalloc i ∨ k = .forkCopy i →
      Write n s l i { s.procs i with kstack := 0, state := .unused } (.running q (.enabled .kernel))
  | kfree {q pid : Nat} {a : CpuPc} : s.cpus l.cpu = .running q (.waitKfree i pid) →
      Write n s l i { s.procs i with kstack := 0 } a
  | clearParent {q pid : Nat} : s.cpus l.cpu = .running q (.waitClearParent i pid) →
      Write n s l i { s.procs i with parent := none } (.running q (.waitClearKilled i pid))
  | clearKilled {q pid : Nat} {a : CpuPc} : s.cpus l.cpu = .running q (.waitClearKilled i pid) →
      Write n s l i { s.procs i with killed := false } a
  | adopt {q : Nat} : s.cpus l.cpu = .running q (.exitAdopt i) →
      Write n s l i { s.procs i with parent := some initproc } (.running q (.exitTest i))

theorem Write.of_eq (h : t.procs i = s.procs i) : Write n s l i (t.procs i) a := by
  rw [h]
  exact .same

theorem Write.set (h : Write n s l j q a) (i : Nat) :
    Write n s l i ((s.setProc j q).procs i) a := by
  by_cases hi : i = j
  · subst hi
    rw [setProc_self]
    exact h
  · exact .of_eq (setProc_of_ne q hi)

theorem Write.kill {pid : Nat} {sig : Sig} (hc : s.cpus l.cpu = .running p (.enabled .kernel))
    (hl : l.choice = .kill pid sig) (i : Nat) :
    Write n s l i ((Xv6Signals.kill n s pid sig).procs i) a := by
  unfold Xv6Signals.kill
  split
  · exact .set (.post hc hl ‹_›) i
  · exact .same

theorem Write.state_eq (h : Write n s l i q a) :
    q.state = s.state i ∨ StateStep s l.cpu i q.state a := by
  cases h with
  | state hs => exact .inr hs
  | fail hc hk => exact .inr (.fail hc hk)
  | pass hc hq =>
    rcases (signalStep_ok hq).state with hs | ⟨hs, hs'⟩
    · exact .inl hs
    · rw [hs']
      exact .inr (.signal hc hs)
  | post _ _ _ => exact .inl (post_field (fun _ _ => rfl) ..)
  | sigaction _ => exact .inl (sigaction_field (fun _ _ _ _ => rfl) ..)
  | _ => exact .inl rfl

structure FieldView (s : Config Cpu) (c : Cpu) (i : Nat) (q : Proc) (a : CpuPc) : Prop where
  pid : q.pid = (s.procs i).pid ∨ PidStep s c i q.pid a
  parent : q.parent = (s.procs i).parent ∨ ParentStep s c i q.parent a
  chan : q.chan = (s.procs i).chan ∨ ChanStep s c i q.chan

def Proc.ids (p : Proc) : Nat × Option Nat × Chan := (p.pid, p.parent, p.chan)

theorem FieldView.of_ids (h : q.ids = (s.procs i).ids) : FieldView s c i q a :=
  ⟨.inl (congrArg (·.1) h), .inl (congrArg (·.2.1) h), .inl (congrArg (·.2.2) h)⟩

theorem SignalStep.ids {p q : Proc} {sig : Sig} (h : SignalStep p sig q) : q.ids = p.ids := by
  rcases h.image with ⟨_, _, rfl⟩ | ⟨_, hq⟩
  · rfl
  · rw [hq]
    rfl

theorem Write.fields (h : Write n s l i q a) : FieldView s l.cpu i q a := by
  cases h with
  | pid hp => exact ⟨.inr hp, .inl rfl, .inl rfl⟩
  | chan hch => exact ⟨.inl rfl, .inl rfl, .inr hch⟩
  | copy hc => exact ⟨.inl rfl, .inr (.fork hc), .inl rfl⟩
  | clearParent hc => exact ⟨.inl rfl, .inr (.clear hc), .inl rfl⟩
  | adopt hc => exact ⟨.inl rfl, .inr (.adopt hc), .inl rfl⟩
  | pass _ hq => exact .of_ids (signalStep_ok hq).ids
  | post _ _ _ => exact .of_ids (post_field (fun _ _ => rfl) ..)
  | sigaction _ => exact .of_ids (sigaction_field (fun _ _ _ _ => rfl) ..)
  | _ => exact .of_ids rfl

variable [DecidableEq Cpu]

theorem Write.goto (h : Write n s l i (t.procs i) a) :
    Write n s l i ((t.goto l.cpu a).procs i) ((t.goto l.cpu a).cpus l.cpu) := by
  rw [goto_self]
  exact h

theorem Write.cas {old new : ProcState} {yes no : CpuPc}
    (h : s.state j = old → StateStep s l.cpu j new yes) (i : Nat) :
    Write n s l i ((s.cas l.cpu j old new yes no).procs i)
      ((s.cas l.cpu j old new yes no).cpus l.cpu) := by
  by_cases hs : s.state j = old
  · rw [cas_pos _ _ hs]
    exact .goto (.set (.state (h hs)) i)
  · rw [cas_neg _ _ hs]
    exact .same

theorem Write.wake {w : Wake} {pos : Wake → CpuPc} {done : CpuPc}
    (hw : (s.cpus l.cpu).wake = some w) (hpos : ∀ w, (pos w).wake = some w) (i : Nat) :
    Write n s l i ((wakeStep n s l.cpu w pos done).procs i)
      ((wakeStep n s l.cpu w pos done).cpus l.cpu) := by
  obtain ⟨ch, j, point⟩ := w
  cases point with
  | test =>
    simp only [wakeStep]
    split <;> exact .same
  | spin => exact .cas (fun h => .wake hw h (hpos _)) i
  | finish => exact .cas (fun h => .woken hw h (hpos _)) i
  | _ => exact .same

theorem threadStep_write (hc : s.cpus l.cpu = .running p pc)
    (h : threadStep n s l.cpu p pc = some t) (i : Nat) :
    Write n s l i (t.procs i) (t.cpus l.cpu) := by
  cases pc with
  | enabled k => cases h
  | panicked => cases h
  | wakeup w k => cases h; exact .wake (by rw [hc]; rfl) (fun _ => rfl) i
  | yieldCas k => cases h; exact .cas (fun hs => .handOver hc rfl hs rfl) i
  | sleepChan ch => cases h; exact .set (.chan (.sleep hc)) i
  | sleepCas ch => cases h; exact .cas (fun hs => .handOver hc rfl hs rfl) i
  | waitCas => cases h; exact .cas (fun hs => .handOver hc rfl hs rfl) i
  | waitChan => cases h; exact .set (.chan (.wait hc)) i
  | waitScan j kids =>
    simp only [threadStep] at h
    split at h <;> cases h <;> exact .same
  | waitReap j => cases h; exact .cas (.reap hc) i
  | waitKfree j pid => cases h; exact .set (.kfree hc) i
  | waitClearPid j pid => cases h; exact .goto (.set (.pid (.clear hc)) i)
  | waitClearParent j pid => cases h; exact .goto (.set (.clearParent hc) i)
  | waitClearKilled j pid => cases h; exact .set (.clearKilled hc) i
  | waitClearChan j pid => cases h; exact .set (.chan (.reaped hc)) i
  | waitRunning j pid => cases h; exact .cas (fun hs => .comeBack hc rfl hs rfl) i
  | waitUnused j pid => cases h; exact .cas (.free hc) i
  | waitGiveUp => cases h; exact .set (.chan (.giveUp hc)) i
  | waitGiveUpCas => cases h; exact .cas (fun hs => .comeBack hc rfl hs rfl) i
  | exitCas => cases h; exact .cas (fun hs => .handOver hc rfl hs rfl) i
  | exitAdopt j => cases h; exact .goto (.set (.adopt hc) i)
  | forkCas j => cases h; exact .cas (.take hc) i
  | forkPidCas j pid =>
    simp only [threadStep] at h
    split at h <;> cases h <;> exact .same
  | _ => cases h; exact .same

theorem pointStep_write {k : Point} (hc : s.cpus l.cpu = .running p (.enabled k))
    (h : pointStep s l.cpu p k l.choice = some t) (i : Nat) :
    Write n s l i (t.procs i) (t.cpus l.cpu) := by
  unfold pointStep at h
  split at h
  · split at h
    · split at h
      · cases h
        exact .goto (.set (.pass hc ‹_›) i)
      · cases h
        exact .same
    · cases h
      exact .same
  · cases h
    exact .same
  · cases h
    exact .goto (.set (.pid (.set hc)) i)
  · split at h
    · cases h
      exact .goto (.set (.fail hc (.inl rfl)) i)
    · cases h
      exact .set (.alloc hc) i
  · cases h
    exact .goto (.set (.copy hc) i)
  · cases h
    exact .goto (.set (.fail hc (.inr rfl)) i)
  · cases h
    exact .cas (.born hc) i
  · cases h

omit [DecidableEq Cpu] in
theorem fault_write (hc : s.cpus l.cpu = .running p (.enabled .kernel)) (i : Nat) :
    Write n s l i ((s.setProc p { s.procs p with killed := true }).procs i) (s.cpus l.cpu) := by
  rw [hc]
  exact .set (.fault hc) i

theorem callStep_write {k : Point} (hc : s.cpus l.cpu = .running p (.enabled k))
    (h : callStep n s l.cpu p k l.choice = some t) (i : Nat) :
    Write n s l i (t.procs i) (t.cpus l.cpu) := by
  unfold callStep at h
  split at h <;> cases h
  · exact .same
  · exact .same
  · exact .same
  · exact .same
  · exact .same
  · exact .same
  · exact .set (.user hc) i
  · exact fault_write hc i
  · exact .kill hc ‹_› i
  · exact .set (.sigaction hc) i
  · exact .set (.sigprocmask hc) i
  · exact .same

theorem cleanStep_write {pt : CleanPoint} (hc : s.cpus l.cpu = .clean j pt) (i : Nat) :
    Write n s l i ((cleanStep s l.cpu j pt).procs i) ((cleanStep s l.cpu j pt).cpus l.cpu) := by
  cases pt with
  | park => exact .cas (.park hc) i
  | unpark => exact .cas (.unpark hc) i
  | ready => exact .cas (.ready hc) i
  | clearChan => exact .set (.chan (.bury hc)) i
  | bury => exact .cas (.bury hc) i
  | _ => exact .same

theorem step_write (h : step n s l = some t) (i : Nat) :
    Write n s l i (t.procs i) (t.cpus l.cpu) := by
  cases step_cases h with
  | wake hc => exact .wake (by rw [hc]; rfl) (fun _ => rfl) i
  | cleanWake hc => exact .wake (by rw [hc]; rfl) (fun _ => rfl) i
  | pick hc _ => exact .cas (.pick hc) i
  | unpick hc => exact .cas (.unpick hc) i
  | point hc h => exact pointStep_write hc h i
  | call hc h => exact callStep_write hc h i
  | thread hc h => exact threadStep_write hc h i
  | clean hc => exact cleanStep_write hc i
  | _ => exact .same

theorem step_state (h : step n s l = some t) (i : Nat) :
    t.state i = s.state i ∨ StateStep s l.cpu i (t.state i) (t.cpus l.cpu) :=
  (step_write h i).state_eq

theorem step_fields (h : step n s l = some t) (i : Nat) :
    FieldView s l.cpu i (t.procs i) (t.cpus l.cpu) :=
  (step_write h i).fields

end Xv6Signals
