import Mathlib.Data.Fintype.Basic
import Xv6Signals.ProcTable.Machine

namespace Xv6Signals
open Lib Function

variable {Cpu : Type} {s t : Config Cpu} {c d : Cpu} {i j p : Nat}

@[simp] theorem setProc_self (s : Config Cpu) (i : Nat) (q : Proc) :
    (s.setProc i q).procs i = q := update_self ..

theorem setProc_of_ne (q : Proc) (h : j ≠ i) : (s.setProc i q).procs j = s.procs j :=
  update_of_ne h _ _

@[simp] theorem setProc_state_self (s : Config Cpu) (i : Nat) (q : Proc) :
    (s.setProc i q).state i = q.state := by
  rw [Config.state, setProc_self]

theorem setProc_state_of_ne (q : Proc) (h : j ≠ i) : (s.setProc i q).state j = s.state j := by
  rw [Config.state, setProc_of_ne q h, Config.state]

@[simp] theorem setContext_state (s : Config Cpu) (i : Nat) (k : Option Context) (j : Nat) :
    (s.setContext i k).state j = s.state j := rfl

@[simp] theorem setContext_self (s : Config Cpu) (i : Nat) (k : Option Context) :
    (s.setContext i k).context i = k := update_self ..

theorem setContext_of_ne (k : Option Context) (h : j ≠ i) :
    (s.setContext i k).context j = s.context j :=
  update_of_ne h _ _

variable [DecidableEq Cpu]

section

variable (s c) (pc : CpuPc)

@[simp] theorem goto_procs : (s.goto c pc).procs = s.procs := rfl

@[simp] theorem goto_state (i : Nat) : (s.goto c pc).state i = s.state i := rfl

@[simp] theorem goto_context : (s.goto c pc).context = s.context := rfl

@[simp] theorem goto_self : (s.goto c pc).cpus c = pc := update_self ..

end

theorem goto_of_ne (pc : CpuPc) (h : d ≠ c) : (s.goto c pc).cpus d = s.cpus d :=
  update_of_ne h _ _

theorem cas_pos {old new : ProcState} (yes no : CpuPc) (h : s.state i = old) :
    s.cas c i old new yes no = (s.setProc i { s.procs i with state := new }).goto c yes :=
  if_pos h

theorem cas_neg {old new : ProcState} (yes no : CpuPc) (h : s.state i ≠ old) :
    s.cas c i old new yes no = s.goto c no :=
  if_neg h

def Pc.state : Pc → ProcState
  | .sched h | .swtch h => h.state
  | .wakeup _ (.exit _) => .minusZombie
  | .waitChan | .waitScan _ _ | .waitReap _ | .waitPid _ | .waitKfree _ _ | .waitClearPid _ _
  | .waitClearParent _ _ | .waitClearKilled _ _ | .waitClearChan _ _ | .waitRunning _ _
  | .waitGiveUp | .waitGiveUpCas => .minusSleeping
  | .exitScan _ | .exitAdopt _ | .exitTest _ => .minusZombie
  | _ => .running

/-- The states in which a CPU may be running the process or be about to. -/
def ProcState.active : ProcState → Bool
  | .running | .minusRunnable | .minusSleeping | .minusZombie => true
  | _ => false

theorem Pc.state_active (pc : Pc) : pc.state.active = true := by
  cases pc with
  | sched h => cases h <;> rfl
  | swtch h => cases h <;> rfl
  | wakeup w k => cases k <;> rfl
  | _ => rfl

theorem Context.resume_state (k : Context) : k.resume.state = .running := by
  cases k with
  | forkret => rfl
  | saved h => cases h <;> rfl

def CpuPc.uses : CpuPc → Nat → Bool
  | .running j _, i => i == j
  | _, _ => false

def CpuPc.dispatches : CpuPc → Nat → Bool
  | .frozenTest j, i | .canRunTest j, i | .unpick j, i | .switchIn j, i => i == j
  | _, _ => false

def CpuPc.holds (pc : CpuPc) (i : Nat) : Bool := pc.uses i || pc.dispatches i

def CpuPc.wake : CpuPc → Option Wake
  | .interrupt w | .cleanWake _ w | .running _ (.wakeup w _) => some w
  | _ => none

/-- The hand-over states that the clean-up can still take its process out of. -/
def CleanPoint.ends : CleanPoint → ProcState → Bool
  | .park, x => x == .minusSleeping || x == .minusRunnable || x == .minusZombie
  | .killedTest, x | .unpark, x | .ready, x => x == .minusRunnable || x == .minusZombie
  | .zombieTest, x | .clearChan, x | .bury, x => x == .minusZombie
  | .parent, _ => false

def WakePoint.ends : WakePoint → Bool
  | .recheck | .finish => true
  | _ => false

/-- The CPU's next `cas`s can take process `i` out of the hand-over state `x`. -/
def CpuPc.ends : CpuPc → ProcState → Nat → Bool
  | .clean j point, x, i => i == j && point.ends x
  | .interrupt w, x, i | .cleanWake _ w, x, i | .running _ (.wakeup w _), x, i =>
    x == .minusRunnable && i == w.slot && w.point.ends
  | _, _, _ => false

def Pc.handsOver : Pc → Option ProcState
  | .yieldCas _ => some .minusRunnable
  | .sleepCas _ | .waitCas => some .minusSleeping
  | .exitCas => some .minusZombie
  | _ => none

/-- No process starts to hand over its CPU while another CPU, still busy with an earlier hand-over
or wakeup of that process, has a `cas` ahead of it that would end the new one. -/
def Unovertaken (s : Config Cpu) (l : Label Cpu) : Prop :=
  match s.cpus l.cpu with
  | .running p pc =>
    match pc.handsOver with
    | some x => ∀ d, (s.cpus d).ends x p = false
    | none => True
  | _ => True

instance [Fintype Cpu] (s : Config Cpu) (l : Label Cpu) : Decidable (Unovertaken s l) :=
  match h : s.cpus l.cpu with
  | .running p pc =>
    match h' : pc.handsOver with
    | some x =>
      decidable_of_iff (∀ d, (s.cpus d).ends x p = false) (by simp only [Unovertaken, h, h'])
    | none => .isTrue (by simp only [Unovertaken, h, h'])
  | .top | .interrupt _ | .pick _ | .frozenTest _ | .canRunTest _ | .unpick _ | .switchIn _
  | .clean _ _ | .cleanWake _ _ => .isTrue (by simp only [Unovertaken, h])

end Xv6Signals
