import Xv6Signals.ProcTable.Writes

namespace Xv6Signals
open Lib

variable {Cpu : Type} {s t : Config Cpu} {c d : Cpu} {i j p n : Nat} {pc k k' : Pc}

inductive WakeMove (n : Nat) (s t : Config Cpu) : Wake → Option Wake → Prop
  | stop {ch : Chan} {i : Nat} : ¬ i < n → WakeMove n s t ⟨ch, i, .test⟩ none
  | skip {ch : Chan} {i : Nat} : i < n → s.state i ≠ .sleeping → s.state i ≠ .minusSleeping →
      WakeMove n s t ⟨ch, i, .test⟩ (some ⟨ch, i + 1, .test⟩)
  | asleep {ch : Chan} {i : Nat} : i < n → s.state i = .sleeping ∨ s.state i = .minusSleeping →
      WakeMove n s t ⟨ch, i, .test⟩ (some ⟨ch, i, .testChan⟩)
  | hit {ch : Chan} {i : Nat} : (s.procs i).chan = ch →
      WakeMove n s t ⟨ch, i, .testChan⟩ (some ⟨ch, i, .spin⟩)
  | miss {ch : Chan} {i : Nat} : (s.procs i).chan ≠ ch →
      WakeMove n s t ⟨ch, i, .testChan⟩ (some ⟨ch, i + 1, .test⟩)
  | take {ch : Chan} {i : Nat} : s.state i = .sleeping → t.state i = .minusRunnable →
      WakeMove n s t ⟨ch, i, .spin⟩ (some ⟨ch, i, .recheck⟩)
  | retry {ch : Chan} {i : Nat} : s.state i ≠ .sleeping →
      WakeMove n s t ⟨ch, i, .spin⟩ (some ⟨ch, i, .spinTest⟩)
  | leave {ch : Chan} {i : Nat} : s.state i = .running →
      WakeMove n s t ⟨ch, i, .spinTest⟩ (some ⟨ch, i, .recheck⟩)
  | spin {ch : Chan} {i : Nat} : s.state i ≠ .running →
      WakeMove n s t ⟨ch, i, .spinTest⟩ (some ⟨ch, i, .spin⟩)
  | settle {ch : Chan} {i : Nat} : s.state i ≠ .running →
      WakeMove n s t ⟨ch, i, .recheck⟩ (some ⟨ch, i, .finish⟩)
  | drop {ch : Chan} {i : Nat} : s.state i = .running →
      WakeMove n s t ⟨ch, i, .recheck⟩ (some ⟨ch, i + 1, .test⟩)
  | finish {ch : Chan} {i : Nat} : s.state i = .minusRunnable ∧ t.state i = .runnable ∨
      s.state i ≠ .minusRunnable ∧ t.state i = s.state i →
      WakeMove n s t ⟨ch, i, .finish⟩ (some ⟨ch, i + 1, .test⟩)

inductive CleanMove (s t : Config Cpu) (i : Nat) : CleanPoint → Option CleanPoint → Prop
  | park : s.state i = .minusSleeping → t.state i = .sleeping →
      CleanMove s t i .park (some .killedTest)
  | noPark : s.state i ≠ .minusSleeping → CleanMove s t i .park (some .ready)
  | killed : (s.procs i).killed = true → CleanMove s t i .killedTest (some .unpark)
  | alive : (s.procs i).killed = false → CleanMove s t i .killedTest (some .ready)
  | unpark : CleanMove s t i .unpark (some .ready)
  | ready : CleanMove s t i .ready (some .zombieTest)
  | zombie : s.state i = .minusZombie → CleanMove s t i .zombieTest (some .clearChan)
  | noZombie : s.state i ≠ .minusZombie → CleanMove s t i .zombieTest none
  | clearChan : CleanMove s t i .clearChan (some .bury)
  | bury : s.state i = .minusZombie → t.state i = .zombie → CleanMove s t i .bury (some .parent)
  | noBury : s.state i ≠ .minusZombie → CleanMove s t i .bury none

/-- Where a thread will go on that has been interrupted or has called `sched`. -/
def Pc.base : Pc → Pc
  | .yieldCas k | .sched (.yield k) | .swtch (.yield k) | .wakeup _ (.interrupted k) => .enabled k
  | .sched h => .swtch h
  | .wakeup _ (.exit i) => .exitScan i
  | pc => pc

inductive Goes (n : Nat) (s : Config Cpu) (p : Nat) : Pc → Pc → Prop
  | panic {b : Pc} : Goes n s p b .panicked
  | signals {i : Nat} {k : Point} : k = .kernel ∨ k = .signals (i + 1) →
      Goes n s p (.enabled (.signals i)) (.enabled k)
  | trapret : Goes n s p (.enabled .kernel) (.enabled (.signals 0))
  | sleep {ch : Chan} : Goes n s p (.enabled .kernel) (.sleepChan ch)
  | sleepChan {ch : Chan} : Goes n s p (.sleepChan ch) (.sleepCas ch)
  | sleepCas {ch : Chan} : Goes n s p (.sleepCas ch) (.swtch .sleep)
  | wait : Goes n s p (.enabled .kernel) .waitCas
  | waitCas : Goes n s p .waitCas .waitChan
  | waitChan : Goes n s p .waitChan (.waitScan 0 false)
  | waitChild {i : Nat} {kids : Bool} : (s.procs i).parent = some p →
      Goes n s p (.waitScan i kids) (.waitReap i)
  | waitOther {i : Nat} {kids : Bool} : (s.procs i).parent ≠ some p →
      Goes n s p (.waitScan i kids) (.waitScan (i + 1) kids)
  | waitNone {i : Nat} {kids : Bool} : Goes n s p (.waitScan i kids) .waitGiveUp
  | waitSched {i : Nat} {kids : Bool} : ¬ i < n → Goes n s p (.waitScan i kids) (.swtch .wait)
  | waitReap {i : Nat} : s.state i = .zombie → Goes n s p (.waitReap i) (.waitPid i)
  | waitLive {i : Nat} : s.state i ≠ .zombie → Goes n s p (.waitReap i) (.waitScan (i + 1) true)
  | waitPid {i : Nat} : Goes n s p (.waitPid i) (.waitKfree i (s.procs i).pid)
  | waitKfree {i pid : Nat} : Goes n s p (.waitKfree i pid) (.waitClearPid i pid)
  | waitClearPid {i pid : Nat} : Goes n s p (.waitClearPid i pid) (.waitClearParent i pid)
  | waitClearParent {i pid : Nat} : Goes n s p (.waitClearParent i pid) (.waitClearKilled i pid)
  | waitClearKilled {i pid : Nat} : Goes n s p (.waitClearKilled i pid) (.waitClearChan i pid)
  | waitClearChan {i pid : Nat} : Goes n s p (.waitClearChan i pid) (.waitRunning i pid)
  | waitRunning {i pid : Nat} : Goes n s p (.waitRunning i pid) (.waitUnused i pid)
  | waitUnused {i pid : Nat} : Goes n s p (.waitUnused i pid) (.enabled .kernel)
  | waitGiveUp : Goes n s p .waitGiveUp .waitGiveUpCas
  | waitGiveUpCas : Goes n s p .waitGiveUpCas (.enabled .kernel)
  | exit : Goes n s p (.enabled .kernel) .exitCas
  | exitCas : Goes n s p .exitCas (.exitScan 0)
  | exitChild {i : Nat} : (s.procs i).parent = some p → Goes n s p (.exitScan i) (.exitAdopt i)
  | exitOther {i : Nat} : Goes n s p (.exitScan i) (.exitScan (i + 1))
  | exitSched {i : Nat} : Goes n s p (.exitScan i) (.swtch .exit)
  | exitAdopt {i : Nat} : Goes n s p (.exitAdopt i) (.exitTest i)
  | exitTest {i : Nat} : Goes n s p (.exitTest i) (.exitScan (i + 1))
  | fork : Goes n s p (.enabled .kernel) (.forkScan 0)
  | forkFull {i : Nat} : Goes n s p (.forkScan i) (.enabled .kernel)
  | forkScan {i : Nat} : Goes n s p (.forkScan i) (.forkScan (i + 1))
  | forkFound {i : Nat} : Goes n s p (.forkScan i) (.forkCas i)
  | forkCas {i : Nat} : s.state i = .unused → Goes n s p (.forkCas i) (.enabled (.forkPid i))
  | forkRetry {i : Nat} : Goes n s p (.forkCas i) (.forkScan 0)
  | forkPid {i : Nat} : Goes n s p (.enabled (.forkPid i)) (.forkPidCas i s.nextpid)
  | forkPidCas {i pid : Nat} : s.nextpid = pid →
      Goes n s p (.forkPidCas i pid) (.enabled (.forkSetPid i pid))
  | forkPidRetry {i pid : Nat} : Goes n s p (.forkPidCas i pid) (.enabled (.forkPid i))
  | forkSetPid {i pid : Nat} : Goes n s p (.enabled (.forkSetPid i pid)) (.enabled (.forkKalloc i))
  | forkKalloc {i : Nat} : Goes n s p (.enabled (.forkKalloc i)) (.enabled (.forkCopy i))
  | forkCopy {i : Nat} : Goes n s p (.enabled (.forkCopy i)) (.enabled (.forkRun i))
  | forkFail {i : Nat} {k : Point} : k = .forkKalloc i ∨ k = .forkCopy i →
      Goes n s p (.enabled k) (.enabled .kernel)
  | forkRun {i : Nat} : Goes n s p (.enabled (.forkRun i)) (.enabled .kernel)

def Steps (n : Nat) (s : Config Cpu) (p : Nat) (pc k : Pc) : Prop :=
  k.base = pc.base ∨ Goes n s p pc.base k.base

/-- The slot that `allocproc` and `fork` are filling at a point, and the state it then has. -/
def Point.owns : Point → Option (Nat × ProcState)
  | .forkPid i | .forkSetPid i _ | .forkKalloc i | .forkCopy i | .forkRun i => some (i, .embryo)
  | _ => none

/-- The slot of another process that a thread has taken for itself: a child under construction or
a zombie that `wait` is clearing. -/
def Pc.owns : Pc → Option (Nat × ProcState)
  | .enabled k | .yieldCas k | .sched (.yield k) | .swtch (.yield k)
  | .wakeup _ (.interrupted k) => k.owns
  | .forkPidCas i _ => some (i, .embryo)
  | .waitPid i | .waitKfree i _ | .waitClearPid i _ | .waitClearParent i _ | .waitClearKilled i _
  | .waitClearChan i _ | .waitRunning i _ | .waitUnused i _ => some (i, .minusUnused)
  | _ => none

def Pc.fresh : Pc → Bool
  | .wakeup w _ => w.slot == 0 && w.point == .test
  | _ => true

structure Quiet (pc k : Pc) : Prop where
  state : k.state = pc.state
  owns : k.owns = pc.owns ∨ k.owns = none
  fresh : k.fresh = true

theorem Quiet.owns_some {x : ProcState} (h : Quiet pc k) (hk : k.owns = some (i, x)) :
    pc.owns = some (i, x) := by
  rcases h.owns with h | h
  · rw [← h, hk]
  · rw [h] at hk
    cases hk

/-- What the step of a thread does to its own process and to the slots it has taken. -/
structure Follows (n : Nat) (s t : Config Cpu) (p : Nat) (pc k : Pc) : Prop where
  hands : k.state = pc.state ∨ pc.handsOver = some k.state ∨ k.state = .running
  state : (∀ x, pc.owns ≠ some (p, x)) → s.state p = pc.state → t.state p = k.state
  owns : ∀ i x, k.owns = some (i, x) → pc.owns = some (i, x) ∨
    (s.state i = .unused ∨ s.state i = .zombie) ∧ t.state i = x
  wake : k.fresh = true ∨ ∃ w w' j, pc = .wakeup w j ∧ k = .wakeup w' j ∧ WakeMove n s t w (some w')
  goes : Steps n s p pc k

theorem kill_cpus (n : Nat) (s : Config Cpu) (pid : Nat) (sig : Sig) (c : Cpu) :
    (kill n s pid sig).cpus c = s.cpus c := by
  unfold kill
  split <;> rfl

theorem Quiet.follows (h : Quiet pc k) (hg : Steps n s p pc k) (hs : t.state p = s.state p) :
    Follows n s t p pc k :=
  ⟨.inl h.state, fun _ hp => by rw [hs, hp, h.state], fun _ _ hk => .inl (h.owns_some hk),
    .inl h.fresh, hg⟩

variable [DecidableEq Cpu]

inductive Control (n : Nat) (s t : Config Cpu) (c : Cpu) : CpuPc → CpuPc → Prop
  | rescan : Control n s t c .top (.pick 0)
  | irq {ch : Chan} : Control n s t c .top (.interrupt ⟨ch, 0, .test⟩)
  | wake {w w' : Wake} : WakeMove n s t w (some w') → Control n s t c (.interrupt w) (.interrupt w')
  | wakeEnd {w : Wake} : WakeMove n s t w none → Control n s t c (.interrupt w) .top
  | scanEnd {i : Nat} : ¬ i < n → Control n s t c (.pick i) .top
  | pass {i : Nat} : i < n → s.state i ≠ .runnable → Control n s t c (.pick i) (.pick (i + 1))
  | pick {i : Nat} : i < n → s.state i = .runnable → t.state i = .running →
      Control n s t c (.pick i) (.frozenTest i)
  | frozen {i : Nat} : (s.procs i).frozen = true → t.procs = s.procs →
      Control n s t c (.frozenTest i) (.canRunTest i)
  | unfrozen {i : Nat} : (s.procs i).frozen = false → t.procs = s.procs →
      Control n s t c (.frozenTest i) (.switchIn i)
  | allow {i : Nat} : canRunEvenIfFrozen (s.procs i) = true → t.procs = s.procs →
      Control n s t c (.canRunTest i) (.switchIn i)
  | refuse {i : Nat} : canRunEvenIfFrozen (s.procs i) = false → t.procs = s.procs →
      Control n s t c (.canRunTest i) (.unpick i)
  | unpick {i : Nat} : Control n s t c (.unpick i) (.pick (i + 1))
  | switchIn {i : Nat} {x : Context} : s.context i = some x →
      t = (s.setContext i none).goto c (.running i x.resume) →
      Control n s t c (.switchIn i) (.running i x.resume)
  | thread {p : Nat} {pc k : Pc} : Follows n s t p pc k →
      Control n s t c (.running p pc) (.running p k)
  | swtch {p : Nat} {h : Handover} :
      t = (s.setContext p (some (.saved h))).goto c (.clean p .park) →
      Control n s t c (.running p (.swtch h)) (.clean p .park)
  | clean {i : Nat} {pt pt' : CleanPoint} : CleanMove s t i pt (some pt') →
      Control n s t c (.clean i pt) (.clean i pt')
  | cleanEnd {i : Nat} {pt : CleanPoint} : CleanMove s t i pt none →
      Control n s t c (.clean i pt) (.pick (i + 1))
  | parent {i : Nat} : Control n s t c (.clean i .parent)
      (.cleanWake i ⟨parentChan (s.procs i).parent, 0, .test⟩)
  | cleanWake {i : Nat} {w w' : Wake} : WakeMove n s t w (some w') →
      Control n s t c (.cleanWake i w) (.cleanWake i w')
  | cleanWakeEnd {i : Nat} {w : Wake} : WakeMove n s t w none →
      Control n s t c (.cleanWake i w) (.pick (i + 1))

theorem wakeStep_move (n : Nat) (s : Config Cpu) (c : Cpu) (w : Wake) (pos : Wake → CpuPc)
    (done : CpuPc) : ∃ w', WakeMove n s (wakeStep n s c w pos done) w w' ∧
      (wakeStep n s c w pos done).cpus c = w'.elim done pos := by
  obtain ⟨ch, i, point⟩ := w
  cases point with
  | test =>
    simp only [wakeStep]
    split
    · rename_i hi
      split
      · rename_i hs
        exact ⟨_, .asleep hi hs, goto_self ..⟩
      · rename_i hs
        exact ⟨_, .skip hi (fun h => hs (.inl h)) (fun h => hs (.inr h)), goto_self ..⟩
    · rename_i hi
      exact ⟨_, .stop hi, goto_self ..⟩
  | testChan =>
    simp only [wakeStep]
    split
    · exact ⟨_, .hit ‹_›, goto_self ..⟩
    · exact ⟨_, .miss ‹_›, goto_self ..⟩
  | spin =>
    simp only [wakeStep]
    by_cases hs : s.state i = .sleeping
    · rw [cas_pos _ _ hs]
      exact ⟨_, .take hs (setProc_state_self ..), goto_self ..⟩
    · rw [cas_neg _ _ hs]
      exact ⟨_, .retry hs, goto_self ..⟩
  | spinTest =>
    simp only [wakeStep]
    split
    · exact ⟨_, .leave ‹_›, goto_self ..⟩
    · exact ⟨_, .spin ‹_›, goto_self ..⟩
  | recheck =>
    simp only [wakeStep]
    split
    · exact ⟨_, .settle ‹_›, goto_self ..⟩
    · exact ⟨_, .drop (not_not.1 ‹_›), goto_self ..⟩
  | finish =>
    simp only [wakeStep]
    by_cases hs : s.state i = .minusRunnable
    · rw [cas_pos _ _ hs]
      exact ⟨_, .finish (.inl ⟨hs, setProc_state_self ..⟩), goto_self ..⟩
    · rw [cas_neg _ _ hs]
      exact ⟨_, .finish (.inr ⟨hs, rfl⟩), goto_self ..⟩

theorem wakeStep_state_eq {w : Wake} {pos : Wake → CpuPc} {done : CpuPc}
    (h : s.state i ≠ .sleeping) (h' : s.state i ≠ .minusRunnable) :
    (wakeStep n s c w pos done).state i = s.state i := by
  obtain ⟨ch, j, point⟩ := w
  cases point with
  | test =>
    simp only [wakeStep]
    split <;> rfl
  | testChan => rfl
  | spinTest => rfl
  | recheck => rfl
  | spin =>
    rw [wakeStep, cas_state, if_neg]
    rintro ⟨rfl, hj⟩
    exact h hj
  | finish =>
    rw [wakeStep, cas_state, if_neg]
    rintro ⟨rfl, hj⟩
    exact h' hj

theorem cleanStep_control {pt : CleanPoint} :
    Control n s (cleanStep s c i pt) c (.clean i pt) ((cleanStep s c i pt).cpus c) := by
  cases pt with
  | park =>
    by_cases h : s.state i = .minusSleeping
    · rw [cleanStep, cas_self, if_pos h, cas_pos _ _ h]
      exact .clean (.park h (setProc_state_self ..))
    · rw [cleanStep, cas_self, if_neg h]
      exact .clean (.noPark h)
  | killedTest =>
    rw [cleanStep, goto_self]
    split
    · exact .clean (.killed ‹_›)
    · exact .clean (.alive (Bool.eq_false_iff.2 ‹_›))
  | unpark =>
    rw [cleanStep, cas_self, ite_self]
    exact .clean .unpark
  | ready =>
    rw [cleanStep, cas_self, ite_self]
    exact .clean .ready
  | zombieTest =>
    rw [cleanStep, goto_self]
    split
    · exact .clean (.zombie ‹_›)
    · exact .cleanEnd (.noZombie ‹_›)
  | clearChan =>
    rw [cleanStep, goto_self]
    exact .clean .clearChan
  | bury =>
    by_cases h : s.state i = .minusZombie
    · rw [cleanStep, cas_self, if_pos h, cas_pos _ _ h]
      exact .clean (.bury h (setProc_state_self ..))
    · rw [cleanStep, cas_self, if_neg h]
      exact .cleanEnd (.noBury h)
  | parent =>
    rw [cleanStep, goto_self]
    exact .parent

def Moves (n : Nat) (s t : Config Cpu) (c : Cpu) (p : Nat) (pc : Pc) : Prop :=
  ∃ k, t.cpus c = .running p k ∧ Follows n s t p pc k

theorem Quiet.goto (h : Quiet pc k) (hg : Steps n s p pc k) :
    Moves n s (s.goto c (.running p k)) c p pc :=
  ⟨k, goto_self .., h.follows hg rfl⟩

theorem Quiet.write {q : Proc} (h : Quiet pc k) (hg : Steps n s p pc k)
    (hq : q.state = s.state i) : Moves n s ((s.setProc i q).goto c (.running p k)) c p pc :=
  ⟨k, goto_self .., h.follows hg (setProc_state_eq hq)⟩

theorem moves_cas_self {old new : ProcState} (hold : pc.state = old) (hnew : k.state = new)
    (hh : pc.handsOver = some new ∨ new = .running) (hp : k'.state = .running)
    (hk : k.owns = pc.owns ∨ k.owns = none) (hk' : k'.owns = pc.owns ∨ k'.owns = none)
    (hf : k.fresh = true) (hf' : k'.fresh = true) (hg : Steps n s p pc k)
    (hg' : Steps n s p pc k') : Moves n s (s.cas c p old new (.running p k) (.running p k')) c p pc := by
  have owned {k : Pc} {i : Nat} {x : ProcState} (hk : k.owns = pc.owns ∨ k.owns = none)
      (hx : k.owns = some (i, x)) : pc.owns = some (i, x) := by
    rcases hk with hk | hk
    · rw [← hk, hx]
    · cases hk.symm.trans hx
  by_cases h : s.state p = old
  · refine ⟨k, ?_, ?_, fun _ _ => ?_, fun i x hx => .inl (owned hk hx), .inl hf, hg⟩
    · rw [cas_self, if_pos h]
    · rw [hnew]
      exact .inr hh
    · rw [cas_state, if_pos ⟨rfl, h⟩, hnew]
  · refine ⟨k', ?_, .inr (.inr hp), fun _ hp => absurd (hp.trans hold) h,
      fun i x hx => .inl (owned hk' hx), .inl hf', hg'⟩
    rw [cas_self, if_neg h]

theorem moves_cas {old new : ProcState} (hold : pc.state ≠ old) (hs : k.state = pc.state)
    (hk : k.owns = none ∨ k.owns = some (i, new) ∧ (old = .unused ∨ old = .zombie))
    (hf : k.fresh = true) (hk' : Quiet pc k') (hg : s.state i = old → Steps n s p pc k)
    (hg' : s.state i ≠ old → Steps n s p pc k') : Moves n s (s.cas c i old new (.running p k) (.running p k')) c p pc := by
  by_cases h : s.state i = old
  · refine ⟨k, ?_, .inl hs, fun _ hp => ?_, fun j x hx => ?_, .inl hf, hg h⟩
    · rw [cas_self, if_pos h]
    · have hi : p ≠ i := by
        rintro rfl
        exact hold (hp.symm.trans h)
      rw [cas_state, if_neg (fun h' => hi h'.1), hp, hs]
    · rcases hk with hk | ⟨hk, hold⟩
      · cases hk.symm.trans hx
      · cases hk.symm.trans hx
        rw [cas_state, if_pos ⟨rfl, h⟩, h]
        exact .inr ⟨hold, rfl⟩
  · rw [cas_neg _ _ h]
    exact hk'.goto (hg' h)

theorem wakeup_moves {w : Wake} {j : Caller} :
    Moves n s (wakeStep n s c w (fun w => .running p (.wakeup w j)) (.running p j.resume))
      c p (.wakeup w j) := by
  have hs : s.state p = (Pc.wakeup w j).state →
      (wakeStep n s c w (fun w => .running p (.wakeup w j)) (.running p j.resume)).state p =
        s.state p := by
    intro hp
    refine wakeStep_state_eq ?_ ?_ <;> rw [hp] <;> cases j <;> exact nofun
  obtain ⟨w', hw, hc⟩ :=
    wakeStep_move n s c w (fun w => .running p (.wakeup w j)) (.running p j.resume)
  cases w' with
  | none =>
    have hq : Quiet (.wakeup w j) j.resume := by
      cases j <;> exact ⟨rfl, .inl rfl, rfl⟩
    exact ⟨_, hc, .inl hq.state, fun _ hp => (hs hp).trans (hp.trans hq.state.symm),
      fun _ _ hx => .inl (hq.owns_some hx), .inl hq.fresh, .inl (by cases j <;> rfl)⟩
  | some w' =>
    have hstate : (Pc.wakeup w' j).state = (Pc.wakeup w j).state := by
      cases j <;> rfl
    refine ⟨_, hc, .inl hstate, fun _ hp => (hs hp).trans (hp.trans hstate.symm),
      fun i x hx => .inl ?_, .inr ⟨w, w', j, rfl, rfl, hw⟩, .inl (by cases j <;> rfl)⟩
    cases j <;> exact hx

theorem threadStep_moves (h : threadStep n s c p pc = some t) : Moves n s t c p pc ∨
      ∃ h, pc = .swtch h ∧ t = (s.setContext p (some (.saved h))).goto c (.clean p .park) := by
  cases pc with
  | enabled k => cases h
  | wakeup w k => cases h; exact .inl wakeup_moves
  | yieldCas k =>
    cases h
    exact .inl (moves_cas_self rfl rfl (.inl rfl) rfl (.inl rfl) (.inr rfl) rfl rfl (.inl rfl)
      (.inr .panic))
  | sched h' =>
    cases h
    by_cases hp : s.state p = .running
    · rw [if_pos hp]
      exact .inl ⟨_, goto_self .., .inr (.inr rfl), fun _ _ => hp, nofun, .inl rfl, .inr .panic⟩
    · rw [if_neg hp]
      cases h' <;> exact .inl (Quiet.goto ⟨rfl, .inl rfl, rfl⟩ (.inl rfl))
  | swtch h' => cases h; exact .inr ⟨h', rfl, rfl⟩
  | sleepChan ch => cases h; exact .inl (Quiet.write ⟨rfl, .inl rfl, rfl⟩ (.inr .sleepChan) rfl)
  | sleepCas ch =>
    cases h
    exact .inl (moves_cas_self rfl rfl (.inl rfl) rfl (.inr rfl) (.inr rfl) rfl rfl (.inr .sleepCas)
      (.inr .panic))
  | waitCas =>
    cases h
    exact .inl (moves_cas_self rfl rfl (.inl rfl) rfl (.inr rfl) (.inr rfl) rfl rfl (.inr .waitCas)
      (.inr .panic))
  | waitChan => cases h; exact .inl (Quiet.write ⟨rfl, .inl rfl, rfl⟩ (.inr .waitChan) rfl)
  | waitScan i hk =>
    simp only [threadStep] at h
    split at h <;> cases h <;> split <;> refine .inl (Quiet.goto ⟨rfl, .inl rfl, rfl⟩ (.inr ?_))
    · exact .waitChild ‹_›
    · exact .waitOther ‹_›
    · exact .waitNone
    · exact .waitSched ‹_›
  | waitReap i =>
    cases h
    exact .inl (moves_cas (fun h => by cases h) rfl (.inr ⟨rfl, .inr rfl⟩) rfl ⟨rfl, .inl rfl, rfl⟩
      (fun hs => .inr (.waitReap hs)) fun hs => .inr (.waitLive hs))
  | waitPid i => cases h; exact .inl (Quiet.goto ⟨rfl, .inl rfl, rfl⟩ (.inr .waitPid))
  | waitKfree i pid => cases h; exact .inl (Quiet.write ⟨rfl, .inl rfl, rfl⟩ (.inr .waitKfree) rfl)
  | waitClearPid i pid =>
    cases h
    exact .inl (Quiet.write ⟨rfl, .inl rfl, rfl⟩ (.inr .waitClearPid) rfl)
  | waitClearParent i pid =>
    cases h
    exact .inl (Quiet.write ⟨rfl, .inl rfl, rfl⟩ (.inr .waitClearParent) rfl)
  | waitClearKilled i pid =>
    cases h
    exact .inl (Quiet.write ⟨rfl, .inl rfl, rfl⟩ (.inr .waitClearKilled) rfl)
  | waitClearChan i pid =>
    cases h
    exact .inl (Quiet.write ⟨rfl, .inl rfl, rfl⟩ (.inr .waitClearChan) rfl)
  | waitRunning i pid =>
    cases h
    exact .inl (moves_cas_self rfl rfl (.inr rfl) rfl (.inl rfl) (.inl rfl) rfl rfl
      (.inr .waitRunning) (.inr .waitRunning))
  | waitUnused i pid =>
    cases h
    exact .inl (moves_cas (fun h => by cases h) rfl (.inl rfl) rfl ⟨rfl, .inr rfl, rfl⟩
      (fun _ => .inr .waitUnused) fun _ => .inr .waitUnused)
  | waitGiveUp => cases h; exact .inl (Quiet.write ⟨rfl, .inl rfl, rfl⟩ (.inr .waitGiveUp) rfl)
  | waitGiveUpCas =>
    cases h
    exact .inl (moves_cas_self rfl rfl (.inr rfl) rfl (.inr rfl) (.inr rfl) rfl rfl
      (.inr .waitGiveUpCas) (.inr .panic))
  | exitCas =>
    cases h
    exact .inl (moves_cas_self rfl rfl (.inl rfl) rfl (.inr rfl) (.inr rfl) rfl rfl (.inr .exitCas)
      (.inr .panic))
  | exitScan i =>
    cases h
    split
    · split
      · exact .inl (Quiet.goto ⟨rfl, .inl rfl, rfl⟩ (.inr (.exitChild ‹_›)))
      · exact .inl (Quiet.goto ⟨rfl, .inl rfl, rfl⟩ (.inr .exitOther))
    · exact .inl (Quiet.goto ⟨rfl, .inl rfl, rfl⟩ (.inr .exitSched))
  | exitAdopt i => cases h; exact .inl (Quiet.write ⟨rfl, .inl rfl, rfl⟩ (.inr .exitAdopt) rfl)
  | exitTest i =>
    cases h
    split <;> exact .inl (Quiet.goto ⟨rfl, .inl rfl, rfl⟩ (.inr .exitTest))
  | zombieExit => cases h; exact .inl (Quiet.goto ⟨rfl, .inl rfl, rfl⟩ (.inr .panic))
  | forkScan i =>
    cases h
    split
    · split
      · exact .inl (Quiet.goto ⟨rfl, .inl rfl, rfl⟩ (.inr .forkFound))
      · exact .inl (Quiet.goto ⟨rfl, .inl rfl, rfl⟩ (.inr .forkScan))
    · exact .inl (Quiet.goto ⟨rfl, .inl rfl, rfl⟩ (.inr .forkFull))
  | forkCas i =>
    cases h
    exact .inl (moves_cas (fun h => by cases h) rfl (.inr ⟨rfl, .inl rfl⟩) rfl ⟨rfl, .inl rfl, rfl⟩
      (fun hs => .inr (.forkCas hs)) fun _ => .inr .forkRetry)
  | forkPidCas i pid =>
    simp only [threadStep] at h
    split at h <;> cases h
    · exact .inl ⟨_, goto_self .., Quiet.follows ⟨rfl, .inl rfl, rfl⟩ (.inr (.forkPidCas ‹_›)) rfl⟩
    · exact .inl (Quiet.goto ⟨rfl, .inl rfl, rfl⟩ (.inr .forkPidRetry))
  | panicked => cases h

theorem signalStep_moves {q : Proc} {sig : Sig} (h : SignalStep (s.procs p) sig q) :
    Moves n s ((s.setProc p q).goto c (.running p (.enabled (.signals (sig + 1))))) c p
      (.enabled (.signals sig)) := by
  refine ⟨_, goto_self .., .inl rfl, fun _ hp => ?_, fun i x hx => ?_, .inl rfl,
    .inr (.signals (.inr rfl))⟩
  · rw [goto_state, setProc_state_self]
    rcases h.state with h | ⟨h, _⟩
    · exact h.trans hp
    · cases hp.symm.trans h
  · cases hx

theorem forkFail_moves {k : Point} (hk : k = .forkKalloc i ∨ k = .forkCopy i) :
    Moves n s (forkFail s c p i) c p (.enabled k) := by
  refine ⟨_, goto_self .., .inl rfl, fun hself hp => ?_, nofun, .inl rfl, .inr (.forkFail hk)⟩
  have hne : p ≠ i := by
    rintro rfl
    rcases hk with rfl | rfl <;> exact hself _ rfl
  exact (setProc_state_of_ne _ hne).trans hp

theorem pointStep_moves {k : Point} {ch : Choice} (h : pointStep s c p k ch = some t) :
    Moves n s t c p (.enabled k) := by
  unfold pointStep at h
  split at h
  · split at h
    · split at h
      · rename_i hq
        cases h
        exact signalStep_moves (signalStep_ok hq)
      · cases h
        exact Quiet.goto ⟨rfl, .inl rfl, rfl⟩ (.inr .panic)
    · cases h
      exact Quiet.goto ⟨rfl, .inl rfl, rfl⟩ (.inr (.signals (.inl rfl)))
  · cases h
    exact Quiet.goto ⟨rfl, .inl rfl, rfl⟩ (.inr .forkPid)
  · cases h
    exact Quiet.write ⟨rfl, .inl rfl, rfl⟩ (.inr .forkSetPid) rfl
  · split at h
    · cases h
      exact forkFail_moves (.inl rfl)
    · cases h
      exact ⟨_, goto_self .., Quiet.follows ⟨rfl, .inl rfl, rfl⟩ (.inr .forkKalloc)
        (setProc_state_eq rfl)⟩
  · cases h
    exact Quiet.write ⟨rfl, .inl rfl, rfl⟩ (.inr .forkCopy) rfl
  · cases h
    exact forkFail_moves (.inr rfl)
  · cases h
    exact moves_cas (fun h => by cases h) rfl (.inl rfl) rfl ⟨rfl, .inr rfl, rfl⟩
      (fun _ => .inr .forkRun) fun _ => .inr .forkRun
  · cases h

theorem callStep_moves {k : Point} {ch : Choice} (hc : s.cpus c = .running p (.enabled k))
    (h : callStep n s c p k ch = some t) : Moves n s t c p (.enabled k) := by
  have hs := callStep_state h p
  suffices hq : ∃ k₁, t.cpus c = .running p k₁ ∧ Quiet (.enabled k) k₁ ∧
      Steps n s p (.enabled k) k₁ by
    obtain ⟨k₁, hc, hq, hg⟩ := hq
    exact ⟨k₁, hc, hq.follows hg hs⟩
  have hstay : s.cpus c = .running p (.enabled k) ∧ Quiet (.enabled k) (.enabled k) ∧
      Steps n s p (.enabled k) (.enabled k) := ⟨hc, ⟨rfl, .inl rfl, rfl⟩, .inl rfl⟩
  unfold callStep at h
  split at h <;> cases h
  · refine ⟨_, goto_self .., ?_⟩
    split <;> exact ⟨⟨rfl, .inl rfl, rfl⟩, .inl rfl⟩
  · exact ⟨_, goto_self .., ⟨rfl, .inl rfl, rfl⟩, .inl rfl⟩
  · exact ⟨_, goto_self .., ⟨rfl, .inl rfl, rfl⟩, .inr .sleep⟩
  · exact ⟨_, goto_self .., ⟨rfl, .inl rfl, rfl⟩, .inr .wait⟩
  · refine ⟨_, goto_self .., ?_⟩
    split
    · exact ⟨⟨rfl, .inl rfl, rfl⟩, .inr .panic⟩
    · exact ⟨⟨rfl, .inl rfl, rfl⟩, .inr .exit⟩
  · exact ⟨_, goto_self .., ⟨rfl, .inl rfl, rfl⟩, .inr .fork⟩
  · exact ⟨_, hstay⟩
  · exact ⟨_, hstay⟩
  · exact ⟨_, (kill_cpus ..).trans hc, hstay.2⟩
  · exact ⟨_, hstay⟩
  · exact ⟨_, hstay⟩
  · refine ⟨_, goto_self .., ?_⟩
    split
    · exact ⟨⟨rfl, .inl rfl, rfl⟩, .inr .trapret⟩
    · exact ⟨⟨rfl, .inl rfl, rfl⟩, .inl rfl⟩

theorem Moves.control (h : Moves n s t c p pc) : Control n s t c (.running p pc) (t.cpus c) := by
  obtain ⟨k, hc, hf⟩ := h
  rw [hc]
  exact .thread hf

theorem step_control {l : Label Cpu} (h : step n s l = some t) :
    Control n s t l.cpu (s.cpus l.cpu) (t.cpus l.cpu) := by
  cases step_cases h with
  | rescan hc =>
    rw [hc, goto_self]
    exact .rescan
  | irq hc =>
    rw [hc, goto_self]
    exact .irq
  | wake hc =>
    obtain ⟨w', hw, hc'⟩ := wakeStep_move n s l.cpu _ .interrupt .top
    rw [hc, hc']
    cases w' with
    | none => exact .wakeEnd hw
    | some w' => exact .wake hw
  | pick hc hi =>
    rw [hc, cas_self]
    split
    · rename_i hs
      exact .pick hi hs (by rw [cas_state, if_pos ⟨rfl, hs⟩])
    · exact .pass hi ‹_›
  | pickEnd hc hi =>
    rw [hc, goto_self]
    exact .scanEnd hi
  | frozenTest hc =>
    rw [hc, goto_self]
    split
    · exact .frozen ‹_› rfl
    · exact .unfrozen (Bool.eq_false_iff.2 ‹_›) rfl
  | canRunTest hc =>
    rw [hc, goto_self]
    split
    · exact .allow ‹_› rfl
    · exact .refuse (Bool.eq_false_iff.2 ‹_›) rfl
  | unpick hc =>
    rw [hc, cas_self, ite_self]
    exact .unpick
  | switchIn hc hx =>
    rw [hc, goto_self]
    exact .switchIn hx rfl
  | point hc h =>
    rw [hc]
    exact (pointStep_moves h).control
  | call hc h =>
    rw [hc]
    exact (callStep_moves hc h).control
  | thread hc h =>
    rw [hc]
    rcases threadStep_moves h with hm | ⟨_, rfl, rfl⟩
    · exact hm.control
    · rw [goto_self]
      exact .swtch rfl
  | clean hc =>
    rw [hc]
    exact cleanStep_control
  | cleanWake hc =>
    obtain ⟨w', hw, hc'⟩ := wakeStep_move n s l.cpu _ (.cleanWake _) (.pick _)
    rw [hc, hc']
    cases w' with
    | none => exact .cleanWakeEnd hw
    | some w' => exact .cleanWake hw

end Xv6Signals
