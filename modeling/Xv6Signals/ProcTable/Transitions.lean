import Xv6Signals.Delivery
import Xv6Signals.ProcTable.Roles

namespace Xv6Signals
open Lib

variable {Cpu : Type} {s t : Config Cpu} {c d : Cpu} {i j p n : Nat}

theorem setTableWord_image (p : Proc) (i : Nat) (v : Word) :
    ∃ h b, p.setTableWord i v = { p with sigHandlers := h, tfBackup := b } := by
  unfold Proc.setTableWord
  split
  · exact ⟨_, p.tfBackup, rfl⟩
  · exact ⟨p.sigHandlers, _, rfl⟩

theorem sigaction_image (p : Proc) (signum : Int) (act oldact : Word) :
    ∃ h b m, (sigaction p signum act oldact).2 =
      { p with sigHandlers := h, tfBackup := b, mem := m } := by
  unfold sigaction
  split
  · exact ⟨p.sigHandlers, p.tfBackup, p.mem, rfl⟩
  rename_i sig _
  obtain ⟨h, b, he⟩ := setTableWord_image p sig
    (readSigaction (p.storeOld sig oldact) act).saHandler
  obtain ⟨h', b', he'⟩ := setTableWord_image { p with sigHandlers := h, tfBackup := b } (sig + 1)
    (readSigaction (p.storeOld sig oldact) act).sigmask
  refine ⟨h', b', p.storeOld sig oldact, ?_⟩
  simp only [Proc.setEntry, he, he']

section Projection
variable {β : Type} {f : Proc → β}

theorem sigaction_field
    (hf : ∀ p h b m, f { p with sigHandlers := h, tfBackup := b, mem := m } = f p) (p : Proc)
    (signum : Int) (act oldact : Word) : f (sigaction p signum act oldact).2 = f p := by
  obtain ⟨_, _, _, he⟩ := sigaction_image p signum act oldact
  rw [he, hf]

theorem post_field (hf : ∀ p v, f { p with psignals := v } = f p) (p : Proc) (sig : Sig) :
    f (p.post sig) = f p := by
  obtain ⟨_, hv⟩ := post_eq p sig
  rw [hv, hf]

end Projection

theorem SignalStep.state {p q : Proc} {sig : Sig} (h : SignalStep p sig q) :
    q.state = p.state ∨ p.state = .sleeping ∧ q.state = .runnable := by
  cases h with
  | idle _ => exact .inl rfl
  | discard _ _ => exact .inl rfl
  | cont _ _ _ => exact .inl rfl
  | user _ _ _ _ => exact .inl rfl
  | stop _ _ _ =>
    unfold sigstopHandler
    split <;> exact .inl rfl
  | kill _ _ _ =>
    unfold sigkillHandler
    by_cases hs : p.state = .sleeping
    · exact .inr ⟨hs, if_pos hs⟩
    · exact .inl (if_neg hs)

theorem setProc_state_eq {q : Proc} (h : q.state = s.state i) :
    (s.setProc i q).state j = s.state j := by
  by_cases hj : j = i
  · subst hj
    rw [setProc_state_self, h]
  · exact setProc_state_of_ne q hj

theorem kill_state (n : Nat) (s : Config Cpu) (pid : Nat) (sig : Sig) (i : Nat) :
    (kill n s pid sig).state i = s.state i := by
  unfold kill
  split
  · exact setProc_state_eq (post_field (fun _ _ => rfl) ..)
  · rfl

variable [DecidableEq Cpu]

theorem cas_state (s : Config Cpu) (c : Cpu) (i : Nat) (old new : ProcState) (yes no : CpuPc)
    (j : Nat) : (s.cas c i old new yes no).state j =
      if j = i ∧ s.state i = old then new else s.state j := by
  by_cases h : s.state i = old
  · rw [cas_pos yes no h, goto_state]
    by_cases hj : j = i
    · subst hj
      rw [setProc_state_self, if_pos ⟨rfl, h⟩]
    · rw [setProc_state_of_ne _ hj, if_neg (fun hh => hj hh.1)]
  · rw [cas_neg yes no h, goto_state, if_neg (fun hh => h hh.2)]

theorem cas_self (s : Config Cpu) (c : Cpu) (i : Nat) (old new : ProcState) (yes no : CpuPc) :
    (s.cas c i old new yes no).cpus c = if s.state i = old then yes else no := by
  by_cases h : s.state i = old
  · rw [cas_pos yes no h, goto_self, if_pos h]
  · rw [cas_neg yes no h, goto_self, if_neg h]

inductive CpuStep (n : Nat) (s : Config Cpu) (c : Cpu) (ch : Choice) : Config Cpu → Prop
  | rescan : s.cpus c = .top → CpuStep n s c ch (s.goto c (.pick 0))
  | irq {chan : Chan} : s.cpus c = .top → CpuStep n s c ch (s.goto c (.interrupt ⟨chan, 0, .test⟩))
  | wake {w : Wake} : s.cpus c = .interrupt w → CpuStep n s c ch (wakeStep n s c w .interrupt .top)
  | pick {i : Nat} : s.cpus c = .pick i → i < n →
      CpuStep n s c ch (s.cas c i .runnable .running (.frozenTest i) (.pick (i + 1)))
  | pickEnd {i : Nat} : s.cpus c = .pick i → ¬ i < n → CpuStep n s c ch (s.goto c .top)
  | frozenTest {i : Nat} : s.cpus c = .frozenTest i →
      CpuStep n s c ch (s.goto c (if (s.procs i).frozen then .canRunTest i else .switchIn i))
  | canRunTest {i : Nat} : s.cpus c = .canRunTest i → CpuStep n s c ch
        (s.goto c (if canRunEvenIfFrozen (s.procs i) then .switchIn i else .unpick i))
  | unpick {i : Nat} : s.cpus c = .unpick i →
      CpuStep n s c ch (s.cas c i .running .runnable (.pick (i + 1)) (.pick (i + 1)))
  | switchIn {i : Nat} {k : Context} : s.cpus c = .switchIn i → s.context i = some k →
      CpuStep n s c ch ((s.setContext i none).goto c (.running i k.resume))
  | point {p : Nat} {k : Point} {t : Config Cpu} : s.cpus c = .running p (.enabled k) →
      pointStep s c p k ch = some t → CpuStep n s c ch t
  | call {p : Nat} {k : Point} {t : Config Cpu} : s.cpus c = .running p (.enabled k) →
      callStep n s c p k ch = some t → CpuStep n s c ch t
  | thread {p : Nat} {pc : Pc} {t : Config Cpu} : s.cpus c = .running p pc →
      threadStep n s c p pc = some t → CpuStep n s c ch t
  | clean {i : Nat} {point : CleanPoint} : s.cpus c = .clean i point →
      CpuStep n s c ch (cleanStep s c i point)
  | cleanWake {i : Nat} {w : Wake} : s.cpus c = .cleanWake i w →
      CpuStep n s c ch (wakeStep n s c w (.cleanWake i) (.pick (i + 1)))

theorem step_cases {l : Label Cpu} (h : step n s l = some t) : CpuStep n s l.cpu l.choice t := by
  obtain ⟨c, ch⟩ := l
  unfold step cpuStep at h
  simp only at h ⊢
  split at h
  · cases h
    exact .rescan ‹_›
  · cases h
    exact .irq ‹_›
  · cases h
    exact .wake ‹_›
  · split at h
    · cases h
      exact .pick ‹_› ‹_›
    · cases h
      exact .pickEnd ‹_› ‹_›
  · cases h
    exact .frozenTest ‹_›
  · cases h
    exact .canRunTest ‹_›
  · cases h
    exact .unpick ‹_›
  · split at h
    · cases h
      exact .switchIn ‹_› ‹_›
    · cases h
  · rcases Option.or_eq_some_iff.1 h with h | ⟨_, h⟩
    · exact .point ‹_› h
    · exact .call ‹_› h
  · exact .thread ‹_› h
  · cases h
    exact .clean ‹_›
  · cases h
    exact .cleanWake ‹_›
  · cases h

theorem cas_of_ne {old new : ProcState} {yes no : CpuPc} (h : d ≠ c) :
    (s.cas c i old new yes no).cpus d = s.cpus d := by
  unfold Config.cas
  split <;> exact goto_of_ne _ h

theorem wakeStep_of_ne {w : Wake} {pos : Wake → CpuPc} {done : CpuPc} (h : d ≠ c) :
    (wakeStep n s c w pos done).cpus d = s.cpus d := by
  unfold wakeStep
  split
  · split <;> exact goto_of_ne _ h
  all_goals first | exact goto_of_ne _ h | exact cas_of_ne h

theorem step_others {l : Label Cpu} (h : step n s l = some t) (hd : d ≠ l.cpu) :
    t.cpus d = s.cpus d := by
  cases step_cases h with
  | wake hc => exact wakeStep_of_ne hd
  | cleanWake hc => exact wakeStep_of_ne hd
  | pick _ _ => exact cas_of_ne hd
  | unpick _ => exact cas_of_ne hd
  | clean _ =>
    unfold cleanStep
    split <;> first | exact goto_of_ne _ hd | exact cas_of_ne hd
  | point _ h =>
    unfold pointStep at h
    repeat' split at h
    all_goals cases h
    all_goals first | exact goto_of_ne _ hd | exact cas_of_ne hd
  | call _ h =>
    unfold callStep at h
    split at h <;> cases h
    all_goals first | rfl | exact goto_of_ne _ hd | skip
    unfold kill
    split <;> rfl
  | thread _ h =>
    unfold threadStep at h
    repeat' split at h
    all_goals cases h
    all_goals first | exact wakeStep_of_ne hd | exact goto_of_ne _ hd | exact cas_of_ne hd
  | _ => exact goto_of_ne _ hd

theorem callStep_state {k : Point} {ch : Choice} (h : callStep n s c p k ch = some t) (i : Nat) :
    t.state i = s.state i := by
  unfold callStep at h
  split at h <;> cases h
  all_goals first
    | rfl
    | exact kill_state ..
    | exact setProc_state_eq rfl
    | exact setProc_state_eq (sigaction_field (fun _ _ _ _ => rfl) ..)

end Xv6Signals
