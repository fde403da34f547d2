import Xv6Signals.Delivery
import Xv6Signals.Syscall

namespace Xv6Signals
open Lib

variable {s t : Task} {p q : Proc} {e : Event} {next : Nat → Mode}

def Task.AtCall (s : Task) (num : Word) : Prop :=
  s.mode = .trap ∧ s.proc.tf.trapno = tSyscall ∧ s.proc.tf.eax = num

instance (s : Task) (num : Word) : Decidable (s.AtCall num) := inferInstanceAs (Decidable (_ ∧ _))

inductive Mode.Pass : Mode → (Nat → Mode) → Nat → Prop
  | sigret {k : Nat} : Mode.Pass (.sigret k) .sigret k
  | trapret {k : Nat} : Mode.Pass (.trapret k) .trapret k

inductive TaskStep (s : Task) : Event → Task → Prop
  | kill {sig : Sig} : TaskStep s (.kill sig) { s with proc := s.proc.post sig }
  | trap {mem : Mem 32} {tf : TrapFrame} : s.mode = .user → tf.cs = s.proc.tf.cs →
      tf.eflags.getLsbD 9 = s.proc.tf.eflags.getLsbD 9 →
      TaskStep s (.trap mem tf) ⟨{ s.proc.userStore mem with tf := tf }, .trap⟩
  | sigprocmask : s.AtCall sysSigprocmaskNum →
      TaskStep s .go ((sysSigprocmask s.proc).2.return (sysSigprocmask s.proc).1)
  | sigaction : s.AtCall sysSigactionNum →
      TaskStep s .go ((sysSigaction s.proc).2.return (sysSigaction s.proc).1)
  | sigret {q : Proc} : s.AtCall sysSigretNum → s.proc.restore = .ok q →
      TaskStep s .go ⟨q, .sigret q.firstSignal⟩
  | call {sz : Word} {mem : Mem 32} {ret num : Word} : s.AtCall num → num ≠ sysSigretNum →
      sz.toNat < kernBase →
      TaskStep s (.call sz mem ret)
        ({ s.proc with
          sz := sz
          mem := fun a => if userMapped sz a then mem a else s.proc.mem a }.return ret)
  | exec {sz : Word} {mem : Mem 32} {eip esp : Word} : s.AtCall sysExec → sz.toNat < kernBase →
      TaskStep s (.exec sz mem eip esp) ((Xv6Signals.exec s.proc sz mem eip esp).return 0)
  | child {slot : Proc} {page : Word} {self : Nat} : s.AtCall sysFork → kallocPage page = true →
      TaskStep s (.child slot page self)
        ⟨forkChild (allocated slot page) s.proc self,
          .trapret (forkChild (allocated slot page) s.proc self).firstSignal⟩
  | irq : s.mode = .trap → s.proc.tf.trapno ≠ tSyscall →
      TaskStep s .go ⟨s.proc, .trapret s.proc.firstSignal⟩
  | signal {next : Nat → Mode} {k : Nat} {q : Proc} (hk : k < 32) : s.mode.Pass next k →
      SignalStep s.proc ⟨k, hk⟩ q → TaskStep s .go ⟨q, next (k + 1)⟩
  | wreck {next : Nat → Mode} {k : Nat} {q : Proc} : s.mode.Pass next k →
      TaskStep s (.wreck q) ⟨q, next (k + 1)⟩
  | sigretEnd {k : Nat} : s.mode = .sigret k → ¬ k < 32 → TaskStep s .go (s.proc.return 0)
  | pop {k : Nat} : s.mode = .trapret k → ¬ k < 32 → TaskStep s .go ⟨s.proc, .user⟩

theorem passStep_cases {k : Nat} {done : Option Task}
    (hp : s.mode.Pass next k) (h : passStep s.proc k next done e = some t) :
    TaskStep s e t ∨ ¬ k < 32 ∧ e = .go ∧ done = some t := by
  unfold passStep at h
  split at h
  · split at h
    · rename_i hk
      split at h
      · rename_i hq
        cases h
        exact .inl (.signal hk hp (signalStep_ok hq))
      · cases h
    · exact .inr ⟨‹_›, rfl, h⟩
  · split at h
    · split at h
      · cases h
        exact .inl (.wreck hp)
      · cases h
    · cases h
  · cases h

theorem trap_cases (hm : s.mode = .trap) (h : trap s.proc e = some t) : TaskStep s e t := by
  unfold trap at h
  split at h
  · cases h
  split at h
  · rename_i htrap
    split at h
    · split at h
      · cases h
        exact .sigprocmask ⟨hm, htrap, ‹_›⟩
      split at h
      · cases h
        exact .sigaction ⟨hm, htrap, ‹_›⟩
      split at h
      · split at h
        · cases h
          exact .sigret ⟨hm, htrap, ‹_›⟩ ‹_›
        · cases h
      · cases h
    · split at h
      · rename_i hc
        cases h
        exact .call ⟨hm, htrap, rfl⟩ hc.2.2.2 hc.1
      · cases h
    · split at h
      · rename_i hc
        cases h
        exact .exec ⟨hm, htrap, hc.2⟩ hc.1
      · cases h
    · split at h
      · rename_i hc
        cases h
        exact .child ⟨hm, htrap, hc.2⟩ hc.1
      · cases h
    · cases h
  · rename_i htrap
    split at h
    · split at h
      · cases h
        exact .irq hm htrap
      · cases h
    · cases h

theorem trapStep_cases (h : trapStep s e = some t) : TaskStep s e t := by
  unfold trapStep at h
  split at h
  · cases h
    exact .kill
  split at h
  · rename_i hm
    split at h
    · split at h
      · rename_i htf
        cases h
        exact .trap hm htf.1 htf.2
      · cases h
    · cases h
  · exact trap_cases ‹_› h
  · rename_i k hm
    rcases passStep_cases (by rw [hm]; exact .sigret) h with hs | ⟨hk, rfl, hd⟩
    · exact hs
    · split at hd
      · cases hd
      · cases hd
        exact .sigretEnd hm hk
  · rename_i k hm
    rcases passStep_cases (by rw [hm]; exact .trapret) h with hs | ⟨hk, rfl, hd⟩
    · exact hs
    · cases hd
      exact .pop hm hk

theorem passTo_run (hn : ∀ k, (next k).Pass next k) {k : Nat} (hk : k ≤ 32)
    (h : passTo p k = .ok q) :
    trapMachine.run ⟨p, next 0⟩ (List.replicate k .go) = some ⟨q, next k⟩ := by
  induction k generalizing q with
  | zero =>
    cases h
    rfl
  | succ k ih =>
    have hk' : k < 32 := hk
    rw [passTo_succ hk'] at h
    obtain ⟨r, hr, hq⟩ := bind_eq_ok h
    rw [List.replicate_succ', Machine.run_append, ih (Nat.le_of_lt hk') hr]
    have hs : trapStep ⟨r, next k⟩ .go = some ⟨q, next (k + 1)⟩ := by
      have hp := hn k
      generalize hm : next k = m at hp
      cases hp <;> simp only [trapStep, passStep, dif_pos hk', hq]
    simp only [Option.bind_some, Machine.run, trapMachine, hs]

theorem handleSignals_run (hn : ∀ k, (next k).Pass next k) (h : handleSignals p = .ok q) :
    ∃ k, trapMachine.run ⟨p, next p.firstSignal⟩ (List.replicate k .go) = some ⟨q, next 32⟩ := by
  by_cases hu : p.tf.fromUser = true
  · rw [handleSignals_eq hu] at h
    rw [Proc.firstSignal, if_pos hu]
    exact ⟨32, passTo_run hn (Nat.le_refl 32) h⟩
  · rw [handleSignals, if_neg hu] at h
    cases h
    rw [Proc.firstSignal, if_neg hu]
    exact ⟨0, rfl⟩

theorem sigret_run (hc : s.AtCall sysSigretNum) (hk : s.proc.killed = false)
    (h : sigret s.proc = .ok q) (hq : q.killed = false) :
    ∃ k, trapMachine.run s (List.replicate k .go) = some (q.return 0) := by
  obtain ⟨r, hr, h⟩ := bind_eq_ok h
  obtain ⟨k, hrun⟩ := handleSignals_run (fun _ => .sigret) h
  obtain ⟨p, mode⟩ := s
  obtain ⟨rfl, htrap, hnum⟩ := hc
  have hfirst : trapStep ⟨p, .trap⟩ .go = some ⟨r, .sigret r.firstSignal⟩ := by
    change trap p .go = _
    unfold trap
    rw [if_neg (Bool.eq_false_iff.1 hk), if_pos htrap, if_neg (by rw [hnum]; decide),
      if_neg (by rw [hnum]; decide), if_pos hnum, hr]
  have hlast : trapStep ⟨q, .sigret 32⟩ .go = some (q.return 0) := by
    change (if q.killed then none else some (q.return 0)) = _
    rw [hq]
    rfl
  refine ⟨k + 1 + 1, ?_⟩
  rw [List.replicate_succ, List.replicate_succ']
  simp only [Machine.run, show trapMachine.next = trapStep from rfl, hfirst]
  rw [Machine.run_append, hrun]
  simp only [Option.bind_some, Machine.run, show trapMachine.next = trapStep from rfl, hlast]

end Xv6Signals
