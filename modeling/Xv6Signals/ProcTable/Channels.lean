import Xv6Signals.ProcTable.Threads

namespace Xv6Signals
open Lib

variable {Cpu : Type} {s t : Config Cpu} {c d : Cpu} {i j p n : Nat} {pc b : Pc} {ch : Chan}

def Pc.sleepsOn (p : Nat) : Pc → Option Chan
  | .sleepCas ch => some ch
  | .waitScan _ _ | .waitReap _ | .swtch .wait => some (.proc p)
  | _ => none

def Pc.setsChan (p : Nat) : Pc → Option Chan
  | .sleepChan ch => some ch
  | .waitChan => some (.proc p)
  | _ => none

def Tuned (s : Config Cpu) : Prop :=
  ∀ p b ch, s.At p b → b.sleepsOn p = some ch → (s.procs p).chan = ch

theorem Pc.state_of_sleepsOn (h : pc.base.sleepsOn p = some ch) : pc.state.resumable = true := by
  cases pc with
  | sched h' => cases h' <;> first | rfl | cases h
  | swtch h' => cases h' <;> first | rfl | cases h
  | wakeup w k => cases k <;> cases h
  | _ => first | rfl | cases h

theorem resumable_of_sleepsOn (hi : Inv s) (hs : Settled s) (ha : s.At p b)
    (hb : b.sleepsOn p = some ch) : (s.state p).resumable = true := by
  rcases ha with ⟨c, pc, hc, rfl⟩ | ⟨h, hx, rfl⟩
  · rw [hi.thread c p pc hc]
    exact Pc.state_of_sleepsOn hb
  · refine hs.parked p h hx ?_
    rintro rfl
    cases hb

def Pc.writesChan : Pc → Bool
  | .sleepChan _ | .waitChan | .waitClearChan _ _ | .waitGiveUp => true
  | _ => false

theorem ChanStep.writesChan {ch' : Chan} (h : ChanStep s c p ch') (hi : Inv s) (hs : Settled s)
    (ha : s.At p b) (hr : (s.state p).resumable = true) : b.writesChan = true := by
  have here {pc : Pc} (hc : s.cpus c = .running p pc) (hp : pc.base.writesChan = true) :
      b.writesChan = true := by
    rw [hs.at_unique hi ha (.running hc), hp]
  cases h with
  | sleep hc => exact here hc rfl
  | wait hc => exact here hc rfl
  | reaped hc => exact here hc rfl
  | giveUp hc => exact here hc rfl
  | bury hc =>
    rw [hs.buried c p _ hc (.inl rfl)] at hr
    cases hr

theorem Pc.not_writesChan (h : pc.sleepsOn p = some ch) : pc.writesChan = false := by
  cases pc with
  | swtch h' => rfl
  | _ => first | rfl | cases h

theorem Goes.sleepsOn {b' : Pc} (h : Goes n s p b b') (hb : b'.sleepsOn p = some ch) :
    b.setsChan p = some ch ∨ b.sleepsOn p = some ch := by
  cases h with
  | sleepChan => exact .inl hb
  | waitChan => exact .inl hb
  | waitChild _ => exact .inr hb
  | waitOther _ => exact .inr hb
  | waitSched _ => exact .inr hb
  | waitLive _ => exact .inr hb
  | _ => cases hb

theorem Pc.setsChan_base (h : pc.base.setsChan p = some ch) : pc.setsChan p = some ch := by
  cases pc with
  | sched h' => cases h' <;> cases h
  | swtch h' => cases h' <;> cases h
  | wakeup w k => cases k <;> cases h
  | _ => exact h

def Wake.past (w : Wake) (p : Nat) : Prop := p < w.slot ∨ w.slot = p ∧ w.point.ends = true

theorem WakeMove.chan {w w' : Wake} (h : WakeMove n s t w (some w')) : w'.chan = w.chan := by
  cases h <;> rfl

theorem WakeMove.past {w w' : Wake} (h : WakeMove n s t w (some w')) (hp : w'.past p) :
    w.past p ∨ s.state p ≠ .sleeping ∧ s.state p ≠ .minusSleeping ∨ (s.procs p).chan ≠ w.chan ∨
      s.state p = .sleeping ∧ t.state p = .minusRunnable ∨ s.state p = .running := by
  have next {ch : Chan} {i : Nat} {pt : WakePoint} (hp : (⟨ch, i + 1, .test⟩ : Wake).past p) :
      Wake.past ⟨ch, i, pt⟩ p ∨ p = i := by
    rcases hp with hp | ⟨_, he⟩
    · rcases Nat.lt_or_eq_of_le (Nat.le_of_lt_succ hp) with hlt | heq
      · exact .inl (.inl hlt)
      · exact .inr heq
    · cases he
  have same {ch : Chan} {i : Nat} {pt pt' : WakePoint} (hp : (⟨ch, i, pt'⟩ : Wake).past p) :
      Wake.past ⟨ch, i, pt⟩ p ∨ p = i ∧ pt'.ends = true := by
    rcases hp with hp | ⟨hp, he⟩
    · exact .inl (.inl hp)
    · exact .inr ⟨hp.symm, he⟩
  cases h with
  | skip _ hs hs' =>
    rcases next hp with hp | rfl
    · exact .inl hp
    · exact .inr (.inl ⟨hs, hs'⟩)
  | miss hc =>
    rcases next hp with hp | rfl
    · exact .inl hp
    · exact .inr (.inr (.inl hc))
  | take hs ht =>
    rcases same hp with hp | ⟨rfl, _⟩
    · exact .inl hp
    · exact .inr (.inr (.inr (.inl ⟨hs, ht⟩)))
  | leave hs =>
    rcases same hp with hp | ⟨rfl, _⟩
    · exact .inl hp
    · exact .inr (.inr (.inr (.inr hs)))
  | drop _ =>
    rcases next hp with hp | rfl
    · exact .inl hp
    · exact .inl (.inr ⟨rfl, rfl⟩)
  | finish _ =>
    rcases next hp with hp | rfl
    · exact .inl hp
    · exact .inl (.inr ⟨rfl, rfl⟩)
  | settle _ =>
    rcases same hp with hp | ⟨rfl, _⟩
    · exact .inl hp
    · exact .inl (.inr ⟨rfl, rfl⟩)
  | asleep _ _ =>
    rcases same hp with hp | ⟨_, he⟩
    · exact .inl hp
    · cases he
  | hit _ =>
    rcases same hp with hp | ⟨_, he⟩
    · exact .inl hp
    · cases he
  | retry _ =>
    rcases same hp with hp | ⟨_, he⟩
    · exact .inl hp
    · cases he
  | spin _ =>
    rcases same hp with hp | ⟨_, he⟩
    · exact .inl hp
    · cases he

variable [DecidableEq Cpu]

theorem step_setsChan {l : Label Cpu} (h : step n s l = some t) (hc : s.cpus l.cpu = .running p pc)
    (hp : pc.setsChan p = some ch) : (t.procs p).chan = ch := by
  simp only [step, hc] at h
  cases pc with
  | sleepChan ch' =>
    cases hch : l.choice <;> rw [hch] at h <;> cases h
    cases hp
    exact congrArg Proc.chan (setProc_self ..)
  | waitChan =>
    cases hch : l.choice <;> rw [hch] at h <;> cases h
    cases hp
    exact congrArg Proc.chan (setProc_self ..)
  | _ => cases hp

theorem Tuned.step {l : Label Cpu} (hu : Tuned s) (hi : Inv s) (hs : Settled s)
    (h : step n s l = some t) : Tuned t := by
  intro p b ch ht hb
  have kept {b : Pc} (ha : s.At p b) (hb : b.sleepsOn p = some ch) : (t.procs p).chan = ch := by
    rcases (step_fields h p).chan with hf | hf
    · rw [hf, hu p b ch ha hb]
    · have hw := hf.writesChan hi hs ha (resumable_of_sleepsOn hi hs ha hb)
      cases (Pc.not_writesChan hb).symm.trans hw
  rcases step_at h ht with ha | ⟨pc, _, hc, _, _, hg⟩ | he
  · exact kept ha hb
  · rcases hg.sleepsOn hb with hb | hb
    · exact step_setsChan h hc (Pc.setsChan_base hb)
    · exact kept (.running hc) hb
  · rcases he with rfl | rfl | rfl | rfl <;> cases hb

theorem Tuned.reach (h : (ptable Cpu n).Reach Unovertaken s) : Tuned s := by
  refine h.invariant ?_ ?_
  · rintro s ⟨_, mem, kstack, rfl⟩ p b _ h
    exact (boot_at mem kstack p b h).elim
  · intro s l t hr hu hok h
    exact hu.step (Inv.reach hr) (Settled.reach hr) h

theorem step_wake {l : Label Cpu} {w : Wake} (h : step n s l = some t)
    (hw : (s.cpus l.cpu).wake = some w) :
    ∃ w', WakeMove n s t w w' ∧ (t.cpus l.cpu).wake = w' := by
  have hmove (pos : Wake → CpuPc) (done : CpuPc) (hpos : ∀ w, (pos w).wake = some w)
      (hdone : done.wake = none) (ht : wakeStep n s l.cpu w pos done = t) :
      ∃ w', WakeMove n s t w w' ∧ (t.cpus l.cpu).wake = w' := by
    obtain ⟨w', hm, hc⟩ := wakeStep_move n s l.cpu w pos done
    subst ht
    refine ⟨w', hm, ?_⟩
    rw [hc]
    cases w' with
    | none => exact hdone
    | some w' => exact hpos w'
  unfold CpuPc.wake at hw
  split at hw <;> cases hw <;> rename_i hc <;> simp only [step, hc] at h <;>
    cases hch : l.choice <;> rw [hch] at h <;> cases h
  · exact hmove _ _ (fun _ => rfl) rfl rfl
  · exact hmove _ _ (fun _ => rfl) rfl rfl
  · rename_i k
    exact hmove _ _ (fun _ => rfl) (by cases k <;> rfl) rfl

end Xv6Signals
