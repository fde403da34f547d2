import Xv6Signals.ProcTable.Invariant

namespace Xv6Signals
open Lib

variable {Cpu : Type} {s : Config Cpu} {c d : Cpu} {i p n : Nat}

def ProcState.idle (x : ProcState) : Prop :=
  x = .runnable ∨ x = .sleeping ∨ x = .zombie ∨ x = .unused

instance (x : ProcState) : Decidable x.idle := inferInstanceAs (Decidable (_ ∨ _))

theorem ProcState.idle.not_active {x : ProcState} (h : x.idle) : x.active = false := by
  rcases h with rfl | rfl | rfl | rfl <;> rfl

theorem uses_eq_false {pc : CpuPc} (h : pc.holds i = false) : pc.uses i = false :=
  (Bool.or_eq_false_iff.1 h).1

theorem holds_of_uses {pc : CpuPc} (h : pc.uses i = true) : pc.holds i = true := by
  rw [CpuPc.holds, h, Bool.true_or]

variable [DecidableEq Cpu]

/-- In every run in which no clean-up or wakeup is overtaken, a process that can be picked, woken,
reaped or allocated has its kernel stack to itself. -/
theorem kernel_stack_exclusive (h : (ptable Cpu n).Reach Unovertaken s) :
    (∀ p c, (s.state p).idle → (s.cpus c).uses p = false) ∧
    (∀ p c d, (s.cpus c).uses p = true → (s.cpus d).uses p = true → c = d) ∧
    ∀ c q i pid d, s.cpus c = .running q (.waitKfree i pid) → (s.cpus d).uses i = false := by
  have hi := Inv.reach h
  refine ⟨fun p c hp => ?_, fun p c d hc hd => ?_, fun c q i pid d hc => ?_⟩
  · exact uses_eq_false (hi.not_held hp.not_active)
  · exact hi.unique c d p (holds_of_uses hc) (holds_of_uses hd)
  · have hs : s.state i = .minusUnused :=
      hi.owned (.inl c) i .minusUnused (Config.owns_inl hc)
    exact uses_eq_false (hi.not_held (by rw [hs]; rfl))

def sleepRun : List (Label (Fin 2)) :=
  advance 0 37 ++ [⟨0, .sleep (.addr 5)⟩] ++ advance 0 5

theorem kernel_stack_exclusive_asleep :
    ∃ s : Config (Fin 2), (ptable (Fin 2) 1).Reach Unovertaken s ∧ s.state 0 = .sleeping ∧
      ∀ c, (s.cpus c).uses 0 = false := by
  have hboot : (ptable (Fin 2) 1).Reach Unovertaken (boot (fun _ => 0) 0x80400000) :=
    boot_reach (by decide) _ _
  obtain ⟨s, hs, hp⟩ := hboot.exists_run (P := fun s => s.state 0 = .sleeping) (l := sleepRun)
    (by decide +kernel) (by decide +kernel)
  exact ⟨s, hs, hp, fun c => (kernel_stack_exclusive hs).1 0 c (.inr (.inl hp))⟩

/-- The other CPU wakes the sleeper, runs it and stops it half-way through `yield`; then the first
CPU goes on with the clean-up it has not finished. -/
def overtakingRun : List (Label (Fin 2)) :=
  sleepRun ++ [⟨1, .wakeup (.addr 5)⟩] ++ advance 1 10 ++ [⟨1, .yield⟩] ++ advance 1 1 ++
    advance 0 2

theorem kernel_stack_shared :
    ∃ s : Config (Fin 2), (ptable (Fin 2) 1).Reachable s ∧ s.state 0 = .runnable ∧
      (s.cpus 1).uses 0 = true :=
  (boot_reach (n := 1) (by decide) (fun _ => 0) 0x80400000).exists_run
    (P := fun s : Config (Fin 2) => s.state 0 = .runnable ∧ (s.cpus 1).uses 0 = true)
    (l := overtakingRun) (Machine.permits_true ..) (by decide +kernel)

end Xv6Signals
