import Xv6Signals.ProcTable.Frozen
import Xv6Signals.ProcTable.Pids

namespace Xv6Signals
open Lib Function

variable {Cpu : Type} {s t : Config Cpu} {c d : Cpu} {i p n : Nat} {pc k b b' : Pc}
  {l : Label Cpu} {sig : Sig} {g : Nat → Bool}

/-- `sigstop_handler` has set `frozen`, and neither SIGCONT nor SIGKILL has been handled since. -/
def Config.Stopped (s : Config Cpu) (p : Nat) : Prop :=
  (s.procs p).frozen = true ∧ (s.procs p).killed = false

instance decidableStopped (s : Config Cpu) (p : Nat) : Decidable (s.Stopped p) :=
  inferInstanceAs (Decidable (_ ∧ _))

/-- Which processes are in user mode: `handle_signals` has come to its end and no trap has been
taken since. -/
def modesAfter (g : Nat → Bool) (s : Config Cpu) (l : Label Cpu) : Nat → Bool :=
  match s.cpus l.cpu, l.choice with
  | .running p (.enabled (.signals sig)), .go => if sig < 32 then g else update g p true
  | .running _ (.enabled .kernel), .user _ _ => g
  | .running p (.enabled .kernel), _ => update g p false
  | _, _ => g

/-- The loop of `handle_signals` that the thread is in, if any, has not gone past the signal. -/
def Pc.ahead (sig : Sig) : Pc → Bool
  | .enabled (.signals j) => j ≤ sig
  | _ => true

/-- A signal is pending that lets a stopped process go on, and a thread that stands at `b` will
come to it before it is in user mode. -/
def Proc.rescued (p : Proc) (b : Pc) : Bool :=
  [sigcont, sigkill].any fun sig => p.pending sig && b.ahead sig

def CpuPc.examines : CpuPc → Option Nat
  | .canRunTest i => some i
  | _ => none

def CpuPc.looksAt : CpuPc → Option (Nat × Nat)
  | .running i (.enabled (.signals j)) => some (i, j)
  | _ => none

/-- A stopped process is let through only for a SIGCONT or a SIGKILL that its thread is still to
handle, and handles such a signal by its default: it is not blocked and has the entry SIG_DFL. -/
structure Delivers (s : Config Cpu) (l : Label Cpu) : Prop where
  let_through : ∀ i ∈ (s.cpus l.cpu).examines, canRunEvenIfFrozen (s.procs i) = true →
    ∀ x ∈ s.context i, (s.procs i).rescued x.resume = true
  by_default : ∀ a ∈ (s.cpus l.cpu).looksAt, (s.procs a.1).frozen = true →
    ∀ sig ∈ [sigcont, sigkill], sig.val = a.2 → (s.procs a.1).pending sig = true →
      (s.procs a.1).blocks sig = false ∧ (s.procs a.1).sigHandlers sig = sigDfl

instance decidableDelivers (s : Config Cpu) (l : Label Cpu) : Decidable (Delivers s l) :=
  decidable_of_iff (_ ∧ _) ⟨fun h => ⟨h.1, h.2⟩, fun h => ⟨h.let_through, h.by_default⟩⟩

/-- A stopped process that has given up its CPU is not in user mode, and a CPU that runs it again
runs a thread that is still to handle the signal that has let it through. -/
structure Held (s : Config Cpu) (g : Nat → Bool) (p : Nat) : Prop where
  mode : g p = false
  next : ∀ c x, s.cpus c = .switchIn p → s.context p = some x →
    (s.procs p).rescued x.resume = true
  runs : ∀ c pc, s.cpus c = .running p pc → (s.procs p).rescued pc.base = true

theorem rescued_iff {q : Proc} : q.rescued b = true ↔
    ∃ sig ∈ [sigcont, sigkill], q.pending sig = true ∧ b.ahead sig = true := by
  simp only [Proc.rescued, List.any_eq_true, Bool.and_eq_true]

theorem SignalStep.ends_stop {q r : Proc} (h : SignalStep q sig r) (hsig : sig ∈ [sigcont, sigkill])
    (hp : q.pending sig = true) (hb : q.blocks sig = false) (hd : q.sigHandlers sig = sigDfl) :
    r.frozen = false ∨ r.killed = true := by
  have hdisp : q.disposition sig = .cont ∨ q.disposition sig = .kill := by
    unfold Proc.disposition
    simp only [List.mem_cons, List.not_mem_nil, or_false] at hsig
    rcases hsig with rfl | rfl <;> rw [hd]
    · exact .inl rfl
    · exact .inr rfl
  cases h with
  | idle hp' => cases hp.symm.trans hp'
  | discard _ hd' =>
    rcases hd' with hb' | hd'
    · cases hb.symm.trans hb'
    · rcases hdisp with h | h <;> cases h.symm.trans hd'
  | cont _ _ _ => exact .inl rfl
  | kill _ _ _ => exact .inr rfl
  | stop _ _ hd' => rcases hdisp with h | h <;> cases h.symm.trans hd'
  | user _ _ hd' _ => rcases hdisp with h | h <;> cases h.symm.trans hd'

theorem Goes.ahead (h : Goes n s p b b') (hb : b.ahead sig = true) :
    b'.ahead sig = true ∨ b = .enabled (.signals sig) := by
  cases h with
  | @signals i k hk =>
    rcases hk with rfl | rfl
    · exact .inl rfl
    have hi : i ≤ sig := of_decide_eq_true hb
    by_cases he : i = sig
    · subst he
      exact .inr rfl
    · exact .inl (decide_eq_true (by omega))
  | trapret => exact .inl (decide_eq_true (Nat.zero_le sig.val))
  | _ => exact .inl rfl

theorem Held.of_not_held (h : ∀ c, (s.cpus c).holds p = false) (hg : g p = false) : Held s g p := by
  refine ⟨hg, fun c x hc _ => ?_, fun c pc hc => ?_⟩
  · have hd : (s.cpus c).dispatches p = true := by
      rw [hc]
      exact beq_self_eq_true p
    cases (h c).symm.trans (holds_of_dispatches hd)
  · cases (h c).symm.trans (holds_of_running hc)

theorem modesAfter_cases (g : Nat → Bool) (s : Config Cpu) (l : Label Cpu) :
    (∃ q j, s.cpus l.cpu = .running q (.enabled (.signals j)) ∧ l.choice = .go ∧ ¬ j < 32 ∧
      modesAfter g s l = update g q true) ∨
    (∃ q, s.cpus l.cpu = .running q (.enabled .kernel) ∧
      modesAfter g s l = update g q false) ∨
    modesAfter g s l = g ∧ ∀ q, s.cpus l.cpu = .running q (.enabled .kernel) →
      ∃ mem tf, l.choice = .user mem tf := by
  unfold modesAfter
  split
  · rename_i q j hc hch
    split
    · exact .inr (.inr ⟨rfl, fun _ hq => by cases hc.symm.trans hq⟩)
    · exact .inl ⟨q, j, hc, hch, ‹_›, rfl⟩
  · rename_i hch
    exact .inr (.inr ⟨rfl, fun _ _ => ⟨_, _, hch⟩⟩)
  · exact .inr (.inl ⟨_, ‹_›, rfl⟩)
  · rename_i hne _ _
    exact .inr (.inr ⟨rfl, fun q hq => (hne q hq).elim⟩)

theorem Held.step_mode (hh : Held s g p) : modesAfter g s l p = false := by
  rcases modesAfter_cases g s l with ⟨q, j, hc, _, hj, he⟩ | ⟨q, _, he⟩ | ⟨he, _⟩ <;> rw [he]
  · by_cases hq : p = q
    · subst hq
      obtain ⟨sig, _, _, hb⟩ := rescued_iff.1 (hh.runs _ _ hc)
      have hle : j ≤ sig.val := of_decide_eq_true hb
      omega
    · rw [update_of_ne hq]
      exact hh.mode
  · by_cases hq : p = q
    · subst hq
      exact update_self ..
    · rw [update_of_ne hq]
      exact hh.mode
  · exact hh.mode

variable [DecidableEq Cpu]

theorem step_signals {j : Nat} (h : step n s l = some t)
    (hc : s.cpus l.cpu = .running p (.enabled (.signals j))) :
    (∃ sig : Sig, ∃ q, sig.val = j ∧ signalStep (s.procs p) sig = .ok q ∧
      t = (s.setProc p q).goto l.cpu (.running p (.enabled (.signals (j + 1))))) ∨
    (¬ j < 32 ∧ l.choice = .go ∧ t = s.goto l.cpu (.running p (.enabled .kernel))) ∨
    ∃ k, t = s.goto l.cpu (.running p k) ∧ (k.base = .enabled (.signals j) ∨ k = .panicked) := by
  simp only [step, hc] at h
  cases hch : l.choice with
  | go =>
    simp only [hch, cpuStep, pointStep] at h
    split at h
    · split at h <;> cases h
      · exact .inl ⟨⟨j, ‹_›⟩, _, rfl, ‹_›, rfl⟩
      · exact .inr (.inr ⟨_, rfl, .inr rfl⟩)
    · cases h
      exact .inr (.inl ⟨‹_›, rfl, rfl⟩)
  | yield =>
    rw [hch] at h
    cases h
    refine .inr (.inr ⟨_, rfl, .inl ?_⟩)
    split <;> rfl
  | wakeup ch =>
    rw [hch] at h
    cases h
    exact .inr (.inr ⟨_, rfl, .inl rfl⟩)
  | _ =>
    rw [hch] at h
    cases h

theorem Delivers.not_default (hok : Delivers s l) (h : step n s l = some t)
    (hs : s.Stopped p) (ht : t.Stopped p) (hc : s.cpus l.cpu = .running p (.enabled (.signals sig)))
    (hsig : sig ∈ [sigcont, sigkill]) (hp : (s.procs p).pending sig = true) :
    t.procs p = s.procs p ∧ ∃ k, t.cpus l.cpu = .running p k ∧
      (k.base = .enabled (.signals sig) ∨ k = .panicked) := by
  rcases step_signals h hc with ⟨sig', q, he, hq, rfl⟩ | ⟨hj, _⟩ | ⟨k, rfl, hk⟩
  · exfalso
    have he := Fin.ext he
    subst he
    obtain ⟨hb, hd⟩ := hok.by_default _ (by rw [hc]; rfl) hs.1 sig' hsig rfl hp
    have hpq : ((s.setProc p q).goto l.cpu (.running p (.enabled (.signals (sig' + 1))))).procs p =
        q := setProc_self ..
    obtain ⟨hf, hk⟩ := ht
    rw [hpq] at hf hk
    rcases (signalStep_ok hq).ends_stop hsig hp hb hd with h | h
    · cases hf.symm.trans h
    · cases hk.symm.trans h
  · exact (hj sig.isLt).elim
  · exact ⟨rfl, k, goto_self .., hk⟩

section

variable (hok : Delivers s l) (hi : Inv s) (h : step n s l = some t) (hs : s.Stopped p)
  (ht : t.Stopped p) (hd : (s.cpus d).holds p = true)
include hok hi h hs ht hd

theorem Delivers.pending_kept
    (hsig : sig ∈ [sigcont, sigkill]) (hp : (s.procs p).pending sig = true) :
    (t.procs p).pending sig = true := by
  have hw := step_write h p
  generalize hq : t.procs p = q at hw
  generalize t.cpus l.cpu = a at hw
  cases hw with
  | post _ _ _ =>
    unfold Proc.post
    split
    · exact hp
    · rw [Proc.pending, getLsbD_or_bit]
      exact Bool.or_eq_true_iff.2 (.inl hp)
  | sigaction _ => exact (sigaction_field (f := (·.pending sig)) (fun _ _ _ _ => rfl) ..).trans hp
  | @pass sig' _ hc hstep =>
    by_cases he : sig = sig'
    · subst he
      rw [← hq, (hok.not_default h hs ht hc hsig hp).1, hp]
    · rw [(signalStep_ok hstep).pending_of_ne he, hp]
  | alloc hc =>
    have ha := hi.active hd
    rw [hi.embryo hc rfl] at ha
    cases ha
  | _ => exact hp

theorem Delivers.rescued_kept
    (hr : (s.procs p).rescued b = true) : (t.procs p).rescued b = true := by
  obtain ⟨sig, hsig, hp, hb⟩ := rescued_iff.1 hr
  exact rescued_iff.2 ⟨sig, hsig, hok.pending_kept hi h hs ht hd hsig hp, hb⟩

end

theorem Held.step_runs (hh : Held s g p) (hok : Delivers s l) (hi : Inv s)
    (h : step n s l = some t) (hs : s.Stopped p) (ht : t.Stopped p) (hc : t.cpus c = .running p k) :
    (t.procs p).rescued k.base = true := by
  by_cases hcl : c = l.cpu
  · subst hcl
    rcases step_ran h hc with ⟨pc, hpc, hk | hg⟩ | ⟨x, hsw, hx, rfl, rfl⟩
    · rw [hk]
      exact hok.rescued_kept hi h hs ht (holds_of_running hpc) (hh.runs _ _ hpc)
    · obtain ⟨sig, hsig, hp, hb⟩ := rescued_iff.1 (hh.runs _ _ hpc)
      have hp' := hok.pending_kept hi h hs ht (holds_of_running hpc) hsig hp
      rcases hg.ahead hb with hb' | hb'
      · exact rescued_iff.2 ⟨sig, hsig, hp', hb'⟩
      by_cases hbase : pc.base = pc
      · rw [← hbase, hb'] at hpc
        obtain ⟨_, k', hk', hkb⟩ := hok.not_default h hs ht hpc hsig hp
        cases hc.symm.trans hk'
        rcases hkb with hkb | rfl
        · rw [hkb, ← hb']
          exact rescued_iff.2 ⟨sig, hsig, hp', hb⟩
        · exact rescued_iff.2 ⟨sig, hsig, hp', rfl⟩
      · rcases step_detour h hpc hc hbase with hkb | rfl
        · rw [hkb]
          exact rescued_iff.2 ⟨sig, hsig, hp', hb⟩
        · exact rescued_iff.2 ⟨sig, hsig, hp', rfl⟩
    · rw [Context.resume_base]
      exact hh.next _ _ hsw hx
  · rw [step_others h hcl] at hc
    exact hok.rescued_kept hi h hs ht (holds_of_running hc) (hh.runs _ _ hc)

theorem Inv.context_eq (hi : Inv s) (h : Xv6Signals.step n s l = some t) (hcl : c ≠ l.cpu)
    (hd : (s.cpus c).dispatches p = true) : t.context p = s.context p := by
  have hh := holds_of_dispatches hd
  rcases step_contexts h with ⟨q, _, hq, rfl⟩ | ⟨q, _, hq, _, rfl⟩ | hctx
  · rw [goto_context]
    refine setContext_of_ne _ ?_
    rintro rfl
    exact hcl (hi.unique c l.cpu p hh (holds_of_running hq))
  · rw [goto_context]
    refine setContext_of_ne _ ?_
    rintro rfl
    refine hcl (hi.unique c l.cpu p hh (holds_of_dispatches ?_))
    rw [hq]
    exact beq_self_eq_true p
  · rcases hctx p with hp | ⟨_, r, hr⟩
    · exact hp
    · cases (hi.dispatch c p hd).symm.trans (hi.embryo hr rfl)

theorem Held.step_next {x : Context} (hh : Held s g p) (hok : Delivers s l) (hi : Inv s)
    (h : step n s l = some t) (hs : s.Stopped p) (ht : t.Stopped p) (hc : t.cpus c = .switchIn p)
    (hx : t.context p = some x) : (t.procs p).rescued x.resume = true := by
  by_cases hcl : c = l.cpu
  · subst hcl
    have hstep := step_control h
    generalize ha : s.cpus l.cpu = a at hstep
    rw [hc] at hstep
    cases hstep with
    | unfrozen hf _ => cases hs.1.symm.trans hf
    | allow hcan hprocs =>
      rw [hprocs]
      refine hok.let_through p (by rw [ha]; rfl) hcan x ?_
      rcases step_contexts h with ⟨_, _, hq, _⟩ | ⟨_, _, hq, _, _⟩ | hctx
      · cases ha.symm.trans hq
      · cases ha.symm.trans hq
      · rcases hctx p with hp | ⟨_, _, hr⟩
        · exact hp.symm.trans hx
        · cases ha.symm.trans hr
  · rw [step_others h hcl] at hc
    have hd : (s.cpus c).dispatches p = true := by
      rw [hc]
      exact beq_self_eq_true p
    rw [hi.context_eq h hcl hd] at hx
    exact hok.rescued_kept hi h hs ht (holds_of_dispatches hd) (hh.next _ _ hc hx)

theorem Held.step (hh : Held s g p) (hok : Delivers s l) (hi : Inv s) (h : step n s l = some t)
    (hs : s.Stopped p) (ht : t.Stopped p) : Held t (modesAfter g s l) p where
  mode := hh.step_mode
  next _ _ := hh.step_next hok hi h hs ht
  runs _ _ := hh.step_runs hok hi h hs ht

theorem step_user_mode (hg : g p = true → ∃ c, s.cpus c = .running p (.enabled .kernel))
    (h : step n s l = some t) (hp : modesAfter g s l p = true) :
    ∃ c, t.cpus c = .running p (.enabled .kernel) := by
  have kept (hp : g p = true) (hl : s.cpus l.cpu ≠ .running p (.enabled .kernel)) :
      ∃ c, t.cpus c = .running p (.enabled .kernel) := by
    obtain ⟨c, hc⟩ := hg hp
    have hcl : c ≠ l.cpu := by
      rintro rfl
      exact hl hc
    exact ⟨c, (step_others h hcl).trans hc⟩
  rcases modesAfter_cases g s l with ⟨q, j, hc, hch, hj, he⟩ | ⟨q, hc, he⟩ | ⟨he, hc⟩ <;>
    rw [he] at hp
  · by_cases hq : p = q
    · subst hq
      simp only [step, hc, hch, cpuStep, pointStep, dif_neg hj] at h
      cases h
      exact ⟨l.cpu, goto_self ..⟩
    · rw [update_of_ne hq] at hp
      exact kept hp fun he => by cases hc.symm.trans he
  · by_cases hq : p = q
    · subst hq
      rw [update_self] at hp
      cases hp
    · rw [update_of_ne hq] at hp
      exact kept hp (by rw [hc]; exact fun he => hq (by cases he; rfl))
  · by_cases hl : s.cpus l.cpu = .running p (.enabled .kernel)
    · obtain ⟨mem, tf, hch⟩ := hc p hl
      simp only [step, hl, hch] at h
      cases h
      exact ⟨l.cpu, hl⟩
    · exact kept hp hl

def modeMachine (Cpu : Type) [DecidableEq Cpu] (n : Nat) :
    Machine (Config Cpu × (Nat → Bool)) (Label Cpu) :=
  (ptable Cpu n).track (fun _ => false) modesAfter

theorem user_mode_running {ok : Config Cpu × (Nat → Bool) → Label Cpu → Prop}
    {s : Config Cpu × (Nat → Bool)} (h : (modeMachine Cpu n).Reach ok s) :
    s.2 p = true → ∃ c, s.1.cpus c = .running p (.enabled .kernel) := by
  refine h.invariant (P := fun s => s.2 p = true → ∃ c, s.1.cpus c = .running p (.enabled .kernel))
    ?_ ?_
  · rintro s ⟨_, hg⟩ hp
    rw [hg] at hp
    cases hp
  · intro s l t _ hinv _ h
    obtain ⟨u, hu, rfl⟩ := Option.map_eq_some_iff.1 h
    exact step_user_mode hinv hu

/-- A stopped process that has given up its CPU is not in user mode again before `sigcont_handler`
has cleared `frozen` or it has been marked killed. -/
theorem stopped_not_in_user_mode {s t : Config Cpu × (Nat → Bool)} (p : Nat)
    (hr : (modeMachine Cpu n).Reach (fun s l => Unovertaken s.1 l ∧ Delivers s.1 l) s)
    (hoff : ∀ c, (s.1.cpus c).holds p = false)
    (h : (modeMachine Cpu n).Path
      (fun s l => (Unovertaken s.1 l ∧ Delivers s.1 l) ∧ s.1.Stopped p) s t)
    (ht : t.1.Stopped p) : t.2 p = false := by
  have hmode : s.2 p = false := by
    rw [Bool.eq_false_iff]
    intro hp
    obtain ⟨c, hc⟩ := user_mode_running hr hp
    cases (hoff c).symm.trans (holds_of_running hc)
  suffices hheld : t.1.Stopped p → Held t.1 t.2 p from (hheld ht).mode
  clear ht
  induction h with
  | refl => exact fun _ => .of_not_held hoff hmode
  | @step u v l hpath hok hstep ih =>
    intro hv
    obtain ⟨w, hw, rfl⟩ := Option.map_eq_some_iff.1 hstep
    have hru := (hpath.mono fun _ _ h => h.1).reach hr
    have hi := Inv.reach (hru.untrack_mono fun _ _ h => h.1)
    exact (ih hok.2).step hok.1.2 hi hw hok.2 hv

def contRun (c : Cpu) : List (Label Cpu) :=
  [⟨c, .kill 2 sigcont⟩, ⟨c, .wait⟩] ++ advance c 16 ++ [⟨c, .trapret⟩] ++ advance c 15

theorem stopped_not_in_user_mode_until_cont : ∃ s t : Config (Fin 1) × (Nat → Bool),
    (modeMachine (Fin 1) 2).Path
      (fun s l => (Unovertaken s.1 l ∧ Delivers s.1 l) ∧ s.1.Stopped 1) s t ∧
    t.1.cpus 0 = .running 1 (.enabled (.signals 15)) ∧ t.1.Stopped 1 ∧ t.2 1 = false := by
  have hboot : (modeMachine (Fin 1) 2).Reach (fun s l => Unovertaken s.1 l ∧ Delivers s.1 l)
      (boot (fun _ => 0) 0x80400000, fun _ => false) := .init ⟨⟨by decide, _, _, rfl⟩, rfl⟩
  obtain ⟨s, t, hr, hoff, hpath, hc, ht⟩ := hboot.exists_stretch
    (R := fun s l => (Unovertaken s.1 l ∧ Delivers s.1 l) ∧ s.1.Stopped 1)
    (P := fun s => ∀ c, (s.1.cpus c).holds 1 = false)
    (Q := fun t => t.1.cpus 0 = .running 1 (.enabled (.signals 15)) ∧ t.1.Stopped 1)
    (l := stopRun 0 ++ [⟨0, .yield⟩] ++ advance 0 11) (m := contRun 0)
    (by decide +kernel) (by decide +kernel)
  exact ⟨s, t, hpath, hc, ht, stopped_not_in_user_mode 1 hr hoff hpath ht⟩

/-- A child that has handled SIGSTOP goes on to user mode from the same pass. -/
theorem stopped_in_user_mode : ∃ s : Config (Fin 1) × (Nat → Bool),
    (modeMachine (Fin 1) 2).Reachable s ∧ s.1.cpus 0 = .running 1 (.enabled .kernel) ∧
    s.1.Stopped 1 ∧ s.2 1 = true := by
  have hboot : (modeMachine (Fin 1) 2).Reachable
      (boot (fun _ => 0) 0x80400000, fun _ => false) := .init ⟨⟨by decide, _, _, rfl⟩, rfl⟩
  exact hboot.exists_run (l := stopRun 0) (Machine.permits_true ..) (by decide +kernel)

end Xv6Signals
