import Xv6Signals.ProcTable.Channels

namespace Xv6Signals
open Lib

variable {Cpu : Type} {s t : Config Cpu} {c d : Cpu} {i j p n : Nat} {pc b : Pc} {ch : Chan}

/-- Some waker has taken the process out of SLEEPING and has its closing `cas` ahead of it. -/
def Config.Waking (s : Config Cpu) (p : Nat) : Prop :=
  ∃ d w, (s.cpus d).wake = some w ∧ w.slot = p ∧ w.point.ends = true

/-- The process is in a `sleep` on the channel, or a waker is just taking it out of it. -/
structure Dozing (s : Config Cpu) (p : Nat) (ch : Chan) : Prop where
  thread : s.At p (.swtch .sleep)
  chan : (s.procs p).chan = ch
  state : s.state p = .minusSleeping ∨ s.state p = .sleeping ∨
    s.state p = .minusRunnable ∧ s.Waking p

theorem Dozing.resumable (hd : Dozing s p ch) : (s.state p).resumable = true := by
  rcases hd.state with h | h | ⟨h, _⟩ <;> rw [h] <;> rfl

theorem Dozing.not_running (hd : Dozing s p ch) : s.state p ≠ .running := by
  rcases hd.state with h | h | ⟨h, _⟩ <;> rw [h] <;> nofun

theorem Dozing.running_at (hd : Dozing s p ch) (hi : Inv s) (hs : Settled s)
    (hc : s.cpus c = .running p pc) : pc = .sched .sleep ∨ pc = .swtch .sleep := by
  have hb := hs.at_unique hi (.running hc) hd.thread
  cases pc with
  | sched h => cases h <;> first | exact .inl rfl | cases hb
  | swtch h => cases h <;> first | exact .inr rfl | cases hb
  | wakeup w k => cases k <;> cases hb
  | _ => cases hb

theorem StateStep.of_minusRunnable {x : ProcState} {b : CpuPc} (h : StateStep s c i x b)
    (hi : Inv s) (hm : s.state i = .minusRunnable) : x = .runnable := by
  cases h with
  | ready _ _ => rfl
  | woken _ _ _ => rfl
  | fail hc hk => cases hm.symm.trans (hi.failing hc hk)
  | _ => cases hm.symm.trans ‹s.state i = _›

theorem Dozing.past {w w' : Wake} (hd : Dozing s p ch) (hm : WakeMove n s t w (some w'))
    (hc : w.chan = ch) (hp : w'.past p) :
    w.past p ∨ s.state p = .minusRunnable ∨ t.state p = .minusRunnable := by
  rcases hm.past hp with hp | ⟨hs, hs'⟩ | hne | ⟨_, ht⟩ | hr
  · exact .inl hp
  · rcases hd.state with h | h | ⟨h, _⟩
    · exact (hs' h).elim
    · exact (hs h).elim
    · exact .inr (.inl h)
  · exact (hne (hd.chan.trans hc.symm)).elim
  · exact .inr (.inr ht)
  · exact (hd.not_running hr).elim

variable [DecidableEq Cpu] {l : Label Cpu}

theorem Dozing.step_chan (hd : Dozing s p ch) (hi : Inv s) (hs : Settled s)
    (h : step n s l = some t) : (t.procs p).chan = ch := by
  rcases (step_fields h p).chan with hf | hf
  · rw [hf, hd.chan]
  · cases hf.writesChan hi hs hd.thread hd.resumable

theorem Config.Waking.step (hw : s.Waking p) (h : step n s l = some t)
    (hs : s.state p = .minusRunnable) (ht : t.state p = .minusRunnable) : t.Waking p := by
  obtain ⟨d, w, hw, hslot, he⟩ := hw
  by_cases hd : d = l.cpu
  · subst hd
    obtain ⟨w', hm, hw'⟩ := step_wake h hw
    cases hm with
    | settle _ => exact ⟨l.cpu, _, hw', hslot, rfl⟩
    | drop hr =>
      cases hslot
      cases hs.symm.trans hr
    | finish hf =>
      cases hslot
      rcases hf with ⟨_, hf⟩ | ⟨hf, _⟩
      · cases ht.symm.trans hf
      · exact (hf hs).elim
    | _ => cases he
  · exact ⟨d, w, by rw [step_others h hd, hw], hslot, he⟩

section

variable (hd : Dozing s p ch) (hi : Inv s) (hs : Settled s) (h : step n s l = some t)
include hd hi hs h

theorem Dozing.step_state (ht : t.state p ≠ .runnable) :
    t.state p = .minusSleeping ∨ t.state p = .sleeping ∨
      t.state p = .minusRunnable ∧ t.Waking p := by
  rcases Xv6Signals.step_state h p with hst | hst
  · rcases hd.state with hp | hp | ⟨hp, hw⟩
    · exact .inl (hst.trans hp)
    · exact .inr (.inl (hst.trans hp))
    · exact .inr (.inr ⟨hst.trans hp, hw.step h hp (hst.trans hp)⟩)
  have hr := hd.resumable
  generalize hx : t.state p = x at hst ht ⊢
  generalize hb : t.cpus l.cpu = b at hst
  have gone {y : ProcState} (hy : s.state p = y) (hn : y.resumable = false) : False := by
    rw [hy, hn] at hr
    cases hr
  cases hst with
  | park _ _ => exact .inr (.inl rfl)
  | wake _ _ hw => exact .inr (.inr ⟨rfl, l.cpu, _, by rw [hb]; exact hw, rfl, rfl⟩)
  | pick _ hp => rcases hd.state with h' | h' | ⟨h', _⟩ <;> cases hp.symm.trans h'
  | handOver _ _ hp _ => exact (hd.not_running hp).elim
  | comeBack hc hb _ _ =>
    rcases hd.running_at hi hs hc with rfl | rfl <;> cases hb
  | bury _ hp => exact (gone hp rfl).elim
  | reap _ hp => exact (gone hp rfl).elim
  | free _ hp => exact (gone hp rfl).elim
  | take _ hp => exact (gone hp rfl).elim
  | fail hc hk => exact (gone (hi.failing hc hk) rfl).elim
  | _ => exact (ht rfl).elim

theorem Dozing.step_thread (hi' : Inv t) (ht : t.state p ≠ .running) : t.At p (.swtch .sleep) := by
  rcases hd.thread with ⟨c, pc, hc, hb⟩ | ⟨h', hx, hb⟩
  · by_cases hcl : c = l.cpu
    · subst hcl
      rcases step_runs h hc with ⟨k, hk, hkb | hg⟩ | ⟨h', rfl, rfl⟩
      · exact .inl ⟨l.cpu, k, hk, hkb.trans hb⟩
      · rw [hb] at hg
        generalize hkb : k.base = kb at hg
        cases hg with
        | panic =>
          have hrun := hi'.thread _ _ _ hk
          cases k with
          | panicked => exact (ht hrun).elim
          | sched h => cases h <;> cases hkb
          | swtch h => cases h <;> cases hkb
          | wakeup w j => cases j <;> cases hkb
          | _ => cases hkb
      · exact .inr ⟨h', setContext_self .., hb⟩
    · exact .inl ⟨c, pc, by rw [step_others h hcl, hc], hb⟩
  · refine .inr ⟨h', ?_, hb⟩
    rcases step_contexts h with ⟨q, _, hq, rfl⟩ | ⟨q, _, hq, _, rfl⟩ | hctx
    · have hne : p ≠ q := by
        rintro rfl
        cases (hs.once _ _ _ hq).symm.trans hx
      rw [goto_context, setContext_of_ne _ hne, hx]
    · have hne : p ≠ q := by
        rintro rfl
        refine hd.not_running (hi.dispatch l.cpu p ?_)
        rw [hq]
        exact beq_self_eq_true p
      rw [goto_context, setContext_of_ne _ hne, hx]
    · rcases hctx p with hp | ⟨_, r, hr⟩
      · rw [hp, hx]
      · have hres := hd.resumable
        rw [hi.embryo hr rfl] at hres
        cases hres

theorem Dozing.step (hi' : Inv t) (ht : t.state p ≠ .runnable) : Dozing t p ch := by
  have hst := hd.step_state hi hs h ht
  have hr : t.state p ≠ .running := by
    rcases hst with h | h | ⟨h, _⟩ <;> rw [h] <;> nofun
  exact ⟨hd.step_thread hi hs h hi' hr, hd.step_chan hi hs h, hst⟩

end

theorem Dozing.commit (hr : (ptable Cpu n).Reach Unovertaken s)
    (hc : s.cpus c = .running p (.sleepCas ch)) {choice : Choice}
    (h : Xv6Signals.step n s ⟨c, choice⟩ = some t) : Dozing t p ch := by
  have hi := Inv.reach hr
  have hp : s.state p = .running := hi.thread c p _ hc
  have hchan := Tuned.reach hr p (.sleepCas ch) ch (.running hc) rfl
  have ht : t = (s.setProc p { s.procs p with state := .minusSleeping }).goto c
      (.running p (.sched .sleep)) := by
    simp only [Xv6Signals.step, hc] at h
    cases choice <;> cases h
    exact cas_pos _ _ hp
  subst ht
  refine ⟨.inl ⟨c, _, goto_self .., rfl⟩, ?_, .inl (setProc_state_self ..)⟩
  rw [goto_procs, setProc_self]
  exact hchan

theorem Dozing.keeps_minusRunnable (hi : Inv s) (h : Xv6Signals.step n s l = some t)
    (hs : s.state p = .minusRunnable) (ht : t.state p ≠ .runnable) :
    t.state p = .minusRunnable := by
  rcases Xv6Signals.step_state h p with hst | hst
  · rw [hst, hs]
  · exact (ht (hst.of_minusRunnable hi hs)).elim

/-- A wakeup on the channel of a sleeping process that has passed it, or has left its loop there,
has found it MINUS_RUNNABLE. -/
structure Watched (s : Config Cpu) (p : Nat) (ch : Chan) (d : Cpu) : Prop extends
    Dozing s p ch where
  chan_eq : ∀ w, (s.cpus d).wake = some w → w.chan = ch
  past : ∀ w, (s.cpus d).wake = some w → w.past p → s.state p = .minusRunnable

theorem Watched.step (hw : Watched s p ch d) (hi : Inv s) (hs : Settled s)
    (h : Xv6Signals.step n s l = some t) (hi' : Inv t) (ht : t.state p ≠ .runnable)
    (hd : (s.cpus d).wake.isSome = true) : Watched t p ch d := by
  have hdoze := hw.toDozing
  have keeps : s.state p = .minusRunnable → t.state p = .minusRunnable := fun hp =>
    Dozing.keeps_minusRunnable hi h hp ht
  refine ⟨hdoze.step hi hs h hi' ht, fun w hw' => ?_, fun w hw' hp => ?_⟩
  · by_cases hl : d = l.cpu
    · subst hl
      obtain ⟨w₀, hw₀⟩ := Option.isSome_iff_exists.1 hd
      obtain ⟨_, hm, he⟩ := step_wake h hw₀
      rw [hw'] at he
      subst he
      rw [hm.chan, hw.chan_eq w₀ hw₀]
    · rw [step_others h hl] at hw'
      exact hw.chan_eq w hw'
  by_cases hl : d = l.cpu
  · subst hl
    obtain ⟨w₀, hw₀⟩ := Option.isSome_iff_exists.1 hd
    obtain ⟨_, hm, he⟩ := step_wake h hw₀
    rw [hw'] at he
    subst he
    rcases hdoze.past hm (hw.chan_eq w₀ hw₀) hp with hp | hp | hp
    · exact keeps (hw.past w₀ hw₀ hp)
    · exact keeps hp
    · exact hp
  · rw [step_others h hl] at hw'
    exact keeps (hw.past w hw' hp)

def Unwoken (p : Nat) (s : Config Cpu) (l : Label Cpu) : Prop :=
  Unovertaken s l ∧ s.state p ≠ .runnable

instance [Fintype Cpu] (p : Nat) (s : Config Cpu) (l : Label Cpu) : Decidable (Unwoken p s l) :=
  inferInstanceAs (Decidable (_ ∧ _))

def Scanning (d : Cpu) (p : Nat) (s : Config Cpu) (l : Label Cpu) : Prop :=
  Unwoken p s l ∧ (s.cpus d).wake.isSome = true

instance [Fintype Cpu] (d : Cpu) (p : Nat) (s : Config Cpu) (l : Label Cpu) :
    Decidable (Scanning d p s l) :=
  inferInstanceAs (Decidable (_ ∧ _))

theorem Dozing.path (hr : (ptable Cpu n).Reach Unovertaken s) (hd : Dozing s p ch)
    (h : (ptable Cpu n).Path (Unwoken p) s t) :
    (ptable Cpu n).Reach Unovertaken t ∧ (t.state p ≠ .runnable → Dozing t p ch) := by
  refine h.invariant (P := fun t => (ptable Cpu n).Reach Unovertaken t ∧
    (t.state p ≠ .runnable → Dozing t p ch)) ⟨hr, fun _ => hd⟩ ?_
  rintro u l v ⟨hr, hd⟩ ⟨hok, hu⟩ h
  have hr' := Machine.Reach.step hr hok h
  exact ⟨hr', (hd hu).step (Inv.reach hr) (Settled.reach hr) h (Inv.reach hr')⟩

theorem Watched.path (hr : (ptable Cpu n).Reach Unovertaken s) (hw : Watched s p ch d)
    (h : (ptable Cpu n).Path (Scanning d p) s t) (ht : t.state p ≠ .runnable) :
    Watched t p ch d := by
  refine (h.invariant (P := fun t => (ptable Cpu n).Reach Unovertaken t ∧
    (t.state p ≠ .runnable → Watched t p ch d)) ⟨hr, fun _ => hw⟩ ?_).2 ht
  rintro u l v ⟨hr, hw⟩ ⟨⟨hok, hu⟩, hsome⟩ h
  have hr' := Machine.Reach.step hr hok h
  exact ⟨hr', fun hv =>
    (hw hu).step (Inv.reach hr) (Settled.reach hr) h (Inv.reach hr') hv hsome⟩

/-- A process commits to a sleep on `ch`, a wakeup on `ch` starts on CPU `d` afterwards, and its
scan has passed the slot of the process, which has not been RUNNABLE since it committed. Then
another waker has the process in MINUS_RUNNABLE, with its closing `cas` ahead of it. -/
theorem wakeup_not_lost {s₀ s₁ s₂ s₃ : Config Cpu} {w : Wake}
    (h₀ : (ptable Cpu n).Reach Unovertaken s₀) (hsleep : s₀.cpus c = .running p (.sleepCas ch))
    (hok : Unovertaken s₀ ⟨c, .go⟩) (h₁ : step n s₀ ⟨c, .go⟩ = some s₁)
    (h₂ : (ptable Cpu n).Path (Unwoken p) s₁ s₂) (hstart : (s₂.cpus d).wake = some ⟨ch, 0, .test⟩)
    (h₃ : (ptable Cpu n).Path (Scanning d p) s₂ s₃) (hw : (s₃.cpus d).wake = some w)
    (hpast : p < w.slot) (hp : s₂.state p ≠ .runnable) (hp' : s₃.state p ≠ .runnable) :
    s₃.state p = .minusRunnable ∧
      ∃ d' w', d' ≠ d ∧ (s₃.cpus d').wake = some w' ∧ w'.slot = p ∧ w'.point.ends = true := by
  have hr₁ := Machine.Reach.step h₀ hok h₁
  obtain ⟨hr₂, hd₂⟩ := Dozing.path hr₁ (Dozing.commit h₀ hsleep h₁) h₂
  have hw₂ : Watched s₂ p ch d := by
    refine ⟨hd₂ hp, fun w hw => ?_, fun w hw hpast => ?_⟩
    · cases hstart.symm.trans hw
      rfl
    · cases hstart.symm.trans hw
      rcases hpast with h | ⟨_, h⟩
      · exact (Nat.not_lt_zero _ h).elim
      · cases h
  have hw₃ := hw₂.path hr₂ h₃ hp'
  have hm := hw₃.past w hw (.inl hpast)
  refine ⟨hm, ?_⟩
  rcases hw₃.state with h | h | ⟨_, d', w', hw', hslot, he⟩
  · cases hm.symm.trans h
  · cases hm.symm.trans h
  · refine ⟨d', w', ?_, hw', hslot, he⟩
    rintro rfl
    cases hw.symm.trans hw'
    omega

def beforeSleep (c : Cpu) : List (Label Cpu) :=
  advance c 37 ++ [⟨c, .sleep (.addr 5)⟩] ++ advance c 1

/-- It is parked; the other CPU takes it out of SLEEPING and stops; then its own CPU starts a
wakeup. -/
def secondWakeup (c d : Cpu) : List (Label Cpu) :=
  advance c 7 ++ [⟨d, .wakeup (.addr 5)⟩] ++ advance d 3 ++ [⟨c, .wakeup (.addr 5)⟩]

theorem secondWakeup_runs : ∃ s₀ s₁ s₂ s₃ : Config (Fin 2),
    (ptable (Fin 2) 1).Reach Unovertaken s₀ ∧
    s₀.cpus 0 = .running 0 (.sleepCas (.addr 5)) ∧ Unovertaken s₀ ⟨0, .go⟩ ∧
    step 1 s₀ ⟨0, .go⟩ = some s₁ ∧ (ptable (Fin 2) 1).Path (Unwoken 0) s₁ s₂ ∧
    (s₂.cpus 0).wake = some ⟨.addr 5, 0, .test⟩ ∧ s₂.state 0 ≠ .runnable ∧
    (ptable (Fin 2) 1).Path (Scanning 0 0) s₂ s₃ ∧
    (s₃.cpus 0).wake = some ⟨.addr 5, 1, .test⟩ ∧ s₃.state 0 = .minusRunnable := by
  have hboot : (ptable (Fin 2) 1).Reach Unovertaken (boot (fun _ => 0) 0x80400000) :=
    boot_reach (by decide) _ _
  let last (s : Config (Fin 2)) : Prop :=
    (s.cpus 0).wake = some ⟨.addr 5, 1, .test⟩ ∧ s.state 0 = .minusRunnable
  let third (s : Config (Fin 2)) : Prop := (s.cpus 0).wake = some ⟨.addr 5, 0, .test⟩ ∧
    s.state 0 ≠ .runnable ∧ (ptable (Fin 2) 1).Permits (Scanning 0 0) s (advance 0 1) ∧
    ((ptable (Fin 2) 1).run s (advance 0 1)).any (fun t => decide (last t)) = true
  let second (s : Config (Fin 2)) : Prop :=
    (ptable (Fin 2) 1).Permits (Unwoken 0) s (secondWakeup 0 1) ∧
    ((ptable (Fin 2) 1).run s (secondWakeup 0 1)).any (fun t => decide (third t)) = true
  obtain ⟨s₀, h₀, hc, hok, hs⟩ := hboot.exists_run (l := beforeSleep 0)
    (P := fun s => s.cpus 0 = .running 0 (.sleepCas (.addr 5)) ∧ Unovertaken s ⟨0, .go⟩ ∧
      (step 1 s ⟨0, .go⟩).any (fun t => decide (second t)) = true)
    (by decide +kernel) (by decide +kernel)
  obtain ⟨s₁, h₁, hs⟩ := (Option.any_eq_true ..).1 hs
  obtain ⟨hl, hr⟩ := of_decide_eq_true hs
  obtain ⟨s₂, h₂, hw, hp, hl, hr⟩ := Machine.Path.exists_run hl hr
  obtain ⟨s₃, h₃, hw', hp'⟩ := Machine.Path.exists_run hl hr
  exact ⟨s₀, s₁, s₂, s₃, h₀, hc, hok, h₁, h₂, hw, hp, h₃, hw', hp'⟩

theorem wakeup_not_lost_second : ∃ s : Config (Fin 2), (ptable (Fin 2) 1).Reach Unovertaken s ∧
    (s.cpus 0).wake = some ⟨.addr 5, 1, .test⟩ ∧ s.state 0 = .minusRunnable ∧
    ∃ d w, d ≠ 0 ∧ (s.cpus d).wake = some w ∧ w.slot = 0 ∧ w.point.ends = true := by
  obtain ⟨s₀, s₁, s₂, s₃, h₀, hc, hok, h₁, h₂, hw, hp, h₃, hw', hp'⟩ := secondWakeup_runs
  have hne : s₃.state 0 ≠ .runnable := by rw [hp']; nofun
  have hr := (h₂.mono fun _ _ h => h.1).reach (.step h₀ hok h₁)
  exact ⟨s₃, (h₃.mono fun _ _ h => h.1.1).reach hr, hw',
    wakeup_not_lost h₀ hc hok h₁ h₂ hw h₃ hw' (by decide) hp hne⟩

/-- The second of two wakeups passes the process while it is MINUS_RUNNABLE and has not been
RUNNABLE since it committed to its sleep. -/
theorem passed_before_runnable : ∃ s₀ s₁ s₂ s₃ : Config (Fin 2), (ptable (Fin 2) 1).Reachable s₀ ∧
    s₀.cpus 0 = .running 0 (.sleepCas (.addr 5)) ∧ step 1 s₀ ⟨0, .go⟩ = some s₁ ∧
    (ptable (Fin 2) 1).Path (fun s _ => s.state 0 ≠ .runnable) s₁ s₂ ∧
    (s₂.cpus 0).wake = some ⟨.addr 5, 0, .test⟩ ∧
    (ptable (Fin 2) 1).Path
      (fun s _ => s.state 0 ≠ .runnable ∧ (s.cpus 0).wake.isSome = true) s₂ s₃ ∧
    (s₃.cpus 0).wake = some ⟨.addr 5, 1, .test⟩ ∧ s₃.state 0 = .minusRunnable := by
  obtain ⟨s₀, s₁, s₂, s₃, h₀, hc, _, h₁, h₂, hw, _, h₃, hw', hp'⟩ := secondWakeup_runs
  exact ⟨s₀, s₁, s₂, s₃, h₀.mono fun _ _ _ => trivial, hc, h₁, h₂.mono fun _ _ h => h.2, hw,
    h₃.mono fun _ _ h => ⟨h.1.2, h.2⟩, hw', hp'⟩

end Xv6Signals
