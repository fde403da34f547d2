import Xv6Signals.ProcTable.Fresh

namespace Xv6Signals
open Lib

variable {Cpu : Type} {s t : Config Cpu} {c d : Cpu} {i j p q r n : Nat} {pc k b : Pc}
  {l : Label Cpu} {sig : Sig} {g : Nat → Bool}

def ProcState.asleep : ProcState → Bool
  | .sleeping | .minusSleeping => true
  | _ => false

def killsNow (n : Nat) (s : Config Cpu) (l : Label Cpu) : Option Nat :=
  match s.cpus l.cpu, l.choice with
  | .running _ (.enabled .kernel), .kill pid sig =>
    if sig = sigkill then killTarget n s.procs pid sig else none
  | _, _ => none

def CpuPc.sleeps : CpuPc → Option Nat
  | .running p (.sleepCas _) | .running p .waitCas => some p
  | _ => none

def CpuPc.looksForKill : CpuPc → Option Nat
  | .running p (.enabled (.signals 9)) => some p
  | _ => none

/-- SIGKILL is sent to processes that are awake, a process does not go to sleep between the signal
and the pass that handles it, and the pass finds the entry SIG_DFL. -/
structure Heeds (n : Nat) (s : Config Cpu) (l : Label Cpu) : Prop where
  awake : ∀ i ∈ killsNow n s l, (s.state i).asleep = false
  sleeps : ∀ p ∈ (s.cpus l.cpu).sleeps, (s.procs p).pending sigkill = true →
    (s.procs p).killed = true
  byDefault : ∀ p ∈ (s.cpus l.cpu).looksForKill, (s.procs p).pending sigkill = true →
    (s.procs p).sigHandlers sigkill = sigDfl

instance decidableHeeds (n : Nat) (s : Config Cpu) (l : Label Cpu) : Decidable (Heeds n s l) :=
  decidable_of_iff (_ ∧ _ ∧ _)
    ⟨fun h => ⟨h.1, h.2.1, h.2.2⟩, fun h => ⟨h.awake, h.sleeps, h.byDefault⟩⟩

def CpuPc.resets : CpuPc → Option Nat
  | .running _ (.waitClearKilled i _) | .running _ (.enabled (.forkKalloc i)) => some i
  | _ => none

def sentAfter (n : Nat) (g : Nat → Bool) (s : Config Cpu) (l : Label Cpu) (i : Nat) : Bool :=
  if killsNow n s l = some i then true
  else if (s.cpus l.cpu).resets = some i then false
  else g i

def CpuPc.cleans : CpuPc → Option Nat
  | .clean i _ => some i
  | _ => none

/-- A process that has been sent SIGKILL is marked killed before it sleeps, and the clean-up after
it takes it out of its sleep again. -/
structure KillInv (s : Config Cpu) (g : Nat → Bool) : Prop where
  asleep : ∀ i, (s.state i).asleep = true → (s.procs i).pending sigkill = true →
    (s.procs i).killed = true
  cleaning : ∀ i, s.state i = .sleeping → (s.procs i).killed = true →
    ∃ c, s.cpus c = .clean i .killedTest ∨ s.cpus c = .clean i .unpark
  sent : ∀ i, g i = true → (s.procs i).pending sigkill = true ∨ (s.procs i).killed = true

theorem Write.killed {x : Proc} {a : CpuPc} (h : Write n s l i x a)
    (hk : (s.procs i).killed = true) : x.killed = true ∨ ∃ r pid, s.cpus l.cpu = .running r (.waitClearKilled i pid) := by
  cases h with
  | post _ _ _ => exact .inl ((post_field (fun _ _ => rfl) ..).trans hk)
  | fault _ => exact .inl rfl
  | sigaction _ => exact .inl ((sigaction_field (fun _ _ _ _ => rfl) ..).trans hk)
  | pass _ hq => exact .inl ((signalStep_ok hq).killed hk)
  | clearKilled hc => exact .inr ⟨_, _, hc⟩
  | _ => exact .inl hk

theorem SignalStep.marks_killed {x y : Proc} (h : SignalStep x sigkill y)
    (hp : x.pending sigkill = true) (hd : x.sigHandlers sigkill = sigDfl) : y.killed = true := by
  have hdisp : x.disposition sigkill = .kill := by
    unfold Proc.disposition
    rw [hd]
    rfl
  have hb : x.blocks sigkill = false := Bool.and_false _
  cases h with
  | idle hp' => cases hp.symm.trans hp'
  | discard _ hd' =>
    rcases hd' with hb' | hd'
    · cases hb.symm.trans hb'
    · cases hdisp.symm.trans hd'
  | kill _ _ _ => rfl
  | cont _ _ hd' => cases hdisp.symm.trans hd'
  | stop _ _ hd' => cases hdisp.symm.trans hd'
  | user _ _ hd' _ => cases hdisp.symm.trans hd'

theorem killsNow_eq {pid : Nat} (hc : s.cpus l.cpu = .running p (.enabled .kernel))
    (hl : l.choice = .kill pid sigkill) : killsNow n s l = killTarget n s.procs pid sigkill := by
  simp only [killsNow, hc, hl, if_true]

theorem killsNow_some (h : killsNow n s l = some i) : ∃ p pid,
    s.cpus l.cpu = .running p (.enabled .kernel) ∧ l.choice = .kill pid sigkill ∧
      killTarget n s.procs pid sigkill = some i := by
  unfold killsNow at h
  split at h
  · split at h
    · rename_i hsig
      subst hsig
      exact ⟨_, _, ‹_›, ‹_›, h⟩
    · cases h
  · cases h

theorem sentAfter_true (h : sentAfter n g s l i = true) :
    killsNow n s l = some i ∨ g i = true ∧ (s.cpus l.cpu).resets ≠ some i := by
  unfold sentAfter at h
  split at h
  · exact .inl ‹_›
  · split at h
    · cases h
    · exact .inr ⟨h, ‹_›⟩

theorem KillInv.boot (mem : Mem 32) (kstack : Word) :
    KillInv (boot mem kstack : Config Cpu) fun _ => false := by
  have hproc (i : Nat) : ((Xv6Signals.boot mem kstack : Config Cpu).procs i).killed = false ∧
      ((Xv6Signals.boot mem kstack : Config Cpu).state i).asleep = false := by
    simp only [Config.state, Xv6Signals.boot, Function.update_apply]
    split <;> exact ⟨rfl, rfl⟩
  refine ⟨fun i hs => ?_, fun i _ hk => ?_, fun i hi => ?_⟩
  · cases (hproc i).2.symm.trans hs
  · cases (hproc i).1.symm.trans hk
  · cases hi

variable [DecidableEq Cpu]

theorem step_killed_kept (hi : Inv s) (h : step n s l = some t) (hs : s.state i ≠ .minusUnused)
    (hk : (s.procs i).killed = true) : (t.procs i).killed = true := by
  rcases (step_write h i).killed hk with hk | ⟨r, pid, hc⟩
  · exact hk
  · exact (hs (hi.owned (.inl l.cpu) i .minusUnused (Config.owns_inl hc))).elim

theorem Heeds.pending_asleep (hok : Heeds n s l) (hi : Inv s) (h : step n s l = some t)
    (hs : (s.state i).asleep = true) (hp : (t.procs i).pending sigkill = true) :
    (s.procs i).pending sigkill = true := by
  rcases (step_write h i).psignals with he | ⟨p, pid, sig, hc, hl, hk, he⟩ | ⟨_, hc, _⟩ |
      ⟨_, _, hc, _⟩
  · rw [Proc.pending, he] at hp
    exact hp
  · rw [he] at hp
    rcases post_pending hp with hp | rfl
    · exact hp
    · cases hs.symm.trans (hok.awake i ((killsNow_eq hc hl).trans hk))
  · rw [hi.thread _ _ _ hc] at hs
    cases hs
  · rw [hi.embryo hc rfl] at hs
    cases hs

theorem KillInv.step_asleep (hg : KillInv s g) (hi : Inv s) (hok : Heeds n s l)
    (h : Xv6Signals.step n s l = some t) (ht : (t.state i).asleep = true)
    (hp : (t.procs i).pending sigkill = true) : (t.procs i).killed = true := by
  have kept (hs : (s.state i).asleep = true) : (t.procs i).killed = true := by
    refine step_killed_kept hi h ?_ (hg.asleep i hs (hok.pending_asleep hi h hs hp))
    intro he
    rw [he] at hs
    cases hs
  rcases step_state h i with hst | hst
  · rw [hst] at ht
    exact kept ht
  generalize t.state i = x at hst ht
  generalize t.cpus l.cpu = a at hst
  cases hst with
  | park _ hs => exact kept (by rw [hs]; rfl)
  | @handOver pc _ _ hc hh hs _ =>
    have hps : (s.procs i).pending sigkill = true := by
      rcases (step_write h i).psignals with he | ⟨_, _, _, hc', _⟩ | ⟨_, hc', _⟩ | ⟨_, _, hc', _⟩
      · rw [Proc.pending, he] at hp
        exact hp
      all_goals
        cases hc.symm.trans hc'
        cases hh
    refine step_killed_kept hi h (by rw [hs]; exact fun he => by cases he)
      (hok.sleeps i ?_ hps)
    rw [hc]
    cases pc <;> cases hh <;> first | rfl | cases ht
  | _ => cases ht

theorem KillInv.step_cleaning (hg : KillInv s g) (hi : Inv s)
    (h : Xv6Signals.step n s l = some t) (ht : t.state i = .sleeping)
    (hk : (t.procs i).killed = true) :
    ∃ c, t.cpus c = .clean i .killedTest ∨ t.cpus c = .clean i .unpark := by
  rcases step_state h i with hst | hst
  · have hs := hst.symm.trans ht
    have hks : (s.procs i).killed = true := by
      by_contra hne
      have hnot := step_not_killed hi h (Bool.eq_false_iff.2 hne)
        (by rw [hs]; exact fun he => by cases he)
      cases hk.symm.trans hnot
    obtain ⟨c, hc⟩ := hg.cleaning i hs hks
    by_cases hcl : c = l.cpu
    · subst hcl
      refine ⟨l.cpu, ?_⟩
      rcases hc with hc | hc
      · have hstep := step_control h
        rw [hc] at hstep
        generalize t.cpus l.cpu = a at hstep
        cases hstep with
        | clean hm =>
          cases hm with
          | killed _ => exact .inr rfl
          | alive ha => cases hks.symm.trans ha
        | cleanEnd hm => cases hm
      · exfalso
        simp only [step, hc] at h
        cases hch : l.choice <;> rw [hch] at h <;> cases h
        rw [cleanStep, cas_state, if_pos ⟨rfl, hs⟩] at ht
        cases ht
    · exact ⟨c, by rw [step_others h hcl]; exact hc⟩
  · rw [ht] at hst
    generalize ha : t.cpus l.cpu = a at hst
    cases hst with
    | park _ _ => exact ⟨l.cpu, .inl ha⟩
    | @handOver pc _ _ _ hh _ _ => cases pc <;> cases hh

theorem step_kill {pid : Nat} (h : step n s l = some t)
    (hc : s.cpus l.cpu = .running p (.enabled .kernel)) (hl : l.choice = .kill pid sig)
    (hk : killTarget n s.procs pid sig = some i) : t.procs i = (s.procs i).post sig := by
  simp only [step, hc, hl] at h
  cases h
  simp only [kill, hk, setProc_self]

theorem post_pending_of {x : Proc} {sig' : Sig} (h : x.pending sig = true) :
    (x.post sig').pending sig = true := by
  unfold Proc.post
  split
  · exact h
  · rw [Proc.pending, getLsbD_or_bit, Bool.or_eq_true]
    exact .inl h

theorem KillInv.step_sent (hg : KillInv s g) (hok : Heeds n s l)
    (h : Xv6Signals.step n s l = some t) (ht : sentAfter n g s l i = true) :
    (t.procs i).pending sigkill = true ∨ (t.procs i).killed = true := by
  rcases sentAfter_true ht with hk | ⟨hgi, hr⟩
  · obtain ⟨p, pid, hc, hl, hk⟩ := killsNow_some hk
    left
    rw [step_kill h hc hl hk, Proc.pending, Proc.post, if_neg (by decide), getLsbD_or_bit,
      decide_eq_true rfl, Bool.or_true]
  rcases hg.sent i hgi with hp | hk
  · rcases (step_write h i).psignals with he | ⟨_, _, _, _, _, _, he⟩ | ⟨sig, hc, hq⟩ |
        ⟨_, _, hc, _⟩
    · left
      rw [Proc.pending, he]
      exact hp
    · rw [he]
      exact .inl (post_pending_of hp)
    · by_cases hsig : sigkill = sig
      · subst hsig
        exact .inr ((signalStep_ok hq).marks_killed hp (hok.byDefault i (by rw [hc]; rfl) hp))
      · rw [(signalStep_ok hq).pending_of_ne hsig]
        exact .inl hp
    · rw [hc] at hr
      exact (hr rfl).elim
  · rcases (step_write h i).killed hk with hk | ⟨r, pid, hc⟩
    · exact .inr hk
    · rw [hc] at hr
      exact (hr rfl).elim

theorem KillInv.step (hg : KillInv s g) (hi : Inv s) (hok : Heeds n s l)
    (h : step n s l = some t) : KillInv t (sentAfter n g s l) where
  asleep _ := hg.step_asleep hi hok h
  cleaning _ := hg.step_cleaning hi h
  sent _ := hg.step_sent hok h

def killMachine (Cpu : Type) [DecidableEq Cpu] (n : Nat) :
    Machine (Config Cpu × (Nat → Bool)) (Label Cpu) :=
  (ptable Cpu n).track (fun _ => false) (sentAfter n)

theorem KillInv.reach {s : Config Cpu × (Nat → Bool)}
    (h : (killMachine Cpu n).Reach (fun s l => Unovertaken s.1 l ∧ Heeds n s.1 l) s) :
    KillInv s.1 s.2 := by
  refine h.invariant (P := fun s => KillInv s.1 s.2) ?_ ?_
  · rintro s ⟨⟨_, mem, kstack, hs⟩, hg⟩
    rw [hs, hg]
    exact KillInv.boot mem kstack
  · intro s l t hr hg hok h
    obtain ⟨u, hu, rfl⟩ := Option.map_eq_some_iff.1 h
    exact hg.step (Inv.reach (hr.untrack_mono fun _ _ h => h.1)) hok.2 hu

/-- In runs in which no hand-over is overtaken, SIGKILL is sent to processes that are awake, none
goes to sleep before the pass that handles it and the pass finds the default entry, a process that
has been sent SIGKILL is not left SLEEPING by the clean-up after it. -/
theorem sigkill_wakes {s : Config Cpu} {g : Nat → Bool}
    (h : (killMachine Cpu n).Reach (fun s l => Unovertaken s.1 l ∧ Heeds n s.1 l) (s, g)) (i : Nat)
    (hi : g i = true) (hdone : ∀ c, (s.cpus c).cleans ≠ some i) : s.state i ≠ .sleeping := by
  intro hs
  have hg := KillInv.reach h
  have hk : (s.procs i).killed = true := by
    rcases hg.sent i hi with hp | hk
    · exact hg.asleep i (by rw [hs]; rfl) hp
    · exact hk
  obtain ⟨c, hc⟩ := hg.cleaning i hs hk
  apply hdone c
  rcases hc with hc | hc <;> rw [hc] <;> rfl

theorem sigkill_wakes_exiting : ∃ (s : Config (Fin 1)) (g : Nat → Bool),
    (killMachine (Fin 1) 2).Reach (fun s l => Unovertaken s.1 l ∧ Heeds 2 s.1 l) (s, g) ∧
    g 1 = true ∧ s.context 1 = some (.saved .sleep) ∧ s.state 1 ≠ .sleeping := by
  have hboot : (killMachine (Fin 1) 2).Reach (fun s l => Unovertaken s.1 l ∧ Heeds 2 s.1 l)
      (boot (fun _ => 0) 0x80400000, fun _ => false) := .init ⟨⟨by decide, _, _, rfl⟩, rfl⟩
  obtain ⟨⟨s, g⟩, hr, hg, hx, hc⟩ := hboot.exists_run (l := killedRun 0)
    (P := fun s => s.2 1 = true ∧ s.1.context 1 = some (.saved .sleep) ∧
      ∀ c, (s.1.cpus c).cleans ≠ some 1) (by decide +kernel) (by decide +kernel)
  exact ⟨s, g, hr, hg, hx, sigkill_wakes hr 1 hg hc⟩

def killSleeper (c : Cpu) : List (Label Cpu) :=
  forkFirst c ++ [⟨c, .yield⟩] ++ advance c 42 ++ [⟨c, .sleep (.addr 5)⟩] ++ advance c 13 ++
    [⟨c, .kill 2 sigkill⟩]

theorem sigkill_leaves_asleep : ∃ (s : Config (Fin 1)) (g : Nat → Bool),
    (killMachine (Fin 1) 2).Reachable (s, g) ∧ g 1 = true ∧ (∀ c, (s.cpus c).cleans ≠ some 1) ∧
    s.state 1 = .sleeping := by
  have hboot : (killMachine (Fin 1) 2).Reachable
      (boot (fun _ => 0) 0x80400000, fun _ => false) := .init ⟨⟨by decide, _, _, rfl⟩, rfl⟩
  obtain ⟨⟨s, g⟩, hr, h⟩ := hboot.exists_run (l := killSleeper 0)
    (P := fun s => s.2 1 = true ∧ (∀ c, (s.1.cpus c).cleans ≠ some 1) ∧ s.1.state 1 = .sleeping)
    (Machine.permits_true ..) (by decide +kernel)
  exact ⟨s, g, hr, h⟩

end Xv6Signals
