import Xv6Signals.ProcTable.Channels

namespace Xv6Signals
open Lib

variable {Cpu : Type} {s t : Config Cpu} {c d : Cpu} {i j p q n : Nat} {pc b : Pc} {a : CpuPc}
  {x : ProcState}

def Pc.scanned (i : Nat) : Pc → Bool
  | .waitScan k _ | .waitReap k => decide (i < k)
  | .swtch .wait => true
  | _ => false

/-- Process `q` is in `wait`, asleep or on its way there, and has passed slot `i`. -/
def Config.Scanned (s : Config Cpu) (q i : Nat) : Prop :=
  ∃ b, s.At q b ∧ b.scanned i = true ∧ (s.state q = .minusSleeping ∨ s.state q = .sleeping)

/-- A CPU is in a `wakeup1` on process `q` that has not passed its slot, or is about to start one
for its child in slot `i`: it has just buried the child, or its exiting process has handed the child
to `init`. -/
def Config.Notifying (s : Config Cpu) (q i : Nat) : Prop :=
  (∃ d w, (s.cpus d).wake = some w ∧ w.chan = .proc q ∧ ¬ w.past q) ∨
    (∃ d, s.cpus d = .clean i .parent) ∨
    q = initproc ∧ ∃ d r, s.cpus d = .running r (.exitTest i)

def Pc.plain : Pc → Bool
  | .enabled _ | .swtch _ | .exitScan _ => false
  | _ => true

theorem Pc.eq_of_base (h : pc.base = b) (hb : b.plain = true) : pc = b := by
  cases pc with
  | sched h' => cases h' <;> cases h <;> cases hb
  | swtch h' => cases h' <;> cases h <;> cases hb
  | wakeup w k => cases k <;> cases h <;> cases hb
  | yieldCas k => cases h; cases hb
  | _ => exact h

theorem Config.Scanned.not_running (h : s.Scanned q i) : s.state q ≠ .running := by
  obtain ⟨_, _, _, h | h⟩ := h <;> rw [h] <;> nofun

theorem Config.Scanned.chan (h : s.Scanned q i) (hu : Tuned s) : (s.procs q).chan = .proc q := by
  obtain ⟨b, ha, hb, _⟩ := h
  refine hu q b _ ha ?_
  cases b with
  | swtch h' => cases h' <;> first | rfl | cases hb
  | _ => first | rfl | cases hb

def Pc.writesParent : Pc → Bool
  | .enabled (.forkCopy _) | .waitClearParent _ _ | .exitAdopt _ => true
  | _ => false

theorem ParentStep.writesParent {x : Option Nat} (h : ParentStep s c i x a)
    (hc : s.cpus c = .running p pc) : pc.writesParent = true := by
  cases h with
  | fork hc' => cases hc.symm.trans hc'; rfl
  | clear hc' => cases hc.symm.trans hc'; rfl
  | adopt hc' => cases hc.symm.trans hc'; rfl

theorem Pc.handsOver_ne_sleeping (h : pc.handsOver = some .sleeping) : False := by
  cases pc <;> cases h

theorem Pc.handsOver_ne_zombie (h : pc.handsOver = some .zombie) : False := by
  cases pc <;> cases h

theorem StateStep.zombie (h : StateStep s c i x a) (hx : x = .zombie) :
    s.cpus c = .clean i .bury ∧ a = .clean i .parent := by
  cases h with
  | bury hc _ => exact ⟨hc, rfl⟩
  | handOver _ hh _ _ =>
    subst hx
    exact (Pc.handsOver_ne_zombie hh).elim
  | _ => cases hx

theorem StateStep.asleep (h : StateStep s c i x a) (hx : x = .minusSleeping ∨ x = .sleeping) :
    (∃ pc, s.cpus c = .running i pc ∧ pc.handsOver = some .minusSleeping) ∨
      s.state i = .minusSleeping := by
  cases h with
  | handOver hc hh _ _ =>
    rcases hx with rfl | rfl
    · exact .inl ⟨_, hc, hh⟩
    · exact (Pc.handsOver_ne_sleeping hh).elim
  | park _ hs => exact .inr hs
  | _ => rcases hx with hx | hx <;> cases hx

variable [DecidableEq Cpu] {l : Label Cpu}

theorem step_parent (h : step n s l = some t) (hc : s.cpus l.cpu = .running p pc)
    (hp : pc.writesParent = false) (i : Nat) : (t.procs i).parent = (s.procs i).parent := by
  rcases (step_fields h i).parent with hf | hf
  · exact hf
  · cases hp.symm.trans (hf.writesParent hc)

theorem Config.Scanned.back (hi : Inv s) (hs : Settled s)
    (h : step n s l = some t) (hsc : t.Scanned q i) (hin : i < n)
    (hpar : (t.procs i).parent = some q) (hz : t.state i = .zombie) : s.Scanned q i := by
  obtain ⟨b, ht, hb, hq⟩ := hsc
  rcases step_at h ht with ha | ⟨pc, _, hc, _, _, hg⟩ | he
  · refine ⟨b, ha, hb, ?_⟩
    rcases step_state h q with hst | hst
    · rw [← hst]
      exact hq
    · rcases hst.asleep hq with ⟨pc, hc, hh⟩ | hst
      · rw [hs.at_unique hi ha (.running hc)] at hb
        cases pc <;> cases hh <;> cases hb
      · exact .inl hst
  · have here {b' : Pc} (hpc : pc.base = b') (hplain : b'.plain = true)
        (hstate : b'.state = .minusSleeping) (hb : b'.scanned i = true) : s.Scanned q i := by
      have hpc := Pc.eq_of_base hpc hplain
      subst hpc
      refine ⟨pc.base, .running hc, ?_, .inl ((hi.thread _ _ _ hc).trans hstate)⟩
      rw [‹pc.base = pc›]
      exact hb
    generalize hpc : pc.base = b₀ at hg
    cases hg with
    | waitChild _ => exact here hpc rfl rfl hb
    | waitSched hk =>
      refine here hpc rfl rfl (decide_eq_true ?_)
      omega
    | waitOther hne =>
      have hpc' := Pc.eq_of_base hpc rfl
      subst hpc'
      rcases Nat.lt_or_eq_of_le (Nat.le_of_lt_succ (of_decide_eq_true hb)) with hlt | rfl
      · exact here hpc rfl rfl (decide_eq_true hlt)
      · rw [step_parent h hc rfl] at hpar
        exact (hne hpar).elim
    | waitLive hne =>
      have hpc' := Pc.eq_of_base hpc rfl
      subst hpc'
      rcases Nat.lt_or_eq_of_le (Nat.le_of_lt_succ (of_decide_eq_true hb)) with hlt | rfl
      · exact here hpc rfl rfl (decide_eq_true hlt)
      · rcases step_state h i with hst | hst
        · exact (hne (hst.symm.trans hz)).elim
        · cases hc.symm.trans (hst.zombie hz).1
    | _ => cases hb
  · rcases he with rfl | rfl | rfl | rfl <;> cases hb

theorem step_buried_parent (h : step n s l = some t) (hc : s.cpus l.cpu = .clean i .parent) :
    (t.cpus l.cpu).wake = some ⟨parentChan (s.procs i).parent, 0, .test⟩ := by
  have hstep := step_control h
  rw [hc] at hstep
  generalize t.cpus l.cpu = a at hstep
  cases hstep with
  | clean hm => cases hm
  | cleanEnd hm => cases hm
  | parent => rfl

theorem step_exitTest (h : step n s l = some t)
    (hc : s.cpus l.cpu = .running p (.exitTest i)) (hz : s.state i = .zombie) :
    (t.cpus l.cpu).wake = some ⟨.proc initproc, 0, .test⟩ := by
  simp only [step, hc] at h
  cases hch : l.choice <;> rw [hch] at h <;> cases h
  rw [goto_self, if_pos hz]
  rfl

theorem not_past_start (ch : Chan) : ¬ (⟨ch, 0, .test⟩ : Wake).past q := by
  rintro (h | ⟨_, h⟩)
  · exact Nat.not_lt_zero _ h
  · cases h

def Notified (n : Nat) (s : Config Cpu) : Prop :=
  ∀ q i, q < n → i < n → s.Scanned q i → (s.procs i).parent = some q → s.state i = .zombie →
    s.Notifying q i

theorem Config.Notifying.step (hn : s.Notifying q i) (hu : Tuned s) (hq : q < n)
    (h : step n s l = some t) (hsc : s.Scanned q i) (hsc' : t.Scanned q i)
    (hpar : (s.procs i).parent = some q) (hz : s.state i = .zombie) : t.Notifying q i := by
  rcases hn with ⟨d, w, hw, hch, hp⟩ | ⟨d, hd⟩ | ⟨rfl, d, r, hd⟩
  · left
    by_cases hl : d = l.cpu
    · subst hl
      obtain ⟨w', hm, hw'⟩ := step_wake h hw
      cases w' with
      | none =>
        cases hm with
        | stop hstop => exact (hp (.inl (Nat.lt_of_lt_of_le hq (Nat.le_of_not_lt hstop)))).elim
      | some w' =>
        refine ⟨l.cpu, w', hw', hm.chan.trans hch, fun hp' => ?_⟩
        rcases hm.past hp' with hp' | ⟨hs, hs'⟩ | hne | ⟨_, ht⟩ | hr
        · exact hp hp'
        · obtain ⟨_, _, _, hst | hst⟩ := hsc
          · exact hs' hst
          · exact hs hst
        · exact hne ((hsc.chan hu).trans hch.symm)
        · obtain ⟨_, _, _, hst | hst⟩ := hsc' <;> cases hst.symm.trans ht
        · exact hsc.not_running hr
    · exact ⟨d, w, by rw [step_others h hl, hw], hch, hp⟩
  · by_cases hl : d = l.cpu
    · subst hl
      refine .inl ⟨l.cpu, _, step_buried_parent h hd, ?_, not_past_start _⟩
      rw [hpar]
      rfl
    · exact .inr (.inl ⟨d, by rw [step_others h hl, hd]⟩)
  · by_cases hl : d = l.cpu
    · subst hl
      exact .inl ⟨l.cpu, _, step_exitTest h hd hz, rfl, not_past_start _⟩
    · exact .inr (.inr ⟨rfl, d, r, by rw [step_others h hl, hd]⟩)

theorem Notified.step (hn : Notified n s) (hi : Inv s) (hs : Settled s)
    (hu : Tuned s) (h : step n s l = some t) : Notified n t := by
  intro q i hq hin hsc hpar hz
  have hsc₀ := hsc.back hi hs h hin hpar hz
  rcases step_state h i with hst | hst
  · rcases (step_fields h i).parent with hf | hf
    · have hz₀ := hst.symm.trans hz
      have hpar₀ := hf.symm.trans hpar
      exact (hn q i hq hin hsc₀ hpar₀ hz₀).step hu hq h hsc₀ hsc hpar₀ hz₀
    · rw [hpar] at hf
      generalize hx : some q = x at hf
      generalize ha : t.cpus l.cpu = a at hf
      cases hf with
      | fork hc =>
        rw [hst, hi.embryo hc rfl] at hz
        cases hz
      | clear _ => cases hx
      | adopt _ =>
        cases hx
        exact .inr (.inr ⟨rfl, l.cpu, _, ha⟩)
  · exact .inr (.inl ⟨l.cpu, (hst.zombie hz).2⟩)

theorem Notified.reach (h : (ptable Cpu n).Reach Unovertaken s) : Notified n s := by
  refine h.invariant ?_ ?_
  · rintro s ⟨_, mem, kstack, rfl⟩ q i _ _ ⟨b, h, _, _⟩
    exact (boot_at mem kstack q b h).elim
  · intro s l t hr hn _ h
    exact hn.step (Inv.reach hr) (Settled.reach hr) (Tuned.reach hr) h

end Xv6Signals
