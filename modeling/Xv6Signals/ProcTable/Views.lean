import Mathlib.Logic.Equiv.Basic
import Xv6Signals.ProcTable.Control

namespace Xv6Signals
open Lib Bool

variable {Cpu : Type} {s t : Config Cpu} {c d : Cpu} {i j p n : Nat} {pc k : Pc} {x : ProcState}

/-- Where a thread can stand: on a CPU, or in the saved context of its process. -/
abbrev Place (Cpu : Type) := Cpu ⊕ Nat

def CpuPc.thread : CpuPc → Option Pc
  | .running _ pc => some pc
  | _ => none

def Config.owns (s : Config Cpu) : Place Cpu → Option (Nat × ProcState)
  | .inl c => (s.cpus c).thread.bind Pc.owns
  | .inr q => (s.context q).bind fun x => x.resume.owns

theorem Point.owns_state {k : Point} (h : k.owns = some (i, x)) : x = .embryo := by
  cases k <;> cases h <;> rfl

theorem Pc.owns_state (h : pc.owns = some (i, x)) : x = .embryo ∨ x = .minusUnused := by
  unfold Pc.owns at h
  split at h
  all_goals first
    | exact .inl (Point.owns_state h)
    | cases h
  all_goals first
    | exact .inl rfl
    | exact .inr rfl

theorem Config.owns_state {l : Place Cpu} (h : s.owns l = some (i, x)) :
    x = .embryo ∨ x = .minusUnused := by
  cases l with
  | inl c =>
    obtain ⟨pc, _, h⟩ := Option.bind_eq_some_iff.1 h
    exact Pc.owns_state h
  | inr q =>
    obtain ⟨k, _, h⟩ := Option.bind_eq_some_iff.1 h
    exact Pc.owns_state h

theorem Context.resume_owns (h : Handover) : (Context.saved h).resume.owns = (Pc.swtch h).owns := by
  cases h <;> rfl

theorem Config.owns_inl (h : s.cpus c = .running p pc) : s.owns (.inl c) = pc.owns := by
  rw [Config.owns, h]
  rfl

theorem Config.owns_inr {x : Context} (h : s.context p = some x) :
    s.owns (.inr p) = x.resume.owns := by
  rw [Config.owns, h]
  rfl

theorem CpuPc.uses_iff {pc : CpuPc} : pc.uses i = true ↔ ∃ k, pc = .running i k := by
  cases pc with
  | running j k =>
    constructor
    · intro h
      cases eq_of_beq h
      exact ⟨k, rfl⟩
    · rintro ⟨_, h⟩
      cases h
      exact beq_self_eq_true i
  | _ => exact ⟨nofun, nofun⟩

theorem holds_of_running (h : s.cpus c = .running p pc) : (s.cpus c).holds p = true := by
  rw [CpuPc.holds, CpuPc.uses_iff.2 ⟨pc, h⟩, Bool.true_or]

theorem holds_of_dispatches (h : (s.cpus c).dispatches i = true) : (s.cpus c).holds i = true := by
  rw [CpuPc.holds, h, Bool.or_true]

theorem ends_running {pc : CpuPc} : pc.ends .running i = false := by
  cases pc with
  | clean j pt => cases pt <;> exact Bool.and_false _
  | running j pc => cases pc <;> rfl
  | _ => rfl

theorem ends_self : (CpuPc.running p pc).ends pc.state i = false := by
  cases pc with
  | wakeup w k => cases k <;> rfl
  | _ => rfl

theorem ends_wake {pc : CpuPc} {w : Wake} (hw : pc.wake = some w) :
    pc.ends x i = (x == .minusRunnable && i == w.slot && w.point.ends) := by
  cases pc with
  | interrupt w' => cases hw; rfl
  | cleanWake j w' => cases hw; rfl
  | running q pc =>
    cases pc with
    | wakeup w' k => cases hw; rfl
    | _ => cases hw
  | _ => cases hw

theorem WakeMove.ends {w w' : Wake} (h : WakeMove n s t w (some w')) (he : w'.point.ends = true) :
    w'.slot = w.slot ∧ (w.point.ends = true ∨ s.state w.slot = .sleeping ∨
      s.state w.slot = .running) := by
  cases h with
  | take hs _ => exact ⟨rfl, .inr (.inl hs)⟩
  | leave hs => exact ⟨rfl, .inr (.inr hs)⟩
  | settle _ => exact ⟨rfl, .inl rfl⟩
  | _ => cases he

theorem CleanMove.ends {pt pt' : CleanPoint} (h : CleanMove s t i pt (some pt'))
    (he : pt'.ends x = true) : pt.ends x = true := by
  cases h with
  | park _ _ =>
    rw [CleanPoint.ends, Bool.or_assoc]
    exact (congrArg _ he).trans (Bool.or_true _)
  | noPark _ =>
    rw [CleanPoint.ends, Bool.or_assoc]
    exact (congrArg _ he).trans (Bool.or_true _)
  | ready => exact (congrArg _ he).trans (Bool.or_true _)
  | bury _ _ => cases he
  | _ => exact he

/-- What a step leaves alone unless it switches, starts a process or takes a pid. -/
def Config.rest (s : Config Cpu) : (Nat → Option Context) × Nat := (s.context, s.nextpid)

theorem kill_rest (n : Nat) (s : Config Cpu) (pid : Nat) (sig : Sig) :
    (kill n s pid sig).rest = s.rest := by
  unfold kill
  split <;> rfl

variable [DecidableEq Cpu] {l : Label Cpu}

theorem cas_rest {old new : ProcState} {yes no : CpuPc} :
    (s.cas c i old new yes no).rest = s.rest := by
  unfold Config.cas
  split <;> rfl

theorem wakeStep_rest {w : Wake} {pos : Wake → CpuPc} {done : CpuPc} :
    (wakeStep n s c w pos done).rest = s.rest := by
  unfold wakeStep
  split
  · split <;> rfl
  all_goals first | rfl | exact cas_rest

theorem cleanStep_rest {pt : CleanPoint} : (cleanStep s c i pt).rest = s.rest := by
  unfold cleanStep
  split <;> first | rfl | exact cas_rest

theorem callStep_rest {k : Point} {ch : Choice} (h : callStep n s c p k ch = some t) :
    t.rest = s.rest := by
  unfold callStep at h
  split at h <;> cases h
  all_goals first | rfl | exact kill_rest ..

theorem pointStep_rest {k : Point} {ch : Choice} (h : pointStep s c p k ch = some t) :
    t.rest = s.rest ∨ ∃ i, k = .forkKalloc i ∧ t.rest = (s.setContext i (some .forkret)).rest := by
  unfold pointStep at h
  split at h
  case h_4 i a =>
    split at h <;> cases h
    · exact .inl rfl
    · exact .inr ⟨i, rfl, rfl⟩
  case h_1 =>
    split at h
    · split at h <;> cases h <;> exact .inl rfl
    · cases h
      exact .inl rfl
  case h_8 => cases h
  all_goals
    cases h
    first | exact .inl rfl | exact .inl cas_rest

theorem threadStep_rest (h : threadStep n s c p pc = some t) : t.rest = s.rest ∨
    (∃ h, pc = .swtch h ∧ t = (s.setContext p (some (.saved h))).goto c (.clean p .park)) ∨
    ∃ i, pc = .forkPidCas i s.nextpid ∧ t.rest = (s.context, s.nextpid + 1) := by
  cases pc with
  | swtch h' =>
    cases h
    exact .inr (.inl ⟨h', rfl, rfl⟩)
  | wakeup w k =>
    cases h
    exact .inl wakeStep_rest
  | enabled k => cases h
  | panicked => cases h
  | waitScan i hk =>
    simp only [threadStep] at h
    split at h <;> cases h <;> exact .inl rfl
  | forkPidCas i pid =>
    simp only [threadStep] at h
    split at h
    · rename_i hpid
      cases h
      subst hpid
      exact .inr (.inr ⟨i, rfl, rfl⟩)
    · cases h
      exact .inl rfl
  | _ =>
    cases h
    first | exact .inl rfl | exact .inl cas_rest

inductive RestStep (s t : Config Cpu) (c : Cpu) : Prop
  | swtch {p : Nat} {h : Handover} : s.cpus c = .running p (.swtch h) →
      t = (s.setContext p (some (.saved h))).goto c (.clean p .park) → RestStep s t c
  | switchIn {p : Nat} {x : Context} : s.cpus c = .switchIn p → s.context p = some x →
      t = (s.setContext p none).goto c (.running p x.resume) → RestStep s t c
  | alloc {r i : Nat} : s.cpus c = .running r (.enabled (.forkKalloc i)) →
      t.rest = (s.setContext i (some .forkret)).rest → RestStep s t c
  | pid {q i : Nat} : s.cpus c = .running q (.forkPidCas i s.nextpid) →
      t.rest = (s.context, s.nextpid + 1) → RestStep s t c
  | same : t.rest = s.rest → RestStep s t c

theorem step_rest (h : step n s l = some t) : RestStep s t l.cpu := by
  cases step_cases h with
  | switchIn hc hx => exact .switchIn hc hx rfl
  | thread hc h =>
    rcases threadStep_rest h with hs | ⟨_, rfl, ht⟩ | ⟨_, rfl, hs⟩
    · exact .same hs
    · exact .swtch hc ht
    · exact .pid hc hs
  | point hc h =>
    rcases pointStep_rest h with hs | ⟨_, rfl, hs⟩
    · exact .same hs
    · exact .alloc hc hs
  | call _ h => exact .same (callStep_rest h)
  | clean _ => exact .same cleanStep_rest
  | wake _ => exact .same wakeStep_rest
  | cleanWake _ => exact .same wakeStep_rest
  | pick _ _ => exact .same cas_rest
  | unpick _ => exact .same cas_rest
  | _ => exact .same rfl

theorem step_contexts (h : step n s l = some t) :
    (∃ p h, s.cpus l.cpu = .running p (.swtch h) ∧
      t = (s.setContext p (some (.saved h))).goto l.cpu (.clean p .park)) ∨
    (∃ p x, s.cpus l.cpu = .switchIn p ∧ s.context p = some x ∧
      t = (s.setContext p none).goto l.cpu (.running p x.resume)) ∨
    ∀ q, t.context q = s.context q ∨ t.context q = some .forkret ∧
      ∃ r, s.cpus l.cpu = .running r (.enabled (.forkKalloc q)) := by
  cases step_rest h with
  | swtch hc ht => exact .inl ⟨_, _, hc, ht⟩
  | switchIn hc hx ht => exact .inr (.inl ⟨_, _, hc, hx, ht⟩)
  | @alloc r i hc hs =>
    refine .inr (.inr fun q => ?_)
    have hq := congrFun (congrArg Prod.fst hs) q
    by_cases hi : q = i
    · subst hi
      exact .inr ⟨hq.trans (setContext_self ..), r, hc⟩
    · exact .inl (hq.trans (setContext_of_ne _ hi))
  | pid _ hs => exact .inr (.inr fun q => .inl (congrFun (congrArg Prod.fst hs) q))
  | same hs => exact .inr (.inr fun q => .inl (congrFun (congrArg Prod.fst hs) q))

theorem step_nextpid (h : step n s l = some t) :
    t.nextpid = s.nextpid ∨ ∃ q i, s.cpus l.cpu = .running q (.forkPidCas i s.nextpid) ∧
      t.nextpid = s.nextpid + 1 := by
  cases step_rest h with
  | swtch _ ht => exact .inl (by rw [ht]; rfl)
  | switchIn _ _ ht => exact .inl (by rw [ht]; rfl)
  | alloc _ hs => exact .inl (congrArg Prod.snd hs)
  | pid hc hs => exact .inr ⟨_, _, hc, congrArg Prod.snd hs⟩
  | same hs => exact .inl (congrArg Prod.snd hs)

structure OwnsView (s t : Config Cpu) (c : Cpu) (f : Place Cpu → Place Cpu) : Prop where
  injective : Function.Injective f
  source : ∀ l a, t.owns l = some a → f l = .inl c → l = .inl c ∨ ∃ q, t.cpus c = .clean q .park
  owns : ∀ l i x, t.owns l = some (i, x) → s.owns (f l) = some (i, x) ∨
    l = .inl c ∧ (s.state i = .unused ∨ s.state i = .zombie) ∧ t.state i = x

theorem swap_inl (hd : d ≠ c) : Equiv.swap (.inl c : Place Cpu) (.inr p) (.inl d) = .inl d :=
  Equiv.swap_apply_of_ne_of_ne (fun h => hd (Sum.inl.inj h)) nofun

theorem swap_inr (hq : j ≠ p) : Equiv.swap (.inl c : Place Cpu) (.inr p) (.inr j) = .inr j :=
  Equiv.swap_apply_of_ne_of_ne nofun (fun h => hq (Sum.inr.inj h))

theorem OwnsView.swtch {h : Handover} (hc : s.cpus c = .running p (.swtch h)) :
    OwnsView s ((s.setContext p (some (.saved h))).goto c (.clean p .park)) c
      (Equiv.swap (.inl c) (.inr p)) := by
  refine ⟨Equiv.injective _, fun _ _ _ _ => .inr ⟨p, goto_self ..⟩, fun l i x hx => .inl ?_⟩
  cases l with
  | inl d =>
    by_cases hd : d = c
    · subst hd
      rw [Config.owns, goto_self] at hx
      cases hx
    · rw [Config.owns, goto_of_ne _ hd] at hx
      rw [swap_inl hd]
      exact hx
  | inr q =>
    by_cases hq : q = p
    · subst hq
      rw [Config.owns, goto_context, setContext_self] at hx
      rw [Equiv.swap_apply_right, Config.owns_inl hc, ← Context.resume_owns]
      exact hx
    · rw [Config.owns, goto_context, setContext_of_ne _ hq] at hx
      rw [swap_inr hq]
      exact hx

theorem OwnsView.switchIn {x : Context} (hx : s.context p = some x) :
    OwnsView s ((s.setContext p none).goto c (.running p x.resume)) c
      (Equiv.swap (.inl c) (.inr p)) := by
  have hp (a : Nat × ProcState) :
      ((s.setContext p none).goto c (.running p x.resume)).owns (.inr p) ≠ some a := by
    rw [Config.owns, goto_context, setContext_self]
    exact nofun
  refine ⟨Equiv.injective _, fun l a ha hl => ?_, fun l i y hy => .inl ?_⟩
  · have hl : l = .inr p := Equiv.injective _ (hl.trans (Equiv.swap_apply_right _ _).symm)
    subst hl
    exact (hp a ha).elim
  cases l with
  | inl d =>
    by_cases hd : d = c
    · subst hd
      rw [Config.owns, goto_self] at hy
      rw [Equiv.swap_apply_left, Config.owns_inr hx]
      exact hy
    · rw [Config.owns, goto_of_ne _ hd] at hy
      rw [swap_inl hd]
      exact hy
  | inr q =>
    by_cases hq : q = p
    · subst hq
      exact (hp _ hy).elim
    · rw [Config.owns, goto_context, setContext_of_ne _ hq] at hy
      rw [swap_inr hq]
      exact hy

theorem step_owns (h : step n s l = some t) : ∃ f, OwnsView s t l.cpu f := by
  rcases step_contexts h with ⟨p, _, hc, rfl⟩ | ⟨p, _, _, hx, rfl⟩ | hctx
  · exact ⟨_, .swtch hc⟩
  · exact ⟨_, .switchIn hx⟩
  refine ⟨id, Function.injective_id, fun l _ _ hl => .inl hl, fun l' i x hx => ?_⟩
  cases l' with
  | inr q =>
    rcases hctx q with hq | ⟨hq, _⟩
    · rw [Config.owns, hq] at hx
      exact .inl hx
    · rw [Config.owns_inr hq] at hx
      cases hx
  | inl d =>
    by_cases hd : d = l.cpu
    · subst hd
      have hstep := step_control h
      generalize ha : s.cpus l.cpu = a at hstep
      generalize hb : t.cpus l.cpu = b at hstep
      cases hstep with
      | thread hf =>
        rw [Config.owns_inl hb] at hx
        rw [id, Config.owns_inl ha]
        rcases hf.owns i x hx with hx | hx
        · exact .inl hx
        · exact .inr ⟨rfl, hx⟩
      | switchIn hs ht =>
        rename_i q _
        have hq : t.context q = none := by
          rw [ht, goto_context, setContext_self]
        rcases hctx q with h | ⟨h, _⟩ <;> rw [hq] at h
        · cases h.trans hs
        · cases h
      | _ =>
        rw [Config.owns, hb] at hx
        cases hx
    · rw [Config.owns, step_others h hd] at hx
      exact .inl hx

theorem step_holds (h : step n s l = some t) (ht : (t.cpus l.cpu).holds i = true) :
    (s.cpus l.cpu).holds i = true ∨ s.state i = .runnable := by
  have hstep := step_control h
  generalize ha : s.cpus l.cpu = a at hstep
  generalize hb : t.cpus l.cpu = b at hstep ht
  cases hstep with
  | pick _ hs _ =>
    have hi := eq_of_beq ht
    subst hi
    exact .inr hs
  | frozen _ _ => exact .inl ht
  | unfrozen _ _ => exact .inl ht
  | allow _ _ => exact .inl ht
  | refuse _ _ => exact .inl ht
  | switchIn _ _ =>
    rw [CpuPc.holds, or_eq_true] at ht
    rcases ht with ht | ht
    · exact .inl ht
    · cases ht
  | thread _ => exact .inl ht
  | _ => cases ht

theorem step_ends (h : step n s l = some t) (ht : (t.cpus l.cpu).ends x i = true) :
    (s.cpus l.cpu).ends x i = true ∨ (s.cpus l.cpu).holds i = true ∨ s.state i = .sleeping ∨
      x = .minusRunnable ∧ s.state i = .running := by
  have hstep := step_control h
  generalize ha : s.cpus l.cpu = a at hstep
  generalize hb : t.cpus l.cpu = b at hstep ht
  have woken {w w' : Wake} (hwa : a.wake = some w) (hwb : b.wake = some w')
      (hm : WakeMove n s t w (some w')) : a.ends x i = true ∨ a.holds i = true ∨
        s.state i = .sleeping ∨ x = .minusRunnable ∧ s.state i = .running := by
    rw [ends_wake hwb] at ht
    simp only [and_eq_true, beq_iff_eq] at ht
    obtain ⟨⟨hx, hi⟩, he⟩ := ht
    obtain ⟨hslot, he | he | he⟩ := hm.ends he
    · left
      rw [ends_wake hwa, hx, hi, hslot, he, beq_self_eq_true, beq_self_eq_true]
      rfl
    · exact .inr (.inr (.inl (by rw [hi, hslot, he])))
    · exact .inr (.inr (.inr ⟨hx, by rw [hi, hslot, he]⟩))
  cases hstep with
  | wake hm => exact woken rfl rfl hm
  | cleanWake hm => exact woken rfl rfl hm
  | irq =>
    rw [ends_wake rfl, and_eq_true] at ht
    cases ht.2
  | parent =>
    rw [ends_wake rfl, and_eq_true] at ht
    cases ht.2
  | swtch _ =>
    simp only [CpuPc.ends, and_eq_true, beq_iff_eq] at ht
    rw [ht.1, ← ha]
    exact .inr (.inl (holds_of_running ha))
  | clean hm =>
    simp only [CpuPc.ends, and_eq_true] at ht ⊢
    exact .inl ⟨ht.1, hm.ends ht.2⟩
  | thread hf =>
    rcases hf.wake with hk | ⟨w, w', j, rfl, rfl, hm⟩
    · rename_i k
      cases k with
      | wakeup w' j =>
        simp only [Pc.fresh, and_eq_true, beq_iff_eq] at hk
        rw [ends_wake rfl, and_eq_true, hk.2] at ht
        cases ht.2
      | _ => cases ht
    · exact woken rfl rfl hm
  | @switchIn _ y _ _ =>
    cases y with
    | forkret => cases ht
    | saved h => cases h <;> cases ht
  | _ => cases ht

end Xv6Signals
