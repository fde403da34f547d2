import Xv6Signals.ProcTable.Views

namespace Xv6Signals
open Lib Config

variable {Cpu : Type} {s t : Config Cpu} {c d : Cpu} {i j p n : Nat} {pc : Pc} {x : ProcState}
  {l : Label Cpu} {y : ProcState}

/-- The process table is consistent: what each CPU does agrees with the states of the processes. -/
structure Inv (s : Config Cpu) : Prop where
  thread : ∀ c p pc, s.cpus c = .running p pc → s.state p = pc.state
  dispatch : ∀ c p, (s.cpus c).dispatches p = true → s.state p = .running
  unique : ∀ c d p, (s.cpus c).holds p = true → (s.cpus d).holds p = true → c = d
  late : ∀ c d p pc, s.cpus c = .running p pc → (s.cpus d).ends pc.state p = false
  owned : ∀ l i x, s.owns l = some (i, x) → s.state i = x
  owner : ∀ l l' i x x', s.owns l = some (i, x) → s.owns l' = some (i, x') → l = l'

theorem Inv.held (hi : Inv s) (h : (s.cpus c).holds i = true) :
    (∃ pc, s.cpus c = .running i pc ∧ s.state i = pc.state) ∨ s.state i = .running := by
  rcases Bool.or_eq_true_iff.1 h with h | h
  · obtain ⟨pc, hc⟩ := CpuPc.uses_iff.1 h
    exact .inl ⟨pc, hc, hi.thread c i pc hc⟩
  · exact .inr (hi.dispatch c i h)

theorem Inv.active (hi : Inv s) (h : (s.cpus c).holds i = true) : (s.state i).active = true := by
  rcases hi.held h with ⟨pc, _, hs⟩ | hs
  · rw [hs]
    exact pc.state_active
  · rw [hs]
    rfl

theorem Inv.not_held (hi : Inv s) (h : (s.state i).active = false) :
    (s.cpus c).holds i = false := by
  rw [Bool.eq_false_iff]
  intro hc
  cases h.symm.trans (hi.active hc)

theorem Inv.ends_not_held (hi : Inv s) (h : (s.cpus c).ends (s.state i) i = true)
    (hr : s.state i ≠ .running) : (s.cpus d).holds i = false := by
  rw [Bool.eq_false_iff]
  intro hd
  rcases hi.held hd with ⟨pc, hc, hs⟩ | hs
  · have hl := hi.late d c i pc hc
    rw [← hs] at hl
    cases h.symm.trans hl
  · exact hr hs

theorem Inv.other (hi : Inv s) (h : (s.cpus c).holds i = true) (hd : d ≠ c) :
    (s.cpus d).holds i = false := by
  rw [Bool.eq_false_iff]
  intro hh
  exact hd (hi.unique d c i hh h)

theorem Inv.embryo (hi : Inv s) {r : Nat} {k : Point} (hc : s.cpus c = .running r (.enabled k))
    (hk : k.owns = some (i, .embryo)) : s.state i = .embryo :=
  hi.owned (.inl c) i .embryo ((owns_inl hc).trans hk)

theorem Inv.failing (hi : Inv s) {r : Nat} {k : Point} (hc : s.cpus c = .running r (.enabled k))
    (hk : k = .forkKalloc i ∨ k = .forkCopy i) : s.state i = .embryo := by
  rcases hk with rfl | rfl <;> exact hi.embryo hc rfl

theorem StateStep.not_held {b : CpuPc} (h : StateStep s c i x b) (hi : Inv s) (hd : d ≠ c) :
    (s.cpus d).holds i = false := by
  have ended {y : ProcState} (hs : s.state i = y) (hy : y ≠ .running)
      (he : (s.cpus c).ends y i = true) : (s.cpus d).holds i = false :=
    hi.ends_not_held (by rw [hs]; exact he) (by rw [hs]; exact hy)
  have idle {y : ProcState} (hs : s.state i = y) (hy : y.active = false) :
      (s.cpus d).holds i = false :=
    hi.not_held (by rw [hs]; exact hy)
  cases h with
  | pick _ hs => exact idle hs rfl
  | unpick hc _ =>
    refine hi.other (holds_of_dispatches ?_) hd
    rw [hc]
    exact beq_self_eq_true i
  | handOver hc _ _ _ => exact hi.other (holds_of_running hc) hd
  | comeBack hc _ _ _ => exact hi.other (holds_of_running hc) hd
  | park hc hs => exact ended hs (by decide) (by rw [hc]; simp only [CpuPc.ends, beq_self_eq_true]; rfl)
  | unpark _ hs => exact idle hs rfl
  | ready hc hs => exact ended hs (by decide) (by rw [hc]; simp only [CpuPc.ends, beq_self_eq_true]; rfl)
  | bury hc hs => exact ended hs (by decide) (by rw [hc]; simp only [CpuPc.ends, beq_self_eq_true]; rfl)
  | wake _ hs _ => exact idle hs rfl
  | woken hw hs _ =>
    refine ended hs (by decide) ?_
    rw [ends_wake hw, beq_self_eq_true, beq_self_eq_true]
    rfl
  | reap _ hs => exact idle hs rfl
  | free _ hs => exact idle hs rfl
  | take _ hs => exact idle hs rfl
  | born _ hs => exact idle hs rfl
  | fail hc hk => exact idle (hi.failing hc hk) rfl
  | signal hc _ => exact hi.other (holds_of_running hc) hd

theorem Inv.not_own (hi : Inv s) (hc : s.cpus c = .running p pc) : pc.owns ≠ some (p, x) := by
  intro hx
  have hp := hi.owned (.inl c) p x ((owns_inl hc).trans hx)
  have hk := pc.state_active
  rw [← hi.thread c p pc hc, hp] at hk
  rcases Pc.owns_state hx with rfl | rfl <;> cases hk

theorem Unovertaken.ends (hok : Unovertaken s l)
    (hc : s.cpus l.cpu = .running p pc) (hx : pc.handsOver = some x) (d : Cpu) :
    (s.cpus d).ends x p = false := by
  simp only [Unovertaken, hc, hx] at hok
  exact hok d

theorem StateStep.release {b : CpuPc} (h : StateStep s c i y b)
    (hs : s.state i = .embryo ∨ s.state i = .minusUnused) :
    (∃ x, s.owns (.inl c) = some (i, x)) ∧ ∃ q, b = .running q (.enabled .kernel) := by
  have owner {q : Nat} {pc : Pc} {x : ProcState} (hc : s.cpus c = .running q pc)
      (hx : pc.owns = some (i, x)) : ∃ x, s.owns (.inl c) = some (i, x) :=
    ⟨x, (owns_inl hc).trans hx⟩
  cases h with
  | free hc _ => exact ⟨owner hc rfl, _, rfl⟩
  | born hc _ => exact ⟨owner hc rfl, _, rfl⟩
  | fail hc hk =>
    refine ⟨?_, _, rfl⟩
    rcases hk with rfl | rfl <;> exact owner hc rfl
  | _ =>
    rw [‹s.state i = _›] at hs
    rcases hs with hs | hs <;> cases hs

theorem boot_context (mem : Mem 32) (kstack : Word) (q : Nat) :
    (boot mem kstack : Config Cpu).context q = if q = initproc then some .forkret else none := by
  simp only [boot, Function.update_apply]

theorem boot_owns (mem : Mem 32) (kstack : Word) (a : Place Cpu) :
    (boot mem kstack : Config Cpu).owns a = none := by
  cases a with
  | inl c => rfl
  | inr q =>
    rw [Config.owns, boot_context]
    split <;> rfl

theorem Inv.boot (mem : Mem 32) (kstack : Word) : Inv (boot mem kstack : Config Cpu) where
  thread _ _ _ := nofun
  dispatch _ _ := nofun
  unique _ _ _ := nofun
  late _ _ _ _ := nofun
  owned a i x h := by
    cases (boot_owns mem kstack a).symm.trans h
  owner a _ _ _ _ h := by
    cases (boot_owns mem kstack a).symm.trans h

variable [DecidableEq Cpu]

section

variable (hi : Inv s) (h : step n s l = some t)
include hi h

theorem Inv.state_eq (hd : d ≠ l.cpu) (hh : (s.cpus d).holds i = true) : t.state i = s.state i := by
  rcases step_state h i with hs | hs
  · exact hs
  · cases hh.symm.trans (hs.not_held hi hd)

theorem Inv.step_thread (hc : t.cpus c = .running p pc) : t.state p = pc.state := by
  by_cases hd : c = l.cpu
  · subst hd
    have hstep := step_control h
    generalize ha : s.cpus l.cpu = a at hstep
    rw [hc] at hstep
    cases hstep with
    | thread hf => exact hf.state (fun x => hi.not_own ha) (hi.thread _ _ _ ha)
    | switchIn _ ht =>
      rw [ht, goto_state, setContext_state, Context.resume_state]
      refine hi.dispatch l.cpu p ?_
      rw [ha]
      exact beq_self_eq_true p
  · rw [step_others h hd] at hc
    rw [hi.state_eq h hd (holds_of_running hc)]
    exact hi.thread c p pc hc

theorem Inv.step_dispatch (hc : (t.cpus c).dispatches p = true) : t.state p = .running := by
  by_cases hd : c = l.cpu
  · subst hd
    have hstep := step_control h
    generalize ha : s.cpus l.cpu = a at hstep
    generalize hb : t.cpus l.cpu = b at hstep hc
    have same (hs : t.procs = s.procs) (hp : a.dispatches p = true) : t.state p = .running := by
      rw [Config.state, hs]
      exact hi.dispatch l.cpu p (by rw [ha, hp])
    cases hstep with
    | pick _ _ ht =>
      have hp := eq_of_beq hc
      subst hp
      exact ht
    | frozen _ hs => exact same hs hc
    | unfrozen _ hs => exact same hs hc
    | allow _ hs => exact same hs hc
    | refuse _ hs => exact same hs hc
    | _ => cases hc
  · rw [step_others h hd] at hc
    rw [hi.state_eq h hd (holds_of_dispatches hc)]
    exact hi.dispatch c p hc

theorem Inv.step_other
    (hc : (t.cpus l.cpu).holds p = true) (hd : d ≠ l.cpu) : (t.cpus d).holds p = false := by
  rw [step_others h hd]
  rcases step_holds h hc with hc | hs
  · exact hi.other hc hd
  · exact hi.not_held (by rw [hs]; rfl)

theorem Inv.step_unique
    (hc : (t.cpus c).holds p = true) (hd : (t.cpus d).holds p = true) : c = d := by
  by_cases hcl : c = l.cpu
  · subst hcl
    by_contra hne
    cases hd.symm.trans (hi.step_other h hc (Ne.symm hne))
  by_cases hdl : d = l.cpu
  · subst hdl
    cases hc.symm.trans (hi.step_other h hd hcl)
  · rw [step_others h hcl] at hc
    rw [step_others h hdl] at hd
    exact hi.unique c d p hc hd

end

theorem Inv.step_late (hi : Inv s) (hok : Unovertaken s l)
    (h : step n s l = some t) (hc : t.cpus c = .running p pc) (d : Cpu) :
    (t.cpus d).ends pc.state p = false := by
  by_cases hcd : c = d
  · rw [← hcd, hc]
    exact ends_self
  by_cases hcl : c = l.cpu
  · subst hcl
    rw [step_others h (Ne.symm hcd)]
    have hstep := step_control h
    generalize ha : s.cpus l.cpu = a at hstep
    rw [hc] at hstep
    cases hstep with
    | thread hf =>
      rcases hf.hands with hk | hk | hk
      · rw [hk]
        exact hi.late l.cpu d p _ ha
      · exact hok.ends ha hk d
      · rw [hk]
        exact ends_running
    | switchIn _ _ =>
      rw [Context.resume_state]
      exact ends_running
  · rw [step_others h hcl] at hc
    by_cases hdl : d = l.cpu
    · subst hdl
      rw [Bool.eq_false_iff]
      intro he
      have hs := hi.thread c p pc hc
      rcases step_ends h he with he | hu | he | ⟨hx, he⟩
      · cases he.symm.trans (hi.late c l.cpu p pc hc)
      · exact hcl (hi.unique c l.cpu p (holds_of_running hc) hu)
      · have hp := pc.state_active
        rw [← hs, he] at hp
        cases hp
      · rw [hs, hx] at he
        cases he
    · rw [step_others h hdl]
      exact hi.late c d p pc hc

/-- A slot that a thread has taken stays as the thread needs it, in every run. -/
structure Ownership (s : Config Cpu) : Prop where
  owned : ∀ l i x, s.owns l = some (i, x) → s.state i = x
  owner : ∀ l l' i x x', s.owns l = some (i, x) → s.owns l' = some (i, x') → l = l'

theorem Ownership.step_owned (ho : Ownership s) (h : step n s l = some t)
    {a : Place Cpu} (ha : t.owns a = some (i, x)) : t.state i = x := by
  obtain ⟨f, hf⟩ := step_owns h
  rcases hf.owns a i x ha with hs | ⟨_, _, hs⟩
  · have hx := ho.owned _ i x hs
    rcases step_state h i with he | he
    · rw [he, hx]
    have hown := owns_state hs
    rw [← hx] at hown
    obtain ⟨⟨y, hy⟩, q, hq⟩ := he.release hown
    rcases hf.source a _ ha (ho.owner _ _ i x y hs hy) with rfl | ⟨q', hq'⟩
    · rw [owns_inl hq] at ha
      cases ha
    · cases hq.symm.trans hq'
  · exact hs

theorem Ownership.step_owner (ho : Ownership s) (h : step n s l = some t)
    {a b : Place Cpu} (ha : t.owns a = some (i, x)) (hb : t.owns b = some (i, y)) :
    a = b := by
  obtain ⟨f, hf⟩ := step_owns h
  have taken {a : Place Cpu} {x : ProcState} (ha : s.owns a = some (i, x))
      (hs : s.state i = .unused ∨ s.state i = .zombie) : False := by
    rw [ho.owned a i x ha] at hs
    rcases owns_state ha with rfl | rfl <;> rcases hs with hs | hs <;> cases hs
  rcases hf.owns a i x ha with ha | ⟨ha, hs, _⟩
  · rcases hf.owns b i y hb with hb | ⟨_, hs, _⟩
    · exact hf.injective (ho.owner _ _ i x y ha hb)
    · exact (taken ha hs).elim
  · rcases hf.owns b i y hb with hb | ⟨hb, _, _⟩
    · exact (taken hb hs).elim
    · rw [ha, hb]

theorem Ownership.step (ho : Ownership s) (h : step n s l = some t) : Ownership t :=
  ⟨fun _ _ _ => ho.step_owned h, fun _ _ _ _ _ => ho.step_owner h⟩

theorem Ownership.reach {ok : Config Cpu → Label Cpu → Prop} (h : (ptable Cpu n).Reach ok s) :
    Ownership s := by
  refine h.invariant ?_ ?_
  · rintro s ⟨_, mem, kstack, rfl⟩
    refine ⟨fun a i x h => ?_, fun a _ _ _ _ h => ?_⟩
    · cases (boot_owns mem kstack a).symm.trans h
    · cases (boot_owns mem kstack a).symm.trans h
  · intro s l t _ ho _ h
    exact ho.step h

theorem Inv.step (hi : Inv s) (hok : Unovertaken s l) (h : step n s l = some t) : Inv t where
  thread _ _ _ := hi.step_thread h
  dispatch _ _ := hi.step_dispatch h
  unique _ _ _ := hi.step_unique h
  late _ d _ _ hc := hi.step_late hok h hc d
  owned _ _ _ := Ownership.step_owned ⟨hi.owned, hi.owner⟩ h
  owner _ _ _ _ _ := Ownership.step_owner ⟨hi.owned, hi.owner⟩ h

theorem Inv.reach (h : (ptable Cpu n).Reach Unovertaken s) : Inv s := by
  refine h.invariant ?_ ?_
  · rintro s ⟨_, mem, kstack, rfl⟩
    exact Inv.boot mem kstack
  · intro s l t _ hi hok h
    exact hi.step hok h

end Xv6Signals
