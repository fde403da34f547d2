import Xv6Signals.ProcTable.Fresh

namespace Xv6Signals
open Lib Config

variable {Cpu : Type} {s t : Config Cpu} {c d : Cpu} {i j p q n pid : Nat} {pc k b : Pc}
  {l : Label Cpu} {a : Place Cpu}

def Config.base (s : Config Cpu) : Place Cpu → Option Pc
  | .inl c => (s.cpus c).thread.map Pc.base
  | .inr q => (s.context q).map Context.resume

theorem Config.base_inl (h : s.cpus c = .running p pc) : s.base (.inl c) = some pc.base := by
  rw [Config.base, h]
  rfl

theorem Config.base_inr {x : Context} (h : s.context p = some x) :
    s.base (.inr p) = some x.resume := by
  rw [Config.base, h]
  rfl

theorem Config.base_running (h : s.base (.inl c) = some b) :
    ∃ p pc, s.cpus c = .running p pc ∧ pc.base = b := by
  rw [Config.base] at h
  cases hc : s.cpus c with
  | running p pc =>
    rw [hc] at h
    exact ⟨p, pc, rfl, Option.some.inj h⟩
  | _ =>
    rw [hc] at h
    cases h

theorem Config.base_owns (h : s.base a = some b) : s.owns a = b.owns := by
  cases a with
  | inl c =>
    obtain ⟨p, pc, hc, rfl⟩ := base_running h
    rw [owns_inl hc, Pc.base_owns]
  | inr q =>
    obtain ⟨x, hx, rfl⟩ := Option.map_eq_some_iff.1 h
    exact owns_inr hx

theorem Context.resume_entry (h : Handover) :
    (Context.saved h).resume = (Pc.swtch h).base ∨ (Context.saved h).resume.Entry := by
  cases h with
  | yield k => exact .inl rfl
  | sleep => exact .inr (.inr (.inl rfl))
  | wait => exact .inr (.inr (.inr (.inl rfl)))
  | exit => exact .inr (.inr (.inr (.inr rfl)))

/-- The thread at a place stood before the step at the place `f` tells, where it now stands or
where its own step has taken it from; or it is about to be resumed by the scheduler. -/
structure PlaceView (n : Nat) (s t : Config Cpu) (c : Cpu) (f : Place Cpu → Place Cpu) : Prop where
  injective : Function.Injective f
  source : ∀ a b, t.base a = some b → f a = .inl c → a = .inl c ∨ ∃ q, t.cpus c = .clean q .park
  stands : ∀ a b, t.base a = some b → s.base (f a) = some b ∨
    (a = .inl c ∧ ∃ p pc k, s.cpus c = .running p pc ∧ t.cpus c = .running p k ∧ k.base = b ∧
      Goes n s p pc.base b) ∨
    b.Entry

def Pc.named : Pc → Option Nat
  | .enabled (.forkKalloc i) | .enabled (.forkCopy i) | .enabled (.forkRun i) => some i
  | _ => none

/-- The pids in the table and those that `allocpid` has just returned are numbers below the next
pid, each in one place. -/
structure Numbered (s : Config Cpu) : Prop where
  next : 0 < s.nextpid
  table : ∀ i, (s.procs i).pid < s.nextpid
  apart : ∀ i j, (s.procs i).pid ≠ 0 → (s.procs i).pid = (s.procs j).pid → i = j
  held : ∀ a i pid, s.base a = some (.enabled (.forkSetPid i pid)) →
    0 < pid ∧ pid < s.nextpid ∧ ∀ j, (s.procs j).pid ≠ pid
  heldApart : ∀ a b i j pid, s.base a = some (.enabled (.forkSetPid i pid)) →
    s.base b = some (.enabled (.forkSetPid j pid)) → a = b
  named : ∀ a b i, s.base a = some b → b.named = some i → (s.procs i).pid ≠ 0
  live : ∀ i, (s.state i).live = true → (s.procs i).pid ≠ 0

theorem Pc.named_owns (h : b.named = some i) : b.owns = some (i, .embryo) := by
  cases b with
  | enabled k => cases k <;> cases h <;> rfl
  | _ => cases h

theorem Goes.named {b' : Pc} (h : Goes n s p b b') (hb : b'.named = some i) :
    b.named = some i ∨ ∃ pid, b = .enabled (.forkSetPid i pid) ∧ b' = .enabled (.forkKalloc i) := by
  cases h with
  | forkSetPid => cases hb; exact .inr ⟨_, rfl, rfl⟩
  | signals hk => rcases hk with rfl | rfl <;> cases hb
  | _ => cases hb <;> exact .inl rfl

theorem Numbered.boot (mem : Mem 32) (kstack : Word) : Numbered (boot mem kstack : Config Cpu) := by
  have hpid (i : Nat) : ((Xv6Signals.boot mem kstack : Config Cpu).procs i).pid =
      if i = initproc then 1 else 0 := by
    simp only [Xv6Signals.boot, Function.update_apply]
    split <;> rfl
  have hbase (a : Place Cpu) (b : Pc) (h : (Xv6Signals.boot mem kstack).base a = some b) :
      b = .enabled (.signals 0) := by
    cases a with
    | inl c => cases h
    | inr q =>
      rw [Config.base, boot_context] at h
      split at h <;> cases h
      rfl
  refine ⟨Nat.succ_pos 1, fun i => ?_, fun i j hi hj => ?_, fun a i pid h => ?_,
    fun a _ i _ pid h => ?_, fun a b i h hb => ?_, fun i h => ?_⟩
  · rw [hpid]
    split
    · exact Nat.lt_succ_self 1
    · exact Nat.succ_pos 1
  · rw [hpid] at hi
    rw [hpid, hpid] at hj
    by_cases hi' : i = initproc
    · by_cases hj' : j = initproc
      · rw [hi', hj']
      · rw [if_pos hi', if_neg hj'] at hj
        cases hj
    · exact (hi (if_neg hi')).elim
  · cases hbase a _ h
  · cases hbase a _ h
  · cases hbase a b h
    cases hb
  · rw [hpid]
    by_cases hi : i = initproc
    · rw [if_pos hi]
      exact Nat.one_ne_zero
    · simp only [Config.state, Xv6Signals.boot, Function.update_of_ne hi] at h
      cases h

variable [DecidableEq Cpu]

theorem PlaceView.swtch {h : Handover} (hc : s.cpus c = .running p (.swtch h)) :
    PlaceView n s ((s.setContext p (some (.saved h))).goto c (.clean p .park)) c
      (Equiv.swap (.inl c) (.inr p)) := by
  refine ⟨Equiv.injective _, fun _ _ _ _ => .inr ⟨p, goto_self ..⟩, fun a b hb => ?_⟩
  cases a with
  | inl d =>
    by_cases hd : d = c
    · subst hd
      rw [Config.base, goto_self] at hb
      cases hb
    · rw [Config.base, goto_of_ne _ hd] at hb
      rw [swap_inl hd]
      exact .inl hb
  | inr q =>
    by_cases hq : q = p
    · subst hq
      rw [Config.base, goto_context, setContext_self] at hb
      cases hb
      rw [Equiv.swap_apply_right, base_inl hc]
      rcases Context.resume_entry h with he | he
      · rw [he]
        exact .inl rfl
      · exact .inr (.inr he)
    · rw [Config.base, goto_context, setContext_of_ne _ hq] at hb
      rw [swap_inr hq]
      exact .inl hb

theorem PlaceView.switchIn {x : Context} (hx : s.context p = some x) :
    PlaceView n s ((s.setContext p none).goto c (.running p x.resume)) c
      (Equiv.swap (.inl c) (.inr p)) := by
  have hp (b : Pc) :
      ((s.setContext p none).goto c (.running p x.resume)).base (.inr p) ≠ some b := by
    rw [Config.base, goto_context, setContext_self]
    exact fun he => by cases he
  refine ⟨Equiv.injective _, fun a b hb ha => ?_, fun a b hb => ?_⟩
  · have ha : a = .inr p := Equiv.injective _ (ha.trans (Equiv.swap_apply_right _ _).symm)
    subst ha
    exact (hp b hb).elim
  cases a with
  | inl d =>
    by_cases hd : d = c
    · subst hd
      rw [base_inl (goto_self ..), Context.resume_base] at hb
      rw [Equiv.swap_apply_left, base_inr hx]
      exact .inl hb
    · rw [Config.base, goto_of_ne _ hd] at hb
      rw [swap_inl hd]
      exact .inl hb
  | inr q =>
    by_cases hq : q = p
    · subst hq
      exact (hp b hb).elim
    · rw [Config.base, goto_context, setContext_of_ne _ hq] at hb
      rw [swap_inr hq]
      exact .inl hb

theorem step_places (h : step n s l = some t) : ∃ f, PlaceView n s t l.cpu f := by
  rcases step_contexts h with ⟨p, _, hc, rfl⟩ | ⟨p, _, _, hx, rfl⟩ | hctx
  · exact ⟨_, .swtch hc⟩
  · exact ⟨_, .switchIn hx⟩
  refine ⟨id, Function.injective_id, fun _ _ _ ha => .inl ha, fun a b hb => ?_⟩
  cases a with
  | inr q =>
    rcases hctx q with hq | ⟨hq, _⟩
    · rw [Config.base, hq] at hb
      exact .inl hb
    · rw [base_inr hq] at hb
      cases hb
      exact .inr (.inr (.inl rfl))
  | inl d =>
    by_cases hd : d = l.cpu
    · subst hd
      obtain ⟨p, k, hk, rfl⟩ := base_running hb
      rcases step_ran h hk with ⟨pc, hpc, he | hg⟩ | ⟨x, _, hx, _, ht⟩
      · rw [he]
        exact .inl (base_inl hpc)
      · exact .inr (.inl ⟨rfl, p, pc, k, hpc, hk, rfl, hg⟩)
      exfalso
      have hp : t.context p = none := by
        rw [ht, goto_context, setContext_self]
      rcases hctx p with h | ⟨h, _⟩ <;> rw [hp] at h
      · cases h.trans hx
      · cases h
    · rw [Config.base, step_others h hd] at hb
      exact .inl hb

theorem step_pid (ho : Ownership s) (h : step n s l = some t) (i : Nat) :
    (t.procs i).pid = (s.procs i).pid ∨
    (s.base (.inl l.cpu) = some (.enabled (.forkSetPid i (t.procs i).pid)) ∧
      t.base (.inl l.cpu) = some (.enabled (.forkKalloc i))) ∨
    (t.procs i).pid = 0 ∧ s.state i = .minusUnused := by
  rcases (step_fields h i).pid with hf | hf
  · exact .inl hf
  generalize (t.procs i).pid = x at hf
  generalize ht : t.cpus l.cpu = a at hf
  cases hf with
  | set hc => exact .inr (.inl ⟨base_inl hc, base_inl ht⟩)
  | clear hc => exact .inr (.inr ⟨rfl, ho.owned _ i .minusUnused (owns_inl hc)⟩)

theorem Numbered.step_table (hn : Numbered s) (ho : Ownership s)
    (h : Xv6Signals.step n s l = some t) (i : Nat) : (t.procs i).pid < t.nextpid := by
  have hle := step_nextpid_le h
  have hnext := hn.next
  rcases step_pid ho h i with he | ⟨hs, _⟩ | ⟨he, _⟩
  · rw [he]
    exact Nat.lt_of_lt_of_le (hn.table i) hle
  · exact Nat.lt_of_lt_of_le (hn.held _ i _ hs).2.1 hle
  · omega

theorem Numbered.step_apart (hn : Numbered s) (ho : Ownership s)
    (h : Xv6Signals.step n s l = some t) (hi : (t.procs i).pid ≠ 0)
    (hij : (t.procs i).pid = (t.procs j).pid) : i = j := by
  rcases step_pid ho h i with he | ⟨hs, _⟩ | ⟨he, _⟩
  · rcases step_pid ho h j with hj | ⟨hsj, _⟩ | ⟨hj, _⟩
    · rw [he] at hi
      rw [he, hj] at hij
      exact hn.apart i j hi hij
    · exact ((hn.held _ j _ hsj).2.2 i (he.symm.trans hij)).elim
    · exact (hi (hij.trans hj)).elim
  · rcases step_pid ho h j with hj | ⟨hsj, _⟩ | ⟨hj, _⟩
    · exact ((hn.held _ i _ hs).2.2 j (hj.symm.trans hij.symm)).elim
    · rw [hs] at hsj
      cases hsj
      rfl
    · exact (hi (hij.trans hj)).elim
  · exact (hi he).elim

theorem step_forkPidCas (h : step n s l = some t)
    (hc : s.cpus l.cpu = .running p (.forkPidCas i s.nextpid)) :
    t.nextpid = s.nextpid + 1 ∧ t.procs = s.procs := by
  simp only [step, hc, cpuStep] at h
  cases hch : l.choice <;> rw [hch] at h <;> simp only [threadStep, if_true] at h <;> cases h
  exact ⟨rfl, rfl⟩

section

variable (hn : Numbered s) (ho : Ownership s)
include hn ho

theorem Numbered.step_holds {f : Place Cpu → Place Cpu}
    (hf : PlaceView n s t l.cpu f) (h : Xv6Signals.step n s l = some t)
    (ha : t.base a = some (.enabled (.forkSetPid i pid))) :
    s.base (f a) = some (.enabled (.forkSetPid i pid)) ∧ (∀ j, (t.procs j).pid ≠ pid) ∨
      a = .inl l.cpu ∧ pid = s.nextpid ∧ t.nextpid = s.nextpid + 1 ∧
        ∀ j, (t.procs j).pid = (s.procs j).pid := by
  rcases hf.stands a _ ha with hs | ⟨rfl, p, pc, k, hc, hk, hb, hg⟩ | he
  · refine .inl ⟨hs, fun j hj => ?_⟩
    rcases step_pid ho h j with he | ⟨hsj, htj⟩ | ⟨he, _⟩
    · exact (hn.held _ i pid hs).2.2 j (he.symm.trans hj)
    · rw [hj] at hsj
      rcases hf.source a _ ha (hn.heldApart _ _ i j pid hs hsj) with rfl | ⟨q, hq⟩
      · rw [ha] at htj
        cases htj
      · rw [Config.base, hq] at htj
        cases htj
    · exact absurd (he.symm.trans hj).symm (hn.held _ i pid hs).1.ne'
  · right
    generalize hpc : pc.base = b at hg
    generalize hb' : Pc.enabled (.forkSetPid i pid) = b' at hg
    cases hg with
    | forkPidCas hnext =>
      cases hb'
      subst hnext
      rw [Pc.eq_of_base hpc rfl] at hc
      obtain ⟨hnext, hprocs⟩ := step_forkPidCas h hc
      exact ⟨rfl, rfl, hnext, fun j => by rw [hprocs]⟩
    | signals hk => rcases hk with rfl | rfl <;> cases hb'
    | _ => cases hb'
  · rcases he with he | he | he | he <;> cases he

theorem Numbered.step_held (h : Xv6Signals.step n s l = some t)
    (ha : t.base a = some (.enabled (.forkSetPid i pid))) :
    0 < pid ∧ pid < t.nextpid ∧ ∀ j, (t.procs j).pid ≠ pid := by
  obtain ⟨f, hf⟩ := step_places h
  rcases hn.step_holds ho hf h ha with ⟨hs, hj⟩ | ⟨_, rfl, hnext, hj⟩
  · obtain ⟨h0, hlt, _⟩ := hn.held _ i pid hs
    exact ⟨h0, Nat.lt_of_lt_of_le hlt (step_nextpid_le h), hj⟩
  · refine ⟨hn.next, by omega, fun j => ?_⟩
    rw [hj]
    exact (hn.table j).ne

theorem Numbered.step_heldApart (h : Xv6Signals.step n s l = some t) {a b : Place Cpu}
    (ha : t.base a = some (.enabled (.forkSetPid i pid)))
    (hb : t.base b = some (.enabled (.forkSetPid j pid))) : a = b := by
  obtain ⟨f, hf⟩ := step_places h
  rcases hn.step_holds ho hf h ha with ⟨hs, _⟩ | ⟨hac, hpa, _⟩
  · rcases hn.step_holds ho hf h hb with ⟨hs', _⟩ | ⟨_, hpb, _⟩
    · exact hf.injective (hn.heldApart _ _ i j pid hs hs')
    · exact absurd hpb (hn.held _ i pid hs).2.1.ne
  · rcases hn.step_holds ho hf h hb with ⟨hs', _⟩ | ⟨hbc, _⟩
    · exact absurd hpa (hn.held _ j pid hs').2.1.ne
    · rw [hac, hbc]

theorem Numbered.pid_kept (h : Xv6Signals.step n s l = some t)
    (hs : (s.procs i).pid ≠ 0) (hst : s.state i ≠ .minusUnused) : (t.procs i).pid ≠ 0 := by
  rcases step_pid ho h i with he | ⟨hset, _⟩ | ⟨_, he⟩
  · rw [he]
    exact hs
  · exact (hn.held _ i _ hset).1.ne'
  · exact (hst he).elim

theorem Numbered.step_named (h : Xv6Signals.step n s l = some t) (ha : t.base a = some b)
    (hb : b.named = some i) : (t.procs i).pid ≠ 0 := by
  have hof {a' : Place Cpu} {b' : Pc} (hs : s.base a' = some b') (hb' : b'.named = some i) :
      (t.procs i).pid ≠ 0 := by
    refine hn.pid_kept ho h (hn.named _ _ i hs hb') ?_
    rw [ho.owned _ i _ ((base_owns hs).trans (Pc.named_owns hb'))]
    decide
  obtain ⟨f, hf⟩ := step_places h
  rcases hf.stands a b ha with hs | ⟨_, p, pc, k, hc, hk, hkb, hg⟩ | he
  · exact hof hs hb
  · rcases hg.named hb with hpc | ⟨pid, hpc, rfl⟩
    · exact hof (base_inl hc) hpc
    · rw [step_setPid h hc hpc hk hkb]
      exact (hn.held _ i pid (hpc ▸ base_inl hc)).1.ne'
  · rcases he with rfl | rfl | rfl | rfl <;> cases hb

theorem Numbered.step_live
    (h : Xv6Signals.step n s l = some t) (hi : (t.state i).live = true) : (t.procs i).pid ≠ 0 := by
  have hlive (hs : (s.state i).live = true) : (t.procs i).pid ≠ 0 :=
    hn.pid_kept ho h (hn.live i hs) (fun he => by rw [he] at hs; cases hs)
  rcases step_state h i with he | he
  · rw [he] at hi
    exact hlive hi
  rcases he.live hi with hs | ⟨q, hc⟩
  · exact hlive hs
  · have hb := base_inl hc
    refine hn.pid_kept ho h (hn.named _ _ i hb rfl) ?_
    rw [ho.owned _ i _ ((base_owns hb).trans rfl)]
    decide

theorem Numbered.step (h : Xv6Signals.step n s l = some t) : Numbered t where
  next := Nat.lt_of_lt_of_le hn.next (step_nextpid_le h)
  table := hn.step_table ho h
  apart _ _ := hn.step_apart ho h
  held _ _ _ := hn.step_held ho h
  heldApart _ _ _ _ _ := hn.step_heldApart ho h
  named _ _ _ := hn.step_named ho h
  live _ := hn.step_live ho h

end

theorem Numbered.reach {ok : Config Cpu → Label Cpu → Prop} (h : (ptable Cpu n).Reach ok s) :
    Numbered s := by
  refine h.invariant ?_ ?_
  · rintro s ⟨_, mem, kstack, rfl⟩
    exact .boot mem kstack
  · intro s l t hr hn _ h
    exact hn.step (.reach hr) h

def Config.takes (s : Config Cpu) (l : Label Cpu) (i : Nat) : Bool :=
  match s.cpus l.cpu with
  | .running _ (.forkCas j) => j == i && s.state i == .unused
  | _ => false

def Config.frees (s : Config Cpu) (l : Label Cpu) (i : Nat) : Bool :=
  match s.cpus l.cpu with
  | .running _ (.waitUnused j _) => j == i && s.state i == .minusUnused
  | .running _ (.enabled (.forkKalloc j)) | .running _ (.enabled (.forkCopy j)) =>
    j == i && forkFails (s.cpus l.cpu) l.choice
  | _ => false

/-- How often each slot has been handed out and freed, and the pids given out so far. -/
structure Allocations where
  handed : Nat → Nat
  freed : Nat → Nat
  given : List Nat

def Allocations.after (g : Allocations) (s : Config Cpu) (l : Label Cpu) : Allocations where
  handed i := if s.takes l i then g.handed i + 1 else g.handed i
  freed i := if s.frees l i then g.freed i + 1 else g.freed i
  given := match s.cpus l.cpu with
    | .running _ (.forkPidCas _ pid) => if s.nextpid = pid then g.given ++ [pid] else g.given
    | _ => g.given

def Allocations.boot : Allocations :=
  ⟨fun i => if i = initproc then 1 else 0, fun _ => 0, [1]⟩

theorem step_takes (h : step n s l = some t) (i : Nat) :
    s.takes l i = true ↔ s.state i = .unused ∧ t.state i ≠ .unused := by
  constructor
  · intro ht
    unfold Config.takes at ht
    split at ht
    · rename_i q j hc
      simp only [Bool.and_eq_true, beq_iff_eq] at ht
      obtain ⟨rfl, hu⟩ := ht
      simp only [step, hc] at h
      cases hch : l.choice <;> rw [hch] at h <;> cases h
      rw [cas_state, if_pos ⟨rfl, hu⟩]
      exact ⟨hu, fun he => by cases he⟩
    · cases ht
  · rintro ⟨hs, ht⟩
    rcases step_state h i with he | he
    · exact (ht (he.trans hs)).elim
    generalize t.state i = x at he ht
    generalize t.cpus l.cpu = a at he
    cases he with
    | take hc _ => simp [Config.takes, hc, hs]
    | fail _ _ => exact (ht rfl).elim
    | _ => cases hs.symm.trans ‹s.state i = _›

theorem step_fails {k : Point} (h : step n s l = some t)
    (hc : s.cpus l.cpu = .running q (.enabled k)) (hk : k = .forkKalloc i ∨ k = .forkCopy i)
    (hf : forkFails (s.cpus l.cpu) l.choice = true) : t = forkFail s l.cpu q i := by
  rw [hc] at hf
  simp only [step, hc] at h
  rcases hk with rfl | rfl <;> cases hch : l.choice <;> rw [hch] at h hf <;> try cases hf
  · rename_i a
    simp only [forkFails, beq_iff_eq] at hf
    simp only [cpuStep, pointStep, if_pos hf] at h
    exact (Option.some.inj h).symm
  · rename_i done
    cases done <;> cases hf
    exact (Option.some.inj h).symm

theorem step_frees (ho : Ownership s) (h : step n s l = some t) (i : Nat) :
    s.frees l i = true ↔ s.state i ≠ .unused ∧ t.state i = .unused := by
  have hfail {q j : Nat} {k : Point} (hc : s.cpus l.cpu = .running q (.enabled k))
      (hk : k = .forkKalloc j ∨ k = .forkCopy j)
      (ht : (j == i && forkFails (s.cpus l.cpu) l.choice) = true) :
      s.state i ≠ .unused ∧ t.state i = .unused := by
    simp only [Bool.and_eq_true, beq_iff_eq] at ht
    obtain ⟨rfl, hf⟩ := ht
    have hown : s.state j = .embryo :=
      ho.owned (.inl l.cpu) j .embryo (by rw [owns_inl hc]; rcases hk with rfl | rfl <;> rfl)
    rw [hown, step_fails h hc hk hf]
    exact ⟨by decide, setProc_state_self ..⟩
  constructor
  · intro ht
    unfold Config.frees at ht
    split at ht
    · rename_i q j pid hc
      simp only [Bool.and_eq_true, beq_iff_eq] at ht
      obtain ⟨rfl, hu⟩ := ht
      simp only [step, hc] at h
      cases hch : l.choice <;> rw [hch] at h <;> cases h
      rw [cas_state, if_pos ⟨rfl, hu⟩, hu]
      exact ⟨by decide, rfl⟩
    · exact hfail ‹_› (.inl rfl) ht
    · exact hfail ‹_› (.inr rfl) ht
    · cases ht
  · rintro ⟨hs, ht⟩
    rcases step_state h i with he | he
    · exact (hs (he.symm.trans ht)).elim
    rw [ht] at he
    generalize ha : t.cpus l.cpu = a at he
    cases he with
    | free hc hu => simp [Config.frees, hc, hu]
    | handOver _ hh _ _ => exact (Pc.handsOver_ne_unused hh).elim
    | fail hc hk =>
      have hf := step_gives_up h hc hk ha
      rw [hc] at hf
      rcases hk with rfl | rfl <;> simp [Config.frees, hc, hf]

variable {g : Allocations}

/-- Every slot in use has been handed out once more than it has been freed, every other slot as
often, and the pids given out are those below the next pid. -/
structure Counted (s : Config Cpu) (g : Allocations) : Prop where
  slots : ∀ i, g.handed i = g.freed i + if s.state i = .unused then 0 else 1
  pids : g.given = List.range' 1 g.given.length
  next : s.nextpid = g.given.length + 1

omit [DecidableEq Cpu] in
theorem Counted.boot (mem : Mem 32) (kstack : Word) :
    Counted (boot mem kstack : Config Cpu) .boot where
  slots i := by
    by_cases hi : i = initproc
    · subst hi
      rfl
    · simp only [Allocations.boot, Config.state, Xv6Signals.boot, Function.update_of_ne hi,
        if_neg hi]
      rfl
  pids := rfl
  next := rfl

theorem Counted.step_slots (hg : Counted s g) (ho : Ownership s)
    (h : Xv6Signals.step n s l = some t) (i : Nat) :
    (g.after s l).handed i = (g.after s l).freed i + if t.state i = .unused then 0 else 1 := by
  have htakes := step_takes h i
  have hfrees := step_frees ho h i
  have hslots := hg.slots i
  simp only [Allocations.after]
  by_cases hs : s.state i = .unused <;> by_cases ht : t.state i = .unused <;>
    simp only [hs, ht, ne_eq, not_true_eq_false, not_false_eq_true, and_true, and_false,
      and_self, iff_false, iff_true, Bool.not_eq_true, if_true,
      if_false] at htakes hfrees hslots ⊢ <;>
    simp only [htakes, hfrees, if_true, Bool.false_eq_true, if_false] <;> omega

theorem Allocations.after_given (g : Allocations) (h : step n s l = some t) :
    (g.after s l).given = g.given ∧ t.nextpid = s.nextpid ∨
      (g.after s l).given = g.given ++ [s.nextpid] ∧ t.nextpid = s.nextpid + 1 := by
  rcases step_nextpid h with hn | ⟨q, i, hc, hn⟩
  · refine .inl ⟨?_, hn⟩
    simp only [Allocations.after]
    split
    · rename_i hc
      refine if_neg fun hpid => ?_
      subst hpid
      have := (step_forkPidCas h hc).1
      omega
    · rfl
  · refine .inr ⟨?_, hn⟩
    simp only [Allocations.after, hc, if_true]

theorem Counted.step (hg : Counted s g) (ho : Ownership s)
    (h : Xv6Signals.step n s l = some t) : Counted t (g.after s l) := by
  have hnext := hg.next
  refine ⟨hg.step_slots ho h, ?_, ?_⟩ <;> rcases g.after_given h with ⟨hx, hn⟩ | ⟨hx, hn⟩ <;>
    rw [hx]
  · exact hg.pids
  · rw [List.length_append, List.length_singleton, List.range'_1_concat, ← hg.pids, hnext,
      Nat.add_comm 1]
  · rw [hn, hnext]
  · rw [hn, hnext, List.length_append, List.length_singleton]

def allocMachine (Cpu : Type) [DecidableEq Cpu] (n : Nat) :
    Machine (Config Cpu × Allocations) (Label Cpu) :=
  (ptable Cpu n).track .boot Allocations.after

theorem Counted.reach {s : Config Cpu × Allocations} (h : (allocMachine Cpu n).Reachable s) :
    Counted s.1 s.2 := by
  refine Machine.Reach.invariant h (P := fun s => Counted s.1 s.2) ?_ ?_
  · rintro s ⟨⟨_, mem, kstack, hs⟩, hg⟩
    rw [hs, hg]
    exact .boot mem kstack
  · intro s l t hr hg _ h
    obtain ⟨u, hu, rfl⟩ := Option.map_eq_some_iff.1 h
    exact hg.step (.reach (Machine.Reachable.untrack hr)) hu

end Xv6Signals
