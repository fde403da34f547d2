import Xv6Signals.Interrupts.Machine

namespace Xv6Signals
open Lib Function List Option

variable {Cpu Lock : Type} [DecidableEq Lock] {s t : Kernel Cpu Lock} {c c' : Cpu} {i : Instr Lock}
  {k k' : List (Instr Lock)} {d : Nat} {e : Bool} {held : List Lock} {lk : Lock} {x y : Core}
  {ptableLock : Lock} {l : KernelLabel Cpu Lock} {lock : Lock → Option Cpu}
  {choice : KernelChoice Lock} {process : Bool}

/-- A stack that may go on where `d` calls of `pushcli` are outstanding, the flag was `e` before the
first of them and the locks `held` are held. -/
def Fits : List (Instr Lock) → Nat → Bool → List Lock → Prop
  | [], _, _, _ => True
  | .pushcli :: k, d, e, held => Fits k (d + 1) e held
  | .cli eflags :: k, d, e, held => eflags = (d == 0 && e) ∧ Fits k (d + 1) e held
  | .popcli :: k, d, e, held => held.length < d ∧ Fits k (d - 1) e held
  | .holding lk expected _ :: k, d, e, held =>
    held.length < d ∧ expected = decide (lk ∈ held) ∧ Fits k (d - 1) e held
  | .check passes _ :: k, d, e, held => passes = true ∧ Fits k d e held
  | .xchg lk :: k, d, e, held => held.length < d ∧ lk ∉ held ∧ Fits k d e (lk :: held)
  | .clear lk :: k, d, e, held => lk ∈ held ∧ held.Nodup ∧ Fits k d e (held.erase lk)
  | .sched :: k, d, e, held => d = 1 ∧ held = [] ∧ Fits k 1 e []
  | .enter base :: k, d, e, held => d = base ∧ held = [] ∧ Fits k base e []
  | .code base held' pushes before :: k, d, e, held =>
    d = base + held'.length + pushes ∧ held = held' ∧ held'.Nodup ∧ (base = 0 → before = e) ∧
      Fits k base e []
  | .waitEnd :: k, d, e, held => d = 1 ∧ held = [] ∧ Fits k 0 e []
  | .zombie :: k, d, e, held => Fits k d e held
  | .iret :: k, d, e, held => d = 0 ∧ e = false ∧ held = [] ∧ Fits k 0 true []
  | .sti :: k, d, _, held => d = 0 ∧ held = [] ∧ Fits k 0 true []
  | .pick :: _, d, _, held => d = 1 ∧ held = []
  | .panic msg :: _, _, _, _ => msg = .zombieExit
  -- only ever on top of a stack
  | .count _ :: _, _, _, _ | .swtch _ :: _, _, _, _ | .restore _ :: _, _, _, _ => False

/-- The CPU and the stack it runs: the count, the flag, the saved flag and the locks are those that
the stack tells. The saved flag is another process's until `sched` has put it back. -/
inductive Runs (lock : Lock → Option Cpu) (c : Cpu) : Core → List (Instr Lock) → Prop
  | count {x : Core} {k : List (Instr Lock)} {d : Nat} {e : Bool} {held : List Lock} :
      x.ncli = d → x.flag = false → (0 < d → x.intena = e) → held.length ≤ d →
      (∀ lk, lock lk = some c ↔ lk ∈ held) → Fits k (d + 1) e held →
      Runs lock c x (.count (d == 0 && e) :: k)
  | swtch {x : Core} {k : List (Instr Lock)} : x.ncli = 1 → x.flag = false →
      (∀ lk, lock lk ≠ some c) → Fits k 1 x.intena [] → Runs lock c x (.swtch x.intena :: k)
  | restore {x : Core} {k : List (Instr Lock)} {intena : Bool} : x.ncli = 1 → x.flag = false →
      (∀ lk, lock lk ≠ some c) → Fits k 1 intena [] → Runs lock c x (.restore intena :: k)
  | fits {x : Core} {k : List (Instr Lock)} {d : Nat} {e : Bool} {held : List Lock} :
      x.ncli = d → x.flag = (d == 0 && e) → (0 < d → x.intena = e) → held.length ≤ d →
      (∀ lk, lock lk = some c ↔ lk ∈ held) → Fits k d e held → Runs lock c x k

inductive Resumes : List (Instr Lock) → Prop
  | restore {k : List (Instr Lock)} {intena : Bool} : Fits k 1 intena [] →
      Resumes (.restore intena :: k)
  | new {k : List (Instr Lock)} : (∀ e, Fits k 1 e []) → Resumes k

/-- Every CPU runs a stack that fits it, and every stack that a scheduler may pick can go on. -/
structure KernelInv (s : Kernel Cpu Lock) : Prop where
  runs : ∀ c, Runs s.lock c (s.core c) (s.code c)
  pass : ∀ c p, s.proc c = some p → s.scheduler c = Instr.pass
  status : ∀ c p, s.proc c = some p → (s.threads p).status = .running ∨
    (s.threads p).status = .dying
  unique : ∀ c c' p, s.proc c = some p → s.proc c' = some p → c = c'
  parked : ∀ p, (s.threads p).status = .parked → Resumes (s.threads p).code

theorem Fits.acquire (hd : held.length ≤ d) (hlk : lk ∉ held) (h : Fits k (d + 1) e (lk :: held)) :
    Fits (Instr.acquire lk ++ k) d e held := by
  refine ⟨?_, ?_, ?_, hlk, h⟩
  · omega
  · rw [decide_eq_false hlk]
  · show held.length < d + 1 + 1 - 1
    omega

theorem Fits.release (hd : held.length ≤ d) (hlk : lk ∈ held) (hn : held.Nodup)
    (h : Fits k (d - 1) e (held.erase lk)) : Fits (Instr.release lk ++ k) d e held := by
  have hpos : 0 < held.length := length_pos_of_mem hlk
  refine ⟨by omega, ?_, hlk, hn, ?_, h⟩
  · rw [decide_eq_true hlk]
  · rw [length_erase_of_mem hlk]
    omega

theorem Fits.callSched (h : Fits k 1 e []) : Fits (Instr.callSched ++ k) 1 e ([] : List Lock) :=
  ⟨Nat.two_pos, rfl, rfl, h⟩

theorem Fits.yield (h : Fits k 0 e []) : Fits (Instr.yield ++ k) 0 e ([] : List Lock) :=
  ⟨Nat.two_pos, Fits.callSched (k := .popcli :: k) ⟨Nat.one_pos, h⟩⟩

theorem Fits.sleep (hlk : lk ≠ ptableLock) (h : Fits k 1 e [lk]) :
    Fits (Instr.sleep ptableLock lk ++ k) 1 e [lk] := by
  have hk : Fits (.popcli :: k) 2 e [lk] := ⟨Nat.lt_succ_self 1, h⟩
  have hk := Fits.callSched (Fits.acquire (Nat.zero_le 1) not_mem_nil hk)
  simp only [Instr.sleep, if_neg hlk, append_assoc, cons_append,
    Instr.myproc, nil_append]
  refine ⟨Nat.lt_succ_self 1, ?_⟩
  refine Fits.release (d := 2) (Nat.le_succ 1) (mem_singleton_self lk)
    (nodup_singleton lk) ?_
  rw [erase_cons_head]
  exact hk

theorem Fits.wait (h : Fits k 0 e []) : Fits (Instr.wait ++ k) 0 e ([] : List Lock) :=
  ⟨Nat.one_pos, rfl, rfl, rfl, rfl, h⟩

theorem Fits.exit : Fits Instr.exit 0 e ([] : List Lock) :=
  ⟨rfl, rfl, Fits.callSched (k := [.panic .zombieExit]) rfl⟩

theorem Runs.interrupt (h : Runs lock c x k) (hf : x.flag = true) :
    Runs lock c { x with flag := false } (.enter 0 :: .iret :: k) := by
  cases h with
  | @fits _ d e held hn hf' hi hl hlk hk =>
    rw [hf] at hf'
    have hde := Bool.and_eq_true_iff.1 hf'.symm
    obtain rfl : d = 0 := eq_of_beq hde.1
    obtain rfl : e = true := hde.2
    obtain rfl : held = [] := length_eq_zero_iff.1 (Nat.le_zero.1 hl)
    exact .fits (d := 0) (e := false) hn rfl (fun h => by cases h) hl hlk
      ⟨rfl, rfl, rfl, rfl, rfl, hk⟩
  | count _ hf' => cases hf.symm.trans hf'
  | swtch _ hf' => cases hf.symm.trans hf'
  | restore _ hf' => cases hf.symm.trans hf'

theorem Runs.clear (h : Runs lock c x (.clear lk :: k)) :
    lock lk = some c ∧ Runs (update lock lk none) c x k := by
  cases h with
  | fits hn hf hi hl hlk hk =>
    obtain ⟨hmem, hnodup, hk⟩ := hk
    refine ⟨(hlk lk).2 hmem, .fits hn hf hi ?_ (fun lk' => ?_) hk⟩
    · rw [length_erase_of_mem hmem]
      omega
    by_cases he : lk' = lk
    · subst he
      rw [update_self, hnodup.mem_erase_iff]
      exact iff_of_false (fun h => by cases h) fun h => h.1 rfl
    · rw [update_of_ne he, hlk, hnodup.mem_erase_iff, and_iff_right he]

theorem Runs.congr {lock lock' : Lock → Option Cpu} (h : Runs lock c x k)
    (hlock : ∀ lk, lock' lk = some c ↔ lock lk = some c) : Runs lock' c x k := by
  cases h with
  | count hn hf hi hl hlk hk => exact .count hn hf hi hl (fun lk => (hlock lk).trans (hlk lk)) hk
  | swtch hn hf hlk hk => exact .swtch hn hf (fun lk h => hlk lk ((hlock lk).1 h)) hk
  | restore hn hf hlk hk => exact .restore hn hf (fun lk h => hlk lk ((hlock lk).1 h)) hk
  | fits hn hf hi hl hlk hk => exact .fits hn hf hi hl (fun lk => (hlock lk).trans (hlk lk)) hk

theorem Fits.call (h : Fits (i :: k) d e held)
    (hf : x.flag = (d == 0 && e)) (hp : i.paired choice = true)
    (ho : i.outermost ptableLock choice = true)
    (hx : i.call ptableLock process x k choice = some (y, k')) :
    (y = x ∧ Fits k' d e held) ∨
      y = { x with flag := true } ∧ d = 0 ∧ held = [] ∧ Fits k' 0 true [] := by
  cases i with
  | code base held' pushes before =>
    obtain ⟨rfl, rfl, hnodup, hb, hk⟩ := h
    have hb' : base = 0 → (if base = 0 ∧ held = [] ∧ pushes = 0 then x.flag else before) = e := by
      intro h0
      split
      · rename_i hz
        obtain ⟨rfl, rfl, rfl⟩ := hz
        exact hf
      · exact hb h0
    simp only [Instr.call] at hx
    generalize (if base = 0 ∧ held = [] ∧ pushes = 0 then x.flag else before) = before' at hx hb'
    have stays : Fits (.code base held pushes before' :: k) (base + held.length + pushes) e held :=
      ⟨rfl, rfl, hnodup, hb', hk⟩
    cases choice with
    | pushcli =>
      cases hx
      exact .inl ⟨rfl, rfl, rfl, hnodup, hb', hk⟩
    | popcli =>
      cases hx
      have hpos : 0 < pushes := of_decide_eq_true hp
      exact .inl ⟨rfl, by omega, by omega, rfl, hnodup, hb', hk⟩
    | acquire lk =>
      cases hx
      have hlk : lk ∉ held := of_decide_eq_true hp
      refine .inl ⟨rfl, Fits.acquire (by omega) hlk ⟨?_, rfl, ?_, hb', hk⟩⟩
      · rw [length_cons]
        omega
      · exact nodup_cons.2 ⟨hlk, hnodup⟩
    | release lk =>
      cases hx
      have hlk : lk ∈ held := of_decide_eq_true hp
      have hpos := length_pos_of_mem hlk
      refine .inl ⟨rfl, Fits.release (by omega) hlk hnodup ⟨?_, rfl, hnodup.erase lk, hb', hk⟩⟩
      rw [length_erase_of_mem hlk]
      omega
    | yield =>
      simp only [ite_none_right_eq_some, Option.some.injEq, Prod.mk.injEq] at hx
      obtain ⟨_, rfl, rfl⟩ := hx
      obtain rfl : held = [] := of_decide_eq_true hp
      obtain ⟨rfl, rfl⟩ : base = 0 ∧ pushes = 0 := of_decide_eq_true ho
      exact .inl ⟨rfl, Fits.yield stays⟩
    | sleep lk =>
      simp only [ite_none_right_eq_some, Option.some.injEq, Prod.mk.injEq] at hx
      obtain ⟨_, rfl, rfl⟩ := hx
      obtain rfl : held = [lk] := of_decide_eq_true hp
      obtain ⟨rfl, rfl, hne⟩ : base = 0 ∧ pushes = 0 ∧ lk ≠ ptableLock := of_decide_eq_true ho
      exact .inl ⟨rfl, Fits.sleep hne stays⟩
    | wait =>
      simp only [ite_none_right_eq_some, Option.some.injEq, Prod.mk.injEq] at hx
      obtain ⟨_, rfl, rfl⟩ := hx
      obtain ⟨rfl, rfl, rfl⟩ : base = 0 ∧ held = [] ∧ pushes = 0 := of_decide_eq_true hp
      exact .inl ⟨rfl, Fits.wait stays⟩
    | exit =>
      simp only [ite_none_right_eq_some, Option.some.injEq, Prod.mk.injEq] at hx
      obtain ⟨_, rfl, rfl⟩ := hx
      obtain ⟨rfl, rfl, rfl⟩ : base = 0 ∧ held = [] ∧ pushes = 0 := of_decide_eq_true hp
      exact .inl ⟨rfl, Fits.exit⟩
    | ret =>
      simp only [ite_none_right_eq_some, Option.some.injEq, Prod.mk.injEq] at hx
      obtain ⟨⟨rfl, rfl⟩, rfl, rfl⟩ := hx
      exact .inl ⟨rfl, hk⟩
    | trapret =>
      simp only [ite_none_right_eq_some, Option.some.injEq, Prod.mk.injEq] at hx
      obtain ⟨⟨rfl, rfl, rfl, rfl⟩, rfl, rfl⟩ := hx
      exact .inr ⟨rfl, rfl, rfl, rfl, rfl, nodup_nil, fun _ => rfl, trivial⟩
    | _ => cases hx
  | waitEnd =>
    cases choice <;> cases hx
    obtain ⟨rfl, rfl, hk⟩ := h
    have hend : Fits (.enter 1 :: .waitEnd :: k) 1 e [] := ⟨rfl, rfl, rfl, rfl, hk⟩
    exact .inl ⟨rfl, hend.callSched⟩
  | _ => cases hx

theorem Runs.call (h : Runs lock c x (i :: k)) (hp : i.paired choice = true)
    (ho : i.outermost ptableLock choice = true)
    (hx : i.call ptableLock process x k choice = some (y, k')) : Runs lock c y k' := by
  cases h with
  | fits hn hf hi hl hlk hk =>
    rcases hk.call hf hp ho hx with ⟨rfl, hk'⟩ | ⟨rfl, rfl, rfl, hk'⟩
    · exact .fits hn hf hi hl hlk hk'
    · exact .fits (d := 0) (e := true) hn rfl (fun h => by cases h) hl hlk hk'
  | _ => cases hx

theorem Runs.xchg (h : Runs lock c x (.xchg lk :: k))
    (hfree : lock lk = none) : Runs (update lock lk (some c)) c x k := by
  cases h with
  | fits hn hf hi hl hlk hk =>
    obtain ⟨hlt, hnot, hk⟩ := hk
    refine .fits hn hf hi (show (lk :: _).length ≤ _ from hlt) (fun lk' => ?_) hk
    by_cases he : lk' = lk
    · subst he
      rw [update_self]
      exact iff_of_true rfl mem_cons_self
    · rw [update_of_ne he, hlk, mem_cons, or_iff_right he]

variable [DecidableEq Cpu] {u : Kernel Cpu Lock} {p : Nat}

theorem Runs.exec (h : Runs lock c x (i :: k))
    (hx : i.exec lock c x k = some (y, k')) : Runs lock c y k' := by
  cases i with
  | pushcli =>
    cases hx
    cases h with
    | fits hn hf hi hl hlk hk => exact .fits hn hf hi hl hlk ⟨hf, hk⟩
  | cli eflags =>
    cases hx
    cases h with
    | fits hn hf hi hl hlk hk =>
      obtain ⟨rfl, hk⟩ := hk
      exact .count hn rfl hi hl hlk hk
  | count eflags =>
    cases hx
    cases h with
    | fits hn hf hi hl hlk hk => cases hk
    | @count _ d e held hn hf hi hl hlk hk =>
      refine .fits (d := d + 1) (e := e) (by simp only [hn]; rfl) hf (fun _ => ?_) (by omega) hlk hk
      by_cases hd : d = 0
      · subst hd
        simp only [hn]
        rfl
      · have hn' : x.ncli ≠ 0 := by omega
        simp only [if_neg hn']
        exact hi (by omega)
  | popcli =>
    cases h with
    | @fits _ d e held hn hf hi hl hlk hk =>
      obtain ⟨hlt, hk⟩ := hk
      have hd : 0 < d := by omega
      have hfalse : x.flag = false := by
        rw [hf, beq_eq_false_iff_ne.2 (Nat.pos_iff_ne_zero.1 hd), Bool.false_and]
      have hge : ¬ x.ncli - 1 < 0 := by omega
      simp only [Instr.exec, hfalse, Bool.false_eq_true, if_false, if_neg hge] at hx
      cases hx
      refine .fits (d := d - 1) (by simp only [hn]; omega) ?_ (fun _ => hi hd) (by omega) hlk hk
      by_cases h1 : d = 1
      · subst h1
        simp only [hn, hi hd]
        rfl
      · have hne : x.ncli - 1 ≠ 0 := by omega
        have hne' : d - 1 ≠ 0 := by omega
        simp only [decide_eq_false hne, beq_eq_false_iff_ne.2 hne', Bool.false_and]
  | holding lk expected msg =>
    cases hx
    cases h with
    | fits hn hf hi hl hlk hk =>
      obtain ⟨hlt, rfl, hk⟩ := hk
      refine .fits hn hf hi hl hlk ⟨hlt, ?_, hk⟩
      rw [decide_eq_decide.2 (hlk lk), beq_self_eq_true]
  | check passes msg =>
    cases h with
    | fits hn hf hi hl hlk hk =>
      obtain ⟨rfl, hk⟩ := hk
      cases hx
      exact .fits hn hf hi hl hlk hk
  | sched =>
    cases h with
    | fits hn hf hi hl hlk hk =>
      obtain ⟨rfl, rfl, hk⟩ := hk
      have hfalse : x.flag = false := hf
      simp only [Instr.exec, hn, ne_eq, if_false, hfalse, Bool.false_eq_true] at hx
      cases hx
      rw [← hi Nat.one_pos] at hk
      exact .swtch hn hfalse (fun lk h => by cases (hlk lk).1 h) hk
  | restore intena =>
    cases hx
    cases h with
    | fits hn hf hi hl hlk hk => cases hk
    | restore hn hf hlk hk =>
      have hnone (lk : Lock) : lock lk = some c ↔ lk ∈ [] := iff_of_false (hlk lk) not_mem_nil
      exact .fits (d := 1) hn hf (fun _ => rfl) (Nat.zero_le _) hnone hk
  | enter base =>
    cases hx
    cases h with
    | fits hn hf hi hl hlk hk =>
      obtain ⟨rfl, rfl, hk⟩ := hk
      refine .fits hn hf hi hl hlk ⟨rfl, rfl, nodup_nil, fun h0 => ?_, hk⟩
      subst h0
      exact hf
  | waitEnd =>
    cases hx
    cases h with
    | fits hn hf hi hl hlk hk =>
      obtain ⟨rfl, rfl, hk⟩ := hk
      exact .fits hn hf hi hl hlk ⟨Nat.one_pos, hk⟩
  | iret =>
    cases hx
    cases h with
    | fits hn hf hi hl hlk hk =>
      obtain ⟨rfl, rfl, rfl, hk⟩ := hk
      exact .fits (d := 0) (e := true) hn rfl (fun h => by cases h) hl hlk hk
  | sti =>
    cases hx
    cases h with
    | fits hn hf hi hl hlk hk =>
      obtain ⟨rfl, rfl, hk⟩ := hk
      exact .fits (d := 0) (e := true) hn rfl (fun h => by cases h) hl hlk hk
  | pick =>
    cases hx
    cases h with
    | fits hn hf hi hl hlk hk =>
      obtain ⟨rfl, rfl⟩ := hk
      exact .fits hn hf hi hl hlk ⟨Nat.one_pos, rfl, rfl, rfl, rfl, rfl, rfl⟩
  | _ => cases hx

theorem KernelInv.setCode (hi : KernelInv s) (hproc : u.proc = s.proc)
    (hsched : u.scheduler = s.scheduler) (hthreads : u.threads = s.threads)
    (hcore : ∀ c', c' ≠ c → u.core c' = s.core c')
    (hlock : ∀ c', c' ≠ c → ∀ lk, u.lock lk = some c' ↔ s.lock lk = some c')
    (hrun : Runs u.lock c (u.core c) k) : KernelInv (u.setCode c k) := by
  have hcode (c' : Cpu) : u.code c' = s.code c' := by
    simp only [Kernel.code, hproc, hsched, hthreads]
  refine ⟨fun c' => ?_, fun c' p hp => ?_, fun c' p hp => ?_, fun c₁ c₂ p h₁ h₂ => ?_,
    fun p hp => ?_⟩
  · rw [setCode_lock, setCode_core]
    by_cases hc : c' = c
    · subst hc
      rw [setCode_self]
      exact hrun
    · rw [setCode_of_ne (hproc ▸ hi.unique) hc, hcode, hcore c' hc]
      exact (hi.runs c').congr (hlock c' hc)
  · rw [setCode_proc, hproc] at hp
    rw [setCode_scheduler k (hproc ▸ hp), hsched]
    exact hi.pass c' p hp
  · rw [setCode_proc, hproc] at hp
    rw [setCode_status, hthreads]
    exact hi.status c' p hp
  · rw [setCode_proc, hproc] at h₁ h₂
    exact hi.unique c₁ c₂ p h₁ h₂
  · rw [setCode_status, hthreads] at hp
    have hc : u.proc c ≠ some p := by
      intro hc
      rw [hproc] at hc
      rcases hi.status c p hc with h | h <;> cases hp.symm.trans h
    rw [setCode_threads k hc, hthreads]
    exact hi.parked p hp

omit [DecidableEq Cpu] in
theorem KernelInv.boot (intena : Cpu → Bool) : KernelInv (kernelBoot intena : Kernel Cpu Lock) where
  runs c := by
    have hnone (lk : Lock) : (none : Option Cpu) = some c ↔ lk ∈ [] :=
      iff_of_false (fun h => by cases h) not_mem_nil
    exact .fits (d := 0) (e := false) rfl rfl (fun h => by cases h) (Nat.zero_le _) hnone
      ⟨rfl, rfl, rfl, rfl, rfl, rfl⟩
  pass _ _ h := by cases h
  status _ _ h := by cases h
  unique _ _ _ h := by cases h
  parked p h := by
    simp only [kernelBoot] at h ⊢
    split at h
    · rw [if_pos ‹_›]
      exact .new fun e => ⟨Nat.one_pos, rfl, rfl, trivial⟩
    · cases h

omit [DecidableEq Lock] [DecidableEq Cpu] in
theorem code_of_update {x : Thread Lock}
    (hproc : u.proc c = s.proc c) (hthreads : u.threads = update s.threads p x)
    (hsched : u.scheduler c = s.scheduler c) (hp : s.proc c ≠ some p) : u.code c = s.code c := by
  simp only [Kernel.code, hproc, hthreads, hsched]
  split
  · rename_i q hq
    rw [update_of_ne]
    rintro rfl
    exact hp hq
  · rfl

omit [DecidableEq Cpu] in
theorem KernelInv.setThread {x : Thread Lock} (hi : KernelInv s)
    (hthreads : u.threads = update s.threads p x) (hcore : u.core = s.core)
    (hlock : u.lock = s.lock)
    (hother : ∀ c', c' ≠ c → u.proc c' = s.proc c' ∧ u.scheduler c' = s.scheduler c')
    (halone : ∀ c', c' ≠ c → s.proc c' ≠ some p)
    (hrun : Runs s.lock c (s.core c) (u.code c))
    (hown : ∀ q, u.proc c = some q → u.scheduler c = Instr.pass ∧
      ((u.threads q).status = .running ∨ (u.threads q).status = .dying) ∧
      ∀ c', c' ≠ c → s.proc c' ≠ some q)
    (hparked : x.status = .parked → Resumes x.code) : KernelInv u := by
  refine ⟨fun c' => ?_, fun c' q hq => ?_, fun c' q hq => ?_, fun c₁ c₂ q h₁ h₂ => ?_,
    fun q hq => ?_⟩
  · rw [hlock, hcore]
    by_cases hc : c' = c
    · subst hc
      exact hrun
    · obtain ⟨hproc, hsched⟩ := hother c' hc
      rw [code_of_update hproc hthreads hsched (halone c' hc)]
      exact hi.runs c'
  · by_cases hc : c' = c
    · subst hc
      exact (hown q hq).1
    · obtain ⟨hproc, hsched⟩ := hother c' hc
      rw [hsched]
      exact hi.pass c' q (hproc.symm.trans hq)
  · by_cases hc : c' = c
    · subst hc
      exact (hown q hq).2.1
    · rw [(hother c' hc).1] at hq
      have hqp : q ≠ p := by
        rintro rfl
        exact halone c' hc hq
      rw [hthreads, update_of_ne hqp]
      exact hi.status c' q hq
  · by_cases hc₁ : c₁ = c
    · by_cases hc₂ : c₂ = c
      · rw [hc₁, hc₂]
      · rw [hc₁] at h₁
        exact ((hown q h₁).2.2 c₂ hc₂ ((hother c₂ hc₂).1.symm.trans h₂)).elim
    · rw [(hother c₁ hc₁).1] at h₁
      by_cases hc₂ : c₂ = c
      · rw [hc₂] at h₂
        exact ((hown q h₂).2.2 c₁ hc₁ h₁).elim
      · exact hi.unique c₁ c₂ q h₁ ((hother c₂ hc₂).1.symm.trans h₂)
  · rw [hthreads] at hq ⊢
    by_cases hqp : q = p
    · subst hqp
      rw [update_self] at hq ⊢
      exact hparked hq
    · rw [update_of_ne hqp] at hq ⊢
      exact hi.parked q hq

theorem KernelInv.swtch {intena : Bool} {x : ThreadStatus} (hi : KernelInv s)
    (hp : s.proc c = some p) (hk : s.code c = .swtch intena :: k) : KernelInv { s with
      proc := update s.proc c none
      threads := update s.threads p ⟨x, .restore intena :: k⟩ } := by
  have hrun := hi.runs c
  rw [hk] at hrun
  obtain ⟨hn, hf, hlk, hfits⟩ : (s.core c).ncli = 1 ∧ (s.core c).flag = false ∧
      (∀ lk, s.lock lk ≠ some c) ∧ Fits k 1 intena [] := by
    cases hrun with
    | swtch hn hf hlk hk => exact ⟨hn, hf, hlk, hk⟩
    | fits _ _ _ _ _ hk => cases hk
  refine hi.setThread rfl rfl rfl (fun c' hc => ⟨update_of_ne hc .., rfl⟩)
    (fun c' hc hp' => hc (hi.unique c' c p hp' hp)) ?_ (fun q hq => ?_) (fun _ => .restore hfits)
  · have hnone (lk : Lock) : s.lock lk = some c ↔ lk ∈ [] :=
      iff_of_false (hlk lk) not_mem_nil
    simp only [Kernel.code, update_self, hi.pass c p hp]
    exact .fits (d := 1) hn hf (fun _ => rfl) (Nat.zero_le _) hnone ⟨rfl, rfl, rfl, rfl⟩
  · cases (update_self ..).symm.trans hq

omit [DecidableEq Cpu] in
theorem Resumes.runs (h : Resumes k') (hr : Runs lock c x (.pick :: k)) : Runs lock c x k' := by
  cases hr with
  | fits hn hf hi hl hlk hk =>
    obtain ⟨rfl, rfl⟩ := hk
    cases h with
    | restore hfits => exact .restore hn hf (fun lk h => by cases (hlk lk).1 h) hfits
    | new hfits => exact .fits hn hf hi hl hlk (hfits _)

theorem KernelInv.run (hi : KernelInv s) (hk : s.code c = .pick :: k)
    (hp : (s.threads p).status = .parked) : KernelInv { s with
      proc := update s.proc c (some p)
      scheduler := update s.scheduler c Instr.pass
      threads := update s.threads p ⟨.running, (s.threads p).code⟩ } := by
  have hrun := hi.runs c
  rw [hk] at hrun
  have halone (c' : Cpu) (_ : c' ≠ c) : s.proc c' ≠ some p := by
    intro hp'
    rcases hi.status c' p hp' with h | h <;> cases hp.symm.trans h
  refine hi.setThread rfl rfl rfl
    (fun c' hc => ⟨update_of_ne hc .., update_of_ne hc ..⟩) halone ?_
    (fun q hq => ?_) (fun h => by cases h)
  · simp only [Kernel.code, update_self]
    exact (hi.parked p hp).runs hrun
  · cases (update_self ..).symm.trans hq
    refine ⟨update_self .., .inl ?_, halone⟩
    simp only [update_self]

omit [DecidableEq Cpu] in
theorem KernelInv.fork (hi : KernelInv s) (c : Cpu) (hp : (s.threads p).status = .unused) :
    KernelInv { s with threads := update s.threads p ⟨.parked, Instr.forkret⟩ } := by
  have halone (c' : Cpu) : s.proc c' ≠ some p := by
    intro hp'
    rcases hi.status c' p hp' with h | h <;> cases hp.symm.trans h
  refine hi.setThread (c := c) rfl rfl rfl (fun _ _ => ⟨rfl, rfl⟩) (fun c' _ => halone c') ?_
    (fun q hq => ⟨hi.pass c q hq, ?_, fun c' hc hq' => hc (hi.unique c' c q hq' hq)⟩)
    (fun _ => .new fun e => ⟨Nat.one_pos, rfl, rfl, trivial⟩)
  · have hcode : ({ s with threads := update s.threads p ⟨.parked, Instr.forkret⟩ } :
        Kernel Cpu Lock).code c = s.code c := code_of_update rfl rfl rfl (halone c)
    rw [hcode]
    exact hi.runs c
  · have hqp : q ≠ p := by
      rintro rfl
      exact halone c hq
    simp only [update_of_ne hqp]
    exact hi.status c q hq

omit [DecidableEq Cpu] in
theorem KernelInv.zombie (hi : KernelInv s) (hp : s.proc c = some p)
    (hk : s.code c = .zombie :: k) :
    KernelInv { s with threads := update s.threads p ⟨.dying, k⟩ } := by
  have hrun := hi.runs c
  rw [hk] at hrun
  have halone (c' : Cpu) (hc : c' ≠ c) : s.proc c' ≠ some p :=
    fun hp' => hc (hi.unique c' c p hp' hp)
  refine hi.setThread rfl rfl rfl (fun _ _ => ⟨rfl, rfl⟩) halone ?_ (fun q hq => ?_)
    (fun h => by cases h)
  · simp only [Kernel.code, hp, update_self]
    cases hrun with
    | fits hn hf hi hl hlk hk => exact .fits hn hf hi hl hlk hk
  · cases hp.symm.trans hq
    refine ⟨hi.pass c p hp, .inr ?_, halone⟩
    simp only [update_self]

omit [DecidableEq Cpu] in
theorem update_lock_of_ne {o : Option Cpu} (hold : lock lk ≠ some c')
    (ho : o ≠ some c') (lk' : Lock) :
    update lock lk o lk' = some c' ↔ lock lk' = some c' := by
  by_cases he : lk' = lk
  · subst he
    rw [update_self]
    exact iff_of_false ho hold
  · rw [update_of_ne he]

theorem KernelInv.step (hi : KernelInv s) (hp : Paired s l) (ho : Outermost ptableLock s l)
    (h : kernelStep ptableLock s l = some t) : KernelInv t := by
  obtain ⟨i, k, hk, h⟩ := kernelStep_cases h
  have hrun := hi.runs l.cpu
  rw [hk] at hrun
  have hp : i.paired l.choice = true := hp i (by rw [hk]; rfl)
  have ho : i.outermost ptableLock l.choice = true := ho i (by rw [hk]; rfl)
  have hcore {x : Core} (c' : Cpu) (hc : c' ≠ l.cpu) : (s.setCore l.cpu x).core c' = s.core c' :=
    update_of_ne hc ..
  have hself {x : Core} : (s.setCore l.cpu x).core l.cpu = x := update_self ..
  generalize l.choice = choice at h hp ho
  cases h with
  | interrupt hf =>
    refine hi.setCode rfl rfl rfl hcore (fun _ _ _ => Iff.rfl) ?_
    rw [hself]
    exact hrun.interrupt hf
  | exec hx =>
    refine hi.setCode rfl rfl rfl hcore (fun _ _ _ => Iff.rfl) ?_
    rw [hself]
    exact hrun.exec hx
  | call hx =>
    refine hi.setCode rfl rfl rfl hcore (fun _ _ _ => Iff.rfl) ?_
    rw [hself]
    exact hrun.call hp ho hx
  | spin => exact hi
  | xchg he hfree =>
    subst he
    refine hi.setCode rfl rfl rfl (fun _ _ => rfl) (fun c' hc => ?_) (hrun.xchg hfree)
    refine update_lock_of_ne (fun h => by cases hfree.symm.trans h) fun h => hc ?_
    exact (Option.some.inj h).symm
  | clear he =>
    subst he
    obtain ⟨hlock, hrun⟩ := hrun.clear
    refine hi.setCode rfl rfl rfl (fun _ _ => rfl) (fun c' hc => ?_) hrun
    refine update_lock_of_ne (fun h => hc ?_) (fun h => by cases h)
    exact Option.some.inj (h.symm.trans hlock)
  | zombie he hc =>
    subst he
    exact hi.zombie hc hk
  | swtch he hc =>
    subst he
    exact hi.swtch hc hk
  | run he _ hst =>
    subst he
    exact hi.run hk hst
  | fork hst => exact hi.fork l.cpu hst

theorem KernelInv.reach
    (h : (kernel Cpu ptableLock).Reach (fun s l => Paired s l ∧ Outermost ptableLock s l) s) :
    KernelInv s := by
  refine h.invariant ?_ ?_
  · rintro s ⟨intena, rfl⟩
    exact .boot intena
  · intro s l t _ hi hok h
    exact hi.step hok.1 hok.2 h

/-- In runs that keep their pairs, and yield and sleep with nothing else pushed, every entry to
`sched` finds one `pushcli` outstanding and interrupts off, and kernel code that holds nothing has
the interrupt flag that it had when it last held nothing. -/
theorem interrupts_kept_across_sched
    (h : (kernel Cpu ptableLock).Reach (fun s l => Paired s l ∧ Outermost ptableLock s l) s)
    (c : Cpu) :
    (∀ k, s.code c = .sched :: k → (s.core c).ncli = 1 ∧ (s.core c).flag = false) ∧
    (∀ msg k, s.code c = .panic msg :: k → msg ≠ .schedLocks ∧ msg ≠ .schedInterruptible) ∧
    ∀ before k, s.code c = .code 0 [] 0 before :: k → (s.core c).flag = before := by
  have hrun := (KernelInv.reach h).runs c
  refine ⟨fun k hk => ?_, fun msg k hk => ?_, fun before k hk => ?_⟩ <;> rw [hk] at hrun <;>
    cases hrun with | fits hn hf _ _ _ hk => ?_
  · obtain ⟨rfl, _⟩ := hk
    exact ⟨hn, hf⟩
  · obtain rfl : msg = .zombieExit := hk
    exact ⟨by decide, by decide⟩
  · obtain ⟨rfl, _, _, hb, _⟩ := hk
    rw [hb rfl]
    exact hf

def advanceKernel (c : Cpu) (n : Nat) : List (KernelLabel Cpu Lock) := List.replicate n ⟨c, .go⟩

def runFirst (c : Cpu) : List (KernelLabel Cpu Lock) :=
  advanceKernel c 5 ++ [⟨c, .ret⟩, ⟨c, .run 0⟩]

def acquireFirst (c : Cpu) (lk : Lock) : List (KernelLabel Cpu Lock) :=
  runFirst c ++ advanceKernel c 2 ++ [⟨c, .acquire lk⟩] ++ advanceKernel c 10

theorem interrupts_kept_on_other_cpu : ∃ s : Kernel (Fin 2) (Fin 2),
    (kernel (Fin 2) (0 : Fin 2)).Reach (fun s l => Paired s l ∧ Outermost 0 s l) s ∧
    s.code 1 = [.code 0 [] 0 true] ∧ (s.core 1).flag = true := by
  have hboot : (kernel (Fin 2) (0 : Fin 2)).Reach (fun s l => Paired s l ∧ Outermost 0 s l)
      (kernelBoot fun _ => false) := .init ⟨_, rfl⟩
  obtain ⟨s, hr, hk⟩ := hboot.exists_run (P := fun s => s.code 1 = [.code 0 [] 0 true])
    (l := acquireFirst 0 1 ++ [⟨0, .sleep 1⟩] ++ advanceKernel 0 21 ++ runFirst 1 ++
      advanceKernel 1 12 ++ [⟨1, .release 1⟩] ++ advanceKernel 1 8)
    (by decide +kernel) (by decide +kernel)
  exact ⟨s, hr, hk, (interrupts_kept_across_sched hr 1).2.2 true [] hk⟩

def handOverLock (c : Cpu) : List (KernelLabel Cpu (Fin 3)) :=
  [⟨c, .acquire 2⟩] ++ advanceKernel c 10 ++ [⟨c, .release 1⟩] ++ advanceKernel c 8 ++
    [⟨c, .sleep 2⟩] ++ advanceKernel c 22 ++ [⟨c, .ret⟩, ⟨c, .run 0⟩] ++ advanceKernel c 12 ++
    [⟨c, .release 2⟩] ++ advanceKernel c 8

/-- `yield` between a pushcli and its popcli, and `sleep` with the lock of the process table, panic
in `sched`; and code that has gone from one lock to another ends with interrupts on and acquired the
second lock with them off. -/
theorem sched_finds_two_pushed :
    (∃ s : Kernel (Fin 1) (Fin 3), (kernel (Fin 1) (0 : Fin 3)).Reach Paired s ∧
      (s.code 0).head? = some (.panic .schedLocks) ∧ ∀ lk, s.lock lk = none) ∧
    (∃ s : Kernel (Fin 1) (Fin 3), (kernel (Fin 1) (0 : Fin 3)).Reach Paired s ∧
      (s.code 0).head? = some (.panic .schedLocks) ∧
      s.lock 0 = some 0 ∧ ∀ lk, lk ≠ 0 → s.lock lk = none) ∧
    ∃ s t : Kernel (Fin 1) (Fin 3), (kernel (Fin 1) (0 : Fin 3)).Reach Paired s ∧
      (kernel (Fin 1) (0 : Fin 3)).Permits Paired s (handOverLock 0) ∧
      (kernel (Fin 1) (0 : Fin 3)).run s (handOverLock 0) = some t ∧
      (s.core 0).flag = false ∧ t.code 0 = [.code 0 [] 0 true] ∧ (t.core 0).flag = true := by
  have hboot : (kernel (Fin 1) (0 : Fin 3)).Reach Paired (kernelBoot fun _ => false) :=
    .init ⟨_, rfl⟩
  refine ⟨?_, ?_, ?_⟩
  · exact hboot.exists_run (l := runFirst 0 ++ advanceKernel 0 2 ++ [⟨0, .pushcli⟩] ++
      advanceKernel 0 3 ++ [⟨0, .yield⟩] ++ advanceKernel 0 12) (by decide +kernel)
      (by decide +kernel)
  · exact hboot.exists_run (l := acquireFirst 0 0 ++ [⟨0, .sleep 0⟩] ++ advanceKernel 0 12)
      (by decide +kernel) (by decide +kernel)
  obtain ⟨s, hs, hf, hp, ht⟩ := hboot.exists_run (l := acquireFirst 0 1)
    (P := fun s => (s.core 0).flag = false ∧
      (kernel (Fin 1) (0 : Fin 3)).Permits Paired s (handOverLock 0) ∧
      ((kernel (Fin 1) (0 : Fin 3)).run s (handOverLock 0)).any (fun t =>
        decide (t.code 0 = [.code 0 [] 0 true] ∧ (t.core 0).flag = true)) = true)
    (by decide +kernel) (by decide +kernel)
  obtain ⟨t, hrun, ht⟩ := (Option.any_eq_true ..).1 ht
  exact ⟨s, t, hs, hp, hrun, hf, of_decide_eq_true ht⟩

end Xv6Signals
