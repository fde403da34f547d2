import Xv6Signals.HandlerReturn

namespace Xv6Signals
open Lib Function

/-- What the frame of a process stands for: the program itself, the `n`-th delivered handler before
its first instruction, or that handler under way. -/
inductive Tag
  | program
  | entry (n : Nat)
  | body (n : Nat)
  deriving DecidableEq, Repr

def Tag.isBody : Tag → Bool
  | .body _ => true
  | _ => false

/-- The history of a process's deliveries: what its frame and its saved frame stand for, how many
handlers were delivered and how often each was started, and the frame and the mask it had before the
first delivery. -/
structure Story where
  cur : Tag
  bak : Tag
  count : Nat
  runs : Nat → Nat
  away : Bool
  home : TrapFrame
  homeMask : Word

def Story.start : Story := ⟨.program, .program, 0, fun _ => 0, false, default, 0⟩

def Story.deliver (g : Story) (p : Proc) : Story where
  cur := .entry g.count
  bak := g.cur
  count := g.count + 1
  runs := g.runs
  away := true
  home := if g.away then g.home else p.tf
  homeMask := if g.away then g.homeMask else p.sigmask

def Story.pop (g : Story) : Story :=
  match g.cur with
  | .program => { g with away := false }
  | .entry n => { g with cur := .body n, runs := update g.runs n (g.runs n + 1) }
  | .body _ => g

def Task.pops (s : Task) : Bool :=
  match s.mode with
  | .trapret k => !decide (k < 32)
  | _ => false

def Story.after (g : Story) (s : Task) : Event → Story
  | .go =>
    if s.delivers then g.deliver s.proc
    else if s.AtCall sysSigretNum then { g with cur := g.bak }
    else if s.pops then g.pop
    else g
  | .exec _ _ _ _ => { g with cur := .program, away := false }
  | .child _ _ _ => .start
  | _ => g

/-- A signal goes to a user handler only when no handler is under way, a `sigret` comes from a
handler and finds `tf_backup` untouched, and a child is followed only out of the program itself. -/
def Alone (s : Task × Story) : Event → Prop
  | .go => (s.1.delivers = true → s.2.cur = .program) ∧
      (s.1.AtCall sysSigretNum → s.2.cur.isBody = true ∧ s.1.proc.tfBackup = s.1.proc.kstack)
  | .child _ _ _ => s.2.cur = .program
  | .wreck _ => False
  | _ => True

instance (s : Task × Story) (e : Event) : Decidable (Alone s e) :=
  match e with
  | .go => inferInstanceAs (Decidable (_ ∧ _))
  | .child _ _ _ => inferInstanceAs (Decidable (s.2.cur = .program))
  | .wreck _ => .isFalse id
  | .trap _ _ | .call _ _ _ | .exec _ _ _ _ | .kill _ => .isTrue trivial

def Mode.inPass : Mode → Bool
  | .sigret _ | .trapret _ => true
  | _ => false

def AtHome (p : Proc) (g : Story) : Prop :=
  p.tf.eip = g.home.eip ∧ p.tf.esp = g.home.esp ∧ p.sigmask = g.homeMask

def HomeSaved (p : Proc) (g : Story) : Prop :=
  (frameAt p.mem p.kstack).eip = g.home.eip ∧ (frameAt p.mem p.kstack).esp = g.home.esp ∧
    p.sigmaskBackup = g.homeMask

structure StoryInv (s : Task) (g : Story) : Prop where
  kstack : kallocPage s.proc.kstack = true
  sz : s.proc.sz.toNat < kernBase
  unborn : ∀ n, g.count ≤ n → g.runs n = 0
  ran : ∀ n, n < g.count → g.cur ≠ .entry n → g.runs n = 1
  entry : ∀ n, g.cur = .entry n → n + 1 = g.count ∧ g.runs n = 0 ∧ s.mode.inPass = true
  saved : g.cur ≠ .program → g.bak = .program ∧ g.away = true ∧ HomeSaved s.proc g
  back : g.cur = .program → g.away = true → s.mode.inPass = true ∧ AtHome s.proc g

variable {s t : Task} {p q : Proc} {e : Event} {g : Story} {next : Nat → Mode} {k : Nat}

theorem StoryInv.runs_le (hi : StoryInv s g) (n : Nat) : g.runs n ≤ 1 := by
  rcases Nat.lt_or_ge n g.count with hn | hn
  · by_cases hc : g.cur = .entry n
    · rw [(hi.entry n hc).2.1]
      exact Nat.zero_le 1
    · rw [hi.ran n hn hc]
  · rw [hi.unborn n hn]
    exact Nat.zero_le 1

theorem StoryInv.ran_outside (hi : StoryInv s g) (hm : s.mode.inPass = false) {n : Nat}
    (hn : n < g.count) : g.runs n = 1 := by
  refine hi.ran n hn fun hc => ?_
  cases hm.symm.trans (hi.entry n hc).2.2

theorem StoryInv.keep (hi : StoryInv s g) (hk : t.proc.kstack = s.proc.kstack)
    (hsz : t.proc.sz.toNat < kernBase) (hm : SameKernel s.proc.mem t.proc.mem)
    (hb : t.proc.sigmaskBackup = s.proc.sigmaskBackup)
    (hpass : s.mode.inPass = true → t.mode.inPass = true ∧ t.proc.tf.eip = s.proc.tf.eip ∧
      t.proc.tf.esp = s.proc.tf.esp ∧ t.proc.sigmask = s.proc.sigmask) : StoryInv t g where
  kstack := by
    rw [hk]
    exact hi.kstack
  sz := hsz
  unborn := hi.unborn
  ran := hi.ran
  entry := by
    intro n hn
    obtain ⟨hc, hr, hp⟩ := hi.entry n hn
    exact ⟨hc, hr, (hpass hp).1⟩
  saved := by
    intro hc
    obtain ⟨hbak, haway, hf⟩ := hi.saved hc
    refine ⟨hbak, haway, ?_⟩
    rw [HomeSaved, hk, hm.frameAt hi.kstack, hb]
    exact hf
  back := by
    intro hc ha
    obtain ⟨hp, heip, hesp, hmask⟩ := hi.back hc ha
    obtain ⟨hp', heip', hesp', hmask'⟩ := hpass hp
    exact ⟨hp', heip'.trans heip, hesp'.trans hesp, hmask'.trans hmask⟩

theorem StoryInv.keep_outside (hi : StoryInv s g) (hout : s.mode.inPass = false)
    (hk : t.proc.kstack = s.proc.kstack) (hsz : t.proc.sz.toNat < kernBase)
    (hm : SameKernel s.proc.mem t.proc.mem)
    (hb : t.proc.sigmaskBackup = s.proc.sigmaskBackup) : StoryInv t g :=
  hi.keep hk hsz hm hb fun hp => by cases hout.symm.trans hp

theorem inPass_trap (h : s.mode = .trap) : s.mode.inPass = false := by rw [h]; rfl

theorem after_call {num : Word} (h : s.AtCall num) (hne : num ≠ sysSigretNum) :
    g.after s .go = g := by
  have hn : ¬ s.AtCall sysSigretNum := fun h' => hne (h.2.2.symm.trans h'.2.2)
  simp only [Story.after, delivers_trap h.1, Task.pops, h.1, if_neg hn, Bool.false_eq_true,
    if_false]

theorem after_irq (h : s.mode = .trap) (hn : s.proc.tf.trapno ≠ tSyscall) : g.after s .go = g := by
  have hc : ¬ s.AtCall sysSigretNum := fun h' => hn h'.2.1
  simp only [Story.after, delivers_trap h, Task.pops, h, if_neg hc, Bool.false_eq_true, if_false]

theorem after_sigret (h : s.AtCall sysSigretNum) : g.after s .go = { g with cur := g.bak } := by
  simp only [Story.after, delivers_trap h.1, if_pos h, Bool.false_eq_true, if_false]

theorem not_atCall_of_pass {num : Word} (h : s.mode.Pass next k) : ¬ s.AtCall num := by
  intro hc
  rw [hc.1] at h
  cases h

theorem after_signal (h : s.mode.Pass next k) (hk : k < 32) :
    g.after s .go = if s.delivers then g.deliver s.proc else g := by
  have hp : s.pops = false := by
    obtain ⟨p, mode⟩ := s
    cases h <;> simp only [Task.pops, hk, decide_true, Bool.not_true]
  simp only [Story.after, if_neg (not_atCall_of_pass h), hp, Bool.false_eq_true, if_false]

theorem after_sigretEnd (h : s.mode = .sigret k) (hk : ¬ k < 32) : g.after s .go = g := by
  have hp : s.mode.Pass .sigret k := by rw [h]; exact .sigret
  simp only [Story.after, delivers_end hp hk, if_neg (not_atCall_of_pass hp), Task.pops, h,
    Bool.false_eq_true, if_false]

theorem after_pop (h : s.mode = .trapret k) (hk : ¬ k < 32) : g.after s .go = g.pop := by
  have hp : s.mode.Pass .trapret k := by rw [h]; exact .trapret
  simp only [Story.after, delivers_end hp hk, if_neg (not_atCall_of_pass hp), Task.pops, h, hk,
    decide_false, Bool.not_false, Bool.false_eq_true, if_false, if_true]

theorem StoryInv.start {mode : Mode} (hk : kallocPage p.kstack = true)
    (hsz : p.sz.toNat < kernBase) : StoryInv ⟨p, mode⟩ .start where
  kstack := hk
  sz := hsz
  unborn := fun _ _ => rfl
  ran := fun n hn => absurd hn (Nat.not_lt_zero n)
  entry := nofun
  saved := fun h => absurd rfl h
  back := nofun

theorem StoryInv.sigret (hi : StoryInv s g) (hc : s.AtCall sysSigretNum)
    (hbody : g.cur.isBody = true) (hptr : s.proc.tfBackup = s.proc.kstack)
    (hq : s.proc.restore = .ok q) :
    StoryInv ⟨q, .sigret q.firstSignal⟩ { g with cur := g.bak } := by
  have hne : g.cur ≠ .program := fun h => by rw [h] at hbody; cases hbody
  obtain ⟨hbak, haway, hsaved⟩ := hi.saved hne
  unfold Proc.restore at hq
  split at hq
  · cases hq
    refine ⟨hi.kstack, hi.sz, hi.unborn, ?_, ?_, ?_, ?_⟩
    · exact fun n hn _ => hi.ran_outside (inPass_trap hc.1) hn
    · intro n hn
      cases hbak.symm.trans hn
    · exact fun h => absurd hbak h
    intro _ _
    refine ⟨rfl, ?_⟩
    change (frameAt s.proc.mem s.proc.tfBackup).eip = _ ∧
      (frameAt s.proc.mem s.proc.tfBackup).esp = _ ∧ _
    rw [hptr]
    exact hsaved
  · cases hq

theorem StoryInv.deliver (hi : StoryInv s g) (hk : k < 32)
    (hp : s.mode.Pass next k) (hcur : g.cur = .program) (hr : s.proc.roomBelow = true) :
    StoryInv ⟨delivered (s.proc.consume ⟨k, hk⟩) ⟨k, hk⟩, next (k + 1)⟩ (g.deliver s.proc) where
  kstack := hi.kstack
  sz := hi.sz
  unborn := fun n hn => hi.unborn n (by have : g.count + 1 ≤ n := hn; omega)
  ran := by
    intro n hn hne
    have hne' : n ≠ g.count := fun h => hne (by rw [h]; rfl)
    have hn' : n < g.count + 1 := hn
    refine hi.ran n (by omega) ?_
    rw [hcur]
    nofun
  entry := by
    intro n hn
    cases hn
    refine ⟨rfl, hi.unborn _ (Nat.le_refl _), ?_⟩
    obtain ⟨p, mode⟩ := s
    cases hp <;> rfl
  saved := by
    intro _
    refine ⟨hcur, rfl, ?_⟩
    have hf : frameAt (delivered (s.proc.consume ⟨k, hk⟩) ⟨k, hk⟩).mem
        (s.proc.consume ⟨k, hk⟩).kstack = s.proc.tf := frameAt_delivered hr hi.kstack
    change (frameAt _ (s.proc.consume ⟨k, hk⟩).kstack).eip = _ ∧
      (frameAt _ (s.proc.consume ⟨k, hk⟩).kstack).esp = _ ∧ s.proc.sigmask = _
    rw [hf]
    by_cases ha : g.away = true
    · rw [Story.deliver, if_pos ha, if_pos ha]
      exact (hi.back hcur ha).2
    · rw [Story.deliver, if_neg ha, if_neg ha]
      exact ⟨rfl, rfl, rfl⟩
  back := nofun

theorem StoryInv.signal (hi : StoryInv s g) (hk : k < 32)
    (hp : s.mode.Pass next k) (hcur : s.delivers = true → g.cur = .program)
    (h : SignalStep s.proc ⟨k, hk⟩ q) : StoryInv ⟨q, next (k + 1)⟩ (g.after s .go) := by
  rw [after_signal hp hk]
  have hd := hp.delivers hk
  rcases h.image with ⟨hd', hr, rfl⟩ | ⟨hd', hq⟩
  · have hs := hd.trans hd'
    rw [if_pos hs]
    exact hi.deliver hk hp (hcur hs) hr
  · rw [hd, hd', hq]
    refine hi.keep rfl hi.sz (.refl _) rfl fun _ => ⟨?_, rfl, rfl, rfl⟩
    obtain ⟨p, mode⟩ := s
    cases hp <;> rfl

theorem StoryInv.pop (hi : StoryInv s g) : StoryInv ⟨s.proc, .user⟩ g.pop := by
  unfold Story.pop
  split
  · rename_i hc
    refine ⟨hi.kstack, hi.sz, hi.unborn, hi.ran, ?_, fun h => absurd hc h, nofun⟩
    intro n hn
    cases hc.symm.trans hn
  · rename_i n hc
    obtain ⟨hlast, hzero, _⟩ := hi.entry n hc
    refine ⟨hi.kstack, hi.sz, ?_, ?_, nofun, fun _ => hi.saved (by rw [hc]; nofun), nofun⟩
    · intro m hm
      have hle : g.count ≤ m := hm
      change update g.runs n (g.runs n + 1) m = 0
      rw [update_of_ne (by omega)]
      exact hi.unborn m hm
    intro m hm _
    change update g.runs n (g.runs n + 1) m = 1
    by_cases hmn : m = n
    · rw [hmn, update_self, hzero]
    · rw [update_of_ne hmn]
      refine hi.ran m hm fun h => hmn ?_
      cases hc.symm.trans h
      rfl
  · rename_i n hc
    refine ⟨hi.kstack, hi.sz, hi.unborn, hi.ran, ?_, hi.saved, ?_⟩
    · intro m hn
      cases hc.symm.trans hn
    · intro h _
      cases hc.symm.trans h

theorem StoryInv.step (hi : StoryInv s g) (hok : Alone (s, g) e) (h : trapStep s e = some t) :
    StoryInv t (g.after s e) := by
  cases trapStep_cases h with
  | kill =>
    obtain ⟨v, hv⟩ := post_eq s.proc _
    rw [hv]
    exact hi.keep rfl hi.sz (.refl _) rfl fun hp => ⟨hp, rfl, rfl, rfl⟩
  | trap hm _ _ => exact hi.keep_outside (by rw [hm]; rfl) rfl hi.sz (.user _ _ _) rfl
  | sigprocmask hc =>
    rw [after_call hc (by decide), sysSigprocmask_image]
    exact hi.keep_outside (inPass_trap hc.1) rfl hi.sz (.refl _) rfl
  | sigaction hc =>
    have hmem := sysSigaction_sameKernel hi.sz
    rw [after_call hc (by decide), sysSigaction_image]
    exact hi.keep_outside (inPass_trap hc.1) rfl hi.sz hmem rfl
  | sigret hc hq =>
    obtain ⟨hbody, hptr⟩ := hok.2 hc
    rw [after_sigret hc]
    exact hi.sigret hc hbody hptr hq
  | call hc _ hsz => exact hi.keep_outside (inPass_trap hc.1) rfl hsz (.user _ _ _) rfl
  | exec hc hsz =>
    refine ⟨hi.kstack, hsz, hi.unborn, ?_, nofun, fun h => absurd rfl h, nofun⟩
    exact fun n hn _ => hi.ran_outside (inPass_trap hc.1) hn
  | child _ hpage => exact .start hpage hi.sz
  | irq hm hn =>
    rw [after_irq hm hn]
    exact hi.keep_outside (inPass_trap hm) rfl hi.sz (.refl _) rfl
  | signal hk hp hq => exact hi.signal hk hp hok.1 hq
  | wreck _ => exact hok.elim
  | sigretEnd hm hk =>
    rw [after_sigretEnd hm hk]
    exact hi.keep rfl hi.sz (.refl _) rfl fun _ => ⟨rfl, rfl, rfl, rfl⟩
  | pop hm hk =>
    rw [after_pop hm hk]
    exact hi.pop

def storyMachine : Machine (Task × Story) Event := trapMachine.track .start Story.after

theorem StoryInv.reach {s : Task × Story} (h : storyMachine.Reach Alone s) : StoryInv s.1 s.2 := by
  refine h.invariant (P := fun s => StoryInv s.1 s.2) ?_ ?_
  · rintro ⟨_, _⟩ ⟨⟨mem, kstack, hk, rfl⟩, rfl⟩
    have hsz : (4096 : Word).toNat < kernBase := by decide
    exact .start hk hsz
  · rintro ⟨s, g⟩ e ⟨t, g'⟩ _ hi hok h
    obtain ⟨t, ht, he⟩ := Option.map_eq_some_iff.1 h
    cases he
    exact hi.step hok ht

/-- In every run in which handlers do not overlap, no handler is started twice, each delivered one
has been started when the process is in user mode, and when the process is about to be resumed
after the last `sigret` it is where it was before the first delivery. -/
theorem handlers_run_once (h : storyMachine.Reach Alone (s, g)) :
    (∀ n, g.runs n ≤ 1) ∧ (s.mode = .user → ∀ n, n < g.count → g.runs n = 1) ∧
      (s.pops = true → g.cur = .program → g.away = true →
        s.proc.tf.eip = g.home.eip ∧ s.proc.tf.esp = g.home.esp ∧ s.proc.sigmask = g.homeMask) := by
  have hi := StoryInv.reach h
  refine ⟨hi.runs_le, ?_, ?_⟩
  · intro hm n hn
    exact hi.ran_outside (by rw [hm]; rfl) hn
  · intro _ hc ha
    exact (hi.back hc ha).2

theorem handlers_run_once_returned : ∃ s : Task × Story, storyMachine.Reach Alone s ∧
    s.1.pops = true ∧ s.2.cur = .program ∧ s.2.away = true ∧ s.2.count = 1 ∧ s.2.runs 0 = 1 ∧
    s.2.home.esp = 0x800 ∧ s.1.proc.tf.esp = s.2.home.esp := by
  have hinit : storyMachine.Reach Alone (firstTask, .start) :=
    .init ⟨⟨_, _, by decide, rfl⟩, rfl⟩
  obtain ⟨s, hs, hpop, hc, ha, hcount, hruns, hesp⟩ := hinit.exists_run (l := deliveryRun.dropLast)
    (P := fun s => s.1.pops = true ∧ s.2.cur = .program ∧ s.2.away = true ∧ s.2.count = 1 ∧
      s.2.runs 0 = 1 ∧ s.2.home.esp = 0x800)
    (by decide +kernel) (by decide +kernel)
  exact ⟨s, hs, hpop, hc, ha, hcount, hruns, hesp, ((handlers_run_once hs).2.2 hpop hc ha).2.1⟩

def sigactionMem' : Mem 32 := fun a =>
  if a = 0x804 then 7 else if a = 0x809 then 3 else if a = 0x300 then 0x80 else
    if a = 0x301 then 1 else 0

def nestedRun : List Event :=
  List.replicate 33 .go ++
  [.trap sigactionMem (callFrameRegs sysSigactionNum 0x800)] ++ List.replicate 34 .go ++
  [.trap sigactionMem' (callFrameRegs sysSigactionNum 0x800)] ++ List.replicate 34 .go ++
  [.kill 5, .kill 7, .trap (fun _ => 0) { callFrameRegs 0 0x800 with trapno := 32, eip := 0x40 }] ++
  List.replicate 34 .go ++
  [.trap (fun _ => 0) (callFrameRegs sysSigretNum 0x700)] ++ List.replicate 67 .go ++
  [.trap (fun _ => 0) (callFrameRegs sysSigretNum 0x700)] ++ List.replicate 67 .go

theorem handler_restarted : ∃ s : Task × Story, storyMachine.Reachable s ∧ s.1.mode = .user ∧
    s.2.count = 2 ∧ s.2.runs 0 = 2 ∧ s.2.home.eip = 0x40 ∧ s.1.proc.tf.eip = 0x100 :=
  (Machine.Reach.init (M := storyMachine) (s := (firstTask, .start))
    ⟨⟨_, _, by decide, rfl⟩, rfl⟩).exists_run (l := nestedRun)
    (P := fun s : Task × Story => s.1.mode = .user ∧ s.2.count = 2 ∧ s.2.runs 0 = 2 ∧
      s.2.home.eip = 0x40 ∧ s.1.proc.tf.eip = 0x100)
    (Machine.permits_true ..) (by decide +kernel)

end Xv6Signals
