import Xv6Signals.HandlerTable
import Xv6Signals.TrapSteps

namespace Xv6Signals
open Lib

variable {s t : Task} {p q : Proc} {e : Event} {m m' m'' : Mem 32} {a : Word} {sig : Sig}
  {next : Nat → Mode} {saved : Bool} {bs : List Byte} {k : Nat}

/-- The two memories agree above `KERNBASE`, where user code and the user buffers of the system
calls do not reach. -/
def SameKernel (m m' : Mem 32) : Prop := ∀ x : Word, kernBase ≤ x.toNat → m' x = m x

theorem SameKernel.refl (m : Mem 32) : SameKernel m m := fun _ _ => rfl

theorem SameKernel.trans (h : SameKernel m m') (h' : SameKernel m' m'') : SameKernel m m'' :=
  fun x hx => (h' x hx).trans (h x hx)

theorem userMapped_lt {sz x : Word} (h : userMapped sz x = true) : x.toNat < kernBase := by
  rw [userMapped, Bool.and_eq_true] at h
  exact of_decide_eq_true h.2

theorem SameKernel.user (sz : Word) (m m' : Mem 32) :
    SameKernel m fun a => if userMapped sz a then m' a else m a := by
  intro x hx
  refine if_neg fun h => ?_
  have := userMapped_lt h
  omega

theorem SameKernel.store (h : ∀ i, i < bs.length → (a + BitVec.ofNat 32 i).toNat < kernBase) :
    SameKernel m (m.store a bs) := by
  intro x hx
  refine Mem.store_outside ?_
  by_contra hlt
  have hi := h (offset a x) (by omega)
  rw [add_offset] at hi
  omega

theorem SameKernel.store_user {sz : Word}
    (h : allBytes (userMapped sz) a bs.length = true) : SameKernel m (m.store a bs) := by
  refine .store fun i hi => ?_
  have hm : userMapped sz (a + BitVec.ofNat 32 i) = true :=
    List.all_eq_true.1 h i (List.mem_range.2 hi)
  exact userMapped_lt hm

theorem SameKernel.callFrame (h : p.roomBelow = true) :
    SameKernel m (callFrame m p.tf.esp sig) := by
  simp only [Proc.roomBelow, Bool.and_eq_true] at h
  exact ((SameKernel.store_user h.1.1).trans (.store_user h.1.2)).trans (.store_user h.2)

def frameAt (m : Mem 32) (a : Word) : TrapFrame := .ofWords (bytesWords (m.load a 76))

theorem SameKernel.frameAt (h : SameKernel m m') (ha : kallocPage a = true) :
    frameAt m' a = frameAt m a := by
  rw [kallocPage, Bool.and_eq_true, decide_eq_true_eq, decide_eq_true_eq] at ha
  refine congrArg (fun bs => TrapFrame.ofWords (bytesWords bs)) (Mem.load_congr fun i hi => h _ ?_)
  have hk : kernBase = 0x80000000 := rfl
  have hp : physTop = 0xE000000 := rfl
  rw [BitVec.toNat_add, BitVec.toNat_ofNat]
  omega

theorem frameAt_store (m : Mem 32) (a : Word) (tf : TrapFrame) :
    frameAt (m.store a (wordsBytes tf.toWords)) a = tf := by
  have hl : (wordsBytes tf.toWords).length = 76 := length_wordsBytes _
  have h := m.load_store a (wordsBytes tf.toWords) (by rw [hl]; decide)
  rw [hl] at h
  rw [frameAt, h, bytesWords_wordsBytes, TrapFrame.ofWords_toWords]

theorem frameAt_delivered (hr : p.roomBelow = true) (hk : kallocPage p.kstack = true) :
    frameAt (delivered p sig).mem p.kstack = p.tf :=
  ((SameKernel.callFrame hr).frameAt hk).trans (frameAt_store ..)

theorem argptr_lt {n size : Word} (h : argptr p n size = some a) : a < p.sz ∧ a + size ≤ p.sz := by
  unfold argptr at h
  split at h
  · cases h
  split at h
  · cases h
  · rename_i hs
    cases h
    rw [not_or, not_or] at hs
    exact ⟨BitVec.not_le.1 hs.2.1, BitVec.not_lt.1 hs.2.2⟩

theorem SameKernel.writeSigaction {sz : Word} {act : Sigaction} (hsz : sz.toNat < kernBase)
    (h : a < sz ∧ a + 8 ≤ sz) : SameKernel m (writeSigaction m a act) := by
  have hk : kernBase = 0x80000000 := rfl
  obtain ⟨h₁, h₂⟩ := h
  have hbelow : a.toNat + 8 ≤ kernBase := by
    rw [BitVec.lt_def] at h₁
    rw [BitVec.le_def, BitVec.toNat_add] at h₂
    have h8 : (8 : BitVec 32).toNat = 8 := rfl
    omega
  refine (SameKernel.store ?_).trans (.store ?_)
  · intro i hi
    rw [length_wordBytes] at hi
    rw [BitVec.toNat_add, BitVec.toNat_ofNat]
    omega
  intro i hi
  rw [length_wordBytes] at hi
  rw [BitVec.toNat_add, BitVec.toNat_add, BitVec.toNat_ofNat]
  have h4 : (4 : BitVec 32).toNat = 4 := rfl
  omega

theorem sysSigaction_image (p : Proc) : (sysSigaction p).2 = { p with
    mem := (sysSigaction p).2.mem
    sigHandlers := (sysSigaction p).2.sigHandlers
    tfBackup := (sysSigaction p).2.tfBackup } := by
  unfold sysSigaction
  split
  · simp only
    unfold sigaction
    split
    · rfl
    · simp only [Proc.setEntry, Proc.setTableWord]
      repeat' split
      all_goals rfl
  · rfl

theorem sysSigaction_sameKernel (hsz : p.sz.toNat < kernBase) :
    SameKernel p.mem (sysSigaction p).2.mem := by
  unfold sysSigaction
  split
  · rename_i signum act oldact _ _ ho
    simp only
    unfold sigaction
    split
    · exact .refl _
    · simp only [Proc.storeOld]
      split
      · exact .writeSigaction hsz (argptr_lt ho)
      · exact .refl _
  · exact .refl _

theorem sysSigprocmask_image (p : Proc) :
    (sysSigprocmask p).2 = { p with sigmask := (sysSigprocmask p).2.sigmask } := by
  unfold sysSigprocmask
  split <;> rfl

def Task.delivers (s : Task) : Bool :=
  match s.mode with
  | .sigret k | .trapret k => if h : k < 32 then s.proc.delivers ⟨k, h⟩ else false
  | _ => false

def savedAfter (saved : Bool) (s : Task) : Event → Bool
  | .go => saved || s.delivers
  | .child _ _ _ => false
  | _ => saved

/-- Every `sigret` finds the frame that `user_handler` has saved in this process, and no delivery
writes above `KERNBASE`. -/
def SigretSound (s : Task × Bool) : Event → Prop
  | .go => s.1.AtCall sysSigretNum → s.1.proc.tfBackup = s.1.proc.kstack ∧ s.2 = true
  | .wreck _ => False
  | _ => True

instance (s : Task × Bool) (e : Event) : Decidable (SigretSound s e) :=
  match e with
  | .go => inferInstanceAs (Decidable (s.1.AtCall sysSigretNum → _))
  | .wreck _ => .isFalse id
  | .trap _ _ | .call _ _ _ | .exec _ _ _ _ | .child _ _ _ | .kill _ => .isTrue trivial

structure FrameInv (s : Task × Bool) : Prop where
  kstack : kallocPage s.1.proc.kstack = true
  sz : s.1.proc.sz.toNat < kernBase
  frame : s.1.proc.tf.User
  saved : s.2 = true → (frameAt s.1.proc.mem s.1.proc.kstack).User

theorem Mode.Pass.delivers (h : s.mode.Pass next k) (hk : k < 32) :
    s.delivers = s.proc.delivers ⟨k, hk⟩ := by
  obtain ⟨p, mode⟩ := s
  cases h <;> simp only [Task.delivers, dif_pos hk]

theorem delivers_trap (h : s.mode = .trap) : s.delivers = false := by
  simp only [Task.delivers, h]

theorem delivers_end (h : s.mode.Pass next k) (hk : ¬ k < 32) : s.delivers = false := by
  obtain ⟨p, mode⟩ := s
  cases h <;> simp only [Task.delivers, dif_neg hk]

theorem FrameInv.keep (hi : FrameInv (s, saved))
    (hk : t.proc.kstack = s.proc.kstack) (hsz : t.proc.sz.toNat < kernBase)
    (hf : t.proc.tf.User) (hm : SameKernel s.proc.mem t.proc.mem) : FrameInv (t, saved) where
  kstack := by
    rw [hk]
    exact hi.kstack
  sz := hsz
  frame := hf
  saved := by
    intro h
    rw [hk, hm.frameAt hi.kstack]
    exact hi.saved h

theorem FrameInv.signal (hi : FrameInv (s, saved))
    (hk : k < 32) (hp : s.mode.Pass next k) (h : SignalStep s.proc ⟨k, hk⟩ q) :
    FrameInv (⟨q, next (k + 1)⟩, saved || s.delivers) := by
  rw [hp.delivers hk]
  rcases h.image with ⟨hd, hr, rfl⟩ | ⟨hd, hq⟩
  · refine ⟨hi.kstack, hi.sz, hi.frame, fun _ => ?_⟩
    change (frameAt (delivered (s.proc.consume ⟨k, hk⟩) ⟨k, hk⟩).mem s.proc.kstack).User
    rw [show frameAt _ s.proc.kstack = s.proc.tf from
      frameAt_delivered (p := s.proc.consume ⟨k, hk⟩) hr hi.kstack]
    exact hi.frame
  · rw [hd, Bool.or_false, hq]
    exact hi.keep rfl hi.sz hi.frame (.refl _)

theorem FrameInv.step (hi : FrameInv (s, saved)) (hok : SigretSound (s, saved) e)
    (h : trapStep s e = some t) : FrameInv (t, savedAfter saved s e) := by
  cases trapStep_cases h with
  | kill =>
    obtain ⟨v, hv⟩ := post_eq s.proc _
    rw [hv]
    exact hi.keep rfl hi.sz hi.frame (.refl _)
  | trap _ hcs hif =>
    refine hi.keep rfl hi.sz ⟨?_, ?_⟩ (.user _ _ _)
    · rw [hcs, hi.frame.1]
    · rw [hif, hi.frame.2]
  | sigprocmask hm =>
    rw [savedAfter, delivers_trap hm.1, Bool.or_false, sysSigprocmask_image]
    exact hi.keep rfl hi.sz hi.frame (.refl _)
  | sigaction hm =>
    rw [savedAfter, delivers_trap hm.1, Bool.or_false]
    have hmem := sysSigaction_sameKernel hi.sz
    rw [sysSigaction_image]
    exact hi.keep rfl hi.sz hi.frame hmem
  | sigret hs hq =>
    rw [savedAfter, delivers_trap hs.1, Bool.or_false]
    obtain ⟨hb, hsaved⟩ := hok hs
    unfold Proc.restore at hq
    split at hq
    · cases hq
      refine hi.keep rfl hi.sz ?_ (.refl _)
      change (frameAt s.proc.mem s.proc.tfBackup).User
      rw [hb]
      exact hi.saved hsaved
    · cases hq
  | call _ _ hsz => exact hi.keep rfl hsz hi.frame (.user _ _ _)
  | exec _ hsz => exact hi.keep rfl hsz hi.frame (.user _ _ _)
  | child _ hpage => exact ⟨hpage, hi.sz, hi.frame, nofun⟩
  | irq hm _ =>
    rw [savedAfter, delivers_trap hm, Bool.or_false]
    exact hi.keep rfl hi.sz hi.frame (.refl _)
  | signal hk hp hq => exact hi.signal hk hp hq
  | wreck _ => exact hok.elim
  | sigretEnd hm hk =>
    rw [savedAfter, delivers_end (by rw [hm]; exact .sigret) hk, Bool.or_false]
    exact hi.keep rfl hi.sz hi.frame (.refl _)
  | pop hm hk =>
    rw [savedAfter, delivers_end (by rw [hm]; exact .trapret) hk, Bool.or_false]
    exact hi.keep rfl hi.sz hi.frame (.refl _)

def savingMachine : Machine (Task × Bool) Event := trapMachine.track false savedAfter

theorem FrameInv.reach {s : Task × Bool} (h : savingMachine.Reach SigretSound s) : FrameInv s := by
  refine h.invariant ?_ ?_
  · rintro ⟨_, _⟩ ⟨⟨mem, kstack, hk, rfl⟩, rfl⟩
    have hsz : (4096 : Word).toNat < kernBase := by decide
    have hif : (0x200 : Word).getLsbD 9 = true := by decide
    exact ⟨hk, hsz, ⟨rfl, hif⟩, nofun⟩
  · rintro ⟨s, saved⟩ e ⟨t, saved'⟩ _ hi hok h
    obtain ⟨t, ht, he⟩ := Option.map_eq_some_iff.1 h
    cases he
    exact hi.step hok ht

/-- In every run whose `sigret`s are sound, the frame of the process, which `trapret` pops, resumes
it in user mode with interrupts enabled. -/
theorem popped_frame_user {s : Task}
    (h : savingMachine.Reach SigretSound (s, saved)) : s.proc.tf.User :=
  (FrameInv.reach h).frame

def callFrameRegs (num esp : Word) : TrapFrame :=
  { (default : TrapFrame) with
    eax := num, trapno := tSyscall, cs := userCs, eflags := 0x200, esp := esp }

def sigactionMem : Mem 32 := fun a =>
  if a = 0x804 then 5 else if a = 0x809 then 2 else if a = 0x201 then 1 else 0

def deliveryRun : List Event :=
  List.replicate 33 .go ++
  [.trap sigactionMem (callFrameRegs sysSigactionNum 0x800)] ++ List.replicate 34 .go ++
  [.kill 5, .trap sigactionMem { callFrameRegs 0 0x800 with trapno := 32 }] ++
  List.replicate 34 .go ++ [.trap sigactionMem (callFrameRegs sysSigretNum 0x700)] ++
  List.replicate 67 .go

def firstTask : Task := ⟨userinit (fun _ => 0) 0x80400000, .trapret 0⟩

theorem popped_frame_user_returned : ∃ s : Task × Bool, savingMachine.Reach SigretSound s ∧
    s.1.mode = .user ∧ s.2 = true ∧ s.1.proc.tf.esp = 0x800 ∧ s.1.proc.tf.User := by
  have hinit : savingMachine.Reach SigretSound (firstTask, false) :=
    .init ⟨⟨_, _, by decide, rfl⟩, rfl⟩
  obtain ⟨s, hs, hm, hsaved, hesp⟩ := hinit.exists_run (l := deliveryRun)
    (P := fun s => s.1.mode = .user ∧ s.2 = true ∧ s.1.proc.tf.esp = 0x800)
    (by decide +kernel) (by decide +kernel)
  exact ⟨s, hs, hm, hsaved, hesp, popped_frame_user hs⟩

/-- A frame at address 0 whose saved `cs` is `0x08` and whose saved `eflags` is `0x3000`. -/
def forgedFrame : Mem 32 := fun a => if a = 60 then 0x08 else if a = 65 then 0x30 else 0

/-- The first process calls `sigret` although no signal has been delivered to it, so that
`tf_backup` is still 0. -/
theorem forged_frame_popped : ∃ s : Task, trapMachine.Reachable s ∧ s.mode = .user ∧
    s.proc.tf.cs = 0x08 ∧ s.proc.tf.eflags = 0x3000 ∧ ¬ s.proc.tf.User :=
  (Machine.Reach.init (M := trapMachine) (s := firstTask) ⟨_, _, by decide, rfl⟩).exists_run
    (P := fun s : Task => s.mode = .user ∧ s.proc.tf.cs = 0x08 ∧ s.proc.tf.eflags = 0x3000 ∧
      ¬ s.proc.tf.User)
    (l := List.replicate 33 .go ++ [.trap forgedFrame (callFrameRegs sysSigretNum 0x800)] ++
      List.replicate 3 .go)
    (Machine.permits_true ..) (by decide +kernel)

end Xv6Signals
