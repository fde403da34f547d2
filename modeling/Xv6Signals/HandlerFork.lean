import Xv6Signals.UserFrame

namespace Xv6Signals
open Lib List BitVec

variable {p c : Proc} {a : Word} {m m' : Mem 32} {bs : List Byte} {ws : List Word} {n : Nat}

theorem wordsBytes_bytesWords (h : bs.length = 4 * n) :
    wordsBytes (bytesWords bs) = bs ∧ (bytesWords bs).length = n := by
  induction n generalizing bs with
  | zero =>
    rw [length_eq_zero_iff.1 h]
    exact ⟨rfl, rfl⟩
  | succ n ih =>
    rcases bs with _ | ⟨b₀, _ | ⟨b₁, _ | ⟨b₂, _ | ⟨b₃, bs⟩⟩⟩⟩
    all_goals simp only [length_cons, length_nil] at h
    · omega
    · omega
    · omega
    · omega
    · obtain ⟨hbytes, hwords⟩ := ih (show bs.length = 4 * n by omega)
      refine ⟨?_, congrArg (· + 1) hwords⟩
      show wordBytes (bytesWord [b₀, b₁, b₂, b₃]) ++ wordsBytes (bytesWords bs) = _
      rw [wordBytes_bytesWord, hbytes]
      rfl

theorem high_append_low (v : Word) : high v ++ low v = v := by
  apply eq_of_getLsbD_eq
  intro i hi
  rw [getLsbD_append, low, high, getLsbD_extractLsb', getLsbD_extractLsb']
  split
  · rename_i hlt
    rw [decide_eq_true hlt, Bool.true_and, Nat.zero_add]
  · rw [decide_eq_true (by omega), Bool.true_and]
    congr 1
    omega

theorem TrapFrame.toWords_ofWords (h : ws.length = 19) : (TrapFrame.ofWords ws).toWords = ws := by
  have hlist : (TrapFrame.ofWords ws).toWords = (List.range 19).map fun i => ws.getD i 0 := by
    simp only [TrapFrame.toWords, TrapFrame.ofWords, high_append_low]
    rfl
  rw [hlist]
  apply ext_getElem
  · rw [length_map, length_range, h]
  · intro i _ hi
    rw [getElem_map, getElem_range, getD_eq_getElem _ _ hi]

theorem bytes_of_frame (m : Mem 32) (a : Word) :
    wordsBytes (frameAt m a).toWords = m.load a 76 := by
  obtain ⟨hbytes, hwords⟩ := wordsBytes_bytesWords (n := 19) (m.length_load a 76)
  rw [frameAt, TrapFrame.toWords_ofWords hwords, hbytes]

theorem frameAt_inj {b : Word} (h : frameAt m a = frameAt m' b) : m.load a 76 = m'.load b 76 := by
  rw [← bytes_of_frame, ← bytes_of_frame, h]

def Proc.resumes (p : Proc) : Except Fault (TrapFrame × Word) :=
  p.restore.map fun q => (q.tf, q.sigmask)

theorem resumes_eq (p : Proc) : p.resumes =
    if p.backupReadable then .ok (frameAt p.mem p.tfBackup, p.sigmaskBackup)
    else .error .pageFault := by
  unfold Proc.resumes Proc.restore
  split <;> rfl

/-- A handler is running: the frame and the mask have been saved and the pointer is intact. -/
structure InHandler (p : Proc) : Prop where
  kstack : kallocPage p.kstack = true
  pointer : p.tfBackup = p.kstack

theorem kernelMapped_of_kallocPage (h : kallocPage a = true) {i : Nat} (hi : i < 76) :
    kernelMapped (a + BitVec.ofNat 32 i) = true := by
  simp only [kallocPage, Bool.and_eq_true, decide_eq_true_eq] at h
  obtain ⟨hlo, hhi⟩ := h
  simp only [kernelMapped, Bool.or_eq_true, Bool.and_eq_true, decide_eq_true_eq]
  left
  rw [kernBase, physTop] at *
  rw [toNat_add, toNat_ofNat]
  omega

theorem userMapped_of_kernelMapped {sz : Word} (h : kernelMapped a = true) :
    userMapped sz a = false := by
  simp only [kernelMapped, Bool.or_eq_true, Bool.and_eq_true, decide_eq_true_eq] at h
  rw [userMapped, Bool.and_eq_false_iff]
  right
  apply decide_eq_false
  rw [kernBase, devSpace] at *
  omega

theorem InHandler.resumes (h : InHandler p) (m : Mem 32) :
    (p.userStore m).resumes = .ok (frameAt p.mem p.kstack, p.sigmaskBackup) := by
  have hreadable : (p.userStore m).backupReadable = true := by
    apply all_eq_true.2
    intro i hi
    have hmapped := kernelMapped_of_kallocPage h.kstack (mem_range.1 hi)
    rw [← h.pointer] at hmapped
    exact Bool.or_eq_true_iff.2 (.inr hmapped)
  have hkernel : SameKernel p.mem (p.userStore m).mem := .user p.sz p.mem m
  rw [resumes_eq, if_pos hreadable]
  show Except.ok (frameAt (p.userStore m).mem p.tfBackup, p.sigmaskBackup) = _
  rw [h.pointer, hkernel.frameAt h.kstack]

theorem child_mem (p c : Proc) (page : Word) (self : Nat) (m : Mem 32) (x : Word) :
    ((forkChild (allocated c page) p self).userStore m).mem x =
      if userMapped p.sz x then m x else c.mem x := by
  show (if userMapped p.sz x then m x else if userMapped p.sz x then p.mem x else c.mem x) = _
  split <;> rfl

/-- The child goes on as its parent does when its handler returns, whatever the two handlers do,
exactly when the last process in its slot has left a copy of the parent's saved context. -/
theorem fork_in_handler_iff (hp : InHandler p) (c : Proc) (page : Word) (self : Nat) :
    (∀ m m', ((forkChild (allocated c page) p self).userStore m).resumes =
        (p.userStore m').resumes) ↔
      c.sigmaskBackup = p.sigmaskBackup ∧
        (∀ i, i < 76 → kernelMapped (c.tfBackup + BitVec.ofNat 32 i) = true) ∧
        c.mem.load c.tfBackup 76 = p.mem.load p.kstack 76 := by
  have hchild (m : Mem 32) : ((forkChild (allocated c page) p self).userStore m).resumes =
      if allBytes (fun x => userMapped p.sz x || kernelMapped x) c.tfBackup 76 then
        .ok (frameAt ((forkChild (allocated c page) p self).userStore m).mem c.tfBackup,
          c.sigmaskBackup)
      else .error .pageFault := resumes_eq _
  have hload (hkernel : ∀ i, i < 76 → kernelMapped (c.tfBackup + BitVec.ofNat 32 i) = true)
      (m : Mem 32) : ((forkChild (allocated c page) p self).userStore m).mem.load c.tfBackup 76 =
        c.mem.load c.tfBackup 76 := by
    apply Mem.load_congr
    intro i hi
    rw [child_mem, userMapped_of_kernelMapped (hkernel i hi)]
    rfl
  constructor
  · intro hall
    have hparts (m : Mem 32) :
        allBytes (fun x => userMapped p.sz x || kernelMapped x) c.tfBackup 76 = true ∧
          ((forkChild (allocated c page) p self).userStore m).mem.load c.tfBackup 76 =
            p.mem.load p.kstack 76 ∧ c.sigmaskBackup = p.sigmaskBackup := by
      have he := hall m (fun _ => 0)
      rw [hchild, hp.resumes] at he
      split at he
      · rename_i hreadable
        obtain ⟨hframe, hmask⟩ := Prod.mk.inj (Except.ok.inj he)
        exact ⟨hreadable, frameAt_inj hframe, hmask⟩
      · cases he
    have hkernel : ∀ i, i < 76 → kernelMapped (c.tfBackup + BitVec.ofNat 32 i) = true := by
      intro i hi
      have hmapped : (userMapped p.sz (c.tfBackup + BitVec.ofNat 32 i) ||
          kernelMapped (c.tfBackup + BitVec.ofNat 32 i)) = true :=
        all_eq_true.1 (hparts fun _ => 0).1 i (mem_range.2 hi)
      refine (Bool.or_eq_true_iff.1 hmapped).resolve_left fun huser => ?_
      -- a byte of the user can be 0 as well as 1 when the handler returns
      have hbytes : ((forkChild (allocated c page) p self).userStore fun _ => 0).mem.load
          c.tfBackup 76 = ((forkChild (allocated c page) p self).userStore fun _ => 1).mem.load
          c.tfBackup 76 := (hparts fun _ => 0).2.1.trans (hparts fun _ => 1).2.1.symm
      have hbyte := map_inj_left.1 hbytes i (mem_range.2 hi)
      rw [child_mem, child_mem, if_pos huser, if_pos huser] at hbyte
      cases hbyte
    refine ⟨(hparts fun _ => 0).2.2, hkernel, ?_⟩
    rw [← hload hkernel fun _ => 0, (hparts fun _ => 0).2.1]
  · rintro ⟨hmask, hkernel, hbytes⟩ m m'
    have hreadable :
        allBytes (fun x => userMapped p.sz x || kernelMapped x) c.tfBackup 76 = true := by
      apply all_eq_true.2
      intro i hi
      exact Bool.or_eq_true_iff.2 (.inr (hkernel i (mem_range.1 hi)))
    rw [hchild, hp.resumes, if_pos hreadable, frameAt, hload hkernel, hbytes, hmask]
    rfl

def inHandlerProc : Proc :=
  delivered { userinit (fun _ => 0) 0x80400000 with
    psignals := 0x20
    sigmask := 0x8
    sigHandlers := fun sig => if sig = 5 then 0x100 else sigDfl } 5

theorem inHandlerProc_inHandler : InHandler inHandlerProc := ⟨by decide +kernel, rfl⟩

theorem fork_in_handler_twin : InHandler inHandlerProc ∧ ∀ m m',
    ((forkChild (allocated inHandlerProc 0x80500000) inHandlerProc 1).userStore m).resumes =
      (inHandlerProc.userStore m').resumes :=
  ⟨inHandlerProc_inHandler,
    (fork_in_handler_iff inHandlerProc_inHandler inHandlerProc 0x80500000 1).2
      ⟨rfl, fun _ hi => kernelMapped_of_kallocPage inHandlerProc_inHandler.kstack hi, rfl⟩⟩

/-- In a slot that has never been used the child takes its frame from address 0, and its mask is
empty. -/
theorem fork_in_handler_fresh :
    let child := forkChild (allocated Proc.empty 0x80500000) inHandlerProc 1
    (child.userStore fun _ => 0).resumes.toOption.map (fun r => (r.1.cs, r.1.esp, r.2)) =
        some (0, 0, 0) ∧
      (inHandlerProc.userStore fun _ => 0).resumes.toOption.map
        (fun r => (r.1.cs, r.1.esp, r.2)) = some (userCs, 4096, 8) := by
  decide +kernel

end Xv6Signals
