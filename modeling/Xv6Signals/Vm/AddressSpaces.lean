import Xv6Signals.ArgChecks
import Xv6Signals.Vm.Accounts

namespace Xv6Signals.Vm
open Lib Function Option

variable {full : Prop} {I : Image} {s t : System} {p q i : Fin 64} {m : Frames} {sp : Space}
  {op : MemOp}

theorem UserSpace.fits {sz : Nat} (h : UserSpace I sp sz) : Fits full sp sz := by
  refine ⟨h.size, fun _ k hk => ?_, h.above⟩
  obtain ⟨e, he, _⟩ := h.mapped k hk
  rw [he]
  exact some_ne_none e

theorem slot_start (b : Booted) (m : Frames) (hi : i ≠ 0) :
    (b.system m).slot i = ⟨Proc.empty, [], 0⟩ := by
  dsimp only [Booted.system]
  rw [update_of_ne hi]

theorem slot_start_zero (b : Booted) (m : Frames) : (b.system m).slot 0 =
    ⟨userinit (m.view b.pgdir) (kaddr b.kstack), [105, 110, 105, 116, 99, 111, 100, 101],
      b.pgdir⟩ := by
  dsimp only [Booted.system]
  rw [update_self]

theorem Accounted.start {page : Nat → Bytes} {others : Nat} {init : List Byte} {b : Booted}
    (h : boot I others init ⟨page, [], []⟩ = .ok (some b) m) : Accounted full I (b.system m) := by
  obtain ⟨K, A, sp, hrep, hcpu, ⟨c, hstack⟩, hother, hA, hsp, _⟩ :=
    ((boot_spec (E := fun _ _ => False) others init page).ok h).2 b rfl
  have howns : I.owns b.kstack :=
    hrep.placed.mem (show At m _ K ∅ (.page (.proc 0)) b.kstack from ⟨c, hstack⟩)
  have hunused (i : Fin 64) (hi : i ≠ 0) : ((b.system m).slot i).proc.state = .unused := by
    rw [slot_start b m hi]
    rfl
  have hused : ((b.system m).slot 0).proc.state ≠ .unused := by
    rw [slot_start_zero]
    exact fun he => ProcState.noConfusion he
  have hdirs : (b.system m).dirs = update (update (fun _ => none) .kernel
      (some b.kpgdir)) (.proc 0) (some b.pgdir) := by
    funext y
    cases y with
    | kernel => rfl
    | proc i =>
      by_cases hi : i = 0
      · subst hi
        rw [update_self, dirs_used hused, slot_start_zero]
      · rw [update_of_ne fun he => hi (Holder.proc.inj he)]
        exact dirs_unused (hunused i hi)
    | _ => rfl
  refine .of_rep (K := K) (A := A) ?_ (fun y => ?_) fun i hi => ?_
  · rw [hdirs]
    exact hrep
  · cases y with
    | cpu i => exact hcpu i
    | proc i =>
      by_cases hi : i = 0
      · subst hi
        rw [hstack, page_used hused, slot_start_zero]
        exact congrArg some (kframe_kaddr howns.2).symm
      · rw [hother _ (fun j he => by cases he) fun he => hi (Holder.proc.inj he)]
        exact (page_unused (hunused i hi)).symm
    | kernel =>
      rw [hother _ (fun j he => by cases he) fun he => by cases he]
      rfl
    | pipe i =>
      rw [hother _ (fun j he => by cases he) fun he => by cases he]
      rfl
    | fresh =>
      rw [hother _ (fun j he => by cases he) fun he => by cases he]
      rfl
  · have hi0 : i = 0 := by
      by_contra hne
      exact hi (hunused i hne)
    subst hi0
    refine ⟨sp, hA, ?_⟩
    rw [slot_start_zero]
    exact hsp.fits

/-- No argument string of a call of `exec` is so long that its place on the new stack is below the
devices. -/
def MemOp.shortArgs : MemOp → Prop
  | .exec _ _ _ args _ _ => ¬ LongArg 0x2002000 0 0 (args.map Prod.snd)
  | _ => True

/-- No call of `sbrk` shrinks a process to nothing. -/
def MemOp.keepsPages (s : System) : MemOp → Prop
  | .sbrk p n _ => ((s.slot p).proc.sz.toNat : Int) + n.toInt ≠ 0
  | _ => True

theorem Accounted.step (h : Accounted full I s) (hn : (memMachine I).next s op = some t)
    (hshort : op.shortArgs) (hkeep : full → op.keepsPages s) : Outcome full I t := by
  simp only [memMachine] at hn
  split at hn
  · cases hn
  rename_i hfault
  have hnone : s.fault = none := not_not.1 hfault
  split at hn
  · obtain ⟨⟨hp, hq⟩, rfl⟩ := ite_none_right_eq_some.1 hn |>.imp_right Option.some.inj
    exact h.fork hnone hp hq
  · obtain ⟨⟨hp, hargs⟩, rfl⟩ := ite_none_right_eq_some.1 hn |>.imp_right Option.some.inj
    exact h.exec hnone hp hargs hshort
  · obtain ⟨hp, rfl⟩ := ite_none_right_eq_some.1 hn |>.imp_right Option.some.inj
    exact h.sbrk hnone hp hkeep
  · obtain ⟨⟨hp, _⟩, rfl⟩ := ite_none_right_eq_some.1 hn |>.imp_right Option.some.inj
    exact .inl ⟨hnone, h.exit hp⟩
  · obtain ⟨⟨_, hq, _⟩, rfl⟩ := ite_none_right_eq_some.1 hn |>.imp_right Option.some.inj
    exact .inl (h.wait hnone hq).1
  · obtain ⟨hi, rfl⟩ := ite_none_right_eq_some.1 hn |>.imp_right Option.some.inj
    exact h.pipealloc hnone hi
  · split at hn
    · obtain ⟨_, rfl⟩ := ite_none_right_eq_some.1 hn |>.imp_right Option.some.inj
      exact h.pipeclose hnone ‹_›
    · cases hn
  · split at hn
    · obtain ⟨⟨hp, hk, _⟩, rfl⟩ := ite_none_right_eq_some.1 hn |>.imp_right Option.some.inj
      exact .inl ⟨hnone, h.store hp hk ‹_›⟩
    · cases hn

theorem outcome_of_reach {ok : System → MemOp → Prop} (h : (memMachine I).Reach ok s)
    (hok : ∀ s op, ok s op → op.shortArgs ∧ (full → op.keepsPages s)) : Outcome full I s := by
  refine Machine.Reach.invariant (P := Outcome full I) h ?_ ?_
  · rintro s ⟨page, others, init, b, m, hboot, rfl⟩
    exact .inl ⟨rfl, .start hboot⟩
  intro s op t _ hs hop hn
  rcases hs with ⟨_, hacc⟩ | ⟨_, hfault⟩
  · exact hacc.step hn (hok s op hop).1 (hok s op hop).2
  · have hstop : s.fault ≠ none := by
      rcases hfault with hf | hf <;> rw [hf] <;> exact some_ne_none _
    simp only [memMachine, if_pos hstop] at hn
    cases hn

def Backed (m : Frames) (d a : Nat) : Prop := ∃ e, m.pte d (a / 4096) = some e

section Arguments

variable {pr : Proc} {addr a size : Word}

end Arguments

theorem exists_start (hsmall : pages I.endAddr + 65 ≤ 1024) :
    ∃ b m, boot I 0 [] ⟨fun _ _ => 0, [], []⟩ = .ok (some b) m ∧ Roomy 56252 m := by
  obtain ⟨r, m, hboot, hfail, hgood⟩ :=
    (boot_spec (I := I) (E := fun _ _ => False) 0 [] fun _ _ => 0).total
      fun _ _ he => he
  cases r with
  | none =>
    rcases hfail rfl with hlong | hlarge
    · cases hlong
    · omega
  | some b =>
    obtain ⟨_, _, _, _, _, _, _, _, _, hroom⟩ := hgood b rfl
    exact ⟨b, m, hboot, hroom hsmall⟩

theorem live_start (b : Booted) (m : Frames) : (b.system m).live 0 := by
  unfold System.live
  rw [slot_start_zero]
  exact ⟨fun he => ProcState.noConfusion he, fun he => ProcState.noConfusion he⟩

theorem small_fits : pages Image.small.endAddr + 65 ≤ 1024 := by decide

end Xv6Signals.Vm
