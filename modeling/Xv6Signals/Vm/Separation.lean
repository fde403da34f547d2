import Xv6Signals.Vm.AddressSpaces

namespace Xv6Signals.Vm
open Lib Function Option

variable {full : Prop} {I : Image} {s t u : System} {p q i : Fin 64} {m : Frames} {op : MemOp}
  {D : Dirs Holder} {K : Wholes Holder} {T : Set Nat} {A : Spaces Holder} {deny : List Bool}

/-- The operations that may change the memory of process `i`: its own calls and stores, and the
`wait` that reaps it. -/
def MemOp.actsOn (i : Fin 64) : MemOp → Prop
  | .exec p .. | .sbrk p .. | .store p .. => p = i
  | .wait _ q => q = i
  | _ => False

/-- Unless a fault has ended the run, process `i` has the directory, the entries and the bytes that
it had. -/
def System.Stays (s : System) (i : Fin 64) (t : System) : Prop :=
  t.fault = none → (t.slot i).proc.state ≠ .unused ∧ (t.slot i).pgdir = (s.slot i).pgdir ∧
    t.vm.space (s.slot i).pgdir = s.vm.space (s.slot i).pgdir

theorem System.run_stays {α : Type} {c : VmM α} {k : System → α → System}
    {Q : α → Frames → Prop} (h : Wp c { s.vm with deny := deny } Q fun _ _ => True)
    (hok : ∀ a m, Q a m → s.Stays i (k { s with vm := m } a)) : s.Stays i (s.run deny c k) :=
  System.run_rule (P := s.Stays i) h hok fun _ _ _ hf => by cases hf

section Step

variable (h : Accounted full I s) (hi : (s.slot i).proc.state ≠ .unused)
include h hi

theorem Accounted.stays (hrep : Rep I D K T A t.vm) (hD : D (.proc i) = s.dirs (.proc i))
    (hA : A (.proc i) = s.spaces (.proc i)) (hslot : t.slot i = s.slot i) : s.Stays i t := by
  have hspace := hrep.spaces (.proc i)
  rw [hA, hD, (h.space hi).1, (h.space hi).2.1, map_some] at hspace
  exact fun _ => ⟨hslot ▸ hi, hslot ▸ rfl, (some.inj hspace).symm⟩

theorem Accounted.setSlot_stays {e : Option Nat} {a : Option Space} (hiq : i ≠ q) (x : Slot)
    (hrep : Rep I (update s.dirs (.proc q) e) K T (update s.spaces (.proc q) a) m) :
    s.Stays i (System.setSlot { s with vm := m } q x) := by
  have hne : Holder.proc i ≠ .proc q := fun he => hiq (Holder.proc.inj he)
  exact h.stays hi hrep (update_of_ne hne ..) (update_of_ne hne ..) (update_of_ne hiq ..)

theorem Accounted.fork_stays (hp : s.live p) (hq : (s.slot q).proc.state = .unused) :
    s.Stays i (s.fork I p q deny) := by
  have hiq : i ≠ q := fun he => hi (he ▸ hq)
  obtain ⟨hdir, hspace, hfit⟩ := h.space hp.1
  obtain ⟨hD, hK, _⟩ := Accounted.space_unused hq
  refine System.run_stays (forkPages_spec (h.rep.denied deny) hdir hspace hD hK hfit.lt.le
    fun _ _ _ _ => ⟨trivial, trivial⟩) ?_
  rintro r m (⟨_, hrep⟩ | ⟨_, _, _, _, rfl, hrep, _⟩)
  · exact h.stays hi hrep rfl rfl (update_of_ne hiq ..)
  · exact h.setSlot_stays hi hiq _ hrep

theorem Accounted.exec_stays {path : List Byte} {found : Bool} {args : List (Nat × List Byte)}
    {reads : List (Nat → Nat → Option (List Byte))} (hp : s.live p) (hip : i ≠ p)
    (hargs : ∀ arg ∈ args, Fetched s.vm (s.slot p).pgdir (s.slot p).proc.sz.toNat arg)
    (hshort : ¬ LongArg 0x2002000 0 0 (args.map Prod.snd)) :
    s.Stays i (s.exec I p path found args reads deny) := by
  obtain ⟨hdir, _, hfit⟩ := h.space hp.1
  have hargv (arg : List Byte) (harg : arg ∈ args.map Prod.snd) : arg.length < physTop := by
    obtain ⟨a, ha, rfl⟩ := List.mem_map.1 harg
    exact (hargs a ha).short h.rep hdir hfit.lt.le
  have hspec := exec_rep (E := fun _ _ => False) path found
    (u := ⟨{ s.vm with deny := deny }, (s.slot p).proc, (s.slot p).pgdir, (s.slot p).name, 0, 0,
      false, reads⟩) (h.rep.denied deny) (x := .fresh) rfl hdir rfl hargv hshort
  unfold System.exec
  unfold Wp at hspec
  split at hspec
  · rename_i hexec
    rw [hexec]
    rcases hspec with ⟨_, hrep⟩ | ⟨_, _, _, _, _, _, hrep⟩
    · exact h.stays hi hrep rfl rfl (update_of_ne hip ..)
    · exact h.setSlot_stays hi hip _ hrep
  · exact hspec.elim

theorem Accounted.sbrk_stays {n : Word} (hp : s.live p) (hip : i ≠ p) :
    s.Stays i (s.sbrk I p n deny) := by
  obtain ⟨hdir, hspace, hfit⟩ := h.space hp.1
  refine System.run_stays (growproc_spec (h.rep.denied deny) hdir hspace hfit.lt hfit.above) ?_
  rintro r m ⟨_, hrep, _⟩
  have hne : Holder.proc i ≠ .proc p := fun he => hip (Holder.proc.inj he)
  cases r with
  | none => exact h.stays hi hrep rfl (update_of_ne hne ..) rfl
  | some sz => exact h.stays hi hrep rfl (update_of_ne hne ..) (update_of_ne hip ..)

theorem Accounted.wait_stays (hq : (s.slot q).proc.state = .zombie) (hiq : i ≠ q) :
    s.Stays i (s.wait I q) := by
  have hused : (s.slot q).proc.state ≠ .unused := by
    rw [hq]
    decide
  refine System.run_stays (waitPages_spec (h.rep.denied []) (h.space hused).1
    (by rw [System.wholes, page_used hused, map_some])) ?_
  rintro _ m ⟨hrep, _⟩
  exact h.setSlot_stays hi hiq _ hrep

theorem Accounted.pipeclose_stays {j : Nat} {x : PipePage} {w : Bool} (hj : s.pipe j = some x) :
    s.Stays i (s.pipeclose I j x w) := by
  unfold System.pipeclose
  split
  · obtain ⟨hf, hrep⟩ := (h.rep.denied []).drop_page (x := .pipe j)
      (by rw [System.wholes, System.page, hj, map_some, map_some])
    exact System.run_stays (kfree_spec hrep hf) fun _ _ hm => h.stays hi hm.2 rfl rfl rfl
  · exact fun _ => ⟨hi, rfl, rfl⟩

theorem Accounted.step_stays (hn : (memMachine I).next s op = some t) (hshort : op.shortArgs)
    (hop : ¬ op.actsOn i) (hf : s.fault = none) : s.Stays i t := by
  simp only [memMachine, if_neg (not_not.2 hf)] at hn
  cases op <;> simp only [ite_none_right_eq_some, Option.some.injEq] at hn
  case fork =>
    obtain ⟨⟨hp, hq⟩, rfl⟩ := hn
    exact h.fork_stays hi hp hq
  case exec =>
    obtain ⟨⟨hp, hargs⟩, rfl⟩ := hn
    exact h.exec_stays hi hp (Ne.symm hop) hargs hshort
  case sbrk =>
    obtain ⟨hp, rfl⟩ := hn
    exact h.sbrk_stays hi hp (Ne.symm hop)
  case exit =>
    obtain ⟨_, rfl⟩ := hn
    refine fun _ => ⟨?_, rfl, rfl⟩
    show (if _ then ProcState.zombie else _) ≠ _
    split
    · decide
    · exact hi
  case wait =>
    obtain ⟨⟨_, hq, _⟩, rfl⟩ := hn
    exact h.wait_stays hi hq (Ne.symm hop)
  case pipealloc deny =>
    obtain ⟨_, rfl⟩ := hn
    refine System.run_stays (kalloc_spec _) ?_
    rintro (_ | f) m hk
    · exact h.stays hi ((h.rep.denied deny).refused hk) rfl rfl rfl
    · exact h.stays hi ((h.rep.denied deny).given hk).2.1 rfl rfl rfl
  case pipeclose =>
    split at hn
    · obtain ⟨_, rfl⟩ := ite_none_right_eq_some.1 hn |>.imp_right Option.some.inj
      exact h.pipeclose_stays hi ‹_›
    · cases hn
  case store =>
    split at hn
    · obtain ⟨⟨hp, hk, _⟩, rfl⟩ := ite_none_right_eq_some.1 hn |>.imp_right Option.some.inj
      obtain ⟨hdir, hspace, _⟩ := h.space hp.1
      exact h.stays hi (h.rep.write_user hdir hspace ‹_› hk _) rfl
        (update_of_ne (fun he => hop (Holder.proc.inj he).symm) ..) rfl
    · cases hn

end Step

/-- Whatever the other processes do, a process keeps its page directory, its entries and every byte
of its pages. -/
theorem spaces_isolated (h : (memMachine I).Reach (fun _ op => op.shortArgs) s)
    (hi : (s.slot i).proc.state ≠ .unused)
    (hpath : (memMachine I).Path (fun _ op => op.shortArgs ∧ ¬ op.actsOn i) s t) :
    s.Stays i t := by
  have hout : Outcome False I s := outcome_of_reach h fun _ _ hop => ⟨hop, False.elim⟩
  refine (hpath.invariant (P := fun t => Outcome False I t ∧ s.Stays i t)
    ⟨hout, fun _ => ⟨hi, rfl, rfl⟩⟩ ?_).2
  rintro t op u ⟨ht, hstays⟩ ⟨hshort, hop⟩ hn
  have hf : t.fault = none := by
    by_contra hf
    simp only [memMachine, if_pos hf] at hn
    cases hn
  rcases ht with ⟨_, hacc⟩ | ⟨_, hfault⟩
  · obtain ⟨hi', hdir, hspace⟩ := hstays hf
    refine ⟨hacc.step hn hshort False.elim, fun hu => ?_⟩
    obtain ⟨hi'', hdir', hspace'⟩ := hacc.step_stays hi' hn hshort hop hf hu
    rw [hdir] at hdir' hspace'
    exact ⟨hi'', hdir', hspace'.trans hspace⟩
  · rw [hf] at hfault
    rcases hfault with he | he <;> cases he

theorem spaces_isolated_forked : ∃ s t, (memMachine .small).next s (.fork 0 1 []) = some t ∧
    t.fault = none ∧ t.vm.space (s.slot 0).pgdir = s.vm.space (s.slot 0).pgdir := by
  obtain ⟨b, m, hboot, _⟩ := exists_start small_fits
  have hlive := live_start b m
  have hfree : ((b.system m).slot 1).proc.state = .unused := by
    rw [slot_start b m (by decide)]
    rfl
  have hn : (memMachine .small).next (b.system m) (.fork 0 1 []) =
      some ((b.system m).fork .small 0 1 []) := by
    simp only [memMachine]
    exact (if_neg (not_not.2 rfl)).trans (if_pos ⟨hlive, hfree⟩)
  have hacc : Accounted True .small (b.system m) := .start hboot
  have hfault : ((b.system m).fork .small 0 1 []).fault = none :=
    (hacc.fork rfl hlive hfree).elim And.left fun hno => (hno.1 trivial).elim
  exact ⟨_, _, hn, hfault, (spaces_isolated (.init ⟨_, 0, [], b, m, hboot, rfl⟩) hlive.1
    (.step (a := .fork 0 1 []) .refl ⟨trivial, id⟩ hn) hfault).2.2⟩

end Xv6Signals.Vm
