import Xv6Signals.ProcTable.Reaping

namespace Xv6Signals
open Lib

variable {Cpu : Type} {s t : Config Cpu} {c d : Cpu} {i j p q r n : Nat} {pc k b b' : Pc}
  {x y : ProcState}

theorem Pc.base_owns (pc : Pc) : pc.base.owns = pc.owns := by
  cases pc with
  | sched h => cases h <;> rfl
  | swtch h => cases h <;> rfl
  | wakeup w k => cases k <;> rfl
  | _ => rfl

def Config.placed (s : Config Cpu) (p : Nat) : Place Cpu → Prop
  | .inl c => ∃ pc, s.cpus c = .running p pc
  | .inr q => q = p

theorem Config.At.owns (h : s.At p b) : ∃ a, s.placed p a ∧ s.owns a = b.owns := by
  rcases h with ⟨c, pc, hc, rfl⟩ | ⟨h, hx, rfl⟩
  · exact ⟨.inl c, ⟨pc, hc⟩, by rw [Config.owns_inl hc, Pc.base_owns]⟩
  · exact ⟨.inr p, rfl, by rw [Config.owns_inr hx, Context.resume_owns, Pc.base_owns]⟩

theorem Inv.owner_at (hi : Inv s) (ha : s.At p b) (ha' : s.At q b') (hb : b.owns = some (i, x))
    (hb' : b'.owns = some (i, y)) : p = q := by
  obtain ⟨l, hl, ho⟩ := ha.owns
  obtain ⟨l', hl', ho'⟩ := ha'.owns
  have he := hi.owner l l' i x y (ho.trans hb) (ho'.trans hb')
  subst he
  cases l with
  | inl c =>
    obtain ⟨_, hp⟩ := hl
    obtain ⟨_, hq⟩ := hl'
    cases hp.symm.trans hq
    rfl
  | inr r => exact hl.symm.trans hl'

theorem owner_moved (hi : Inv s) (hs : Settled s) (hi' : Inv t) (hs' : Settled t) (ha : s.At p b)
    (ht : t.At p b) (hb : b.owns = some (i, x)) (hc : s.cpus c = .running r pc)
    (ho : pc.owns = some (i, y)) (hk : t.cpus c = .running r k) (hne : k.base ≠ pc.base) :
    False := by
  have hr := hi.owner_at ha (.running hc) hb ((Pc.base_owns pc).trans ho)
  subst hr
  exact hne ((hs'.at_unique hi' (.running hk) ht).trans (hs.at_unique hi ha (.running hc)))

def Pc.parentOf (q : Nat) : Pc → Option (Nat × Option Nat)
  | .waitReap i | .waitPid i | .waitKfree i _ | .waitClearPid i _ | .waitClearParent i _
  | .exitAdopt i => some (i, some q)
  | .enabled (.forkPid i) | .enabled (.forkSetPid i _) | .enabled (.forkKalloc i)
  | .enabled (.forkCopy i) | .forkPidCas i _ | .waitClearKilled i _ | .waitClearChan i _
  | .waitRunning i _ | .waitUnused i _ => some (i, none)
  | _ => none

structure Parents (s : Config Cpu) : Prop where
  thread : ∀ q b i x, s.At q b → b.parentOf q = some (i, x) → (s.procs i).parent = x
  unused : ∀ i, s.state i = .unused → (s.procs i).parent = none

theorem Pc.parentOf_owns {x : Option Nat} (h : b.parentOf q = some (i, x)) :
    (∃ y, b.owns = some (i, y)) ∨ x = some q ∧ (b = .waitReap i ∨ b = .exitAdopt i) := by
  cases b with
  | enabled k => cases k <;> cases h <;> exact .inl ⟨_, rfl⟩
  | waitReap j => cases h; exact .inr ⟨rfl, .inl rfl⟩
  | exitAdopt j => cases h; exact .inr ⟨rfl, .inr rfl⟩
  | _ => cases h <;> exact .inl ⟨_, rfl⟩

theorem Pc.writesParent_base (h : pc.base.writesParent = false) : pc.writesParent = false := by
  cases pc with
  | sched h' => rfl
  | swtch h' => rfl
  | wakeup w k => rfl
  | yieldCas k => rfl
  | _ => exact h

theorem Goes.parentOf {x : Option Nat} (h : Goes n s p b b') (hb : b'.parentOf p = some (i, x)) :
    b.writesParent = false ∧ (b.parentOf p = some (i, x) ∨ (s.procs i).parent = x ∨
        x = none ∧ s.state i = .unused) ∨
      ∃ pid, b = .waitClearParent i pid ∧ x = none := by
  cases h with
  | waitChild hp => cases hb; exact .inl ⟨rfl, .inr (.inl hp)⟩
  | exitChild hp => cases hb; exact .inl ⟨rfl, .inr (.inl hp)⟩
  | forkCas hs => cases hb; exact .inl ⟨rfl, .inr (.inr ⟨rfl, hs⟩)⟩
  | waitClearParent => cases hb; exact .inr ⟨_, rfl, rfl⟩
  | signals hk => rcases hk with rfl | rfl <;> cases hb
  | _ => cases hb <;> exact .inl ⟨rfl, .inl rfl⟩

theorem Pc.handsOver_ne_unused (h : pc.handsOver = some .unused) : False := by
  cases pc <;> cases h

theorem Parents.boot (mem : Mem 32) (kstack : Word) : Parents (boot mem kstack : Config Cpu) where
  thread q b _ _ h := (boot_at mem kstack q b h).elim
  unused i _ := by
    simp only [Xv6Signals.boot, Function.update_apply]
    split <;> rfl

variable [DecidableEq Cpu] {l : Label Cpu}

theorem Parents.kept {x : Option Nat} (hp : Parents s) (hi : Inv s) (hs : Settled s)
    (hi' : Inv t) (hs' : Settled t) (h : step n s l = some t) (ha : s.At q b) (ht : t.At q b)
    (hb : b.parentOf q = some (i, x)) : (t.procs i).parent = x := by
  have hx := hp.thread q b i x ha hb
  rcases (step_fields h i).parent with hf | hf
  · rw [hf, hx]
  exfalso
  generalize (t.procs i).parent = x' at hf
  generalize hk : t.cpus l.cpu = a at hf
  cases hf with
  | fork hc =>
    have hnone := hp.thread _ _ i none (.running hc) rfl
    rcases Pc.parentOf_owns hb with ⟨y, hy⟩ | ⟨rfl, _⟩
    · exact owner_moved hi hs hi' hs' ha ht hy hc rfl hk nofun
    · cases hx.symm.trans hnone
  | @clear r pid hc =>
    have hr := hp.thread r _ i (some r) (.running hc) rfl
    rcases Pc.parentOf_owns hb with ⟨y, hy⟩ | ⟨rfl, hb'⟩
    · exact owner_moved hi hs hi' hs' ha ht hy hc rfl hk nofun
    · cases hx.symm.trans hr
      have hbase := hs.at_unique hi ha (.running hc)
      rcases hb' with rfl | rfl <;> cases hbase
  | @adopt r hc =>
    have hr := hp.thread r _ i (some r) (.running hc) rfl
    have hxr := hx.symm.trans hr
    subst hxr
    have hqr : r = q := by
      cases b with
      | enabled k => cases k <;> cases hb
      | _ => cases hb <;> rfl
    subst hqr
    cases (hs.at_unique hi ha (.running hc)).symm.trans (hs'.at_unique hi' ht (.running hk))

theorem step_clearParent {pid : Nat} (h : step n s l = some t)
    (hc : s.cpus l.cpu = .running p (.waitClearParent i pid)) : (t.procs i).parent = none := by
  simp only [step, hc] at h
  cases hch : l.choice <;> rw [hch] at h <;> cases h
  exact congrArg Proc.parent (setProc_self ..)

theorem Parents.step_thread {x : Option Nat} (hp : Parents s) (hi : Inv s)
    (hs : Settled s) (hi' : Inv t) (hs' : Settled t) (h : step n s l = some t) (ht : t.At q b)
    (hb : b.parentOf q = some (i, x)) : (t.procs i).parent = x := by
  rcases step_at h ht with ha | ⟨pc, _, hc, _, _, hg⟩ | he
  · exact hp.kept hi hs hi' hs' h ha ht hb
  · rcases hg.parentOf hb with ⟨hw, hx⟩ | ⟨pid, hpc, rfl⟩
    · rw [step_parent h hc (Pc.writesParent_base hw)]
      rcases hx with hx | hx | ⟨rfl, hu⟩
      · exact hp.thread q _ i x (.running hc) hx
      · exact hx
      · exact hp.unused i hu
    · rw [Pc.eq_of_base hpc rfl] at hc
      exact step_clearParent h hc
  · rcases he with rfl | rfl | rfl | rfl <;> cases hb

theorem Parents.step_unused (hp : Parents s) (hi : Inv s)
    (h : step n s l = some t) (hu : t.state i = .unused) : (t.procs i).parent = none := by
  rcases step_state h i with hst | hst
  · have hu₀ := hst.symm.trans hu
    have hnone := hp.unused i hu₀
    rcases (step_fields h i).parent with hf | hf
    · rw [hf, hnone]
    generalize (t.procs i).parent = x at hf
    generalize t.cpus l.cpu = a at hf
    cases hf with
    | fork hc => cases hu₀.symm.trans (hi.embryo hc rfl)
    | clear _ => rfl
    | adopt hc => cases hnone.symm.trans (hp.thread _ _ i _ (.running hc) rfl)
  rw [hu] at hst
  generalize ha : t.cpus l.cpu = a at hst
  cases hst with
  | free hc _ =>
    rw [step_parent h hc rfl]
    exact hp.thread _ _ i _ (.running hc) rfl
  | fail hc hk =>
    have hnone : (s.procs i).parent = none := by
      rcases hk with rfl | rfl <;> exact hp.thread _ _ i _ (.running hc) rfl
    rcases (step_fields h i).parent with hf | hf
    · rw [hf, hnone]
    · rw [ha] at hf
      generalize (t.procs i).parent = x at hf
      cases hf
  | handOver _ hh _ _ => exact (Pc.handsOver_ne_unused hh).elim

theorem Parents.step (hp : Parents s) (hi : Inv s) (hs : Settled s) (hi' : Inv t)
    (hs' : Settled t) (h : step n s l = some t) : Parents t where
  thread _ _ _ _ := hp.step_thread hi hs hi' hs' h
  unused _ := hp.step_unused hi h

theorem Parents.reach (h : (ptable Cpu n).Reach Unovertaken s) : Parents s := by
  refine h.invariant ?_ ?_
  · rintro s ⟨_, mem, kstack, rfl⟩
    exact Parents.boot mem kstack
  · intro s l t hr hp hok h
    have hr' := Machine.Reach.step hr hok h
    exact hp.step (Inv.reach hr) (Settled.reach hr) (Inv.reach hr') (Settled.reach hr') h

end Xv6Signals
