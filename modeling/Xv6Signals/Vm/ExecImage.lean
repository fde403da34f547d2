import Xv6Signals.Vm.Copyout
import Xv6Signals.Vm.ExecLog

namespace Xv6Signals.Vm
open Lib Function

variable {H : Type} [DecidableEq H] {I : Image} {D : Dirs H} {K : Wholes H} {T : Set Nat}
  {A : Spaces H} {x y : H} {p q : Space} {s t u : ExecState} {m m' : Frames}
  {d i j k e n sz size : Nat} {log : List FileRead} {E : Fault → ExecState → Prop}
  {F : Fault → ExecState × List FileRead → Prop} {α β : Type}

theorem onVm_wp {α : Type} {c : VmM α} {P : α → Frames → Prop} {F : Fault → Frames → Prop}
    (h : Wp c s.vm P F) : Wp (onVm c) s (fun a t => ∃ m, t = { s with vm := m } ∧ P a m)
      fun e t => ∃ m, t = { s with vm := m } ∧ F e m := by
  unfold Wp at h ⊢
  unfold onVm
  cases hr : c s.vm with
  | ok a m =>
    rw [hr] at h
    exact ⟨m, rfl, h⟩
  | error e m =>
    rw [hr] at h
    exact ⟨m, rfl, h⟩

theorem wp_onVm {c : VmM α} {f : α → ExecM β} {P : α → Frames → Prop}
    {F : Fault → Frames → Prop} {Q : β → ExecState → Prop} (h : Wp c s.vm P F)
    (hE : ∀ e m, F e m → E e { s with vm := m })
    (hf : ∀ a m, P a m → Wp (f a) { s with vm := m } Q E) : Wp (onVm c >>= f) s Q E := by
  apply wp_bind (onVm_wp h)
  · rintro e _ ⟨m, rfl, he⟩
    exact hE e m he
  · rintro a _ ⟨m, rfl, ha⟩
    exact hf a m ha

theorem wp_ghost_onVm {c : VmM α} {f : α → LogM β} {P : α → Frames → Prop}
    {G : Fault → Frames → Prop} {Q : β → ExecState × List FileRead → Prop} (h : Wp c s.vm P G)
    (hE : ∀ e m, G e m → F e ({ s with vm := m }, log))
    (hf : ∀ a m, P a m → Wp (f a) ({ s with vm := m }, log) Q F) :
    Wp (ghost (onVm c) >>= f) (s, log) Q F := by
  apply wp_ghost (onVm_wp h)
  · rintro e _ ⟨m, rfl, he⟩
    exact hE e m he
  · rintro a _ ⟨m, rfl, ha⟩
    exact hf a m ha

theorem wp_ghost_modify {β : Type} {g : Frames → Frames} {f : PUnit → LogM β}
    {Q : β → ExecState × List FileRead → Prop}
    (h : Wp (f ⟨⟩) ({ s with vm := g s.vm }, log) Q F) :
    Wp (ghost (onVm (modify g)) >>= f) (s, log) Q F := h

structure Inner (s t : ExecState) : Prop where
  proc : t.proc = s.proc
  pgdir : t.pgdir = s.pgdir
  name : t.name = s.name
  ops : t.ops = s.ops
  refs : t.refs = s.refs
  locked : t.locked = s.locked

theorem Inner.refl (s : ExecState) : Inner s s := ⟨rfl, rfl, rfl, rfl, rfl, rfl⟩

theorem Inner.vm (s : ExecState) (m : Frames) : Inner s { s with vm := m } :=
  ⟨rfl, rfl, rfl, rfl, rfl, rfl⟩

theorem Inner.trans (h : Inner s t) (h' : Inner t u) : Inner s u :=
  ⟨h'.proc.trans h.proc, h'.pgdir.trans h.pgdir, h'.name.trans h.name, h'.ops.trans h.ops,
    h'.refs.trans h.refs, h'.locked.trans h.locked⟩

theorem readi_spec (off n : Nat) :
    Wp (readi off n) s (fun r t => Inner s t ∧ t.vm = s.vm ∧ ∀ bs, r = some bs → bs.length = n)
      E := by
  unfold Wp readi
  cases s.reads with
  | nil => exact ⟨.refl s, rfl, fun _ he => by cases he⟩
  | cons r rs =>
    refine ⟨⟨rfl, rfl, rfl, rfl, rfl, rfl⟩, rfl, fun bs he => ?_⟩
    obtain ⟨_, hlen⟩ := Option.filter_eq_some_iff.1 he
    exact beq_iff_eq.1 hlen

structure UserSpace (I : Image) (p : Space) (sz : Nat) : Prop where
  size : sz < kernBase
  mapped : ∀ j, j < pages sz → ∃ e, p.pte j = some e ∧ userBit e = true
  above : ∀ j, pages sz ≤ j → j < userPages → p.pte j = none
  table : ∀ i, p.table i = true ↔ i ∈ kernelTables ∨ ∃ j, j < pages sz ∧ j / 1024 = i
  kernel : ∀ k, userPages ≤ k → p.pte k = (kernelSpace I).pte k

theorem UserSpace.setMem (h : UserSpace I p sz) (b : Nat → Bytes) : UserSpace I (p.setMem b) sz :=
  ⟨h.size, h.mapped, h.above, h.table, h.kernel⟩

structure Building (I : Image) (D : Dirs H) (K : Wholes H) (A : Spaces H) (x : H) (p : Space)
    (s t : ExecState) : Prop where
  inner : Inner s t
  rep : Rep I D K ∅ (update A x (some p)) t.vm

theorem Building.same (h : Rep I D K ∅ A s.vm) (hp : A x = some p) (ht : Inner s t)
    (hvm : t.vm = s.vm) : Building I D K A x p s t := by
  refine ⟨ht, ?_⟩
  rw [← hp, update_eq_self, hvm]
  exact h

/-- The bytes go to a page of the image that `x` is being given, and end below its size. -/
structure FileRead.Proper (I : Image) (D : Dirs H) (K : Wholes H) (x : H) (st : FileRead) :
    Prop where
  dir : D x = some st.dir
  rep : ∃ A, Rep I D K ∅ A st.before
  page : ∃ e, st.before.pte st.dir (st.va / 4096) = some e ∧ userBit e = true ∧
    frameOf e = st.frame
  aligned : st.va % 4096 = 0
  length : st.count ≤ 4096
  below : st.va + st.count ≤ st.size
  size : st.size < kernBase

def Loaded (I : Image) (D : Dirs H) (K : Wholes H) (x : H) (sz : Nat) (log : List FileRead) :
    Prop :=
  ∀ st ∈ log, st.Proper I D K x ∧ st.size ≤ sz

omit [DecidableEq H] in
theorem Loaded.mono {sz' : Nat} (h : Loaded I D K x sz log) (hle : sz ≤ sz') :
    Loaded I D K x sz' log :=
  fun st hst => ⟨(h st hst).1, Nat.le_trans (h st hst).2 hle⟩

omit [DecidableEq H] in
theorem Loaded.weaken (h : Loaded I D K x sz log) : Loaded I D K x kernBase log :=
  fun st hst => ⟨(h st hst).1, Nat.le_of_lt (h st hst).1.size⟩

omit [DecidableEq H] in
theorem Loaded.cons {st : FileRead} (h : Loaded I D K x sz log) (hst : st.Proper I D K x)
    (hle : st.size ≤ sz) : Loaded I D K x sz (st :: log) := by
  intro st' hmem
  rcases List.mem_cons.1 hmem with rfl | hmem
  · exact ⟨hst, hle⟩
  · exact h st' hmem

theorem Logged.loadLoop_spec {addr offset r : Nat} (h : Rep I D K ∅ A s.vm) (hd : D x = some d)
    (hp : A x = some p) (haddr : addr % 4096 = 0) (hk : k ≤ 2 ^ 19)
    (hok : ∀ j, j < pages (addr + sz) → p.Writable j) (hfile : addr + sz ≤ size)
    (hsize : size < kernBase) (hr : pages sz ≤ k + r) (hlog : Loaded I D K x size log) :
    Wp (loadLoop d size addr offset sz r (k * 4096)) (s, log)
      (fun _ t => (∃ b, Building I D K A x (p.setMem b) s t.1) ∧ Loaded I D K x size t.2) F := by
  have hbase : size < 0x80000000 := hsize
  induction r generalizing A p s k log with
  | zero =>
    unfold loadLoop
    exact wp_pure ⟨⟨p.mem, .same h hp (.refl s) rfl⟩, hlog⟩
  | succ r ih =>
    unfold loadLoop
    apply wp_ite
    swap
    · intro _
      exact wp_pure ⟨⟨p.mem, .same h hp (.refl s) rfl⟩, hlog⟩
    intro hlt
    have hmul : (addr / 4096 + k) * 4096 = addr + k * 4096 := by
      rw [Nat.add_mul, Nat.div_mul_cancel (Nat.dvd_of_mod_eq_zero haddr)]
    have hva : (addr + k * 4096) % 2 ^ 32 = (addr / 4096 + k) * 4096 := by
      rw [hmul, Nat.mod_eq_of_lt (by omega)]
    have hdiv : (addr / 4096 + k) * 4096 / 4096 = addr / 4096 + k :=
      Nat.mul_div_cancel _ (by decide)
    have hptx : ptx ((addr / 4096 + k) * 4096) = (addr / 4096 + k) % 1024 :=
      congrArg (· % 1024) hdiv
    have hpdx : pdx ((addr / 4096 + k) * 4096) = (addr / 4096 + k) / 1024 :=
      congrArg (· / 1024) hdiv
    obtain ⟨hku, e, he, huser⟩ := hok (addr / 4096 + k) (lt_pages.2 (hmul ▸ by omega))
    obtain ⟨w, hw, hword, _, _⟩ := h.pte_spec hd hp he
    have hwalk : Wp (walkpgdir d ((addr / 4096 + k) * 4096) false) s.vm
        (fun r m => r = some w ∧ m = s.vm) (fun _ _ => False) := by
      rw [← bind_pure (walkpgdir d ((addr / 4096 + k) * 4096) false)]
      apply wp_walkpgdir (hmul ▸ by omega)
      rw [hpdx, hw]
      exact wp_pure ⟨rfl, rfl⟩
    rw [hva]
    apply wp_ghost_onVm hwalk fun _ _ he => he.elim
    rintro _ _ ⟨rfl, rfl⟩
    apply wp_ghost_get
    rw [hptx, hword]
    have hpage : s.vm.pte d (addr / 4096 + k) = some e := by
      rw [h.space_eq hd hp] at he
      exact he
    have hst : FileRead.Proper I D K x ⟨d, size, (addr / 4096 + k) * 4096, frameOf e,
        if sz - k * 4096 < 4096 then sz - k * 4096 else 4096, s.vm⟩ := by
      refine ⟨hd, ⟨A, h⟩, ⟨e, ?_, huser, rfl⟩, Nat.mul_mod_left .., ?_, ?_, hsize⟩
      · rw [hdiv]
        exact hpage
      · show (if _ then _ else _) ≤ 4096
        split <;> omega
      · show (addr / 4096 + k) * 4096 + (if _ then _ else _) ≤ size
        rw [hmul]
        split <;> omega
    have hlog' := hlog.cons hst (Nat.le_refl _)
    apply wp_record
    apply wp_ghost (readi_spec (E := fun _ _ => False) _ _) fun _ _ he => he.elim
    rintro a t ⟨hinner, hvm, _⟩
    cases a with
    | none => exact wp_pure ⟨⟨p.mem, .same h hp hinner hvm⟩, hlog'⟩
    | some bs =>
      rw [← hvm] at h
      have hrep := h.write_user hd hp he hku ((t.vm.page (frameOf e)).write 0 bs)
      rw [p.enter_same he] at hrep
      have hnext : (k * 4096 + 4096) % 2 ^ 32 = (k + 1) * 4096 := by omega
      apply wp_ghost_modify
      rw [hnext]
      have hok' : ∀ b j, j < pages (addr + sz) → (p.setMem b).Writable j := fun _ => hok
      apply (ih hrep (update_self ..) (by omega) (hok' _) (by omega) hlog').post
      rintro _ u ⟨⟨b, hinner', hrep'⟩, hlog''⟩
      rw [update_idem] at hrep'
      exact ⟨⟨b, hinner.trans ((Inner.vm t _).trans hinner'), hrep'⟩, hlog''⟩

theorem Logged.loaduvm_spec {addr offset : Nat} (h : Rep I D K ∅ A s.vm) (hd : D x = some d)
    (hp : A x = some p) (haddr : addr % 4096 = 0) (hok : ∀ j, j < pages (addr + sz) → p.Writable j)
    (hfile : addr + sz ≤ size) (hsize : size < kernBase) (hlog : Loaded I D K x size log) :
    Wp (loaduvm d size addr offset sz) (s, log)
      (fun _ t => (∃ b, Building I D K A x (p.setMem b) s t.1) ∧ Loaded I D K x size t.2) F := by
  have hr : pages sz ≤ 0 + rounds := by
    have hbase : size < 0x80000000 := hsize
    show (sz + 4095) / 4096 ≤ 0 + 1048576
    omega
  unfold loaduvm
  rw [if_neg (not_not.2 haddr)]
  exact loadLoop_spec (k := 0) h hd hp haddr (Nat.zero_le _) hok hfile hsize hr hlog

theorem UserSpace.of_kernelSpace (I : Image) : UserSpace I (kernelSpace I) 0 := by
  refine ⟨by decide, fun j hj => ?_, fun j _ hj => kernelSpace_user hj, fun i => ?_,
    fun _ _ => rfl⟩
  · exact (Nat.not_lt_zero j hj).elim
  · rw [kernelSpace_table]
    exact ⟨.inl, fun hc => hc.elim id fun ⟨j, hj, _⟩ => (Nat.not_lt_zero j hj).elim⟩

theorem userBit_new (f : Nat) : userBit (f * 4096 ||| (pteW ||| pteU) ||| pteP) = true := by
  have h : (f * 4096 ||| 6 ||| 1) / 4 % 2 = 1 := by
    show (f * 4096 ||| 6 ||| 1) / 2 ^ 2 % 2 = 1
    rw [Nat.or_div_two_pow, Nat.or_div_two_pow, Nat.or_mod_two_eq_one, Nat.or_mod_two_eq_one]
    exact .inl (.inr rfl)
  show ((f * 4096 ||| 6 ||| 1) / 4 % 2 == 1) = true
  rw [h]
  rfl

theorem UserSpace.grow {oldsz newsz : Nat} (h : UserSpace I p oldsz) (hnew : newsz < kernBase)
    (hle : oldsz ≤ newsz) (hg : p.Filled Zeroed q (pages oldsz) (pages newsz)) :
    UserSpace I q newsz := by
  have hmono := pages_mono hle
  have hpages := pages_le_userPages (Nat.le_of_lt hnew)
  refine ⟨hnew, ?_, ?_, ?_, ?_⟩
  · intro j hj
    by_cases hold : j < pages oldsz
    · obtain ⟨hpte, _⟩ := hg.old j (by omega)
      rw [hpte]
      exact h.mapped j hold
    · obtain ⟨v, hv, ⟨f, rfl⟩, _⟩ := hg.new j (Nat.le_of_not_lt hold) hj
      exact ⟨_, hv, userBit_new f⟩
  · intro j hj hju
    obtain ⟨hpte, _⟩ := hg.old j (by omega)
    rw [hpte]
    exact h.above j (by omega) hju
  · intro i
    rw [hg.table, h.table, or_assoc]
    apply or_congr_right
    constructor
    · rintro (⟨j, hj, hi⟩ | ⟨j, _, hj, hi⟩)
      · exact ⟨j, by omega, hi⟩
      · exact ⟨j, hj, hi⟩
    · rintro ⟨j, hj, hi⟩
      by_cases hold : j < pages oldsz
      · exact .inl ⟨j, hold, hi⟩
      · exact .inr ⟨j, Nat.le_of_not_lt hold, hj, hi⟩
  · intro k hk
    obtain ⟨hpte, _⟩ := hg.old k (by omega)
    rw [hpte, h.kernel k hk]

theorem UserSpace.writable (h : UserSpace I p sz) (hj : j < pages sz) : p.Writable j := by
  have hsize : sz < 0x80000000 := h.size
  have hlt : j < (sz + 4095) / 4096 := hj
  refine ⟨?_, h.mapped j hj⟩
  show j < 524288
  omega

theorem UserSpace.allocuvm {newsz r : Nat} (hsz : UserSpace I p sz) (h : Rep I D K T A m)
    (hp : A x = some p)
    (hr : kernBase ≤ newsz ∧ r = 0 ∧ m' = m ∨
      newsz < kernBase ∧ newsz < sz ∧ r = sz ∧ m' = m ∨
      newsz < kernBase ∧ sz ≤ newsz ∧ Allocated I D K T A x p sz newsz (pages sz) m r m') :
    ∃ q, Rep I D K T (update A x (some q)) m' ∧
      (r ≠ 0 → UserSpace I q r ∧ sz ≤ r ∧ newsz ≤ r) := by
  have hsame : Rep I D K T (update A x (some p)) m := by
    rw [← hp, update_eq_self]
    exact h
  rcases hr with ⟨_, rfl, rfl⟩ | ⟨_, hlt, rfl, rfl⟩ | ⟨hnew, hle, hr⟩
  · exact ⟨p, hsame, fun he => (he rfl).elim⟩
  · exact ⟨p, hsame, fun _ => ⟨hsz, Nat.le_refl _, Nat.le_of_lt hlt⟩⟩
  · cases hr with
    | failed hrep _ _ _ => exact ⟨_, hrep, fun he => (he rfl).elim⟩
    | grown hrep hg _ => exact ⟨_, hrep, fun _ => ⟨hsz.grow hnew hle hg, hle, Nat.le_refl _⟩⟩

theorem Logged.loadSegments_spec {off : Nat} (h : Rep I D K ∅ A s.vm) (hd : D x = some d)
    (hp : A x = some p) (hsz : UserSpace I p sz) (hlog : Loaded I D K x sz log) :
    Wp (loadSegments I d n off sz) (s, log) (fun r t => ∃ q, Building I D K A x q s t.1 ∧
      Loaded I D K x kernBase t.2 ∧
      ∀ sz', r = some sz' → UserSpace I q sz' ∧ Loaded I D K x sz' t.2) F := by
  induction n generalizing A p s off sz log with
  | zero =>
    unfold loadSegments
    refine wp_pure ⟨p, .same h hp (.refl s) rfl, hlog.weaken, ?_⟩
    rintro _ ⟨⟩
    exact ⟨hsz, hlog⟩
  | succ n ih =>
    unfold loadSegments
    have hfail : ∀ {q u log'}, Inner s u → Rep I D K ∅ (update A x (some q)) u.vm →
        Loaded I D K x kernBase log' → ∃ q, Building I D K A x q s u ∧
          Loaded I D K x kernBase log' ∧
          ∀ sz', none = some sz' → UserSpace I q sz' ∧ Loaded I D K x sz' log' :=
      fun hu hrep hlog' => ⟨_, ⟨hu, hrep⟩, hlog', fun _ he => by cases he⟩
    apply wp_ghost (readi_spec (E := fun _ _ => False) _ _) fun _ _ he => he.elim
    rintro a t ⟨hinner, hvm, _⟩
    have hsame : Rep I D K ∅ (update A x (some p)) t.vm :=
      (Building.same h hp hinner hvm).rep
    cases a with
    | none => exact wp_pure (hfail hinner hsame hlog.weaken)
    | some bs =>
      have h' : Rep I D K ∅ A t.vm := hvm ▸ h
      have hv : (ProgHdr.ofBytes bs).vaddr < 2 ^ 32 := Bytes.wordAt_lt _ _
      have hm : (ProgHdr.ofBytes bs).memsz < 2 ^ 32 := Bytes.wordAt_lt _ _
      dsimp only
      generalize ProgHdr.ofBytes bs = ph at hv hm ⊢
      apply wp_ite
      · intro _
        apply (ih h' hp hsz hlog).post
        rintro r u ⟨q, hb, hq⟩
        exact ⟨q, ⟨hinner.trans hb.inner, hb.rep⟩, hq⟩
      intro _
      apply wp_ite fun _ => wp_pure (hfail hinner hsame hlog.weaken)
      intro hmem
      apply wp_ite fun _ => wp_pure (hfail hinner hsame hlog.weaken)
      intro hwrap
      have hsum : (ph.vaddr + ph.memsz) % 2 ^ 32 = ph.vaddr + ph.memsz := by omega
      rw [hsum]
      apply wp_ghost_onVm (allocuvm_spec (E := fun _ _ => False) h' hd hp hsz.above)
        fun _ _ he => he.elim
      intro r m hr
      obtain ⟨q, hrep, hq⟩ := hsz.allocuvm h' hp hr
      have hinner' : Inner s { t with vm := m } := hinner.trans (.vm t m)
      apply wp_ite fun _ => wp_pure (hfail hinner' hrep hlog.weaken)
      intro hr0
      obtain ⟨hq, hgrown, hle⟩ := hq hr0
      apply wp_ite fun _ => wp_pure (hfail hinner' hrep hlog.weaken)
      intro halign
      have hfile : ph.vaddr + ph.filesz ≤ r := by omega
      have hload : Wp (loaduvm d r ph.vaddr ph.off ph.filesz) ({ t with vm := m }, log) _ F :=
        loaduvm_spec hrep hd (update_self ..) (not_not.1 halign)
          (fun j hj => hq.writable (Nat.lt_of_lt_of_le hj (pages_mono hfile))) hfile hq.size
          (hlog.mono hgrown)
      apply wp_seq hload
      rintro ok ⟨u, log'⟩ ⟨⟨b, hinner'', hrep'⟩, hlog'⟩
      rw [update_idem] at hrep'
      have hu := hinner'.trans hinner''
      apply wp_ite
      · intro _
        apply (ih hrep' (update_self ..) (hq.setMem b) hlog').post
        rintro r v ⟨q', hb, hq'⟩
        have hrep'' := hb.rep
        rw [update_idem] at hrep''
        exact ⟨q', ⟨hu.trans hb.inner, hrep''⟩, hq'⟩
      · intro _
        exact wp_pure (hfail hu hrep' hlog'.weaken)

end Xv6Signals.Vm
