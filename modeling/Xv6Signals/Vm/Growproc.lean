import Xv6Signals.Vm.ExecRestores

namespace Xv6Signals.Vm
open Lib Function

/-- The result of `growproc`: the new size, or nothing when it returns -1 and leaves `sz` alone. -/
def growproc (I : Image) (d : Nat) (sz n : Word) : VmM (Option Word) :=
  if 0 < n.toInt then do
    let r ← allocuvm I d sz.toNat (sz + n).toNat
    pure (if r = 0 then none else some (BitVec.ofNat 32 r))
  else if n.toInt < 0 then do
    let r ← deallocuvm I d sz.toNat (sz + n).toNat
    pure (if r = 0 then none else some (BitVec.ofNat 32 r))
  else pure (some sz)

variable {H : Type} [DecidableEq H] {I : Image} {D : Dirs H} {K : Wholes H} {T : Set Nat}
  {A : Spaces H} {x : H} {s s' : Space} {m m' : Frames} {d : Nat} {sz n : Word}
  {E : Fault → Frames → Prop}

def Space.SameUser (s s' : Space) : Prop :=
  ∀ j, j < userPages → s'.pte j = s.pte j ∧ s'.mem j = s.mem j

/-- The ways in which `growproc` ends: it grows the address space, cuts it, leaves it alone, or
cuts all of it and takes the size 0 for an error. -/
inductive Grew (s : Space) (sz n : Word) : Option Word → Space → Prop
  | refused {s' : Space} (kind : 0 < n.toInt ∨ sz = 0) (same : s.SameUser s') : Grew s sz n none s'
  | still (kind : n = 0 ∨ sz ≠ 0 ∧ sz.toNat + n.toInt < 0) : Grew s sz n (some sz) s
  | grown {s' : Space} (pos : 0 < n.toInt) (lt : sz.toNat + n.toInt < kernBase)
      (size : ((sz + n).toNat : Int) = sz.toNat + n.toInt)
      (filled : s.Filled Zeroed s' (pages sz.toNat) (pages (sz + n).toNat)) :
      Grew s sz n (some (sz + n)) s'
  | cut (neg : n.toInt < 0) (pos : 0 < sz.toNat + n.toInt)
      (size : ((sz + n).toNat : Int) = sz.toNat + n.toInt) :
      Grew s sz n (some (sz + n)) (s.cut (pages (sz + n).toNat) (pages sz.toNat))
  | lost (neg : n.toInt < 0) (zero : sz.toNat + n.toInt = 0) :
      Grew s sz n none (s.cut 0 (pages sz.toNat))

theorem toNat_add_of_pos (hsz : sz.toNat < kernBase) (hn : 0 < n.toInt) :
    (sz + n).toNat = sz.toNat + n.toNat ∧ n.toInt = n.toNat := by
  have hk : sz.toNat < 0x80000000 := hsz
  have hcond := BitVec.toInt_eq_toNat_cond n
  rw [BitVec.toNat_add]
  split at hcond
  · omega
  · omega

theorem toNat_add_of_neg (hsz : sz.toNat < kernBase) (hn : n.toInt < 0) :
    (sz.toNat + n.toInt < 0 ∧ sz.toNat < (sz + n).toNat) ∨
      (0 ≤ sz.toNat + n.toInt ∧ ((sz + n).toNat : Int) = sz.toNat + n.toInt) := by
  have hk : sz.toNat < 0x80000000 := hsz
  have hlt := n.isLt
  have hcond := BitVec.toInt_eq_toNat_cond n
  rw [BitVec.toNat_add]
  split at hcond
  · omega
  · omega

theorem growproc_spec (h : Rep I D K T A m) (hd : D x = some d) (hs : A x = some s)
    (hsz : sz.toNat < kernBase)
    (hnone : ∀ j, pages sz.toNat ≤ j → j < userPages → s.pte j = none) :
    Wp (growproc I d sz n) m (fun r m' =>
      ∃ s', Rep I D K T (update A x (some s')) m' ∧ Grew s sz n r s') E := by
  unfold growproc
  apply wp_ite
  · intro hpos
    obtain ⟨hnew, hint⟩ := toNat_add_of_pos hsz hpos
    have hrefused : Grew s sz n none s := .refused (.inl hpos) fun _ _ => ⟨rfl, rfl⟩
    apply wp_seq (allocuvm_spec h hd hs hnone)
    rintro r m' (⟨_, rfl, rfl⟩ | ⟨_, hlt, _⟩ | ⟨hlt, _, ha⟩)
    · exact wp_pure ⟨s, h.same hs, hrefused⟩
    · omega
    cases ha with
    | @failed _ s' hrep hpte hmem _ =>
      refine wp_pure ⟨s', hrep, .refused (.inl hpos) fun j hj => ?_⟩
      rw [hpte, hmem]
      show (if pages sz.toNat ≤ j ∧ j < pages (sz + n).toNat then none else s.pte j) = s.pte j ∧
        (if pages sz.toNat ≤ j ∧ j < pages (sz + n).toNat then fun _ => 0 else s.mem j) = s.mem j
      split
      · rename_i hin
        have hno := hnone j hin.1 hj
        exact ⟨hno.symm, (h.mem_of_no_pte hd hs (h.pte_eq hd hs ▸ hno)).symm⟩
      · exact ⟨rfl, rfl⟩
    | @grown _ s' hrep hfilled _ =>
      have hne : (sz + n).toNat ≠ 0 := by omega
      refine wp_pure ⟨s', hrep, ?_⟩
      rw [if_neg hne, BitVec.ofNat_toNat, BitVec.setWidth_eq]
      exact .grown hpos (by omega) (by omega) hfilled
  intro hnpos
  apply wp_ite
  · intro hneg
    apply wp_seq (deallocuvm_spec (sz + n).toNat h hd hs (Nat.le_of_lt hsz))
    rintro _ m' ⟨rfl, hrep, _⟩
    apply wp_pure
    rcases toNat_add_of_neg hsz hneg with ⟨hlt, hwrap⟩ | ⟨hge, hsize⟩
    · rw [Space.cut_of_le (pages_mono (Nat.le_of_lt hwrap))] at hrep
      rw [Nat.min_eq_left (Nat.le_of_lt hwrap)]
      refine ⟨s, hrep, ?_⟩
      by_cases hzero : sz.toNat = 0
      · rw [if_pos hzero]
        exact .refused (.inr (BitVec.eq_of_toNat_eq hzero)) fun _ _ => ⟨rfl, rfl⟩
      · rw [if_neg hzero, BitVec.ofNat_toNat, BitVec.setWidth_eq]
        exact .still (.inr ⟨fun h0 => hzero (congrArg BitVec.toNat h0), hlt⟩)
    · rw [Nat.min_eq_right (by omega)]
      by_cases hzero : (sz + n).toNat = 0
      · rw [hzero] at hrep
        rw [if_pos hzero]
        exact ⟨_, hrep, .lost hneg (by omega)⟩
      · rw [if_neg hzero, BitVec.ofNat_toNat, BitVec.setWidth_eq]
        exact ⟨_, hrep, .cut hneg (by omega) hsize⟩
  · intro hnneg
    have hzero : n = 0 := by
      apply BitVec.eq_of_toInt_eq
      show n.toInt = (0#32).toInt
      rw [BitVec.toInt_zero]
      omega
    exact wp_pure ⟨s, h.same hs, .still (.inl hzero)⟩

/-- What a call of `growproc` should leave: on success the size is `sz + n` without wrap-around,
the pages below the smaller of the sizes are kept and the new ones are zeroed; otherwise nothing
has changed. -/
def GrowthExact (sz n : Word) (s : Space) (r : Option Word) (s' : Space) : Prop :=
  match r with
  | some sz' => (sz'.toNat : Int) = sz.toNat + n.toInt ∧ sz'.toNat < kernBase ∧
      (∀ j, j * 4096 < min sz.toNat sz'.toNat → s'.pte j = s.pte j ∧ s'.mem j = s.mem j) ∧
      (∀ j, pages sz.toNat ≤ j → j < pages sz'.toNat →
        ∃ e, s'.pte j = some e ∧ s'.mem j = fun _ => 0) ∧
      ∀ j, pages sz'.toNat ≤ j → j < userPages → s'.pte j = none
  | none => s.SameUser s'

def Exact (sz n : Word) : Prop := 0 ≤ n.toInt ∨ sz = 0 ∨ 0 < sz.toNat + n.toInt

theorem Grew.exact {r : Option Word} (h : Grew s sz n r s') (hsz : sz.toNat < kernBase)
    (hnone : ∀ j, pages sz.toNat ≤ j → j < userPages → s.pte j = none) (he : Exact sz n) :
    GrowthExact sz n s r s' := by
  cases h with
  | refused _ same => exact same
  | still kind =>
    have hn : n = 0 := by
      rcases kind with hn | ⟨hne, hlt⟩
      · exact hn
      · rcases he with hge | h0 | hpos
        · omega
        · exact (hne h0).elim
        · omega
    subst hn
    exact ⟨(Int.add_zero _).symm, hsz, fun _ _ => ⟨rfl, rfl⟩, fun j hj hj' => by omega, hnone⟩
  | grown pos lt size filled =>
    have hle : pages sz.toNat ≤ pages (sz + n).toNat := pages_mono (by omega)
    refine ⟨size, by omega, fun j hj => ?_, fun j hj hj' => ?_, fun j hj hj' => ?_⟩
    · have hlt : j < pages sz.toNat := lt_pages.2 (by omega)
      exact filled.old j (by omega)
    · obtain ⟨e, hpte, _, hmem⟩ := filled.new j hj hj'
      exact ⟨e, hpte, hmem⟩
    · rw [(filled.old j (by omega)).1]
      exact hnone j (by omega) hj'
  | cut neg pos size =>
    have hle : pages (sz + n).toNat ≤ pages sz.toNat := pages_mono (by omega)
    refine ⟨size, by omega, fun j hj => ?_, fun j hj hj' => by omega, fun j hj hj' => ?_⟩
    · have hlt : j < pages (sz + n).toNat := lt_pages.2 (by omega)
      have hout : ¬ (pages (sz + n).toNat ≤ j ∧ j < pages sz.toNat) := by omega
      exact ⟨if_neg hout, if_neg hout⟩
    · show (if pages (sz + n).toNat ≤ j ∧ j < pages sz.toNat then none else s.pte j) = none
      split
      · rfl
      · exact hnone j (by omega) hj'
  | lost neg zero =>
    rcases he with hge | h0 | hpos
    · omega
    · rw [h0] at zero
      have hz : (0 : Word).toNat = 0 := rfl
      omega
    · omega

theorem exists_onePage (I : Image) (p : Fin 64) :
    ∃ (D : Dirs Holder) (A : Spaces Holder) (m : Frames) (d e : Nat) (s : Space),
      Rep I D (fun _ => none) ∅ A m ∧ D (.proc p) = some d ∧ A (.proc p) = some s ∧
        s.pte 0 = some e ∧ (∀ j, 1 ≤ j → j < userPages → s.pte j = none) ∧ D .fresh = none := by
  have hne : Holder.fresh ≠ Holder.proc p := fun he => by cases he
  obtain ⟨D, A, m, d, hrep, hfresh, hp, hA, hplenty⟩ := exists_room I hne
  have halloc : Wp (allocuvm I d 0 4096) m _ fun _ _ => False :=
    allocuvm_spec hrep hp hA fun _ _ _ => rfl
  obtain ⟨r, m', _, hr⟩ := halloc.total fun _ _ he => he
  rcases hr with ⟨hge, _⟩ | ⟨_, hlt, _⟩ | ⟨_, _, ha⟩
  · exact absurd hge (by decide)
  · omega
  cases ha with
  | failed _ _ _ hscarce =>
    have htables : ∀ j, pages 0 ≤ j → j < pages 4096 → j / 1024 ∈ insert 0 kernelTables := by
      intro j _ hj
      have hj' : j < 1 := hj
      rw [Nat.div_eq_of_lt (by omega)]
      exact Finset.mem_insert_self ..
    exact (hscarce (n := 2) htables hplenty).elim
  | @grown _ s hrep' hfilled _ =>
    obtain ⟨e, he, _⟩ := hfilled.new 0 (Nat.zero_le _) (by decide)
    refine ⟨D, _, m', d, e, s, hrep', hp, update_self .., he, fun j hj _ => ?_, hfresh⟩
    exact (hfilled.old j fun hin => absurd (show j < 1 from hin.2) (by omega)).1

/-- `growproc` is exact on every process and memory exactly when it does not shrink the process to
nothing or below. -/
theorem growproc_exact_iff (I : Image) (sz n : Word) (hsz : sz.toNat < kernBase) :
    (∀ (D : Dirs Holder) (K : Wholes Holder) (A : Spaces Holder) (p : Fin 64) (d : Nat) (s : Space)
        (m : Frames), Rep I D K ∅ A m → D (.proc p) = some d → A (.proc p) = some s →
        (∀ j, pages sz.toNat ≤ j → j < userPages → s.pte j = none) →
        Wp (growproc I d sz n) m (fun r m' => GrowthExact sz n s r (m'.space d))
          fun _ _ => False) ↔
      Exact sz n := by
  constructor
  · intro hall
    by_contra hne
    obtain ⟨hneg, hsz0, hle⟩ : n.toInt < 0 ∧ sz ≠ 0 ∧ sz.toNat + n.toInt ≤ 0 := by
      simp only [Exact, not_or, not_le, not_lt] at hne
      exact hne
    obtain ⟨D, A, m, d, e, s, hrep, hd, hs, hpte, habove, _⟩ := exists_onePage I 0
    have hpos : 0 < sz.toNat := Nat.pos_of_ne_zero fun h0 => hsz0 (BitVec.eq_of_toNat_eq h0)
    have hpage : 0 < pages sz.toNat := lt_pages.2 (by omega)
    have hnone : ∀ j, pages sz.toNat ≤ j → j < userPages → s.pte j = none := fun j hj =>
      habove j (by omega)
    obtain ⟨r, m', _, hexact, s', hrep', hgrew⟩ := ((hall D _ A 0 d s m hrep hd hs hnone).and
      (growproc_spec (E := fun _ _ => False) hrep hd hs hsz hnone)).total fun _ _ he => he.1
    rw [← hrep'.space_eq hd (update_self ..)] at hexact
    cases hgrew with
    | refused kind _ =>
      rcases kind with hp | h0
      · omega
      · exact hsz0 h0
    | still kind =>
      have hsize : (sz.toNat : Int) = sz.toNat + n.toInt := hexact.1
      omega
    | grown pos _ _ _ => omega
    | cut _ pos _ => omega
    | lost _ _ =>
      have hsame := (hexact 0 (by decide)).1
      rw [hpte] at hsame
      have hcut : (s.cut 0 (pages sz.toNat)).pte 0 = none := if_pos ⟨Nat.le_refl 0, hpage⟩
      rw [hcut] at hsame
      cases hsame
  · intro he D K A p d s m hrep hd hs hnone
    apply (growproc_spec hrep hd hs hsz hnone).post
    rintro r m' ⟨s', hrep', hgrew⟩
    rw [← hrep'.space_eq hd (update_self ..)]
    exact hgrew.exact hsz hnone he

theorem growproc_exact_iff_half : Exact 0x2000 (-0x1000) ∧
    ∀ (D : Dirs Holder) (K : Wholes Holder) (A : Spaces Holder) (p : Fin 64) (d : Nat) (s : Space)
      (m : Frames), Rep .small D K ∅ A m → D (.proc p) = some d → A (.proc p) = some s →
      (∀ j, pages (0x2000 : Word).toNat ≤ j → j < userPages → s.pte j = none) →
      Wp (growproc .small d 0x2000 (-0x1000)) m
        (fun r m' => GrowthExact 0x2000 (-0x1000) s r (m'.space d)) fun _ _ => False := by
  have hexact : Exact 0x2000 (-0x1000) := .inr (.inr (by decide))
  exact ⟨hexact, (growproc_exact_iff .small 0x2000 (-0x1000) (by decide)).2 hexact⟩

/-- `sbrk(-4096)` in a process of one page: the call fails, and the page is gone. -/
theorem growproc_loses_page : ∃ (D : Dirs Holder) (A : Spaces Holder) (m : Frames) (d e : Nat)
    (s : Space), Rep .small D (fun _ => none) ∅ A m ∧ D (.proc 0) = some d ∧
      A (.proc 0) = some s ∧ s.pte 0 = some e ∧
      Wp (growproc .small d 0x1000 (-0x1000)) m
        (fun r m' => r = none ∧ (m'.space d).pte 0 = none) fun _ _ => False := by
  obtain ⟨D, A, m, d, e, s, hrep, hd, hs, hpte, habove, _⟩ := exists_onePage .small 0
  refine ⟨D, A, m, d, e, s, hrep, hd, hs, hpte, ?_⟩
  have hpages : pages (0x1000 : Word).toNat = 1 := by decide
  have hsz : (0x1000 : Word).toNat < kernBase := by decide
  have hnone : ∀ j, pages (0x1000 : Word).toNat ≤ j → j < userPages → s.pte j = none := by
    rw [hpages]
    exact habove
  apply (growproc_spec hrep hd hs hsz hnone).post
  rintro r m' ⟨s', hrep', hgrew⟩
  rw [← hrep'.space_eq hd (update_self ..)]
  cases hgrew with
  | refused kind _ => exact absurd kind (by decide)
  | still kind => exact absurd kind (by decide)
  | grown pos _ _ _ => exact absurd pos (by decide)
  | cut _ pos _ => exact absurd pos (by decide)
  | lost _ _ =>
    rw [hpages]
    exact ⟨rfl, rfl⟩

end Xv6Signals.Vm
