import Xv6Signals.Vm.Processes

namespace Xv6Signals.Vm
open Lib Function Option

def System.dirs (s : System) : Dirs Holder
  | .kernel => some s.kpgdir
  | .proc i => if (s.slot i).proc.state = .unused then none else some (s.slot i).pgdir
  | _ => none

def System.page (s : System) : Holder → Option Nat
  | .cpu i => s.cpuStacks[i]?
  | .proc i =>
    if (s.slot i).proc.state = .unused then none else some (kframe (s.slot i).proc.kstack)
  | .pipe i => (s.pipe i).map PipePage.page
  | _ => none

def System.wholes (s : System) : Wholes Holder := fun x => (s.page x).map fun f => (f, s.vm.page f)

def System.spaces (s : System) : Spaces Holder := fun x => (s.dirs x).map s.vm.space

structure Fits (full : Prop) (p : Space) (sz : Nat) : Prop where
  lt : sz < kernBase
  below : full → ∀ k, k < pages sz → p.pte k ≠ none
  above : ∀ k, pages sz ≤ k → k < userPages → p.pte k = none

structure Accounted (full : Prop) (I : Image) (s : System) : Prop where
  rep : Rep I s.dirs s.wholes ∅ s.spaces s.vm
  fits : ∀ i, (s.slot i).proc.state ≠ .unused →
    Fits full (s.vm.space (s.slot i).pgdir) (s.slot i).proc.sz.toNat

variable {full : Prop} {I : Image} {s t : System} {p q i : Fin 64} {K : Wholes Holder}
  {A : Spaces Holder} {m m' : Frames} {sp : Space} {d f : Nat} {deny : List Bool}

theorem dirs_used (hi : (s.slot i).proc.state ≠ .unused) :
    s.dirs (.proc i) = some (s.slot i).pgdir := if_neg hi

theorem page_used (hi : (s.slot i).proc.state ≠ .unused) :
    s.page (.proc i) = some (kframe (s.slot i).proc.kstack) := if_neg hi

theorem dirs_unused (hi : (s.slot i).proc.state = .unused) : s.dirs (.proc i) = none := if_pos hi

theorem page_unused (hi : (s.slot i).proc.state = .unused) : s.page (.proc i) = none := if_pos hi

theorem Accounted.of_rep (hrep : Rep I t.dirs K ∅ A t.vm)
    (hpages : ∀ x, (K x).map Prod.fst = t.page x)
    (hfits : ∀ i, (t.slot i).proc.state ≠ .unused →
      ∃ sp, A (.proc i) = some sp ∧ Fits full sp (t.slot i).proc.sz.toNat) :
    Accounted full I t := by
  have hK : K = t.wholes := by
    funext x
    show K x = (t.page x).map fun f => (f, t.vm.page f)
    rw [← hpages x]
    cases hx : K x with
    | none => rfl
    | some fb =>
      obtain ⟨f, b⟩ := fb
      rw [map_some, map_some, hrep.whole x f b hx]
  have hA : A = t.spaces := funext hrep.spaces
  rw [hK, hA] at hrep
  refine ⟨hrep, fun i hi => ?_⟩
  obtain ⟨sp, hsp, hfit⟩ := hfits i hi
  rw [hA, System.spaces, dirs_used hi, map_some] at hsp
  rwa [Option.some.inj hsp]

theorem Accounted.space (h : Accounted full I s) (hi : (s.slot i).proc.state ≠ .unused) :
    s.dirs (.proc i) = some (s.slot i).pgdir ∧
    s.spaces (.proc i) = some (s.vm.space (s.slot i).pgdir) ∧
    Fits full (s.vm.space (s.slot i).pgdir) (s.slot i).proc.sz.toNat := by
  refine ⟨dirs_used hi, ?_, h.fits i hi⟩
  rw [System.spaces, dirs_used hi, map_some]

theorem Accounted.space_unused (hi : (s.slot i).proc.state = .unused) :
    s.dirs (.proc i) = none ∧ s.wholes (.proc i) = none ∧ s.spaces (.proc i) = none := by
  refine ⟨dirs_unused hi, ?_, ?_⟩
  · rw [System.wholes, page_unused hi, map_none]
  · rw [System.spaces, dirs_unused hi, map_none]

theorem dirs_setSlot (s : System) (p : Fin 64) (x : Slot) : (s.setSlot p x).dirs =
    update s.dirs (.proc p) (if x.proc.state = .unused then none else some x.pgdir) := by
  funext y
  by_cases hy : y = .proc p
  · subst hy
    rw [update_self]
    show (if ((update s.slot p x) p).proc.state = .unused then none
      else some ((update s.slot p x) p).pgdir) = _
    rw [update_self]
  rw [update_of_ne hy]
  cases y with
  | proc i =>
    have hi : i ≠ p := fun he => hy (he ▸ rfl)
    show (if ((update s.slot p x) i).proc.state = .unused then none
      else some ((update s.slot p x) i).pgdir) = _
    rw [update_of_ne hi]
    rfl
  | _ => rfl

theorem page_setSlot (s : System) (p : Fin 64) (x : Slot) : (s.setSlot p x).page =
    update s.page (.proc p)
      (if x.proc.state = .unused then none else some (kframe x.proc.kstack)) := by
  funext y
  by_cases hy : y = .proc p
  · subst hy
    rw [update_self]
    show (if ((update s.slot p x) p).proc.state = .unused then none
      else some (kframe ((update s.slot p x) p).proc.kstack)) = _
    rw [update_self]
  rw [update_of_ne hy]
  cases y with
  | proc i =>
    have hi : i ≠ p := fun he => hy (he ▸ rfl)
    show (if ((update s.slot p x) i).proc.state = .unused then none
      else some (kframe ((update s.slot p x) i).proc.kstack)) = _
    rw [update_of_ne hi]
    rfl
  | _ => rfl

theorem page_setPipe (s : System) (i : Nat) (x : Option PipePage) : (s.setPipe i x).page =
    update s.page (.pipe i) (x.map PipePage.page) := by
  funext y
  by_cases hy : y = .pipe i
  · subst hy
    rw [update_self]
    show ((update s.pipe i x) i).map PipePage.page = _
    rw [update_self]
  rw [update_of_ne hy]
  cases y with
  | pipe j =>
    have hj : j ≠ i := fun he => hy (he ▸ rfl)
    show ((update s.pipe i x) j).map PipePage.page = _
    rw [update_of_ne hj]
    rfl
  | _ => rfl

theorem wholes_fst (s : System) (x : Holder) : (s.wholes x).map Prod.fst = s.page x := by
  rw [System.wholes, map_map]
  cases s.page x with
  | none => rfl
  | some f => rfl

theorem map_fst_update (x : Holder) (c : Option (Nat × Bytes)) (y : Holder) :
    (update s.wholes x c y).map Prod.fst =
      update s.page x (c.map Prod.fst) y := by
  by_cases hy : y = x
  · rw [hy, update_self, update_self]
  · rw [update_of_ne hy, update_of_ne hy, wholes_fst]

theorem Accounted.setSlot {x : Slot} {e : Option Nat} {c : Option (Nat × Bytes)}
    {a : Option Space} (h : Accounted full I s)
    (hrep : Rep I (update s.dirs (.proc q) e) (update s.wholes (.proc q) c) ∅
      (update s.spaces (.proc q) a) m)
    (hD : e = if x.proc.state = .unused then none else some x.pgdir)
    (hK : c.map Prod.fst = if x.proc.state = .unused then none else some (kframe x.proc.kstack))
    (hfit : x.proc.state ≠ .unused → ∃ sp, a = some sp ∧ Fits full sp x.proc.sz.toNat) :
    Accounted full I (System.setSlot { s with vm := m } q x) := by
  refine .of_rep (K := update s.wholes (.proc q) c)
    (A := update s.spaces (.proc q) a) ?_ (fun y => ?_) fun i hi => ?_
  · rw [dirs_setSlot, ← hD]
    exact hrep
  · rw [page_setSlot, map_fst_update, hK]
    rfl
  by_cases hiq : i = q
  · subst hiq
    have hslot : (System.setSlot { s with vm := m } i x).slot i = x := update_self ..
    rw [hslot] at hi ⊢
    rw [update_self]
    exact hfit hi
  · have hslot : (System.setSlot { s with vm := m } q x).slot i = s.slot i :=
      update_of_ne hiq ..
    rw [hslot] at hi ⊢
    rw [update_of_ne fun he => hiq (Holder.proc.inj he)]
    obtain ⟨_, hspace, hfit'⟩ := h.space hi
    exact ⟨_, hspace, hfit'⟩

theorem Accounted.setUnused {x : Slot} (h : Accounted full I s)
    (hrep : Rep I s.dirs s.wholes ∅ s.spaces m) (hq : (s.slot q).proc.state = .unused)
    (hx : x.proc.state = .unused) : Accounted full I (System.setSlot { s with vm := m } q x) := by
  obtain ⟨hD, hK, hA⟩ := Accounted.space_unused hq
  refine h.setSlot (e := none) (c := none) (a := none) ?_ (if_pos hx).symm (if_pos hx).symm
    fun hne => (hne hx).elim
  rw [← hD, ← hK, ← hA, update_eq_self, update_eq_self, update_eq_self]
  exact hrep

theorem Rep.denied {H : Type} {D : Dirs H} {K : Wholes H} {T : Set Nat} {A : Spaces H}
    (h : Rep I D K T A m) (deny : List Bool) : Rep I D K T A { m with deny := deny } :=
  ⟨h.nodup, h.placed, h.spaces, h.whole⟩

theorem kframe_kaddr (h : f * 4096 < physTop) : kframe (kaddr f) = f := by
  have hf : f * 4096 < 0xE000000 := h
  unfold kframe kaddr kernBase
  rw [BitVec.toNat_ofNat]
  omega

theorem System.run_rule {α : Type} {c : VmM α} {k : System → α → System} {Q : α → Frames → Prop}
    {E : Fault → Frames → Prop} {P : System → Prop} (h : Wp c { s.vm with deny := deny } Q E)
    (hok : ∀ a m, Q a m → P (k { s with vm := m } a))
    (herr : ∀ e m, E e m → P { s with vm := m, fault := some e }) : P (s.run deny c k) := by
  unfold System.run
  unfold Wp at h
  split at h
  · rename_i a m hc
    rw [hc]
    exact hok a m h
  · rename_i e m hc
    rw [hc]
    exact herr e m h

/-- After a step the frames are accounted for, or `copyuvm` has come to a page that is not there. -/
def Outcome (full : Prop) (I : Image) (t : System) : Prop :=
  t.fault = none ∧ Accounted full I t ∨
    ¬ full ∧ (t.fault = some .noPte ∨ t.fault = some .notPresent)

theorem pte_of_filled {Q : Nat → Nat → Bytes → Prop} {sz : Nat}
    (h : (kernelSpace I).Filled Q sp 0 (pages sz)) (hsz : sz < kernBase) : Fits full sp sz := by
  refine ⟨hsz, fun _ k hk hnone => ?_, fun k hk hlt => ?_⟩
  · obtain ⟨v, hv, _⟩ := h.new k (Nat.zero_le k) hk
    rw [hv] at hnone
    cases hnone
  · rw [(h.old k fun hin => absurd hin.2 (Nat.not_lt.2 hk)).1]
    exact kernelSpace_user hlt

section Fork

variable {D : Dirs Holder} {E : Fault → Frames → Prop} {sz : Nat}

theorem forkPages_spec (h : Rep I D K ∅ A m) (hp : D (.proc p) = some d)
    (hs : A (.proc p) = some sp) (hD : D (.proc q) = none) (hK : K (.proc q) = none)
    (hsz : sz ≤ kernBase)
    (hfault : ∀ j, j < pages sz → sp.pte j = none → ∀ m, E .noPte m ∧ E .notPresent m) :
    Wp (forkPages I d sz) m (fun r m' =>
      ((∀ ks d', r ≠ some (ks, some d')) ∧ Rep I D K ∅ A m') ∨
      ∃ ks d' b c, r = some (ks, some d') ∧
        Rep I (update D (.proc q) (some d')) (update K (.proc q) (some (ks, b))) ∅
          (update A (.proc q) (some c)) m' ∧
        (kernelSpace I).Filled (CopyOf sp) c 0 (pages sz)) E := by
  refine wp_seq (kalloc_spec m) ?_
  rintro (_ | ks) m₁ hk
  · exact wp_pure (.inl ⟨fun _ _ hr => (by cases hr), h.refused hk⟩)
  obtain ⟨hf, hrep, _⟩ := h.given hk
  refine wp_seq (copyuvm_spec hrep hp hs hD hsz hfault) ?_
  rintro r m₂ (⟨rfl, hrep₂⟩ | ⟨d', c, rfl, hfilled, hrep₂⟩)
  · refine wp_seq (kfree_spec hrep₂ hf) ?_
    rintro _ m₃ ⟨_, hrep₃⟩
    exact wp_pure (.inl ⟨fun _ _ hr => (by cases hr), hrep₃⟩)
  · exact wp_pure (.inr ⟨ks, d', _, c, rfl, hrep₂.keep_page hf hK, hfilled⟩)

end Fork

theorem forked_state {x parent : Slot} {r : Option (Nat × Option Nat)}
    (hr : ∀ ks d, r ≠ some (ks, some d)) : (x.forked parent p r).proc.state = x.proc.state := by
  rcases r with _ | ⟨ks, _ | d⟩
  · rfl
  · rfl
  · exact (hr ks d rfl).elim

theorem Accounted.fork (h : Accounted full I s) (hnone : s.fault = none) (hp : s.live p)
    (hq : (s.slot q).proc.state = .unused) : Outcome full I (s.fork I p q deny) := by
  obtain ⟨hdir, hspace, hfit⟩ := h.space hp.1
  obtain ⟨hD, hK, _⟩ := Accounted.space_unused hq
  have hspec := forkPages_spec (E := fun e _ => ¬ full ∧ (e = .noPte ∨ e = .notPresent))
    (h.rep.denied deny) hdir hspace hD hK hfit.lt.le fun j hj hpte _ =>
      ⟨⟨fun hfull => hfit.below hfull j hj hpte, .inl rfl⟩,
        ⟨fun hfull => hfit.below hfull j hj hpte, .inr rfl⟩⟩
  refine System.run_rule (P := Outcome full I) hspec ?_ ?_
  · rintro r m (⟨hr, hrep⟩ | ⟨ks, d', b, c, rfl, hrep, hfilled⟩)
    · exact .inl ⟨hnone, h.setUnused hrep hq ((forked_state hr).trans hq)⟩
    · have howns : I.owns ks :=
        hrep.placed.mem (show At m _ _ ∅ (.page (.proc q)) ks from ⟨b, update_self ..⟩)
      refine .inl ⟨hnone, h.setSlot hrep rfl ?_ fun _ => ⟨c, rfl, pte_of_filled hfilled hfit.lt⟩⟩
      exact congrArg some (kframe_kaddr howns.2).symm
  · rintro e m ⟨hfull, he⟩
    exact .inr ⟨hfull, he.imp (congrArg some) (congrArg some)⟩

theorem Accounted.resize {sz : Word} (h : Accounted full I s)
    (hrep : Rep I s.dirs s.wholes ∅ (update s.spaces (.proc p) (some sp)) m)
    (hfit : Fits full sp sz.toNat) :
    Accounted full I (System.setSlot { s with vm := m } p
      { s.slot p with proc := { (s.slot p).proc with sz := sz } }) := by
  refine h.setSlot (e := s.dirs (.proc p)) (c := s.wholes (.proc p)) (a := some sp) ?_ rfl
    (wholes_fst s (.proc p)) fun _ => ⟨sp, rfl, hfit⟩
  rw [update_eq_self, update_eq_self]
  exact hrep

theorem Accounted.setSpace (h : Accounted full I s)
    (hrep : Rep I s.dirs s.wholes ∅ (update s.spaces (.proc p) (some sp)) m)
    (hfit : Fits full sp (s.slot p).proc.sz.toNat) : Accounted full I { s with vm := m } := by
  have ht := h.resize hrep hfit
  have hsame : System.setSlot { s with vm := m } p
      { s.slot p with proc := { (s.slot p).proc with sz := (s.slot p).proc.sz } } =
      { s with vm := m } := by
    show { s with vm := m, slot := update s.slot p (s.slot p) } = { s with vm := m }
    rw [update_eq_self]
  rwa [hsame] at ht

theorem Grew.fits {sz n : Word} {r : Option Word} {sp' : Space} (h : Grew sp sz n r sp')
    (hfit : Fits full sp sz.toNat) (hlost : full → (sz.toNat : Int) + n.toInt ≠ 0) :
    Fits full sp' (r.getD sz).toNat := by
  have hle := pages_le_userPages hfit.lt.le
  cases h with
  | refused _ same =>
    refine ⟨hfit.lt, fun hfull k hk => ?_, fun k hk hlt => ?_⟩
    · rw [(same k (hk.trans_le hle)).1]
      exact hfit.below hfull k hk
    · rw [(same k hlt).1]
      exact hfit.above k hk hlt
  | still => exact hfit
  | grown pos lt size filled =>
    have hlt : (sz + n).toNat < kernBase := by omega
    have hmono : pages sz.toNat ≤ pages (sz + n).toNat := pages_mono (by omega)
    refine ⟨hlt, fun hfull k hk hnone => ?_, fun k hk hku => ?_⟩
    · by_cases hold : k < pages sz.toNat
      · rw [(filled.old k fun hin => absurd hin.1 (Nat.not_le.2 hold)).1] at hnone
        exact hfit.below hfull k hold hnone
      · obtain ⟨v, hv, _⟩ := filled.new k (Nat.le_of_not_lt hold) hk
        rw [hv] at hnone
        cases hnone
    · rw [(filled.old k fun hin => absurd hin.2 (Nat.not_lt.2 hk)).1]
      exact hfit.above k (hmono.trans hk) hku
  | cut neg pos size =>
    have hlt := hfit.lt
    have hcut (k : Nat) : (sp.cut (pages (sz + n).toNat) (pages sz.toNat)).pte k =
        if pages (sz + n).toNat ≤ k ∧ k < pages sz.toNat then none else sp.pte k := rfl
    have hmono : pages (sz + n).toNat ≤ pages sz.toNat := pages_mono (by omega)
    refine ⟨?_, fun hfull k hk => ?_, fun k hk hku => ?_⟩
    · show (sz + n).toNat < kernBase
      omega
    · rw [hcut, if_neg fun hin => absurd hin.1 (Nat.not_le.2 hk)]
      exact hfit.below hfull k (lt_of_lt_of_le hk hmono)
    rw [hcut]
    split
    · rfl
    · rename_i hin
      exact hfit.above k (Nat.le_of_not_lt fun hlt => hin ⟨hk, hlt⟩) hku
  | lost neg zero =>
    refine ⟨hfit.lt, fun hfull => (hlost hfull zero).elim, fun k hk hku => ?_⟩
    show (if 0 ≤ k ∧ k < pages sz.toNat then none else sp.pte k) = none
    rw [if_neg fun hin => absurd hin.2 (Nat.not_lt.2 hk)]
    exact hfit.above k hk hku

theorem Accounted.sbrk {n : Word} (h : Accounted full I s) (hnone : s.fault = none) (hp : s.live p)
    (hlost : full → ((s.slot p).proc.sz.toNat : Int) + n.toInt ≠ 0) :
    Outcome full I (s.sbrk I p n deny) := by
  obtain ⟨hdir, hspace, hfit⟩ := h.space hp.1
  have hspec := growproc_spec (n := n) (E := fun _ _ => False) (h.rep.denied deny) hdir hspace
    hfit.lt hfit.above
  refine System.run_rule (P := Outcome full I) hspec ?_ fun _ _ he => he.elim
  rintro r m ⟨sp', hrep, hgrew⟩
  have hfit' := hgrew.fits hfit hlost
  cases r with
  | none => exact .inl ⟨hnone, h.setSpace hrep hfit'⟩
  | some sz => exact .inl ⟨hnone, h.resize hrep hfit'⟩

section Wait

variable {D : Dirs Holder} {x : Holder} {b : Bytes} {E : Fault → Frames → Prop} {ks : Nat}

theorem waitPages_spec (h : Rep I D K ∅ A m) (hD : D x = some d) (hK : K x = some (ks, b)) :
    Wp (waitPages I ks d) m (fun _ m' =>
      Rep I (update D x none) (update K x none) ∅ (update A x none) m' ∧
        ∀ z f, At m D K ∅ z f → z.owner = some x ∨ z = .page x → f ∈ m'.free) E := by
  obtain ⟨hks, hdrop⟩ := h.drop_page hK
  have hat : At m D K ∅ (.page x) ks := ⟨b, hK⟩
  refine wp_seq (kfree_spec hdrop hks) ?_
  rintro _ m₁ ⟨rfl, hrep₁⟩
  have hsame : m.Same (m.release ks) d :=
    h.same_of_other hat (fun he => by cases he) hD fun g hg => Frames.page_setPage_of_ne hg
  refine ((freevm_spec hrep₁ hD).and (freevm_frees (E := E) hrep₁ hD)).mono ?_ fun _ _ he => he.1
  rintro _ m₂ ⟨hrep₂, hfrees, _⟩
  refine ⟨hrep₂, fun z f hz hown => hfrees f (h.placed.mem hz) ?_⟩
  -- no other holder has the frame when the stack is free
  rcases hown with hown | rfl
  · refine hrep₁.not_held (z := z) ?_ hown
    cases z with
    | dir y => exact hz
    | table y i =>
      cases hown
      obtain ⟨d', hd', ht⟩ := hz
      rw [hD] at hd'
      cases hd'
      exact ⟨d, hD, (hsame.tab i).trans ht⟩
    | user y k =>
      cases hown
      obtain ⟨hk, d', e, hd', he, hf⟩ := hz
      rw [hD] at hd'
      cases hd'
      exact ⟨hk, d, e, hD, (hsame.pte k).trans he, hf⟩
    | _ => cases hown
  · obtain ⟨b', hb⟩ := hz
    rw [hK] at hb
    cases hb
    rintro ⟨w, hw, hfree, _⟩
    exact hfree (hrep₁.placed.one hw (List.mem_cons_self ..))

end Wait

theorem Accounted.wait (h : Accounted full I s) (hnone : s.fault = none)
    (hq : (s.slot q).proc.state = .zombie) :
    ((s.wait I q).fault = none ∧ Accounted full I (s.wait I q)) ∧
      ∀ z f, At s.vm s.dirs s.wholes ∅ z f → z.owner = some (.proc q) ∨ z = .page (.proc q) →
        f ∈ (s.wait I q).vm.free := by
  have hused : (s.slot q).proc.state ≠ .unused := by
    rw [hq]
    decide
  obtain ⟨hdir, _, _⟩ := h.space hused
  have hwhole : s.wholes (.proc q) = some (kframe (s.slot q).proc.kstack,
      s.vm.page (kframe (s.slot q).proc.kstack)) := by
    rw [System.wholes, page_used hused, map_some]
  refine System.run_rule (P := fun t => (t.fault = none ∧ Accounted full I t) ∧
      ∀ z f, At s.vm s.dirs s.wholes ∅ z f → z.owner = some (.proc q) ∨ z = .page (.proc q) →
        f ∈ t.vm.free)
    (waitPages_spec (E := fun _ _ => False) (h.rep.denied []) hdir hwhole) ?_ fun _ _ he => he.elim
  rintro _ m ⟨hrep, hfree⟩
  exact ⟨⟨hnone, h.setSlot hrep rfl rfl fun hne => (hne rfl).elim⟩, hfree⟩

theorem Accounted.exit (h : Accounted full I s) (hp : s.live p) : Accounted full I (s.exit p) := by
  have hstate (i : Fin 64) :
      ((s.exit p).slot i).proc.state = .unused ↔ (s.slot i).proc.state = .unused := by
    show (if i = p then ProcState.zombie else (s.slot i).proc.state) = .unused ↔ _
    by_cases hip : i = p
    · rw [if_pos hip, hip]
      exact ⟨fun he => (by cases he), fun he => (hp.1 he).elim⟩
    · rw [if_neg hip]
  have hdirs : (s.exit p).dirs = s.dirs := by
    funext y
    cases y with
    | proc i => exact if_congr (hstate i) rfl rfl
    | _ => rfl
  refine .of_rep (K := s.wholes) (A := s.spaces) ?_ (fun y => ?_) fun i hi => ?_
  · rw [hdirs]
    exact h.rep
  · rw [wholes_fst]
    cases y with
    | proc i => exact (if_congr (hstate i) rfl rfl).symm
    | _ => rfl
  · obtain ⟨_, hspace, hfit⟩ := h.space fun he => hi ((hstate i).2 he)
    exact ⟨_, hspace, hfit⟩

theorem Accounted.setPipe {i : Nat} {x : Option PipePage} {c : Option (Nat × Bytes)}
    (h : Accounted full I s)
    (hrep : Rep I s.dirs (update s.wholes (.pipe i) c) ∅ s.spaces m)
    (hK : c.map Prod.fst = x.map PipePage.page) :
    Accounted full I (System.setPipe { s with vm := m } i x) := by
  refine .of_rep (K := update s.wholes (.pipe i) c) (A := s.spaces) hrep (fun y => ?_)
    fun i hi => ?_
  · rw [page_setPipe, map_fst_update, hK]
    rfl
  · obtain ⟨_, hspace, hfit⟩ := h.space (i := i) hi
    exact ⟨_, hspace, hfit⟩

theorem Accounted.pipealloc {i : Nat} (h : Accounted full I s) (hnone : s.fault = none)
    (hi : s.pipe i = none) : Outcome full I (s.pipealloc i deny) := by
  have hpage : s.page (.pipe i) = none := by
    show (s.pipe i).map PipePage.page = none
    rw [hi, map_none]
  have hwhole : s.wholes (.pipe i) = none := by rw [System.wholes, hpage, map_none]
  refine System.run_rule (P := Outcome full I) (kalloc_spec (E := fun _ _ => False) _) ?_
    fun _ _ he => he.elim
  rintro (_ | f) m hk
  · have hrep := (h.rep.denied deny).refused hk
    refine .inl ⟨hnone, .of_rep (t := { s with vm := m }) hrep (wholes_fst s) fun i hi => ?_⟩
    obtain ⟨_, hspace, hfit⟩ := h.space hi
    exact ⟨_, hspace, hfit⟩
  · obtain ⟨hf, hrep, _⟩ := (h.rep.denied deny).given hk
    exact .inl ⟨hnone, h.setPipe (hrep.keep_page hf hwhole) rfl⟩

theorem Accounted.pipeclose {i : Nat} {x : PipePage} {writable : Bool} (h : Accounted full I s)
    (hnone : s.fault = none) (hi : s.pipe i = some x) :
    Outcome full I (s.pipeclose I i x writable) := by
  have hpage : s.page (.pipe i) = some x.page := by
    show (s.pipe i).map PipePage.page = some x.page
    rw [hi, map_some]
  have hwhole : s.wholes (.pipe i) = some (x.page, s.vm.page x.page) := by
    rw [System.wholes, hpage, map_some]
  have hsame : (x.close writable).page = x.page := by
    unfold PipePage.close
    split <;> rfl
  unfold System.pipeclose
  split
  · obtain ⟨hf, hrep⟩ := (h.rep.denied []).drop_page hwhole
    refine System.run_rule (P := Outcome full I) (kfree_spec (E := fun _ _ => False) hrep hf) ?_
      fun _ _ he => he.elim
    rintro _ m ⟨_, hrep'⟩
    exact .inl ⟨hnone, h.setPipe hrep' rfl⟩
  · refine .inl ⟨hnone, h.setPipe (c := s.wholes (.pipe i)) ?_ ?_⟩
    · rw [update_eq_self]
      exact h.rep
    · rw [hwhole, map_some, map_some, hsame]

theorem Accounted.store {k e : Nat} {b : Bytes} (h : Accounted full I s) (hp : s.live p)
    (hk : k < userPages) (he : s.vm.pte (s.slot p).pgdir k = some e) :
    Accounted full I { s with vm := s.vm.setPage (frameOf e) b } := by
  obtain ⟨hdir, hspace, hfit⟩ := h.space hp.1
  have hrep := h.rep.write_user hdir hspace he hk b
  have hpte : ((s.vm.space (s.slot p).pgdir).enter k (some e) b).pte =
      (s.vm.space (s.slot p).pgdir).pte := by
    show update (s.vm.pte (s.slot p).pgdir) k (some e) = s.vm.pte (s.slot p).pgdir
    rw [← he, update_eq_self]
  refine h.setSpace hrep ⟨hfit.lt, ?_, ?_⟩
  · rw [hpte]
    exact hfit.below
  · rw [hpte]
    exact hfit.above

section Exec

variable {H : Type} [DecidableEq H] {D : Dirs H} {K : Wholes H} {A : Spaces H} {x y : H}
  {u : ExecState} {argv : List (List Byte)} {E : Fault → ExecState → Prop} {n : Nat}

theorem update_swap {β : Type} {F : H → Option β} (hx : F x = none) (hxy : x ≠ y) (c : Option β) :
    update (update F x c) y none ∘ Equiv.swap x y = update F y c := by
  funext z
  show update (update F x c) y none (Equiv.swap x y z) = _
  by_cases hzy : z = y
  · rw [hzy, Equiv.swap_apply_right, update_of_ne hxy, update_self,
      update_self]
  rw [update_of_ne hzy]
  by_cases hzx : z = x
  · rw [hzx, Equiv.swap_apply_left, update_self, hx]
  · rw [Equiv.swap_apply_of_ne_of_ne hzx hzy, update_of_ne hzy,
      update_of_ne hzx]

theorem exec_rep (path : List Byte) (found : Bool) (h : Rep I D K ∅ A u.vm) (hx : D x = none)
    (hy : D y = some u.pgdir) (hu : u.locked = false)
    (hargv : ∀ arg ∈ argv, arg.length < physTop) (hshort : ¬ LongArg 0x2002000 0 0 argv) :
    Wp (exec I path found argv) u (fun _ t => Inner u t ∧ Rep I D K ∅ A t.vm ∨
      ∃ sp n, StackSpace I sp n ∧ t.proc.sz = BitVec.ofNat 32 (n * 4096) ∧
        t.proc.state = u.proc.state ∧ t.proc.kstack = u.proc.kstack ∧
        Rep I (update D y (some t.pgdir)) K ∅ (update A y (some sp)) t.vm) E := by
  have hxy : x ≠ y := by
    rintro rfl
    rw [hx] at hy
    cases hy
  have hA : A x = none := by rw [h.spaces, hx, map_none]
  refine wp_seq (buildImage_spec h hx hu hargv hshort) ?_
  rintro r t hr
  cases hr with
  | failed hinner hrep => exact wp_pure (.inl ⟨hinner, hrep⟩)
  | @built _ sp n img hinner hrep hstack hsize =>
    have hyD : update D x (some img.pgdir) y = some u.pgdir := by
      rw [update_of_ne hxy.symm, hy]
    apply wp_get_bind
    apply wp_modify_bind
    rw [hinner.pgdir]
    have hfree : Wp (freevm I u.pgdir) (t.commit path img).vm _ fun _ _ => False :=
      freevm_spec hrep hyD
    refine wp_onVm hfree (fun _ _ he => he.elim) ?_
    intro _ m hrep'
    refine wp_pure (.inr ⟨sp, n, hstack, congrArg (BitVec.ofNat 32) hsize, ?_, ?_, ?_⟩)
    · show t.proc.state = u.proc.state
      rw [hinner.proc]
    · show t.proc.kstack = u.proc.kstack
      rw [hinner.proc]
    · have hswap := hrep'.rename (Equiv.swap x y)
      rw [update_swap hx hxy, update_swap hA hxy] at hswap
      exact hswap

theorem StackSpace.fits (h : StackSpace I sp n) :
    Fits full sp (BitVec.ofNat 32 (n * 4096) : Word).toNat := by
  have hn : n < 524288 := h.size
  have htwo := h.two
  have hsz : (BitVec.ofNat 32 (n * 4096) : Word).toNat = n * 4096 := by
    rw [BitVec.toNat_ofNat]
    omega
  have hpages : pages (n * 4096) = n := by
    unfold pages
    omega
  rw [hsz]
  refine ⟨?_, fun _ k hk => ?_, fun k hk hlt => h.above k (hpages ▸ hk) hlt⟩
  · show n * 4096 < 0x80000000
    omega
  rw [hpages] at hk
  rcases (by omega : k < n - 2 ∨ k = n - 2 ∨ k = n - 1) with hk | rfl | rfl
  · obtain ⟨e, he, _⟩ := h.image k hk
    rw [he]
    exact some_ne_none e
  · obtain ⟨e, he, _⟩ := h.guard
    rw [he]
    exact some_ne_none e
  · obtain ⟨e, he, _⟩ := h.stack
    rw [he]
    exact some_ne_none e

omit [DecidableEq H] in
theorem Fetched.short {T : Set Nat} {sz : Nat} {arg : Nat × List Byte} (h : Rep I D K T A m)
    (hd : D x = some d) (hsz : sz ≤ kernBase) (hf : Fetched m d sz arg) :
    arg.2.length < physTop := by
  obtain ⟨hend, hpages⟩ := hf
  have hsz' : sz ≤ 0x80000000 := hsz
  have hentry (k : Nat) (hlo : arg.1 / 4096 ≤ k) (hhi : k ≤ (arg.1 + arg.2.length) / 4096) :
      ∃ e, m.pte d k = some e ∧ At m D K T (.user x k) (frameOf e) := by
    have hk : k * 4096 ≤ arg.1 + arg.2.length := by omega
    obtain ⟨e, he⟩ := isSome_iff_exists.1 (hpages k (lt_pages.2 (by omega)) hlo hk)
    have hku : k < 524288 := by omega
    exact ⟨e, he, hku, d, e, hd, he, rfl⟩
  have hcard := Finset.card_le_card_of_injOn (s := Finset.Icc (arg.1 / 4096)
      ((arg.1 + arg.2.length) / 4096)) (t := Finset.Ico 257 57344)
    (fun k => ((m.pte d k).map frameOf).getD 0) ?_ ?_
  · rw [Nat.card_Icc, Nat.card_Ico] at hcard
    show arg.2.length < 0xE000000
    omega
  · intro k hk
    obtain ⟨hlo, hhi⟩ := Finset.mem_Icc.1 hk
    obtain ⟨e, he, hat⟩ := hentry k hlo hhi
    obtain ⟨hge, hlt⟩ := h.placed.mem hat
    have hlt' : frameOf e * 4096 < 0xE000000 := hlt
    have hdata := I.data_lo
    have hend := I.data_le
    have hext : extMem = 0x100000 := rfl
    show ((m.pte d k).map frameOf).getD 0 ∈ (Finset.Ico 257 57344 : Finset Nat)
    rw [he, map_some, getD_some, Finset.mem_Ico]
    omega
  · intro k hk j hj heq
    obtain ⟨hlo, hhi⟩ := Finset.mem_Icc.1 hk
    obtain ⟨hlo', hhi'⟩ := Finset.mem_Icc.1 hj
    obtain ⟨e, he, hat⟩ := hentry k hlo hhi
    obtain ⟨e', he', hat'⟩ := hentry j hlo' hhi'
    have hframes : frameOf e = frameOf e' := by
      simpa only [he, he', map_some, getD_some] using heq
    rw [hframes] at hat
    exact (Place.user.inj (h.placed.one hat hat')).2

end Exec

theorem Accounted.exec {path : List Byte} {found : Bool} {args : List (Nat × List Byte)}
    {reads : List (Nat → Nat → Option (List Byte))} (h : Accounted full I s)
    (hnone : s.fault = none) (hp : s.live p)
    (hargs : ∀ arg ∈ args, Fetched s.vm (s.slot p).pgdir (s.slot p).proc.sz.toNat arg)
    (hshort : ¬ LongArg 0x2002000 0 0 (args.map Prod.snd)) :
    Outcome full I (s.exec I p path found args reads deny) := by
  obtain ⟨hdir, hspace, hfit⟩ := h.space hp.1
  have hargv (arg : List Byte) (harg : arg ∈ args.map Prod.snd) : arg.length < physTop := by
    obtain ⟨a, ha, rfl⟩ := List.mem_map.1 harg
    exact (hargs a ha).short h.rep hdir hfit.lt.le
  have hspec := exec_rep (E := fun _ _ => False) path found
    (u := ⟨{ s.vm with deny := deny }, (s.slot p).proc, (s.slot p).pgdir, (s.slot p).name, 0, 0,
      false, reads⟩) (h.rep.denied deny) (x := .fresh) rfl hdir rfl hargv hshort
  unfold System.exec
  unfold Wp at hspec
  split at hspec
  · rename_i r t hexec
    rw [hexec]
    rcases hspec with ⟨hinner, hrep⟩ | ⟨sp, n, hstack, hsz, hstate, hkstack, hrep⟩
    · have hslot : (⟨t.proc, t.name, t.pgdir⟩ : Slot) = s.slot p := by
        rw [hinner.proc, hinner.name, hinner.pgdir]
      refine .inl ⟨hnone, ?_⟩
      show Accounted full I (System.setSlot { s with vm := t.vm } p ⟨t.proc, t.name, t.pgdir⟩)
      rw [hslot]
      exact h.resize (hrep.same hspace) hfit
    have hused : t.proc.state ≠ .unused := hstate ▸ hp.1
    refine .inl ⟨hnone, h.setSlot (c := s.wholes (.proc p)) (x := ⟨t.proc, t.name, t.pgdir⟩) ?_
      (if_neg hused).symm ?_ fun _ => ⟨sp, rfl, ?_⟩⟩
    · rw [update_eq_self]
      exact hrep
    · rw [wholes_fst, hkstack]
      exact (if_neg hp.1).trans (if_neg hused).symm
    · show Fits full sp t.proc.sz.toNat
      rw [hsz]
      exact hstack.fits
  · exact hspec.elim

end Xv6Signals.Vm
