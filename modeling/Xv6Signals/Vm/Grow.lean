import Xv6Signals.Vm.Build

namespace Xv6Signals.Vm
open Lib Function Frames

variable {H : Type} [DecidableEq H] {I : Image} {D : Dirs H} {K : Wholes H} {T : Set Nat}
  {A : Spaces H} {x y : H} {s s' s'' : Space} {m m' m'' : Frames} {f g d t i j k n v e lo hi : Nat}
  {E : Fault → Frames → Prop} {Q : Nat → Nat → Bytes → Prop} {oldsz newsz : Nat} {sz : Nat}

/-- The pages from `lo` to `hi - 1` are new, each with an entry and contents as `Q` says. -/
structure Space.Filled (Q : Nat → Nat → Bytes → Prop) (s s' : Space) (lo hi : Nat) : Prop where
  new : ∀ j, lo ≤ j → j < hi → ∃ v, s'.pte j = some v ∧ Q j v (s'.mem j)
  old : ∀ j, ¬ (lo ≤ j ∧ j < hi) → s'.pte j = s.pte j ∧ s'.mem j = s.mem j
  table : ∀ i, s'.table i = true ↔ s.table i = true ∨ ∃ j, lo ≤ j ∧ j < hi ∧ j / 1024 = i

theorem Space.Filled.nothing (h : hi ≤ lo) : s.Filled Q s lo hi := by
  refine ⟨fun j hj hj' => by omega, fun _ _ => ⟨rfl, rfl⟩, fun i => ?_⟩
  exact ⟨.inl, fun hc => hc.elim id fun ⟨j, hj, hj', _⟩ => by omega⟩

theorem Space.Filled.cons {b : Bytes} (hlo : lo < hi) (hv : Q lo v b)
    (h : ((s.addTable (lo / 1024)).enter lo (some v) b).Filled Q s' (lo + 1) hi) :
    s.Filled Q s' lo hi := by
  refine ⟨?_, ?_, ?_⟩
  · intro j hj hj'
    by_cases he : j = lo
    · subst he
      obtain ⟨hpte, hmem⟩ := h.old j (by omega)
      have hmem' : s'.mem j = b := hmem.trans (update_self ..)
      exact ⟨v, hpte.trans (update_self ..), hmem'.symm ▸ hv⟩
    · exact h.new j (by omega) hj'
  · intro j hj
    obtain ⟨hpte, hmem⟩ := h.old j (by omega)
    have hne : j ≠ lo := by omega
    exact ⟨hpte.trans (update_of_ne hne ..), hmem.trans (update_of_ne hne ..)⟩
  intro i
  have hadd : ((s.addTable (lo / 1024)).enter lo (some v) b).table i = true ↔
      s.table i = true ∨ lo / 1024 = i := by
    show update s.table (lo / 1024) true i = true ↔ _
    rw [update_apply]
    grind
  rw [h.table, hadd]
  constructor
  · rintro ((hi | hi) | ⟨j, hj, hj', hji⟩)
    · exact .inl hi
    · exact .inr ⟨lo, Nat.le_refl lo, hlo, hi⟩
    · exact .inr ⟨j, by omega, hj', hji⟩
  rintro (hi | ⟨j, hj, hj', hji⟩)
  · exact .inl (.inl hi)
  · by_cases he : j = lo
    · exact .inl (.inr (he ▸ hji))
    · exact .inr ⟨j, by omega, hj', hji⟩

def Zeroed (_ v : Nat) (b : Bytes) : Prop :=
  (∃ f, v = f * 4096 ||| (pteW ||| pteU) ||| pteP) ∧ b = fun _ => 0

def CopyOf (s : Space) (j v : Nat) (b : Bytes) : Prop :=
  ∃ e f, s.pte j = some e ∧ v = f * 4096 ||| pteFlags e ||| pteP ∧ b = s.mem j

inductive Allocated (I : Image) (D : Dirs H) (K : Wholes H) (T : Set Nat) (A : Spaces H)
    (x : H) (s : Space) (oldsz newsz k : Nat) (m : Frames) : Nat → Frames → Prop
  | failed {m' : Frames} {s' : Space} (rep : Rep I D K T (update A x (some s')) m')
      (pte : s'.pte = (s.cut (pages oldsz) (pages newsz)).pte)
      (mem : s'.mem = (s.cut (pages oldsz) (pages newsz)).mem)
      (scarce : ∀ {S n}, (∀ j, k ≤ j → j < pages newsz → j / 1024 ∈ S) →
        ¬ Plenty S s (n + (pages newsz - k)) m) :
      Allocated I D K T A x s oldsz newsz k m 0 m'
  | grown {m' : Frames} {s' : Space} (rep : Rep I D K T (update A x (some s')) m')
      (grown : s.Filled Zeroed s' k (pages newsz))
      (plenty : ∀ {S n}, (∀ j, k ≤ j → j < pages newsz → j / 1024 ∈ S) →
        Plenty S s (n + (pages newsz - k)) m → Plenty S s' n m') :
      Allocated I D K T A x s oldsz newsz k m newsz m'

theorem Space.cut_enter_pte {p : Option Nat} {b : Bytes} (hlo : lo ≤ k) (hk : k < hi) :
    (((s.addTable i).enter k p b).cut lo hi).pte = (s.cut lo hi).pte ∧
      (((s.addTable i).enter k p b).cut lo hi).mem = (s.cut lo hi).mem := by
  constructor
  all_goals
    funext j
    simp only [Space.cut, Space.enter, Space.addTable, update_apply]
    grind

theorem Allocated.nothing (h : Rep I D K T A m) (hs : A x = some s)
    (hle : pages newsz ≤ k) : Allocated I D K T A x s oldsz newsz k m newsz m := by
  refine .grown (h.same hs) (.nothing hle) fun _ hm => ?_
  rw [Nat.sub_eq_zero_of_le hle] at hm
  exact hm

theorem allocLoop_spec {oldsz newsz rounds : Nat} (h : Rep I D K T A m) (hd : D x = some d)
    (hs : A x = some s) (hnew : newsz < kernBase) (hold : pages oldsz ≤ k)
    (hr : pages newsz ≤ k + rounds) (hnone : ∀ j, k ≤ j → j < pages newsz → s.pte j = none) :
    Wp (allocLoop I d oldsz newsz rounds (k * 4096)) m (fun r m' =>
      Allocated I D K T A x s oldsz newsz k m r m' ∧ (r = newsz → ∀ j, k ≤ j → j < pages newsz →
        ∃ v, m'.pte d j = some v ∧ frameOf v ∈ m.free)) E := by
  have hbase : newsz < 0x80000000 := hnew
  induction rounds generalizing A s m k with
  | zero =>
    unfold allocLoop
    exact wp_pure ⟨.nothing h hs hr, fun _ j hj hj' => by omega⟩
  | succ r ih =>
    unfold allocLoop
    apply wp_ite
    swap
    · intro hge
      have hle := pages_le.2 (Nat.le_of_not_lt hge)
      exact wp_pure ⟨.nothing h hs hle, fun _ j hj hj' => by omega⟩
    intro hlt
    have hk : k < pages newsz := lt_pages.2 hlt
    have hku : k < userPages := Nat.lt_of_lt_of_le hk (pages_le_userPages (Nat.le_of_lt hnew))
    have hsub : pages newsz - k = pages newsz - (k + 1) + 1 := by omega
    have hpos : 0 ≠ newsz := by omega
    apply wp_seq (kalloc_spec m)
    intro a m₁ hka
    cases a with
    | none =>
      apply wp_seq (deallocuvm_spec oldsz (h.refused hka) hd hs (Nat.le_of_lt hnew))
      rintro _ m₂ ⟨_, hrep, _⟩
      exact wp_pure ⟨.failed hrep rfl rfl fun _ => hka.not_plenty (by omega),
        fun he => (hpos he).elim⟩
    | some f =>
      obtain ⟨hf, h₁, _⟩ := h.given hka
      have hfT : f ∈ insert f T := Set.mem_insert f T
      have h₂ := h₁.write_hand (b := fun _ => 0) hfT
      have hplenty₂ : ∀ {S n}, Plenty S s (n + (pages newsz - k)) m →
          Plenty S s (n + (pages newsz - (k + 1))) (m₁.setPage f fun _ => 0) := by
        intro S n hm
        rw [hsub] at hm
        exact ⟨(hka.plenty hm).deny, (hka.plenty hm).free⟩
      apply wp_modify_bind
      have hperm : pteW ||| pteU < 4096 := by decide
      apply wp_bind ((mapPage_spec h₂ hf hd hs hku (hnone k (Nat.le_refl k) hk) hperm).and
        mapLoop_suffix) fun _ _ he => he.1
      rintro b m₃ ⟨hb, hsuffix⟩
      cases hb with
      | mapped hrep _ hplenty₃ =>
        have hnext : (k * 4096 + 4096) % 2 ^ 32 = (k + 1) * 4096 := by omega
        rw [page_setPage] at hrep
        generalize hs₁ : (s.addTable (k / 1024)).enter k
          (some (f * 4096 ||| (pteW ||| pteU) ||| pteP)) (fun _ => 0) = s₁ at hrep
        have hnone' : ∀ j, k + 1 ≤ j → j < pages newsz → s₁.pte j = none := by
          intro j hj hj'
          have hne : j ≠ k := by omega
          rw [← hs₁]
          exact (update_of_ne hne ..).trans (hnone j (by omega) hj')
        rw [if_pos rfl, hnext]
        apply (ih hrep (update_self ..) (by omega) (by omega) hnone').post
        rintro a m₄ ⟨ha, hfresh⟩
        have hplenty₄ : ∀ {S n}, (∀ j, k ≤ j → j < pages newsz → j / 1024 ∈ S) →
            Plenty S s (n + (pages newsz - k)) m →
            Plenty S s₁ (n + (pages newsz - (k + 1))) m₃ := by
          intro S n hS hm
          have hm' := hplenty₃ (hS k (Nat.le_refl k) hk) (hplenty₂ hm)
          rw [← hs₁]
          exact ⟨hm'.deny, hm'.free⟩
        cases ha with
        | failed hrep' hpte hmem hscarce =>
          rw [update_idem] at hrep'
          rw [← hs₁] at hpte hmem
          obtain ⟨hp, hm⟩ := Space.cut_enter_pte hold hk
          exact ⟨.failed hrep' (hpte.trans hp) (hmem.trans hm) fun hS hm =>
            hscarce (fun j hj => hS j (by omega)) (hplenty₄ hS hm), fun he => (hpos he).elim⟩
        | grown hrep' hgrown hplenty' =>
          have hpte := (hgrown.old k (by omega)).1
          rw [hrep'.pte_eq hd (update_self ..)] at hpte
          rw [update_idem] at hrep'
          rw [← hs₁] at hgrown hpte
          refine ⟨.grown hrep' (hgrown.cons hk ⟨⟨f, rfl⟩, rfl⟩) fun hS hm =>
            hplenty' (fun j hj => hS j (by omega)) (hplenty₄ hS hm), fun he j hj hj' => ?_⟩
          by_cases hjk : j = k
          · subst hjk
            refine ⟨_, hpte.trans (update_self ..), ?_⟩
            rw [frameOf_or hperm, Nat.mul_div_cancel f (by decide)]
            exact hka.mem
          · obtain ⟨v, hv, hvfree⟩ := hfresh he j (by omega) hj'
            exact ⟨v, hv, hka.suffix.subset (hsuffix.subset hvfree)⟩
      | failed hrep _ hscarce =>
        apply wp_seq (deallocuvm_spec oldsz hrep hd hs (Nat.le_of_lt hnew))
        rintro _ m₄ ⟨_, hrep', _⟩
        apply wp_seq (kfree_spec hrep' hf)
        rintro _ m₅ ⟨_, hrep''⟩
        exact wp_pure ⟨.failed hrep'' rfl rfl fun hS hm =>
          hscarce (hS k (Nat.le_refl k) hk) (hplenty₂ hm), fun he => (hpos he).elim⟩

theorem allocuvm_fresh (h : Rep I D K T A m) (hd : D x = some d)
    (hs : A x = some s) (hle : oldsz ≤ newsz) (hnew : newsz < kernBase)
    (hnone : ∀ j, pages oldsz ≤ j → j < userPages → s.pte j = none) :
    Wp (allocuvm I d oldsz newsz) m (fun r m' =>
      Allocated I D K T A x s oldsz newsz (pages oldsz) m r m' ∧ (r = newsz →
        ∀ j, pages oldsz ≤ j → j < pages newsz →
          ∃ v, m'.pte d j = some v ∧ frameOf v ∈ m.free)) E := by
  have hpages := pages_le_userPages (Nat.le_of_lt hnew)
  unfold allocuvm
  apply wp_ite fun hge => (Nat.not_le.2 hnew hge).elim
  intro _
  apply wp_ite fun hlt => (Nat.not_lt.2 hle hlt).elim
  intro _
  rw [pgRoundUp_eq (Nat.le_trans hle (Nat.le_of_lt hnew))]
  exact allocLoop_spec h hd hs hnew (Nat.le_refl _) (pages_le_rounds (Nat.le_of_lt hnew))
    fun j hj hj' => hnone j hj (Nat.lt_of_lt_of_le hj' hpages)

theorem allocuvm_spec (h : Rep I D K T A m) (hd : D x = some d)
    (hs : A x = some s) (hnone : ∀ j, pages oldsz ≤ j → j < userPages → s.pte j = none) :
    Wp (allocuvm I d oldsz newsz) m (fun r m' => kernBase ≤ newsz ∧ r = 0 ∧ m' = m ∨
      newsz < kernBase ∧ newsz < oldsz ∧ r = oldsz ∧ m' = m ∨
      newsz < kernBase ∧ oldsz ≤ newsz ∧
        Allocated I D K T A x s oldsz newsz (pages oldsz) m r m') E := by
  by_cases hnew : kernBase ≤ newsz
  · unfold allocuvm
    rw [if_pos hnew]
    exact wp_pure (.inl ⟨hnew, rfl, rfl⟩)
  by_cases hle : newsz < oldsz
  · unfold allocuvm
    rw [if_neg hnew, if_pos hle]
    exact wp_pure (.inr (.inl ⟨Nat.lt_of_not_le hnew, hle, rfl, rfl⟩))
  have hnew := Nat.lt_of_not_le hnew
  have hle := Nat.le_of_not_lt hle
  exact (allocuvm_fresh h hd hs hle hnew hnone).post fun r m' hm => .inr (.inr ⟨hnew, hle, hm.1⟩)

theorem Frames.word_lt (m : Frames) (f j : Nat) : m.word f j < 2 ^ 32 := Bytes.wordAt_lt _ _

theorem Frames.pte_spec (h : m.pte d k = some e) : present e = true ∧ e < 2 ^ 32 := by
  obtain ⟨t, ht, he⟩ := Option.bind_eq_some_iff.1 h
  split at he
  · cases he
    exact ⟨‹_›, m.word_lt ..⟩
  · cases he

theorem Frames.pte_word (he : m.pte d k = some e) :
    ∃ t, m.tab d (k / 1024) = some t ∧ m.word t (k % 1024) = e ∧ present e = true ∧
      e < 2 ^ 32 := by
  obtain ⟨hp, hlt⟩ := pte_spec he
  obtain ⟨t, ht⟩ := exists_tab he
  rw [pte_of_tab ht] at he
  split at he
  · exact ⟨t, ht, Option.some.inj he, hp, hlt⟩
  · cases he

omit [DecidableEq H] in
theorem Rep.pte_spec (h : Rep I D K T A m) (hd : D x = some d) (hs : A x = some s)
    (he : s.pte k = some e) :
    ∃ t, m.tab d (k / 1024) = some t ∧ m.word t (k % 1024) = e ∧ present e = true ∧
      e < 2 ^ 32 :=
  pte_word (h.pte_eq hd hs ▸ he)

def withoutUser (e : Nat) : Nat := e - e / 4 % 2 * 4

theorem withoutUser_spec (h : present e = true) :
    present (withoutUser e) = true ∧ frameOf (withoutUser e) = frameOf e ∧
      userBit (withoutUser e) = false := by
  simp only [present, frameOf, userBit, withoutUser, beq_iff_eq, beq_eq_false_iff_ne] at h ⊢
  omega

theorem clearpteu_spec (h : Rep I D K T A m) (hd : D x = some d) (hs : A x = some s)
    (hk : k < userPages) (he : s.pte k = some e) :
    Wp (clearpteu d (k * 4096)) m (fun _ m' => Rep I D K T
      (update A x (some (s.enter k (some (withoutUser e)) (s.mem k)))) m' ∧
        m'.free = m.free ∧ m'.deny = m.deny) E := by
  have hk' : k < 524288 := hk
  obtain ⟨t, ht, hword, hp, hlt⟩ := h.pte_spec hd hs he
  obtain ⟨hp', hframe, _⟩ := withoutUser_spec hp
  have hlt' : withoutUser e < 2 ^ 32 := Nat.lt_of_le_of_lt (Nat.sub_le _ _) hlt
  apply wp_walkpgdir (by omega)
  rw [pdx_page, ht]
  apply wp_modify
  rw [ptx_page, hword]
  exact ⟨h.set_flags hd hs he hk ht hlt' hp' hframe, rfl, rfl⟩

inductive Copied (I : Image) (D : Dirs H) (K : Wholes H) (T : Set Nat) (A : Spaces H)
    (y : H) (s c : Space) (k sz : Nat) : Bool → Frames → Prop
  | failed {m' : Frames} {c' : Space} (rep : Rep I D K T (update A y (some c')) m') :
      Copied I D K T A y s c k sz false m'
  | copied {m' : Frames} {c' : Space} (rep : Rep I D K T (update A y (some c')) m')
      (filled : c.Filled (CopyOf s) c' k (pages sz)) : Copied I D K T A y s c k sz true m'

theorem Copied.nothing {c : Space} (h : Rep I D K T A m) (hc : A y = some c)
    (hle : pages sz ≤ k) : Copied I D K T A y s c k sz true m := by
  exact .copied (h.same hc) (.nothing hle)

theorem copyLoop_spec {d' sz rounds : Nat} {c : Space} (h : Rep I D K T A m)
    (hsource : ∀ c m', Rep I D K T (update A y (some c)) m' → m'.space d = s)
    (hd' : D y = some d') (hc : A y = some c) (hsz : sz ≤ kernBase) (hr : pages sz ≤ k + rounds)
    (hfault : ∀ j, j < pages sz → s.pte j = none → ∀ m, E .noPte m ∧ E .notPresent m)
    (hnone : ∀ j, k ≤ j → j < pages sz → c.pte j = none) :
    Wp (copyLoop I d d' sz rounds (k * 4096)) m (Copied I D K T A y s c k sz) E := by
  have hbase : sz ≤ 0x80000000 := hsz
  induction rounds generalizing A c m k with
  | zero =>
    unfold copyLoop
    exact wp_pure (.nothing h hc hr)
  | succ r ih =>
    unfold copyLoop
    apply wp_ite
    swap
    · intro hge
      exact wp_pure (.nothing h hc (pages_le.2 (Nat.le_of_not_lt hge)))
    intro hlt
    have hk : k < pages sz := lt_pages.2 hlt
    have hku : k < userPages := Nat.lt_of_lt_of_le hk (pages_le_userPages hsz)
    have hspace : m.space d = s := hsource c m (h.same hc)
    have hpte : m.pte d k = s.pte k := congrArg (fun s => s.pte k) hspace
    apply wp_walkpgdir (by omega)
    rw [pdx_page]
    cases he : s.pte k with
    | none =>
      rw [he] at hpte
      cases ht : m.tab d (k / 1024) with
      | none => exact wp_throw (hfault k hk he m).1
      | some t =>
        rw [pte_of_tab ht] at hpte
        apply wp_get_bind
        rw [ptx_page]
        apply wp_ite
        · intro hp
          rw [if_pos hp] at hpte
          cases hpte
        · intro _
          exact wp_throw (hfault k hk he m).2
    | some e =>
      rw [he] at hpte
      obtain ⟨t, ht, hword, hp, _⟩ := pte_word hpte
      rw [ht]
      apply wp_get_bind
      rw [ptx_page, hword, if_pos hp]
      apply wp_seq (kalloc_spec m)
      intro a m₁ hka
      cases a with
      | none =>
        exact wp_pure (.failed ((h.refused hka).same hc))
      | some f =>
        obtain ⟨hf, h₁, hpage⟩ := h.given hka
        have hcopy : m₁.page (frameOf (m₁.word t (k % 1024))) = s.mem k := by
          have hw : m₁.word t (k % 1024) = e := by
            rw [Frames.word, hpage]
            exact hword
          rw [hw, hpage, ← hspace]
          exact (mem_of_pte hku hpte).symm
        have h₂ := h₁.write_hand (b := s.mem k) (Set.mem_insert f T)
        apply wp_modify_bind
        rw [hcopy]
        have hflags : pteFlags e < 4096 := Nat.mod_lt _ (by decide)
        apply wp_seq (mapPage_spec h₂ hf hd' hc hku (hnone k (Nat.le_refl k) hk) hflags)
        intro b m₃ hb
        cases hb with
        | mapped hrep _ _ =>
          rw [page_setPage] at hrep
          generalize hc₁ : (c.addTable (k / 1024)).enter k
            (some (f * 4096 ||| pteFlags e ||| pteP)) (s.mem k) = c₁ at hrep
          have hnext : (k * 4096 + 4096) % 2 ^ 32 = (k + 1) * 4096 := by omega
          have hnone' : ∀ j, k + 1 ≤ j → j < pages sz → c₁.pte j = none := by
            intro j hj hj'
            have hne : j ≠ k := by omega
            rw [← hc₁]
            exact (update_of_ne hne ..).trans (hnone j (by omega) hj')
          rw [if_pos rfl, hnext]
          apply (ih hrep (fun c' m' h' => hsource c' m' (update_idem (α := H) .. ▸ h'))
            (update_self ..) (by omega) hnone').post
          intro a m₄ ha
          cases ha with
          | failed hrep' =>
            rw [update_idem] at hrep'
            exact .failed hrep'
          | copied hrep' hfilled =>
            rw [update_idem] at hrep'
            rw [← hc₁] at hfilled
            exact .copied hrep' (hfilled.cons hk ⟨e, f, he, rfl, rfl⟩)
        | failed hrep _ _ =>
          rw [if_neg (by decide)]
          apply wp_seq (kfree_spec hrep hf)
          rintro _ m₄ ⟨_, hrep'⟩
          exact wp_pure (.failed (hrep'.same hc))

theorem copyuvm_from (h : Rep I D K T A m)
    (hsource : ∀ d' c m', Rep I (update D y (some d')) K T
      (update A y (some c)) m' → m'.space d = s)
    (hy : D y = none) (hsz : sz ≤ kernBase)
    (hfault : ∀ j, j < pages sz → s.pte j = none → ∀ m, E .noPte m ∧ E .notPresent m) :
    Wp (copyuvm I d sz) m (fun r m' => r = none ∧ Rep I D K T A m' ∨
      ∃ d' c, r = some d' ∧ (kernelSpace I).Filled (CopyOf s) c 0 (pages sz) ∧
        Rep I (update D y (some d')) K T (update A y (some c)) m') E := by
  have hA : A y = none := by rw [h.spaces, hy, Option.map_none]
  apply wp_seq (setupkvm_spec h hy)
  intro r m₁ hr
  cases hr with
  | failed hrep _ => exact wp_pure (.inl ⟨rfl, hrep⟩)
  | @made _ d' hrep _ =>
    have hnone : ∀ j, 0 ≤ j → j < pages sz → (kernelSpace I).pte j = none := fun j _ hj =>
      kernelSpace_user (Nat.lt_of_lt_of_le hj (pages_le_userPages hsz))
    have hsource' : ∀ c m', Rep I (update D y (some d')) K T
        (update (update A y (some (kernelSpace I))) y (some c)) m' →
          m'.space d = s := by
      intro c m' h'
      rw [update_idem] at h'
      exact hsource d' c m' h'
    have hcopy : Wp (copyLoop I d d' sz rounds 0) m₁ _ E := copyLoop_spec (k := 0) hrep hsource'
      (update_self ..) (update_self ..) hsz (pages_le_rounds hsz) hfault hnone
    apply wp_seq hcopy
    intro b m₂ hb
    cases hb with
    | @copied _ c hrep' hfilled =>
      rw [update_idem] at hrep'
      exact wp_pure (.inr ⟨d', c, rfl, hfilled, hrep'⟩)
    | failed hrep' =>
      apply wp_seq (freevm_spec hrep' (update_self ..))
      intro _ m₃ hrep''
      rw [update_idem, update_idem, update_idem] at hrep''
      rw [← hy, ← hA, update_eq_self, update_eq_self] at hrep''
      exact wp_pure (.inl ⟨rfl, hrep''⟩)

theorem copyuvm_spec (h : Rep I D K T A m) (hd : D x = some d) (hs : A x = some s)
    (hy : D y = none) (hsz : sz ≤ kernBase)
    (hfault : ∀ j, j < pages sz → s.pte j = none → ∀ m, E .noPte m ∧ E .notPresent m) :
    Wp (copyuvm I d sz) m (fun r m' => r = none ∧ Rep I D K T A m' ∨
      ∃ d' c, r = some d' ∧ (kernelSpace I).Filled (CopyOf s) c 0 (pages sz) ∧
        Rep I (update D y (some d')) K T (update A y (some c)) m') E := by
  have hxy : x ≠ y := by
    rintro rfl
    rw [hd] at hy
    cases hy
  refine copyuvm_from h (fun d' c m' h' => ?_) hy hsz hfault
  exact (h'.space_eq ((update_of_ne hxy ..).trans hd)
    ((update_of_ne hxy ..).trans hs)).symm

end Xv6Signals.Vm
