import Xv6Signals.Vm.Tables

namespace Xv6Signals.Vm
open Lib Function Set

variable {H : Type} [DecidableEq H] {I : Image} {D : Dirs H} {K : Wholes H} {T : Set Nat}
  {A : Spaces H} {x y : H} {s s' : Space} {m m' : Frames} {f g d t i j k n v e : Nat}
  {E : Fault → Frames → Prop} {lo hi : Nat} {sz : Nat}

def pages (sz : Nat) : Nat := (sz + 4095) / 4096

theorem pages_le : pages sz ≤ k ↔ sz ≤ k * 4096 := by
  unfold pages
  omega

theorem lt_pages : k < pages sz ↔ k * 4096 < sz := by
  unfold pages
  omega

theorem pages_le_userPages (h : sz ≤ kernBase) : pages sz ≤ userPages := pages_le.2 h

theorem pages_mono {sz sz' : Nat} (h : sz ≤ sz') : pages sz ≤ pages sz' := by
  unfold pages
  omega

def Space.cut (s : Space) (lo hi : Nat) : Space :=
  { s with
    pte := fun j => if lo ≤ j ∧ j < hi then none else s.pte j
    mem := fun j => if lo ≤ j ∧ j < hi then fun _ => 0 else s.mem j }

theorem Space.cut_of_le (h : hi ≤ lo) : s.cut lo hi = s := by
  ext1 <;> grind [Space.cut]

theorem Space.cut_skip {lo mid hi : Nat} (h : lo ≤ mid)
    (hnone : ∀ j, lo ≤ j → j < mid → s.pte j = none ∧ s.mem j = fun _ => 0) :
    s.cut mid hi = s.cut lo hi := by
  ext1 <;> grind [Space.cut]

theorem Space.cut_enter {hi : Nat} (hk : k < hi) :
    (s.enter k none fun _ => 0).cut (k + 1) hi = s.cut k hi := by
  ext1
  · rfl
  all_goals
    funext j
    simp only [Space.cut, Space.enter, update_apply]
    grind

omit [DecidableEq H] in
theorem Rep.mem_of_no_pte (h : Rep I D K T A m) (hd : D x = some d) (hs : A x = some s)
    (hnone : m.pte d k = none) : s.mem k = fun _ => 0 := by
  rw [h.space_eq hd hs]
  exact Frames.mem_of_no_pte hnone

theorem Frames.setWord_release (h : t ≠ f) :
    (m.release f).setWord t j v = (m.setWord t j v).release f := by
  unfold Frames.release Frames.setWord Frames.setPage
  simp only [update_of_ne h]
  rw [update_comm h]

def Frames.mapped (m : Frames) (d lo hi : Nat) : List Nat :=
  (List.range' lo (hi - lo)).filterMap fun j => (m.pte d j).map frameOf

theorem Frames.mapped_of_le (h : hi ≤ lo) : m.mapped d lo hi = [] := by
  rw [Frames.mapped, Nat.sub_eq_zero_of_le h]
  rfl

theorem Frames.mapped_step (h : lo < hi) :
    m.mapped d lo hi = ((m.pte d lo).map frameOf).toList ++ m.mapped d (lo + 1) hi := by
  have hlen : hi - lo = hi - (lo + 1) + 1 := by omega
  rw [Frames.mapped, hlen, List.range'_succ, List.filterMap_cons]
  cases m.pte d lo <;> rfl

theorem Frames.mapped_skip (hle : lo ≤ n)
    (h : ∀ j, lo ≤ j → j < n → m.pte d j = none) : m.mapped d lo hi = m.mapped d n hi := by
  induction n, hle using Nat.le_induction with
  | base => rfl
  | succ n hn ih =>
    rw [ih fun j hj hj' => h j hj (by omega)]
    by_cases hlt : n < hi
    · rw [Frames.mapped_step hlt, h n hn (Nat.lt_succ_self n)]
      rfl
    · rw [Frames.mapped_of_le (by omega), Frames.mapped_of_le (by omega)]

theorem Frames.mapped_congr (h : ∀ j, lo ≤ j → m'.pte d j = m.pte d j) :
    m'.mapped d lo hi = m.mapped d lo hi := by
  refine List.filterMap_congr fun j hj => ?_
  rw [h j (List.mem_range'_1.1 hj).1]

/-- What `deallocuvm` leaves: the pages from `lo` to `hi - 1` are gone, and their frames are on
the free list. -/
structure Unmapped (I : Image) (D : Dirs H) (K : Wholes H) (T : Set Nat) (A : Spaces H) (x : H)
    (s : Space) (d lo hi : Nat) (m m' : Frames) : Prop where
  rep : Rep I D K T (update A x (some (s.cut lo hi))) m'
  free : m'.free = (m.mapped d lo hi).reverse ++ m.free

theorem Unmapped.nothing (h : Rep I D K T A m) (hs : A x = some s) (hle : hi ≤ lo) :
    Unmapped I D K T A x s d lo hi m m := by
  refine ⟨?_, ?_⟩
  · rw [Space.cut_of_le hle]
    exact h.same hs
  · rw [Frames.mapped_of_le hle]
    rfl

/-- `deallocuvm` frees a page before it clears the entry; the order makes no difference. -/
theorem Rep.unmap_release (h : Rep I D K T A m) (hd : D x = some d) (hs : A x = some s)
    (hpte : s.pte k = some e) (hk : k < userPages) (ht : m.tab d (k / 1024) = some t) :
    Rep I D K T (update A x (some (s.enter k none fun _ => 0)))
      ((m.release (frameOf e)).setWord t (k % 1024) 0) := by
  obtain ⟨hf, h'⟩ := h.unmap hd hs hpte hk ht
  have hne : t ≠ frameOf e := h.placed.ne (At.table hd ht) (h.user_at hd hs hpte hk)
    fun he => by cases he
  rw [Frames.setWord_release hne]
  exact h'.release hf

theorem wp_kfree {α : Type} {c : Unit → VmM α} {Q : α → Frames → Prop} (hf : I.owns f)
    (h : Wp (c ()) (m.release f) Q E) : Wp (kfree I f >>= c) m Q E := by
  unfold kfree
  rw [if_pos hf]
  exact wp_modify_bind h

theorem deallocLoop_spec {oldsz rounds : Nat} (h : Rep I D K T A m) (hd : D x = some d)
    (hs : A x = some s) (hold : oldsz ≤ kernBase) (hr : pages oldsz ≤ k + rounds) :
    Wp (deallocLoop I d oldsz rounds (k * 4096)) m
      (fun _ m' => Unmapped I D K T A x s d k (pages oldsz) m m') E := by
  have hbase : oldsz ≤ 0x80000000 := hold
  induction rounds generalizing A s m k with
  | zero =>
    unfold deallocLoop
    exact wp_pure (.nothing h hs hr)
  | succ r ih =>
    unfold deallocLoop
    apply wp_ite
    swap
    · intro hlt
      exact wp_pure (.nothing h hs (pages_le.2 (Nat.le_of_not_lt hlt)))
    intro hlt
    have hnext : (k * 4096 + 4096) % 2 ^ 32 = (k + 1) * 4096 := by omega
    have hk : k < userPages := Nat.lt_of_lt_of_le (lt_pages.2 hlt) (pages_le_userPages hold)
    have hskip : ∀ {n}, k < n → (∀ j, k ≤ j → j < n → m.pte d j = none) →
        Wp (deallocLoop I d oldsz r (n * 4096)) m
          (fun _ m' => Unmapped I D K T A x s d k (pages oldsz) m m') E := by
      intro n hn hnone
      apply (ih h hs (by omega : pages oldsz ≤ n + r)).post
      rintro _ m' ⟨hrep, hfree⟩
      refine ⟨?_, ?_⟩
      · rwa [← Space.cut_skip (Nat.le_of_lt hn) fun j hj hj' => ⟨?_, ?_⟩]
        · rw [h.pte_eq hd hs, hnone j hj hj']
        · exact h.mem_of_no_pte hd hs (hnone j hj hj')
      · rwa [Frames.mapped_skip (Nat.le_of_lt hn) hnone]
    apply wp_walkpgdir (by omega)
    rw [pdx_page]
    cases htab : m.tab d (k / 1024) with
    | none =>
      have hup : (k / 1024 + 1) * 4194304 % 2 ^ 32 = (k / 1024 + 1) * 1024 * 4096 := by omega
      show Wp (deallocLoop I d oldsz r ((k / 1024 + 1) * 4194304 % 2 ^ 32)) m _ E
      rw [hup]
      refine hskip (by omega) fun j hj hj' => Frames.pte_of_no_tab ?_
      rw [(by omega : j / 1024 = k / 1024)]
      exact htab
    | some t =>
      have hpte := Frames.pte_of_tab htab
      rw [ptx_page, hnext]
      apply wp_get_bind
      apply wp_ite
      · intro hp
        rw [if_pos hp] at hpte
        generalize m.word t (k % 1024) = e at hpte
        have hpte' : s.pte k = some e := by rw [h.pte_eq hd hs, hpte]
        have howns : I.owns (frameOf e) := h.placed.mem (h.user_at hd hs hpte' hk)
        have h' := h.unmap_release hd hs hpte' hk htab
        apply wp_ite fun he => (Image.owns_pos howns he).elim
        intro _
        apply wp_kfree howns
        apply wp_modify_bind
        apply (ih h' (update_self ..) (by omega)).post
        rintro _ m' ⟨hrep, hfree⟩
        rw [update_idem, Space.cut_enter (lt_pages.2 hlt)] at hrep
        refine ⟨hrep, ?_⟩
        have hsame : ∀ j, k + 1 ≤ j →
            ((m.release (frameOf e)).setWord t (k % 1024) 0).pte d j = m.pte d j := by
          intro j hj
          have hne : j ≠ k := by omega
          rw [← h'.pte_eq hd (update_self ..), ← h.pte_eq hd hs]
          exact update_of_ne hne ..
        rw [hfree, Frames.mapped_congr hsame, Frames.mapped_step (lt_pages.2 hlt), hpte,
          Option.map_some, Option.toList_some, List.reverse_append, List.append_assoc]
        rfl
      · intro hp
        rw [if_neg hp] at hpte
        refine hskip (Nat.lt_succ_self k) fun j hj hj' => ?_
        rwa [(by omega : j = k)]

theorem pgRoundUp_eq (h : sz ≤ kernBase) : pgRoundUp sz = pages sz * 4096 := by
  have h' : sz ≤ 0x80000000 := h
  unfold pgRoundUp pages
  rw [Nat.mod_eq_of_lt (by omega)]

theorem pages_le_rounds (h : sz ≤ kernBase) : pages sz ≤ k + rounds :=
  Nat.le_trans (pages_le_userPages h) (Nat.le_trans (by decide) (Nat.le_add_left ..))

theorem deallocuvm_spec {oldsz : Nat} (newsz : Nat) (h : Rep I D K T A m) (hd : D x = some d)
    (hs : A x = some s) (hold : oldsz ≤ kernBase) :
    Wp (deallocuvm I d oldsz newsz) m (fun r m' => r = min oldsz newsz ∧
      Unmapped I D K T A x s d (pages newsz) (pages oldsz) m m') E := by
  unfold deallocuvm
  apply wp_ite
  · intro hle
    exact wp_pure ⟨(Nat.min_eq_left hle).symm, .nothing h hs (pages_mono hle)⟩
  intro hlt
  have hnew : newsz ≤ oldsz := Nat.le_of_lt (Nat.lt_of_not_le hlt)
  rw [pgRoundUp_eq (Nat.le_trans hnew hold)]
  apply wp_seq (deallocLoop_spec h hd hs hold (pages_le_rounds hold))
  intro _ m' hm
  exact wp_pure ⟨(Nat.min_eq_right hnew).symm, hm⟩

def Frames.tablesFrom (m : Frames) (d i : Nat) : Set Nat :=
  { g | g = d ∨ ∃ j, i ≤ j ∧ m.tab d j = some g }

/-- The frames of a page directory and of its tables are different, and none is in `T`. -/
structure Frames.Apart (m : Frames) (d : Nat) (T : Set Nat) : Prop where
  tables : ∀ {j j' g}, m.tab d j = some g → m.tab d j' = some g → j = j'
  dir : ∀ {j}, m.tab d j ≠ some d
  hand : ∀ {g}, g ∈ m.tablesFrom d 0 → g ∉ T

theorem Frames.tablesFrom_congr (h : m'.page d = m.page d) (i : Nat) :
    m'.tablesFrom d i = m.tablesFrom d i := by
  unfold Frames.tablesFrom
  simp only [Frames.tab_congr h]

theorem Frames.Apart.congr (h : m.Apart d T) (hd : m'.page d = m.page d) : m'.Apart d T where
  tables hj hj' := by
    rw [Frames.tab_congr hd] at hj hj'
    exact h.tables hj hj'
  dir hj := by
    rw [Frames.tab_congr hd] at hj
    exact h.dir hj
  hand hg := by
    rw [Frames.tablesFrom_congr hd] at hg
    exact h.hand hg

theorem Frames.tablesFrom_step :
    m.tablesFrom d i = { g | m.tab d i = some g } ∪ m.tablesFrom d (i + 1) := by
  ext g
  simp only [Frames.tablesFrom, mem_ofPred_eq, mem_union]
  grind

omit [DecidableEq H] in
theorem freeTables_spec (h : Rep I D K (T ∪ m.tablesFrom d i) A m) (hi : i + n = 1024)
    (hapart : m.Apart d T) :
    Wp (freeTables I d n i) m (fun _ m' => Rep I D K (insert d T) A m') E := by
  induction n generalizing i m with
  | zero =>
    have hset : T ∪ m.tablesFrom d i = insert d T := by
      ext g
      simp only [Frames.tablesFrom, mem_ofPred_eq, mem_union, mem_insert_iff]
      grind [→ Frames.tab_lt]
    rw [hset] at h
    exact wp_pure h
  | succ n ih =>
    unfold freeTables
    apply wp_get_bind
    rw [Frames.tablesFrom_step] at h
    apply wp_ite
    · intro hp
      have htab : m.tab d i = some (frameOf (m.word d i)) := if_pos ⟨by omega, hp⟩
      generalize frameOf (m.word d i) = t at htab ⊢
      have htd : t ≠ d := fun he => hapart.dir (he ▸ htab)
      have hset : T ∪ ({ g | m.tab d i = some g } ∪ m.tablesFrom d (i + 1)) =
          insert t (T ∪ m.tablesFrom d (i + 1)) := by
        ext g
        simp only [htab, Option.some.injEq, mem_union, mem_ofPred_eq, mem_insert_iff]
        grind
      have hnot : t ∉ T ∪ m.tablesFrom d (i + 1) := by
        rintro (hg | hg | ⟨j, hj, ht⟩)
        · exact hapart.hand (.inr ⟨i, Nat.zero_le i, htab⟩) hg
        · exact htd hg
        · have := hapart.tables htab ht
          omega
      rw [hset] at h
      apply wp_seq (kfree_spec h hnot)
      rintro _ _ ⟨rfl, h'⟩
      have hd : (m.release t).page d = m.page d := Frames.page_setPage_of_ne htd.symm
      rw [← Frames.tablesFrom_congr hd] at h'
      exact ih h' (by omega) (hapart.congr hd)
    · intro hp
      have htab : m.tab d i = none := if_neg fun hc => hp hc.2
      simp only [htab, reduceCtorEq, ofPred_false, empty_union] at h
      exact ih h (by omega) hapart

theorem freevm_spec (h : Rep I D K T A m) (hd : D x = some d) :
    Wp (freevm I d) m (fun _ m' => Rep I (update D x none) K T (update A x none) m') E := by
  have howns : I.owns d := h.placed.mem (At.dir hd)
  have hs : A x = some (m.space d) := by rw [h.spaces, hd, Option.map_some]
  unfold freevm
  apply wp_ite fun he => (Image.owns_pos howns he).elim
  intro _
  apply wp_seq (deallocuvm_spec 0 h hd hs (Nat.le_refl _))
  rintro _ m₁ ⟨_, h₁, _⟩
  have h₂ := h₁.detach hd (update_self ..) fun k hk => if_pos ⟨Nat.zero_le k, hk⟩
  have htables : m₁.tables d = m₁.tablesFrom d 0 := by
    simp only [Frames.tables, Frames.tablesFrom, Nat.zero_le, true_and]
  rw [htables, update_idem] at h₂
  have hapart : m₁.Apart d T := by
    refine ⟨?_, ?_, ?_⟩
    · intro j j' g hj hj'
      exact (Place.table.inj (h₁.placed.one (At.table hd hj) (At.table hd hj'))).2
    · intro j hj
      cases h₁.placed.one (At.table hd hj) (At.dir hd)
    · rintro g (rfl | ⟨j, _, hj⟩) hT
      · cases h₁.placed.one (At.hand hT) (At.dir hd)
      · cases h₁.placed.one (At.hand hT) (At.table hd hj)
  apply wp_seq (freeTables_spec h₂ rfl hapart)
  intro _ m₂ h₃
  apply (kfree_spec h₃ (hapart.hand (.inl rfl))).post
  rintro _ _ ⟨rfl, h₄⟩
  exact h₄

end Xv6Signals.Vm
