import Xv6Signals.Vm.Growproc
import Xv6Signals.Vm.MapPages

namespace Xv6Signals.Vm
open Lib Function

variable {H : Type} [DecidableEq H] {I : Image} {D : Dirs H} {K : Wholes H} {T : Set Nat}
  {A : Spaces H} {x y : H} {s s' : Space} {m m' m₁ : Frames}
  {f g d t i j k n v e lo hi perm last pa oldsz newsz : Nat} {E : Fault → Frames → Prop}

structure Grown (m m' : Frames) (d lo hi : Nat) : Prop where
  new : ∀ j, lo ≤ j → j < hi → ∃ v, m'.pte d j = some v ∧ pteFlags v = pteW ||| pteU ||| pteP ∧
    frameOf v ∈ m.free ∧ frameOf v ∉ m'.free ∧ m'.page (frameOf v) = fun _ => 0
  distinct : ∀ j j' v v', j < userPages → j' < userPages → m'.pte d j = some v →
    m'.pte d j' = some v' → frameOf v = frameOf v' → j = j'
  old : ∀ j, ¬ (lo ≤ j ∧ j < hi) → m'.pte d j = m.pte d j ∧ m'.mem d j = m.mem d j

/-- All pages are as they were, and no frame is used for one; a frame may have become a page
table. -/
structure RolledBack (m m' : Frames) (d : Nat) : Prop where
  same : ∀ j, m'.pte d j = m.pte d j ∧ m'.mem d j = m.mem d j
  returned : ∀ f ∈ m.free, f ∈ m'.free ∨ ∃ i, m'.tab d i = some f

structure Shrunk (m m' : Frames) (d lo hi : Nat) : Prop where
  cut : ∀ j, lo ≤ j → j < hi → m'.pte d j = none
  old : ∀ j, ¬ (lo ≤ j ∧ j < hi) → m'.pte d j = m.pte d j ∧ m'.mem d j = m.mem d j
  freed : m'.free = (m.mapped d lo hi).reverse ++ m.free
  once : m'.free.Nodup

def OthersKept (D : Dirs H) (x : H) (m m' : Frames) : Prop :=
  ∀ y d', y ≠ x → D y = some d' → m'.space d' = m.space d'

theorem Rep.othersKept (h : Rep I D K T A m)
    (h' : Rep I D K T (update A x (some s')) m') : OthersKept D x m m' := by
  intro y d' hy hd'
  have hspace := h.spaces y
  have hspace' := h'.spaces y
  rw [update_of_ne hy, hspace, hd'] at hspace'
  exact (Option.some.inj hspace').symm

theorem Zeroed.flags {b : Bytes} (h : Zeroed j v b) : pteFlags v = pteW ||| pteU ||| pteP := by
  obtain ⟨⟨f, rfl⟩, _⟩ := h
  rw [pteFlags_or (by decide), Nat.mul_mod_left, Nat.zero_or]

omit [DecidableEq H] in
theorem Rep.user_one {z : Place H} (h : Rep I D K T A m) (hd : D x = some d) (hj : j < userPages)
    (hv : m.pte d j = some v) (hz : At m D K T z (frameOf v)) : z = .user x j :=
  h.placed.one hz ((at_user hd).2 ⟨hj, v, hv, rfl⟩)

theorem Rep.grown (h : Rep I D K T A m) (hd : D x = some d) (hs : A x = some s)
    (h' : Rep I D K T (update A x (some s')) m') (hhi : hi ≤ userPages)
    (hfill : s.Filled Zeroed s' lo hi)
    (hfresh : ∀ j, lo ≤ j → j < hi → ∃ v, m'.pte d j = some v ∧ frameOf v ∈ m.free) :
    Grown m m' d lo hi := by
  obtain rfl := h.space_eq hd hs
  obtain rfl := h'.space_eq hd (update_self ..)
  refine ⟨fun j hlo hj => ?_, fun j j' v v' hj hj' hv hv' he => ?_, hfill.old⟩
  · have hju : j < userPages := Nat.lt_of_lt_of_le hj hhi
    obtain ⟨v, hv, hzero⟩ := hfill.new j hlo hj
    obtain ⟨v', hv', hfree⟩ := hfresh j hlo hj
    change m'.pte d j = some v at hv
    rw [hv] at hv'
    cases hv'
    refine ⟨v, hv, hzero.flags, hfree, fun hf => ?_, ?_⟩
    · cases h'.user_one hd hju hv (At.free hf)
    · rw [← Frames.mem_of_pte hju hv]
      exact hzero.2
  · cases h'.user_one hd hj hv ((at_user hd).2 ⟨hj', v', hv', he.symm⟩)
    rfl

omit [DecidableEq H] in
theorem Rep.returned {A' : Spaces (Option Nat)} (h : Rep I D K T A m) (hd : D x = some d)
    (hpte : ∀ j, m'.pte d j = m.pte d j) (h' : Rep I (only (D x)) (pins m D K T x) T A' m')
    (hf : f ∈ m.free) : f ∈ m'.free ∨ ∃ i, m'.tab d i = some f := by
  have hat : At m D K T .free f := hf
  obtain ⟨z, hz⟩ := (h'.placed.covers f).1 (h.placed.mem hat)
  have honly : ∀ {y d'}, only (D x) y = some d' → d' = d := by
    intro y d' hy
    cases y with
    | none => exact Option.some.inj (hy.symm.trans hd)
    | some g => cases hy
  cases z with
  | free => exact .inl hz
  | hand => cases h.placed.one hat (At.hand hz)
  | page y =>
    obtain ⟨b, hb⟩ := hz
    cases y with
    | none => exact (pins_none hb).elim
    | some g =>
      obtain ⟨_, ⟨w, hw, hwf, _⟩, _⟩ := pins_some.1 hb
      exact (hwf (h.placed.one hw hat)).elim
  | dir y =>
    cases honly hz
    cases h.placed.one hat (At.dir hd)
  | table y i =>
    obtain ⟨d', hd', ht⟩ := hz
    rw [honly hd'] at ht
    exact .inr ⟨i, ht⟩
  | user y k =>
    obtain ⟨hk, d', e, hd', he, hfe⟩ := hz
    rw [honly hd', hpte] at he
    subst hfe
    cases h.user_one hd hk he hat

theorem allocuvm_exact (h : Rep I D K T A m) (hd : D x = some d) (hs : A x = some s)
    (hle : oldsz ≤ newsz) (hnew : newsz < kernBase)
    (hnone : ∀ j, pages oldsz ≤ j → j < userPages → s.pte j = none) :
    Wp (allocuvm I d oldsz newsz) m (fun r m' =>
      (r = newsz ∧ Grown m m' d (pages oldsz) (pages newsz) ∨ r = 0 ∧ RolledBack m m' d) ∧
        OthersKept D x m m') E := by
  have hpages := pages_le_userPages (Nat.le_of_lt hnew)
  have hspec : Wp (allocuvm I d oldsz newsz) m _ E := allocuvm_fresh h hd hs hle hnew hnone
  -- once more with every other frame pinned, for what is on the free list after a failure
  have hseen : Wp (allocuvm I d oldsz newsz) m _ E :=
    allocuvm_fresh (h.isolate x) (x := none) hd hs hle hnew hnone
  apply (hspec.and hseen).mono _ fun _ _ he => he.2
  rintro r m' ⟨⟨hm, hfresh⟩, hseen, _⟩
  obtain ⟨s', hrep'⟩ : ∃ s', Rep I (only (D x)) (pins m D K T x) T
      (update (only (A x)) none (some s')) m' := by
    cases hseen with
    | failed hrep _ _ _ => exact ⟨_, hrep⟩
    | grown hrep _ _ => exact ⟨_, hrep⟩
  cases hm with
  | grown hrep hfill _ =>
    exact ⟨.inl ⟨rfl, h.grown hd hs hrep hpages hfill (hfresh rfl)⟩, h.othersKept hrep⟩
  | failed hrep hpte hmem _ =>
    refine ⟨.inr ⟨rfl, ?_⟩, h.othersKept hrep⟩
    obtain rfl := h.space_eq hd hs
    obtain rfl := hrep.space_eq hd (update_self ..)
    have hno : ∀ {j}, pages oldsz ≤ j ∧ j < pages newsz → m.pte d j = none := fun hj =>
      hnone _ hj.1 (Nat.lt_of_lt_of_le hj.2 hpages)
    have hpte' : ∀ j, m'.pte d j = m.pte d j := by
      intro j
      refine (congrFun hpte j).trans (ite_eq_right_iff.2 fun hj => ?_)
      exact (hno hj).symm
    refine ⟨fun j => ⟨hpte' j, ?_⟩, fun f hf => h.returned hd hpte' hrep' hf⟩
    refine (congrFun hmem j).trans (ite_eq_right_iff.2 fun hj => ?_)
    exact (Frames.mem_of_no_pte (hno hj)).symm

theorem deallocuvm_exact (h : Rep I D K T A m) (hd : D x = some d) (hs : A x = some s)
    (hlt : newsz < oldsz) (hold : oldsz ≤ kernBase) :
    Wp (deallocuvm I d oldsz newsz) m (fun r m' =>
      r = newsz ∧ Shrunk m m' d (pages newsz) (pages oldsz) ∧ OthersKept D x m m') E := by
  apply (deallocuvm_spec newsz h hd hs hold).post
  rintro r m' ⟨rfl, hrep, hfree⟩
  obtain rfl := h.space_eq hd hs
  have hcut := hrep.space_eq hd (update_self ..)
  have hpte : ∀ j, m'.pte d j =
      if pages newsz ≤ j ∧ j < pages oldsz then none else m.pte d j := fun j =>
    congrArg (fun s => s.pte j) hcut.symm
  have hmem : ∀ j, m'.mem d j =
      if pages newsz ≤ j ∧ j < pages oldsz then fun _ => 0 else m.mem d j := fun j =>
    congrArg (fun s => s.mem j) hcut.symm
  refine ⟨Nat.min_eq_right (Nat.le_of_lt hlt), ⟨fun j hj hj' => ?_, fun j hj => ⟨?_, ?_⟩, hfree,
    hrep.nodup⟩, h.othersKept hrep⟩
  · rw [hpte, if_pos ⟨hj, hj'⟩]
  · rw [hpte, if_neg hj]
  · rw [hmem, if_neg hj]

/-- `allocuvm` maps exactly the new pages or leaves the address space as it was, and `deallocuvm`
unmaps and frees exactly the pages between the two sizes. -/
theorem grow_and_shrink_exact (h : Rep I D K T A m) (hd : D x = some d) :
    (∀ oldsz newsz, oldsz ≤ newsz → newsz < kernBase →
      (∀ j, j < userPages → ((m.pte d j).isSome = true ↔ j < pages oldsz)) →
      ∃ r m', allocuvm I d oldsz newsz m = .ok r m' ∧
        (r = newsz ∧ Grown m m' d (pages oldsz) (pages newsz) ∨ r = 0 ∧ RolledBack m m' d) ∧
        OthersKept D x m m') ∧
    ∀ oldsz newsz, newsz < oldsz → oldsz ≤ kernBase →
      ∃ m', deallocuvm I d oldsz newsz m = .ok newsz m' ∧
        Shrunk m m' d (pages newsz) (pages oldsz) ∧ OthersKept D x m m' := by
  have hs : A x = some (m.space d) := by rw [h.spaces, hd, Option.map_some]
  constructor
  · intro oldsz newsz hle hnew hexact
    have hnone : ∀ j, pages oldsz ≤ j → j < userPages → m.pte d j = none := by
      intro j hj hju
      cases hpte : m.pte d j with
      | none => rfl
      | some e =>
        have hlt := (hexact j hju).1 (by rw [hpte]; rfl)
        omega
    exact (allocuvm_exact (E := fun _ _ => False) h hd hs hle hnew hnone).total fun _ _ he => he
  · intro oldsz newsz hlt hold
    obtain ⟨r, m', hrun, rfl, hshrunk⟩ :=
      (deallocuvm_exact (E := fun _ _ => False) h hd hs hlt hold).total fun _ _ he => he
    exact ⟨m', hrun, hshrunk⟩

theorem grow_and_shrink_one : ∃ (m : Frames) (d : Nat), m.pte d 0 ≠ none ∧
    (∃ r m', allocuvm .small d 4096 8192 m = .ok r m' ∧
      (r = 8192 ∧ Grown m m' d 1 2 ∨ r = 0 ∧ RolledBack m m' d)) ∧
    ∃ m', deallocuvm .small d 4096 0 m = .ok 0 m' ∧ Shrunk m m' d 0 1 := by
  obtain ⟨D, A, m, d, e, s, hrep, hd, hs, hpte, habove, _⟩ := exists_onePage .small 0
  obtain ⟨hgrow, hshrink⟩ := grow_and_shrink_exact hrep hd
  have hspace := hrep.space_eq hd hs
  subst hspace
  change m.pte d 0 = some e at hpte
  change ∀ j, 1 ≤ j → j < userPages → m.pte d j = none at habove
  have hexact : ∀ j, j < userPages → ((m.pte d j).isSome = true ↔ j < pages 4096) := by
    intro j hj
    show _ ↔ j < 1
    by_cases hj0 : j = 0
    · rw [hj0, hpte]
      exact ⟨fun _ => Nat.zero_lt_one, fun _ => rfl⟩
    · rw [habove j (Nat.one_le_iff_ne_zero.2 hj0) hj]
      exact ⟨(fun hf => by cases hf), fun hlt => (hj0 (Nat.lt_one_iff.1 hlt)).elim⟩
  obtain ⟨r, m₁, hrun, hgrown, _⟩ := hgrow 4096 8192 (by decide) (by decide) hexact
  obtain ⟨m₂, hrun', hshrunk, _⟩ := hshrink 4096 0 (by decide) (by decide)
  refine ⟨m, d, ?_, ⟨r, m₁, hrun, hgrown⟩, m₂, hrun', hshrunk⟩
  rw [hpte]
  exact Option.some_ne_none e

end Xv6Signals.Vm
