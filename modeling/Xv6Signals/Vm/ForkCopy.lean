import Xv6Signals.Vm.GrowExact

namespace Xv6Signals.Vm
open Lib Function

variable {H : Type} {I : Image} {D : Dirs H} {K : Wholes H} {T : Set Nat} {A : Spaces H}
  {x y : H} {s c : Space} {m m' : Frames} {f d d' j v e sz : Nat} {E : Fault → Frames → Prop}

def Frames.store (m : Frames) (d j : Nat) (b : Bytes) : Frames :=
  if j < userPages then (m.pte d j).elim m fun e => m.setPage (frameOf e) b else m

theorem Rep.store [DecidableEq H] (h : Rep I D K T A m) (hd : D x = some d) (j : Nat) (b : Bytes) :
    ∃ A', Rep I D K T A' (m.store d j b) ∧ OthersKept D x m (m.store d j b) := by
  have hs : A x = some (m.space d) := by rw [h.spaces, hd, Option.map_some]
  have hsame : ∃ A', Rep I D K T A' m ∧ OthersKept D x m m := ⟨A, h, fun _ _ _ _ => rfl⟩
  unfold Frames.store
  split
  · rename_i hj
    cases hpte : m.pte d j with
    | none => exact hsame
    | some e =>
      have hwrite := h.write_user hd hs hpte hj b
      exact ⟨_, hwrite, h.othersKept hwrite⟩
  · exact hsame

/-- The stores of the parent (behind `d`) and of the child (behind `d'`), in any order. -/
def Frames.stores (d d' : Nat) (m : Frames) (ws : List (Bool × Nat × Bytes)) : Frames :=
  ws.foldl (fun m w => m.store (if w.1 then d' else d) w.2.1 w.2.2) m

theorem Rep.stores [DecidableEq H] (h : Rep I D K T A m) (hd : D x = some d) (hd' : D y = some d')
    (ws : List (Bool × Nat × Bytes)) : ∃ A', Rep I D K T A' (m.stores d d' ws) := by
  induction ws generalizing A m with
  | nil => exact ⟨A, h⟩
  | cons w ws ih =>
    obtain ⟨child, j, b⟩ := w
    cases child with
    | true =>
      obtain ⟨A', h', _⟩ := h.store hd' j b
      exact ih h'
    | false =>
      obtain ⟨A', h', _⟩ := h.store hd j b
      exact ih h'

theorem Rep.space_pinned {D' : Dirs (Option Nat)} {T' : Set Nat} {A' : Spaces (Option Nat)}
    (h' : Rep I D' (pins m D K T y) T' A' m') (hd : D x = some d) (hxy : x ≠ y) :
    m'.space d = m.space d := by
  have hne : ∀ {z : Place H}, z.owner = some x → z.owner ≠ some y := fun hz hy =>
    hxy (Option.some.inj (hz.symm.trans hy))
  refine (Frames.same_of_page ?_ ?_ ?_).space
  · exact (h'.held_kept ⟨.dir x, hd, (fun he => by cases he), (fun he => by cases he), hne rfl⟩).1
  · intro i t ht
    exact (h'.held_kept ⟨.table x i, ⟨d, hd, ht⟩, (fun he => by cases he), (fun he => by cases he),
      hne rfl⟩).1
  · intro k e hk he
    exact (h'.held_kept ⟨.user x k, ⟨hk, d, e, hd, he, rfl⟩, (fun he => by cases he),
      (fun he => by cases he), hne rfl⟩).1

theorem copyuvm_returns [DecidableEq H] (h : Rep I D K ∅ A m) (hd : D x = some d) (hy : D y = none)
    (hsz : sz ≤ kernBase) (hmapped : ∀ j, j < pages sz → m.pte d j ≠ none) :
    Wp (copyuvm I d sz) m (fun r m' => r = none → ∀ f, f ∈ m'.free ↔ f ∈ m.free) E := by
  have hxy : x ≠ y := by
    rintro rfl
    rw [hd] at hy
    cases hy
  have hno : ∀ z, only (D y) z = none := by
    intro z
    cases z with
    | none => exact hy
    | some g => rfl
  have hfrom : Wp (copyuvm I d sz) m _ E := copyuvm_from (y := none) (h.isolate y)
    (fun d' c m' h' => h'.space_pinned hd hxy) hy hsz fun j hj hnone => (hmapped j hj hnone).elim
  apply hfrom.post
  rintro r m' (⟨_, hrep⟩ | ⟨d', c, rfl, _⟩) hr f
  · exact h.mem_free_iff hy hno hrep
  · cases hr

/-- The child's address space behind `d'`: the parent's pages with their contents and permission
bits in frames of their own, and the kernel's part. -/
structure Forked (I : Image) (D : Dirs H) (K : Wholes H) (y : H) (m m' : Frames) (d d' sz : Nat) :
    Prop where
  page : ∀ j, j < pages sz → ∃ e v, m.pte d j = some e ∧ m'.pte d' j = some v ∧
    pteFlags v = pteFlags e ∧ m'.page (frameOf v) = m.page (frameOf e) ∧
    ∀ z, At m' D K ∅ z (frameOf v) → z = .user y j
  rest : ∀ j, pages sz ≤ j → m'.pte d' j = (kernelSpace I).pte j
  apart : ∀ ws j b,
    ((m'.stores d d' ws).store d' j b).space d = (m'.stores d d' ws).space d ∧
      ((m'.stores d d' ws).store d j b).space d' = (m'.stores d d' ws).space d'

theorem pteFlags_copy (he : present e = true) :
    pteFlags (f * 4096 ||| pteFlags e ||| pteP) = pteFlags e := by
  have hodd : e % 2 = 1 := beq_iff_eq.1 he
  have hlt : pteFlags e < 4096 := Nat.mod_lt _ (by decide)
  have hdiv : (pteFlags e ||| 1) / 2 = pteFlags e / 2 := by
    rw [Nat.or_div_two]
    exact Nat.or_zero _
  have hmod : (pteFlags e ||| 1) % 2 = 1 := Nat.or_mod_two_eq_one.2 (.inr rfl)
  have hflags : pteFlags e % 2 = 1 := by
    unfold pteFlags
    omega
  rw [pteFlags_or hlt, Nat.mul_mod_left, Nat.zero_or]
  show pteFlags e ||| 1 = pteFlags e
  omega

theorem Rep.forked [DecidableEq H] (hd : D x = some d) (hxy : x ≠ y) (hsz : sz ≤ kernBase)
    (hfill : (kernelSpace I).Filled (CopyOf (m.space d)) c 0 (pages sz))
    (h' : Rep I (update D y (some d')) K ∅ (update A y (some c)) m') :
    Forked I (update D y (some d')) K y m m' d d' sz := by
  have hd₁ : update D y (some d') x = some d := (update_of_ne hxy ..).trans hd
  have hd₂ : update D y (some d') y = some d' := update_self ..
  have hspace := h'.space_eq hd₂ (update_self ..)
  subst hspace
  refine ⟨fun j hj => ?_, fun j hj => ?_, fun ws j b => ⟨?_, ?_⟩⟩
  · have hju : j < userPages := Nat.lt_of_lt_of_le hj (pages_le_userPages hsz)
    obtain ⟨v, hv, e, f, he, rfl, hmem⟩ := hfill.new j (Nat.zero_le j) hj
    change m.pte d j = some e at he
    change m'.mem d' j = m.mem d j at hmem
    rw [Frames.mem_of_pte hju hv, Frames.mem_of_pte hju he] at hmem
    exact ⟨e, _, he, hv, pteFlags_copy (Frames.pte_spec he).1, hmem, fun z hz =>
      h'.user_one hd₂ hju hv hz⟩
  · exact (hfill.old j fun hin => Nat.not_lt.2 hj hin.2).1
  · obtain ⟨A', hrun⟩ := h'.stores hd₁ hd₂ ws
    obtain ⟨_, _, hkept⟩ := hrun.store hd₂ j b
    exact hkept x d hxy hd₁
  · obtain ⟨A', hrun⟩ := h'.stores hd₁ hd₂ ws
    obtain ⟨_, _, hkept⟩ := hrun.store hd₁ j b
    exact hkept y d' (Ne.symm hxy) hd₂

/-- `copyuvm` of an address space that has all pages below `sz`: a copy that shares no frame with
the parent, whose own address space stays as it is, or no change of the free frames. -/
theorem copyuvm_isolates [DecidableEq H] (h : Rep I D K ∅ A m) (hd : D x = some d)
    (hy : D y = none) (hsz : sz ≤ kernBase) (hmapped : ∀ j, j < pages sz → m.pte d j ≠ none) :
    ∃ r m', copyuvm I d sz m = .ok r m' ∧
      (∀ d', r = some d' → Forked I (update D y (some d')) K y m m' d d' sz) ∧
      (∀ z d₀, D z = some d₀ → m'.space d₀ = m.space d₀) ∧
      (r = none → ∀ f, f ∈ m'.free ↔ f ∈ m.free) := by
  have hs : A x = some (m.space d) := by rw [h.spaces, hd, Option.map_some]
  have hxy : x ≠ y := by
    rintro rfl
    rw [hd] at hy
    cases hy
  have hspec : Wp (copyuvm I d sz) m _ fun _ _ => False := copyuvm_spec h hd hs hy hsz
    fun j hj hnone => (hmapped j hj hnone).elim
  obtain ⟨r, m', hrun, hr, hreturned⟩ :=
    (hspec.and (copyuvm_returns (E := fun _ _ => False) h hd hy hsz hmapped)).total
      fun _ _ he => he.1
  refine ⟨r, m', hrun, ?_, ?_, hreturned⟩
  · rintro d' rfl
    rcases hr with ⟨hnone, _⟩ | ⟨_, c, he, hfill, hrep⟩
    · cases hnone
    · cases he
      exact Rep.forked hd hxy hsz hfill hrep
  intro z d₀ hz
  have hzy : z ≠ y := by
    rintro rfl
    rw [hy] at hz
    cases hz
  have hspace := h.spaces z
  rcases hr with ⟨_, hrep⟩ | ⟨d', c, _, _, hrep⟩
  · have hspace' := hrep.spaces z
    rw [hspace, hz] at hspace'
    exact (Option.some.inj hspace').symm
  · have hspace' := hrep.spaces z
    rw [update_of_ne hzy, update_of_ne hzy, hspace, hz] at hspace'
    exact (Option.some.inj hspace').symm

theorem copyuvm_isolates_one : ∃ (D : Dirs Holder) (m : Frames) (d : Nat) (r : Option Nat)
    (m' : Frames), m.pte d 0 ≠ none ∧ copyuvm .small d 4096 m = .ok r m' ∧
      (∀ d', r = some d' →
        Forked .small (update D .fresh (some d')) (fun _ => none) .fresh m m' d d' 4096) ∧
      (r = none → ∀ f, f ∈ m'.free ↔ f ∈ m.free) := by
  obtain ⟨D, A, m, d, e, s, hrep, hd, hs, hpte, _, hfresh⟩ := exists_onePage .small 0
  rw [hrep.space_eq hd hs] at hpte
  have hmapped : ∀ j, j < pages 4096 → m.pte d j ≠ none := by
    intro j hj hnone
    rw [Nat.lt_one_iff.1 (show j < 1 from hj)] at hnone
    exact Option.some_ne_none e (Eq.trans (Eq.symm hpte) hnone)
  obtain ⟨r, m', hrun, hforked, _, hreturned⟩ :=
    copyuvm_isolates hrep hd hfresh (by decide) hmapped
  exact ⟨D, m, d, r, m', hmapped 0 (by decide), hrun, hforked, hreturned⟩

end Xv6Signals.Vm
