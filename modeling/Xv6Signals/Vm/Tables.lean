import Mathlib.Data.Finset.Card
import Xv6Signals.Vm.Mappings

namespace Xv6Signals.Vm
open Lib Function Frames Nat Space List

variable {H : Type} {I : Image} {D : Dirs H} {K : Wholes H} {T : Set Nat} {A : Spaces H} {x y : H}
  {s s' : Space} {m m' : Frames} {f g d t i j k n v e : Nat} {E : Fault → Frames → Prop}
  {S : Finset Nat}

def Space.missing (s : Space) (S : Finset Nat) : Nat := (S.filter fun i => s.table i = false).card

/-- No call of `kalloc` is refused, and there are free frames for the tables among `S` that an
address space does not have and for `n` more pages. -/
structure Plenty (S : Finset Nat) (s : Space) (n : Nat) (m : Frames) : Prop where
  deny : m.deny = []
  free : n + s.missing S ≤ m.free.length

inductive Kalloced (m : Frames) : Option Nat → Frames → Prop
  | refused (h : m.deny ≠ [] ∨ m.free = []) : Kalloced m none { m with deny := m.deny.tail }
  | given {f : Nat} {free : List Nat} (h : m.free = f :: free) :
      Kalloced m (some f) { m with free := free, deny := m.deny.tail }

theorem kalloc_spec (m : Frames) : Wp kalloc m (Kalloced m) E := by
  unfold Wp kalloc
  split
  · rename_i a t hm
    split at hm
    · cases hm
      exact .given ‹_›
    rename_i hno
    cases hm
    refine .refused ?_
    by_cases hfree : m.free = []
    · exact .inr hfree
    · left
      rintro hdeny
      obtain ⟨f, l, hl⟩ := exists_cons_of_ne_nil hfree
      exact hno f l hl (by rw [hdeny]; rfl)
  · rename_i e t hm
    split at hm <;> cases hm

theorem Kalloced.not_plenty (h : Kalloced m none m') (hm : 0 < n + s.missing S) :
    ¬ Plenty S s n m := by
  rintro ⟨hdeny, hfree⟩
  cases h with
  | refused h =>
    rcases h with h | h
    · exact h hdeny
    · rw [h, length_nil] at hfree
      omega

theorem Kalloced.plenty (h : Kalloced m (some f) m') (hm : Plenty S s (n + 1) m) :
    Plenty S s n m' := by
  cases h with
  | given h =>
    obtain ⟨hdeny, hfree⟩ := hm
    rw [h, length_cons] at hfree
    refine ⟨?_, le_of_succ_le_succ (Nat.le_trans (Nat.le_of_eq ?_) hfree)⟩
    · show m.deny.tail = []
      rw [hdeny]
      rfl
    · omega

theorem Kalloced.suffix {r : Option Nat} (h : Kalloced m r m') : m'.free <:+ m.free := by
  cases h with
  | refused _ => exact suffix_refl _
  | given h =>
    rw [h]
    exact suffix_cons ..

theorem Kalloced.mem (h : Kalloced m (some f) m') : f ∈ m.free := by
  cases h with
  | given h => exact h ▸ mem_cons_self

theorem Rep.refused (h : Rep I D K T A m) (hk : Kalloced m none m') : Rep I D K T A m' := by
  cases hk with
  | refused _ => exact ⟨h.nodup, h.placed, h.spaces, h.whole⟩

theorem Rep.given (h : Rep I D K T A m) (hk : Kalloced m (some f) m') :
    f ∉ T ∧ Rep I D K (insert f T) A m' ∧ m'.page = m.page := by
  cases hk with
  | given hfree =>
    obtain ⟨hf, h'⟩ := h.take m.deny.tail hfree
    exact ⟨hf, h', rfl⟩

theorem Image.owns_pos (h : I.owns f) : f ≠ 0 := by
  rintro rfl
  have h1 := I.data_lo
  have h2 := I.data_le
  have h3 : I.endAddr ≤ 0 * 4096 := h.1
  omega

theorem Image.owns_lt (h : I.owns f) : f * 4096 < 2 ^ 32 := by
  have h1 : f * 4096 < 0xE000000 := h.2
  omega

theorem kfree_spec (h : Rep I D K (insert f T) A m) (hf : f ∉ T) :
    Wp (kfree I f) m (fun _ m' => m' = m.release f ∧ Rep I D K T A m') E := by
  unfold kfree
  rw [if_pos (h.placed.mem (At.hand (Set.mem_insert f T)))]
  exact wp_modify ⟨rfl, h.release hf⟩

theorem pdx_lt {va : Nat} (h : va < 2 ^ 32) : pdx va < 1024 := by
  unfold pdx
  omega

@[simp] theorem pdx_page (k : Nat) : pdx (k * 4096) = k / 1024 :=
  congrArg (· / 1024) (Nat.mul_div_cancel k (by decide))

@[simp] theorem ptx_page (k : Nat) : ptx (k * 4096) = k % 1024 :=
  congrArg (· % 1024) (Nat.mul_div_cancel k (by decide))

theorem wp_walkpgdir {α : Type} {va : Nat} {c : Option Nat → VmM α} {Q : α → Frames → Prop}
    (hva : va < 2 ^ 32) (h : Wp (c (m.tab d (pdx va))) m Q E) :
    Wp (walkpgdir d va false >>= c) m Q E := by
  have hwp : Wp (walkpgdir d va false) m (fun r m' => r = m.tab d (pdx va) ∧ m' = m) E := by
    apply wp_get_bind
    refine wp_ite (fun hp => wp_pure ⟨?_, rfl⟩) fun hp => wp_pure ⟨?_, rfl⟩
    · exact (if_pos ⟨pdx_lt hva, hp⟩).symm
    · exact (if_neg fun hc => hp hc.2).symm
  apply wp_seq hwp
  rintro _ _ ⟨rfl, rfl⟩
  exact h

theorem Space.addTable_of_table (h : s.table i = true) : s.addTable i = s := by
  unfold Space.addTable
  rw [← h, update_eq_self]

theorem Space.missing_addTable (hi : i ∈ S) (h : s.table i = false) :
    s.missing S = (s.addTable i).missing S + 1 := by
  have he : (S.filter fun j => (s.addTable i).table j = false) =
      (S.filter fun j => s.table j = false).erase i := by
    ext j
    show _ ∈ S.filter (fun j => update s.table i true j = false) ↔ _
    rw [Finset.mem_erase, Finset.mem_filter, Finset.mem_filter]
    by_cases hj : j = i
    · subst hj
      rw [update_self]
      exact ⟨fun hc => Bool.noConfusion hc.2, fun hc => (hc.1 rfl).elim⟩
    · rw [update_of_ne hj]
      exact ⟨fun hc => ⟨hj, hc⟩, fun hc => hc.2⟩
  unfold Space.missing
  rw [he, Finset.card_erase_add_one (Finset.mem_filter.2 ⟨hi, h⟩)]

theorem tableEntry (ht : t * 4096 < 2 ^ 32) : let v := t * 4096 ||| pteP ||| pteW ||| pteU
    v < 2 ^ 32 ∧ present v = true ∧ frameOf v = t := by
  refine ⟨?_, ?_, ?_⟩
  · exact or_lt_two_pow (or_lt_two_pow (or_lt_two_pow ht (by decide)) (by decide)) (by decide)
  · simp only [present, pteP, pteW, pteU, or_mod_two_eq_one, or_true, true_or, beq_iff_eq]
  · show (t * 4096 ||| 1 ||| 2 ||| 4) / 2 ^ 12 = t
    rw [or_div_two_pow, or_div_two_pow, or_div_two_pow]
    show t * 4096 / 4096 ||| 0 ||| 0 ||| 0 = t
    rw [or_zero, or_zero, or_zero, Nat.mul_div_cancel t (by decide)]

inductive Walked [DecidableEq H] (I : Image) (D : Dirs H) (K : Wholes H) (T : Set Nat)
    (A : Spaces H) (x : H) (s : Space) (d i : Nat) (m : Frames) :
    Option Nat → Frames → Prop
  | failed {m' : Frames} (rep : Rep I D K T A m') (kept : ∀ g ∈ T, m'.page g = m.page g)
      (scarce : ∀ {S n}, i ∈ S → ¬ Plenty S s n m) : Walked I D K T A x s d i m none m'
  | found {m' : Frames} {t : Nat} (tab : m'.tab d i = some t)
      (rep : Rep I D K T (update A x (some (s.addTable i))) m')
      (kept : ∀ g ∈ T, m'.page g = m.page g)
      (plenty : ∀ {S n}, i ∈ S → Plenty S s n m → Plenty S (s.addTable i) n m') :
      Walked I D K T A x s d i m (some t) m'

theorem walkpgdir_cases {Q : Option Nat → Frames → Prop} (hk : k < 2 ^ 20)
    (hold : ∀ t, m.tab d (k / 1024) = some t → Q (some t) m)
    (hnone : m.tab d (k / 1024) = none → ∀ m', Kalloced m none m' → Q none m')
    (hnew : m.tab d (k / 1024) = none → ∀ t m₁, Kalloced m (some t) m₁ →
      Q (some t) ((m₁.setPage t fun _ => 0).setWord d (k / 1024)
        (t * 4096 ||| pteP ||| pteW ||| pteU))) :
    Wp (walkpgdir d (k * 4096) true) m Q E := by
  unfold walkpgdir
  rw [pdx_page]
  apply wp_get_bind
  apply wp_ite
  · exact fun hp => wp_pure (hold _ (if_pos ⟨by omega, hp⟩))
  intro hp
  have htab : m.tab d (k / 1024) = none := if_neg fun hc => hp hc.2
  rw [if_pos rfl]
  apply wp_seq (kalloc_spec m)
  intro r m₁ hm
  cases r with
  | none => exact wp_pure (hnone htab m₁ hm)
  | some t => exact wp_modify_bind (wp_modify_bind (wp_pure (hnew htab t m₁ hm)))

theorem walkpgdir_spec [DecidableEq H] (h : Rep I D K T A m) (hd : D x = some d)
    (hs : A x = some s) (hk : k < 2 ^ 20) :
    Wp (walkpgdir d (k * 4096) true) m (Walked I D K T A x s d (k / 1024) m) E := by
  have htable := h.table_eq hd hs (i := k / 1024)
  refine walkpgdir_cases hk (fun t htab => ?_) (fun htab m₁ hm => ?_) fun htab t m₁ hm => ?_
  · rw [htab] at htable
    refine .found htab ?_ (fun _ _ => rfl) fun _ hm => ?_
    · rw [addTable_of_table htable]
      exact h.same hs
    · rwa [addTable_of_table htable]
  · rw [htab] at htable
    refine .failed (h.refused hm) (fun g _ => ?_) fun hi => hm.not_plenty ?_
    · cases hm
      rfl
    · rw [missing_addTable hi htable]
      omega
  rw [htab] at htable
  obtain ⟨ht, h₁, hpage⟩ := h.given hm
  have hmem : t ∈ insert t T := Set.mem_insert t T
  have h₂ := h₁.write_hand (b := fun _ => 0) hmem
  have hne : d ≠ t := At.ne_dir h₁.placed (At.hand hmem) hd fun he => by cases he
  have htd : (m₁.setPage t fun _ => 0).page d = m.page d := by
    rw [page_setPage_of_ne hne, hpage]
  obtain ⟨hv, hpres, hframe⟩ := tableEntry (Image.owns_lt (h₁.placed.mem (At.hand hmem)))
  have hi : k / 1024 < 1024 := by omega
  refine .found ?_ (h₂.new_table ht hd hs hi ((tab_congr htd _).trans htab)
    (page_setPage ..) hv hpres hframe) ?_ ?_
  · rw [tab_setWord hv hi hpres, update_self, hframe]
  · intro g hg
    have hgt : g ≠ t := fun he => ht (he ▸ hg)
    have hgd : g ≠ d := h.placed.ne (At.hand hg) (At.dir hd) fun he => by cases he
    show ((m₁.setPage t fun _ => 0).setPage d _).page g = _
    rw [page_setPage_of_ne hgd, page_setPage_of_ne hgt, hpage]
  · intro S n hi hplenty
    have hm' : Plenty S (s.addTable (k / 1024)) (n + 1) m := by
      refine ⟨hplenty.deny, Nat.le_trans (Nat.le_of_eq ?_) hplenty.free⟩
      rw [missing_addTable hi htable]
      omega
    exact ⟨(hm.plenty hm').deny, (hm.plenty hm').free⟩

section Mapping

variable [DecidableEq H] {a pa perm last : Nat} {Q : Bool → Frames → Prop}

theorem mapLoop_step {P : Option Nat → Frames → Prop}
    (hwalk : Wp (walkpgdir d (k * 4096) true) m P E) (hfail : ∀ m', P none m' → Q false m')
    (hgo : ∀ t m', P (some t) m' → m'.tab d (k / 1024) = some t ∧ m'.pte d k = none ∧
      Wp (if k * 4096 = last then pure true
        else mapLoop d perm last n ((k * 4096 + 4096) % 2 ^ 32) ((pa + 4096) % 2 ^ 32))
        (m'.setWord t (k % 1024) (pa ||| perm ||| pteP)) Q E) :
    Wp (mapLoop d perm last (n + 1) (k * 4096) pa) m Q E := by
  unfold mapLoop
  rw [ptx_page]
  apply wp_seq hwalk
  intro r m' hw
  cases r with
  | none => exact wp_pure (hfail m' hw)
  | some t =>
    obtain ⟨htab, hnone, hrest⟩ := hgo t m' hw
    rw [pte_of_tab htab] at hnone
    apply wp_get_bind
    apply wp_ite
    · intro hp
      rw [if_pos hp] at hnone
      cases hnone
    · exact fun _ => wp_modify_bind hrest

theorem mapLoop_suffix : Leaves (mapLoop d perm last n a pa) m fun _ m' => m'.free <:+ m.free := by
  induction n generalizing m a pa with
  | zero => exact wp_pure (suffix_refl _)
  | succ n ih =>
    have hwalk : Leaves (walkpgdir d a true) m fun _ m' => m'.free <:+ m.free := by
      apply wp_get_bind
      refine wp_ite (fun _ => wp_pure (suffix_refl _)) fun _ => ?_
      apply wp_seq (kalloc_spec m)
      intro r m' hk
      cases r with
      | none => exact wp_pure hk.suffix
      | some t => exact wp_modify_bind (wp_modify_bind (wp_pure hk.suffix))
    unfold mapLoop
    apply wp_seq hwalk
    intro r m' hm
    cases r with
    | none => exact wp_pure hm
    | some t =>
      apply wp_get_bind
      refine wp_ite (fun _ => wp_throw trivial) fun _ => wp_modify_bind ?_
      refine wp_ite (fun _ => wp_pure hm) fun _ => ?_
      exact ih.post (fun _ _ hm' => hm'.trans hm)

theorem mappages_page (hk : k < 2 ^ 20) :
    mappages d (k * 4096) 4096 pa perm = mapLoop d perm (k * 4096) rounds (k * 4096) pa := by
  have hlast : pgRoundDown ((k * 4096 + 4096 + (2 ^ 32 - 1)) % 2 ^ 32) = k * 4096 := by
    unfold pgRoundDown
    omega
  have hfirst : pgRoundDown (k * 4096) = k * 4096 := by
    unfold pgRoundDown
    omega
  rw [mappages, hlast, hfirst]

inductive PageMapped (I : Image) (D : Dirs H) (K : Wholes H) (T : Set Nat) (A : Spaces H)
    (x : H) (s : Space) (f k perm : Nat) (m : Frames) : Bool → Frames → Prop
  | failed {m' : Frames} (rep : Rep I D K (insert f T) A m')
      (kept : ∀ g ∈ insert f T, m'.page g = m.page g)
      (scarce : ∀ {S n}, k / 1024 ∈ S → ¬ Plenty S s n m) :
      PageMapped I D K T A x s f k perm m false m'
  | mapped {m' : Frames}
      (rep : Rep I D K T (update A x (some ((s.addTable (k / 1024)).enter k
        (some (f * 4096 ||| perm ||| pteP)) (m.page f)))) m')
      (kept : ∀ g ∈ T, m'.page g = m.page g)
      (plenty : ∀ {S n}, k / 1024 ∈ S → Plenty S s n m → Plenty S (s.addTable (k / 1024)) n m') :
      PageMapped I D K T A x s f k perm m true m'

theorem mapPage_spec (h : Rep I D K (insert f T) A m) (hf : f ∉ T) (hd : D x = some d)
    (hs : A x = some s) (hk : k < userPages) (hnone : s.pte k = none) (hperm : perm < 4096) :
    Wp (mappages d (k * 4096) 4096 (f * 4096) perm) m (PageMapped I D K T A x s f k perm m) E := by
  have hk' : k < 2 ^ 20 := Nat.lt_trans hk (by decide)
  rw [mappages_page hk', (rfl : rounds = (2 ^ 20 - 1) + 1)]
  apply mapLoop_step (walkpgdir_spec h hd hs hk')
  · intro m' hw
    cases hw with
    | failed hrep hkept hscarce => exact .failed hrep hkept hscarce
  intro t m' hw
  cases hw with
  | found htab hrep hkept hplenty =>
    refine ⟨htab, (congrFun (hrep.pte_eq hd (update_self ..)) k).symm.trans hnone, ?_⟩
    have howns : I.owns f := hrep.placed.mem (At.hand (Set.mem_insert f T))
    have hframe : frameOf (f * 4096 ||| perm ||| pteP) = f := by
      rw [frameOf_or hperm, Nat.mul_div_cancel f (by decide)]
    have hrep' := hrep.map_user hf hd (update_self ..) htab hnone hk
      (or_lt (Image.owns_lt howns) hperm) (present_or _ _) hframe
    rw [update_idem, hkept f (Set.mem_insert f T)] at hrep'
    rw [if_pos rfl]
    refine wp_pure (.mapped hrep' (fun g hg => ?_) fun hi hm =>
      ⟨(hplenty hi hm).deny, (hplenty hi hm).free⟩)
    have hgt : g ≠ t := hrep.placed.ne (At.hand (Set.mem_insert_of_mem f hg)) (At.table hd htab)
      fun he => by cases he
    exact (page_setPage_of_ne hgt).trans (hkept g (Set.mem_insert_of_mem f hg))

def Space.mapRange (s : Space) (k n pa perm : Nat) : Space :=
  { s with
    table := fun i => s.table i || decide (k / 1024 ≤ i ∧ i ≤ (k + n - 1) / 1024)
    pte := fun j =>
      if k ≤ j ∧ j < k + n then some ((pa + (j - k) * 4096) % 2 ^ 32 ||| perm ||| pteP)
      else s.pte j }

theorem Space.mapRange_one (hpa : pa < 2 ^ 32) :
    s.mapRange k 1 pa perm = { s.addTable (k / 1024) with
      pte := update s.pte k (some (pa ||| perm ||| pteP)) } := by
  ext1
  · refine eq_update_iff.2 ⟨?_, fun i hi => ?_⟩
    · show (s.table _ || decide _) = true
      rw [decide_eq_true ⟨Nat.le_refl _, Nat.le_refl _⟩, Bool.or_true]
    · show (s.table i || decide _) = s.table i
      rw [decide_eq_false (by omega), Bool.or_false]
  · refine eq_update_iff.2 ⟨(if_pos (by omega)).trans ?_, fun j hj => if_neg (by omega)⟩
    rw [Nat.sub_self, Nat.zero_mul, Nat.add_zero, mod_eq_of_lt hpa]
  · rfl

theorem Space.mapRange_succ :
    (s.mapRange k 1 pa perm).mapRange (k + 1) (n + 1) ((pa + 4096) % 2 ^ 32) perm =
      s.mapRange k (n + 2) pa perm := by
  ext1
  · funext i
    show ((s.table i || decide _) || decide _) = (s.table i || decide _)
    rw [Bool.or_assoc, ← Bool.decide_or]
    congr 2
    apply propext
    omega
  · funext j
    have hsum : ((pa + 4096) % 2 ^ 32 + (j - (k + 1)) * 4096) % 2 ^ 32 =
        (pa + (j - k) * 4096) % 2 ^ 32 ∨ j < k + 1 := by omega
    simp only [Space.mapRange]
    grind
  · rfl

inductive RangeMapped (I : Image) (D : Dirs H) (K : Wholes H) (T : Set Nat) (A : Spaces H)
    (x : H) (s : Space) (k n pa perm : Nat) (m : Frames) : Bool → Frames → Prop
  | failed {m' : Frames} {s' : Space} (rep : Rep I D K T (update A x (some s')) m')
      (user : ∀ j, j < userPages → s'.pte j = s.pte j)
      (scarce : ∀ {S r}, (∀ i, k / 1024 ≤ i → i ≤ (k + n - 1) / 1024 → i ∈ S) → ¬ Plenty S s r m) :
      RangeMapped I D K T A x s k n pa perm m false m'
  | mapped {m' : Frames} (rep : Rep I D K T (update A x (some (s.mapRange k n pa perm))) m')
      (plenty : ∀ {S r}, (∀ i, k / 1024 ≤ i → i ≤ (k + n - 1) / 1024 → i ∈ S) → Plenty S s r m →
        Plenty S (s.mapRange k n pa perm) r m') :
      RangeMapped I D K T A x s k n pa perm m true m'

theorem mapKernel_step (h : Rep I D K T A m) (hd : D x = some d)
    (hs : A x = some s) (hperm : perm < 4096) (hpa : pa < 2 ^ 32) (hk : userPages ≤ k)
    (hk' : k < 2 ^ 20) (hnone : s.pte k = none)
    (hfail : ∀ m', Rep I D K T A m' → (∀ {S r}, k / 1024 ∈ S → ¬ Plenty S s r m) → Q false m')
    (hgo : ∀ m', Rep I D K T (update A x (some (s.mapRange k 1 pa perm))) m' →
      (∀ {S r}, k / 1024 ∈ S → Plenty S s r m → Plenty S (s.mapRange k 1 pa perm) r m') →
      Wp (if k * 4096 = last then pure true
        else mapLoop d perm last n ((k * 4096 + 4096) % 2 ^ 32) ((pa + 4096) % 2 ^ 32)) m' Q E) :
    Wp (mapLoop d perm last (n + 1) (k * 4096) pa) m Q E := by
  rw [mapRange_one hpa] at hgo
  apply mapLoop_step (walkpgdir_spec h hd hs hk')
  · intro m' hw
    cases hw with
    | failed hrep _ hscarce => exact hfail m' hrep hscarce
  intro t m' hw
  cases hw with
  | found htab hrep _ hplenty =>
    refine ⟨htab, (congrFun (hrep.pte_eq hd (update_self ..)) k).symm.trans hnone, ?_⟩
    have hrep' := hrep.map_kernel hd (update_self ..) htab hk (or_lt hpa hperm) (present_or _ _)
    rw [update_idem] at hrep'
    exact hgo _ hrep' fun hS hm => ⟨(hplenty hS hm).deny, (hplenty hS hm).free⟩

theorem mapRange_spec {rounds : Nat} (h : Rep I D K T A m) (hd : D x = some d)
    (hs : A x = some s) (hperm : perm < 4096) (hpa : pa < 2 ^ 32) (hk : userPages ≤ k)
    (hn : k + n < 2 ^ 20) (hr : n < rounds)
    (hnone : ∀ j, k ≤ j → j ≤ k + n → s.pte j = none) :
    Wp (mapLoop d perm ((k + n) * 4096) rounds (k * 4096) pa) m
      (RangeMapped I D K T A x s k (n + 1) pa perm m) E := by
  -- `s` is the space as it is before the round; the pages mapped so far are in it
  induction n generalizing A s m k pa rounds with
  | zero =>
    obtain ⟨r, rfl⟩ : ∃ r, rounds = r + 1 := ⟨rounds - 1, by omega⟩
    apply mapKernel_step h hd hs hperm hpa hk hn (hnone k (Nat.le_refl k) (Nat.le_refl k))
    · intro m' hrep hscarce
      exact .failed (hrep.same hs) (fun _ _ => rfl) fun hS =>
        hscarce (hS _ (Nat.le_refl _) (Nat.le_refl _))
    · intro m' hrep hplenty
      rw [Nat.add_zero, if_pos rfl]
      exact wp_pure (.mapped hrep fun hS => hplenty (hS _ (Nat.le_refl _) (Nat.le_refl _)))
  | succ n ih =>
    obtain ⟨r, rfl⟩ : ∃ r, rounds = r + 1 := ⟨rounds - 1, by omega⟩
    have hfirst : ∀ {S : Finset Nat}, (∀ i, k / 1024 ≤ i → i ≤ (k + (n + 2) - 1) / 1024 → i ∈ S) →
        k / 1024 ∈ S := fun hS => hS _ (Nat.le_refl _) (Nat.div_le_div_right (by omega))
    have hrest : ∀ {S : Finset Nat}, (∀ i, k / 1024 ≤ i → i ≤ (k + (n + 2) - 1) / 1024 → i ∈ S) →
        ∀ i, (k + 1) / 1024 ≤ i → i ≤ (k + 1 + (n + 1) - 1) / 1024 → i ∈ S := fun hS i hi hi' =>
      hS i (by omega) (by omega)
    apply mapKernel_step h hd hs hperm hpa hk (by omega) (hnone k (Nat.le_refl k) (by omega))
    · intro m' hrep hscarce
      exact .failed (hrep.same hs) (fun _ _ => rfl) fun hS => hscarce (hfirst hS)
    intro m' hrep hplenty
    have ha : (k * 4096 + 4096) % 2 ^ 32 = (k + 1) * 4096 := by omega
    have hlast : k + (n + 1) = k + 1 + n := by omega
    rw [if_neg (by omega), ha, hlast]
    have hnone' : ∀ j, k + 1 ≤ j → j ≤ k + 1 + n → (s.mapRange k 1 pa perm).pte j = none := by
      intro j hj hj'
      show (if k ≤ j ∧ j < k + 1 then _ else s.pte j) = none
      rw [if_neg (by omega), hnone j (by omega) (by omega)]
    apply (ih hrep (update_self ..)
      (mod_lt (pa + 4096) (by decide)) (by omega) (by omega) (by omega) hnone').post
    intro b m'' hm
    cases hm with
    | @failed _ s' hrep' huser hscarce =>
      rw [update_idem] at hrep'
      refine .failed hrep' ?_ fun hS hm => hscarce (hrest hS) (hplenty (hfirst hS) hm)
      intro j hj
      rw [huser j hj]
      show (if k ≤ j ∧ j < k + 1 then _ else s.pte j) = s.pte j
      rw [if_neg (by omega)]
    | mapped hrep' hplenty' =>
      rw [update_idem, mapRange_succ] at hrep'
      refine .mapped hrep' fun hS hm => ?_
      have hm' := hplenty' (hrest hS) (hplenty (hfirst hS) hm)
      rw [mapRange_succ] at hm'
      exact hm'

end Mapping

end Xv6Signals.Vm
