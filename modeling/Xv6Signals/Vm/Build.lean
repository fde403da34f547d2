import Mathlib.Order.Interval.Finset.Nat
import Xv6Signals.Vm.Release

namespace Xv6Signals.Vm
open Lib Function List

variable {H : Type} [DecidableEq H] {I : Image} {D : Dirs H} {K : Wholes H} {T : Set Nat}
  {A : Spaces H} {x y : H} {s s' : Space} {m m' m'' : Frames} {f g d t i j k n v e : Nat}
  {E : Fault → Frames → Prop} {rs : List Region} {q : Nat}

def Region.size (r : Region) : Nat := (r.physEnd + (2 ^ 32 - r.physStart)) % 2 ^ 32

def Region.first (r : Region) : Nat := r.virt / 4096

def Region.count (r : Region) : Nat := r.size / 4096

structure Region.Proper (r : Region) : Prop where
  virt : r.virt % 4096 = 0
  size : r.size % 4096 = 0
  pos : 0 < r.size
  kernel : kernBase ≤ r.virt
  fits : r.virt + r.size ≤ 2 ^ 32
  phys : r.physStart < 2 ^ 32
  perm : r.perm < 4096

def Ordered : Nat → List Region → Prop
  | _, [] => True
  | lo, r :: rs => lo ≤ r.first ∧ r.Proper ∧ Ordered (r.first + r.count) rs

def Space.addRegion (s : Space) (r : Region) : Space :=
  s.mapRange r.first r.count r.physStart r.perm

def kernelSpace (I : Image) : Space := (kmap I).foldl Space.addRegion Space.empty

def Region.Within (r : Region) (S : Finset Nat) : Prop :=
  ∀ i, r.first / 1024 ≤ i → i ≤ (r.first + r.count - 1) / 1024 → i ∈ S

theorem mappages_region {r : Region} (h : r.Proper) : mappages d r.virt r.size r.physStart r.perm =
      mapLoop d r.perm ((r.first + (r.count - 1)) * 4096) rounds (r.first * 4096) r.physStart := by
  obtain ⟨h₁, h₂, h₃, _, h₅, _, _⟩ := h
  have hlast : pgRoundDown ((r.virt + r.size + (2 ^ 32 - 1)) % 2 ^ 32) =
      (r.first + (r.count - 1)) * 4096 := by
    unfold pgRoundDown Region.first Region.count
    omega
  have hfirst : pgRoundDown r.virt = r.first * 4096 := rfl
  rw [mappages, hlast, hfirst]

inductive RegionsMapped (I : Image) (D : Dirs H) (K : Wholes H) (T : Set Nat) (A : Spaces H)
    (x : H) (s : Space) (rs : List Region) (m : Frames) : Bool → Frames → Prop
  | failed {m' : Frames} {s' : Space} (rep : Rep I D K T (update A x (some s')) m')
      (scarce : ∀ {S n}, (∀ r ∈ rs, r.Within S) → ¬ Plenty S s n m) :
      RegionsMapped I D K T A x s rs m false m'
  | mapped {m' : Frames} (rep : Rep I D K T (update A x (some (rs.foldl Space.addRegion s))) m')
      (plenty : ∀ {S n}, (∀ r ∈ rs, r.Within S) → Plenty S s n m →
        Plenty S (rs.foldl Space.addRegion s) n m') :
      RegionsMapped I D K T A x s rs m true m'

theorem mapRegions_spec {lo : Nat} (h : Rep I D K T A m) (hd : D x = some d)
    (hs : A x = some s) (hrs : Ordered lo rs) (hnone : ∀ j, lo ≤ j → s.pte j = none) :
    Wp (mapRegions d rs) m (RegionsMapped I D K T A x s rs m) E := by
  induction rs generalizing A s m lo with
  | nil =>
    refine wp_pure (.mapped ?_ fun _ hm => hm)
    show Rep I D K T (update A x (some s)) m
    rw [← hs, update_eq_self]
    exact h
  | cons r rs ih =>
    obtain ⟨hlo, hr, hrs⟩ := hrs
    obtain ⟨h₁, h₂, h₃, h₄, h₅, h₆, h₇⟩ := id hr
    have h₄' : 0x80000000 ≤ r.virt := h₄
    have hcount : r.count - 1 + 1 = r.count := by
      unfold Region.count
      omega
    have hmap : Wp (mappages d r.virt r.size r.physStart r.perm) m
        (RangeMapped I D K T A x s r.first (r.count - 1 + 1) r.physStart r.perm m) E := by
      rw [mappages_region hr]
      refine mapRange_spec h hd hs h₇ h₆ ?_ ?_ ?_ fun j hj _ => hnone j (by omega)
      · show 524288 ≤ r.virt / 4096
        omega
      · show r.virt / 4096 + (r.size / 4096 - 1) < 2 ^ 20
        omega
      · show r.size / 4096 - 1 < 1048576
        omega
    rw [hcount] at hmap
    apply wp_seq hmap
    intro b m₁ hb
    cases hb with
    | failed hrep _ hscarce =>
      exact wp_pure (.failed hrep fun hS => hscarce (hS r mem_cons_self))
    | mapped hrep hplenty =>
      have hnone' : ∀ j, r.first + r.count ≤ j → (s.addRegion r).pte j = none := by
        intro j hj
        show (if r.first ≤ j ∧ j < r.first + r.count then _ else s.pte j) = none
        rw [if_neg (by omega), hnone j (by omega)]
      apply (ih hrep (update_self ..) hrs hnone').post
      intro b m₂ hb
      have hfirst : ∀ {S : Finset Nat}, (∀ q ∈ r :: rs, q.Within S) → r.Within S :=
        fun hS => hS r mem_cons_self
      have hrest : ∀ {S : Finset Nat}, (∀ q ∈ r :: rs, q.Within S) → ∀ q ∈ rs, q.Within S :=
        fun hS q hq => hS q (mem_cons_of_mem r hq)
      cases hb with
      | failed hrep' hscarce =>
        rw [update_idem] at hrep'
        exact .failed hrep' fun hS hm => hscarce (hrest hS) (hplenty (hfirst hS) hm)
      | mapped hrep' hplenty' =>
        rw [update_idem] at hrep'
        exact .mapped hrep' fun hS hm => hplenty' (hrest hS) (hplenty (hfirst hS) hm)

def kernelTables : Finset Nat := Finset.Ico 512 568 ∪ Finset.Ico 1016 1024

theorem kmap_pages (I : Image) : ∃ q, I.dataAddr = q * 4096 ∧ 256 < q ∧ q ≤ 1024 := by
  have h₁ := I.aligned
  have h₂ : 0x100000 < I.dataAddr := I.data_lo
  have h₃ : I.dataAddr ≤ 0x400000 := Nat.le_trans I.data_le I.end_le
  exact ⟨I.dataAddr / 4096, by omega, by omega, by omega⟩

theorem text_size (h : 256 < q) (h' : q < 57344) :
    Region.size ⟨kernBase + extMem, extMem, q * 4096, 0⟩ = (q - 256) * 4096 := by
  show (q * 4096 + (2 ^ 32 - 0x100000)) % 2 ^ 32 = _
  omega

theorem data_size (h : 256 < q) (h' : q < 57344) :
    Region.size ⟨kernBase + q * 4096, q * 4096, physTop, pteW⟩ = (57344 - q) * 4096 := by
  show (0xE000000 + (2 ^ 32 - q * 4096)) % 2 ^ 32 = _
  omega

theorem text_proper (h : 256 < q) (h' : q < 57344) :
    Region.Proper ⟨kernBase + extMem, extMem, q * 4096, 0⟩ := by
  have hsize := text_size h h'
  have hvirt : (0x80100000 : Nat) % 4096 = 0 := by decide
  have hbase : (0x80000000 : Nat) ≤ 0x80100000 := by decide
  have hphys : (0x100000 : Nat) < 2 ^ 32 := by decide
  refine ⟨hvirt, ?_, ?_, hbase, ?_, hphys, Nat.zero_lt_succ _⟩
  · rw [hsize]
    exact Nat.mul_mod_left ..
  · rw [hsize]
    omega
  · rw [hsize]
    show 0x80100000 + _ ≤ _
    omega

theorem data_proper (h : 256 < q) (h' : q < 57344) :
    Region.Proper ⟨kernBase + q * 4096, q * 4096, physTop, pteW⟩ := by
  have hsize := data_size h h'
  have hperm : pteW < 4096 := by decide
  refine ⟨?_, ?_, ?_, Nat.le_add_right .., ?_, ?_, hperm⟩
  · show (0x80000000 + q * 4096) % 4096 = 0
    omega
  · rw [hsize]
    exact Nat.mul_mod_left ..
  · rw [hsize]
    omega
  · rw [hsize]
    show 0x80000000 + q * 4096 + _ ≤ _
    omega
  · show q * 4096 < _
    omega

/-- `kmap` with `data` at any page between the start of the kernel and the end of memory. -/
def kmapAt (data : Nat) : List Region :=
  [⟨kernBase, 0, extMem, pteW⟩, ⟨kernBase + extMem, extMem, data, 0⟩,
    ⟨kernBase + data, data, physTop, pteW⟩, ⟨devSpace, devSpace, 0, pteW⟩]

theorem kmapAt_ordered (hlo : 256 < q) (hhi : q < 57344) :
    Ordered userPages (kmapAt (q * 4096)) := by
  have hfirst : 0x80000000 / 4096 + 0x100000 / 4096 ≤ 0x80100000 / 4096 := by decide
  refine ⟨by decide, ⟨by decide, by decide, by decide, by decide, by decide, by decide, by decide⟩,
    hfirst, text_proper hlo hhi, ?_, data_proper hlo hhi, ?_,
    ⟨by decide, by decide, by decide, by decide, by decide, by decide, by decide⟩, trivial⟩
  · show 0x80100000 / 4096 + Region.size _ / 4096 ≤ (0x80000000 + q * 4096) / 4096
    rw [text_size hlo hhi]
    omega
  · show (0x80000000 + q * 4096) / 4096 + Region.size _ / 4096 ≤ 0xFE000000 / 4096
    rw [data_size hlo hhi]
    omega

theorem kmap_ordered (I : Image) : Ordered userPages (kmap I) := by
  obtain ⟨q, hq, hlo, hhi⟩ := kmap_pages I
  have h := kmapAt_ordered hlo (Nat.lt_of_le_of_lt hhi (by decide))
  rw [← hq] at h
  exact h

theorem kmap_within (I : Image) : ∀ r ∈ kmap I, r.Within kernelTables := by
  obtain ⟨q, hq, hlo, hhi⟩ := kmap_pages I
  have hmem : ∀ i, 512 ≤ i ∧ i < 568 ∨ 1016 ≤ i ∧ i < 1024 → i ∈ kernelTables := by
    intro i hi
    rw [kernelTables, Finset.mem_union, Finset.mem_Ico, Finset.mem_Ico]
    exact hi
  unfold kmap
  rw [hq]
  intro r hr i hi hi'
  apply hmem
  simp only [mem_cons, not_mem_nil, or_false] at hr
  rcases hr with rfl | rfl | rfl | rfl
  · change 0x80000000 / 4096 / 1024 ≤ i at hi
    change i ≤ (0x80000000 / 4096 + 0x100000 / 4096 - 1) / 1024 at hi'
    omega
  · change 0x80100000 / 4096 / 1024 ≤ i at hi
    rw [Region.count, text_size hlo (Nat.lt_of_le_of_lt hhi (by decide))] at hi'
    change i ≤ (0x80100000 / 4096 + _ - 1) / 1024 at hi'
    omega
  · change (0x80000000 + q * 4096) / 4096 / 1024 ≤ i at hi
    rw [Region.count, data_size hlo (Nat.lt_of_le_of_lt hhi (by decide))] at hi'
    change i ≤ ((0x80000000 + q * 4096) / 4096 + _ - 1) / 1024 at hi'
    omega
  · change 0xFE000000 / 4096 / 1024 ≤ i at hi
    change i ≤ (0xFE000000 / 4096 + 0x2000000 / 4096 - 1) / 1024 at hi'
    omega

theorem addRegions_pte {lo : Nat} (hrs : Ordered lo rs) (hk : k < lo) :
    (rs.foldl Space.addRegion s).pte k = s.pte k := by
  induction rs generalizing s lo with
  | nil => rfl
  | cons r rs ih =>
    obtain ⟨hlo, _, hrs⟩ := hrs
    rw [foldl_cons, ih hrs (by omega)]
    exact if_neg (by omega)

theorem addRegions_table (rs : List Region) :
    (rs.foldl Space.addRegion s).table i = true ↔ s.table i = true ∨
      ∃ r ∈ rs, r.first / 1024 ≤ i ∧ i ≤ (r.first + r.count - 1) / 1024 := by
  induction rs generalizing s with
  | nil =>
    simp only [foldl_nil, not_mem_nil, false_and, exists_false, or_false]
  | cons r rs ih =>
    have hone : (s.addRegion r).table i = true ↔
        s.table i = true ∨ r.first / 1024 ≤ i ∧ i ≤ (r.first + r.count - 1) / 1024 := by
      show (s.table i || decide _) = true ↔ _
      rw [Bool.or_eq_true, decide_eq_true_iff]
    rw [foldl_cons, ih, hone, exists_mem_cons_iff, or_assoc]

theorem kernelSpace_user (hk : k < userPages) : (kernelSpace I).pte k = none :=
  addRegions_pte (kmap_ordered I) hk

theorem kernelSpace_table : (kernelSpace I).table i = true ↔ i ∈ kernelTables := by
  rw [kernelSpace, addRegions_table]
  constructor
  · rintro (hi | ⟨r, hr, hi, hi'⟩)
    · cases hi
    · exact kmap_within I r hr i hi hi'
  intro hi
  right
  obtain ⟨q, hq, hlo, hhi⟩ := kmap_pages I
  rw [kernelTables, Finset.mem_union, Finset.mem_Ico, Finset.mem_Ico] at hi
  unfold kmap
  rw [hq]
  by_cases hfirst : i = 512
  · refine ⟨_, mem_cons_self, ?_⟩
    show 0x80000000 / 4096 / 1024 ≤ i ∧ i ≤ (0x80000000 / 4096 + 0x100000 / 4096 - 1) / 1024
    omega
  by_cases hdev : 1016 ≤ i
  · refine ⟨_, mem_cons_of_mem _ (mem_cons_of_mem _ (mem_cons_of_mem _
      mem_cons_self)), ?_⟩
    show 0xFE000000 / 4096 / 1024 ≤ i ∧ i ≤ (0xFE000000 / 4096 + 0x2000000 / 4096 - 1) / 1024
    omega
  refine ⟨_, mem_cons_of_mem _ (mem_cons_of_mem _ mem_cons_self), ?_⟩
  show (0x80000000 + q * 4096) / 4096 / 1024 ≤ i ∧
    i ≤ ((0x80000000 + q * 4096) / 4096 + Region.size _ / 4096 - 1) / 1024
  rw [data_size hlo (Nat.lt_of_le_of_lt hhi (by decide))]
  omega

theorem addRegions_userBit (hrs : ∀ r ∈ rs, r.physStart % 4096 = 0 ∧ r.perm < 4)
    (hs : ∀ k e, s.pte k = some e → userBit e = false)
    (he : (rs.foldl Space.addRegion s).pte k = some e) : userBit e = false := by
  induction rs generalizing s with
  | nil => exact hs k e he
  | cons r rs ih =>
    obtain ⟨hphys, hperm⟩ := hrs r mem_cons_self
    apply ih (fun q hq => hrs q (mem_cons_of_mem r hq)) _ he
    intro k e he
    change (if r.first ≤ k ∧ k < r.first + r.count then _ else s.pte k) = some e at he
    split at he
    · have hzero : (r.physStart + (k - r.first) * 4096) % 2 ^ 32 / 2 ^ 2 % 2 = 0 := by omega
      have hbit : ((r.physStart + (k - r.first) * 4096) % 2 ^ 32 ||| r.perm ||| 1) / 2 ^ 2 % 2 ≠
          1 := by
        rw [Nat.or_div_two_pow, Nat.or_div_two_pow, ne_eq, Nat.or_mod_two_eq_one,
          Nat.or_mod_two_eq_one]
        omega
      cases he
      exact beq_eq_false_iff_ne.2 hbit
    · exact hs k e he

theorem kmapAt_flags {data : Nat} {r : Region} (hdata : data % 4096 = 0) (hr : r ∈ kmapAt data) :
    r.physStart % 4096 = 0 ∧ r.perm < 4 := by
  simp only [kmapAt, mem_cons, not_mem_nil, or_false] at hr
  rcases hr with rfl | rfl | rfl | rfl
  · decide
  · exact ⟨(by decide : extMem % 4096 = 0), (by decide : 0 < 4)⟩
  · exact ⟨hdata, (by decide : pteW < 4)⟩
  · decide

theorem kernelSpace_userBit (he : (kernelSpace I).pte k = some e) : userBit e = false :=
  addRegions_userBit (fun _ hr => kmapAt_flags I.aligned hr) (fun _ _ he => by cases he) he

inductive KvmSetup (I : Image) (D : Dirs H) (K : Wholes H) (T : Set Nat) (A : Spaces H)
    (x : H) (m : Frames) : Option Nat → Frames → Prop
  | failed {m' : Frames} (rep : Rep I D K T A m')
      (scarce : ∀ {S n}, kernelTables ⊆ S → ¬ Plenty S Space.empty (n + 1) m) :
      KvmSetup I D K T A x m none m'
  | made {m' : Frames} {d : Nat}
      (rep : Rep I (update D x (some d)) K T
        (update A x (some (kernelSpace I))) m')
      (plenty : ∀ {S n}, kernelTables ⊆ S → Plenty S Space.empty (n + 1) m →
        Plenty S (kernelSpace I) n m') :
      KvmSetup I D K T A x m (some d) m'

theorem setupkvm_spec (h : Rep I D K T A m) (hx : D x = none) :
    Wp (setupkvm I) m (KvmSetup I D K T A x m) E := by
  have hA : A x = none := by rw [h.spaces, hx, Option.map_none]
  apply wp_seq (kalloc_spec m)
  intro r m₁ hk
  cases r with
  | none =>
    exact wp_pure (.failed (h.refused hk) fun _ => hk.not_plenty (by omega))
  | some d =>
    obtain ⟨hd, h₁, _⟩ := h.given hk
    have hzero : ∀ j, (m₁.setPage d fun _ => 0).word d j = 0 := by
      intro j
      rw [Frames.word, Frames.page_setPage, Bytes.word_zero]
    have h₂ := (h₁.write_hand (b := fun _ => 0) (Set.mem_insert d T)).new_dir hd hx hzero
    have hplenty : ∀ {S n}, Plenty S Space.empty (n + 1) m →
        Plenty S Space.empty n (m₁.setPage d fun _ => 0) := fun hm =>
      ⟨(hk.plenty hm).deny, (hk.plenty hm).free⟩
    have hwithin : ∀ {S}, kernelTables ⊆ S → ∀ r ∈ kmap I, r.Within S := fun hS r hr i hi hi' =>
      hS (kmap_within I r hr i hi hi')
    apply wp_modify_bind
    apply wp_seq (mapRegions_spec h₂ (update_self ..) (update_self ..)
      (kmap_ordered I) fun _ _ => rfl)
    intro b m₂ hb
    cases hb with
    | mapped hrep hplenty' =>
      rw [update_idem] at hrep
      exact wp_pure (.made hrep fun hS hm => hplenty' (hwithin hS) (hplenty hm))
    | failed hrep hscarce =>
      apply wp_seq (freevm_spec hrep (update_self ..))
      intro _ m₃ hrep'
      rw [update_idem, update_idem, update_idem] at hrep'
      rw [← hx, ← hA, update_eq_self, update_eq_self] at hrep'
      exact wp_pure (.failed hrep' fun hS hm => hscarce (hwithin hS) (hplenty hm))

end Xv6Signals.Vm
