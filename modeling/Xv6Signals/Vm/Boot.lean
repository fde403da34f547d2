import Xv6Signals.Vm.ExecRestores

namespace Xv6Signals.Vm
open Lib Function Option

section Kernel

variable (I : Image)

@[irreducible] def freerange (lo n : Nat) : VmM Unit :=
  (List.range n).forM fun i => kfree I (lo + i)

def kinit1 : VmM Unit := freerange I (pages I.endAddr) (1024 - pages I.endAddr)

def kinit2 : VmM Unit := freerange I 1024 56320

def startothers : Nat → VmM (Option (List Nat))
  | 0 => pure (some [])
  | n + 1 => do
    match ← kalloc with
    | none => pure none
    | some f =>
      match ← startothers n with
      | none => pure none
      | some fs => pure (some (f :: fs))

/-- The page of `initcode`; `false` where the source panics or would use a null pointer. -/
def inituvm (d : Nat) (init : List Byte) : VmM Bool := do
  if 4096 ≤ init.length then pure false
  else
    match ← kalloc with
    | none => pure false
    | some f =>
      memset f 0
      if ← mappages d (0 * 4096) 4096 (f * 4096) (pteW ||| pteU) then
        modify fun m => m.setPage f ((m.page f).write 0 init)
        pure true
      else pure false

structure Booted where
  kpgdir : Nat
  cpuStacks : List Nat
  kstack : Nat
  pgdir : Nat

def userinitPages (kpgdir : Nat) (cpuStacks : List Nat) (init : List Byte) :
    VmM (Option Booted) := do
  match ← kalloc with
  | none => pure none
  | some ks =>
    match ← setupkvm I with
    | none => pure none
    | some d => if ← inituvm d init then pure (some ⟨kpgdir, cpuStacks, ks, d⟩) else pure none

/-- The calls of `main` that allocate pages; the first one that gets none ends the start. -/
def boot (others : Nat) (init : List Byte) : VmM (Option Booted) := do
  kinit1 I
  match ← setupkvm I with
  | none => pure none
  | some k =>
    match ← startothers others with
    | none => pure none
    | some fs =>
      kinit2 I
      userinitPages I k fs init

end Kernel

variable {H : Type} [DecidableEq H] {I : Image} {D : Dirs H} {K : Wholes H} {T : Set Nat}
  {A : Spaces H} {x : H} {s : Space} {m m' : Frames} {d n lo : Nat} {E : Fault → Frames → Prop}

omit [DecidableEq H] in
theorem Rep.at_start (page : Nat → Bytes) :
    Rep I (fun _ : H => none) (fun _ => none) { f | I.owns f } (fun _ => none) ⟨page, [], []⟩ := by
  have hat {z : Place H} {g : Nat}
      (hz : At ⟨page, [], []⟩ (fun _ => none) (fun _ => none) { f | I.owns f } z g) :
      z = .hand := by
    cases z with
    | free => exact (List.not_mem_nil hz).elim
    | hand => rfl
    | page y =>
      obtain ⟨b, hb⟩ := hz
      cases hb
    | dir y => cases hz
    | table y i =>
      obtain ⟨d, hd, _⟩ := hz
      cases hd
    | user y k =>
      obtain ⟨_, d, e, hd, _⟩ := hz
      cases hd
  refine ⟨List.nodup_nil, ⟨?_, ?_⟩, fun _ => rfl, fun _ _ _ hk => by cases hk⟩
  · intro g z w hz hw
    rw [hat hz, hat hw]
  intro g
  constructor
  · intro hg
    exact ⟨.hand, hg⟩
  · rintro ⟨z, hz⟩
    rw [hat hz] at hz
    exact hz

omit [DecidableEq H] in
theorem freerange_spec (h : Rep I D K T A m) (hT : ∀ i, i < n → lo + i ∈ T) :
    Wp (freerange I lo n) m (fun _ m' =>
      Rep I D K { f | f ∈ T ∧ ¬ (lo ≤ f ∧ f < lo + n) } A m' ∧
        m'.free.length = m.free.length + n ∧ m'.deny = m.deny) E := by
  unfold freerange
  refine wp_forM_range (fun j m' => Rep I D K { f | f ∈ T ∧ ¬ (lo ≤ f ∧ f < lo + j) } A m' ∧
    m'.free.length = m.free.length + j ∧ m'.deny = m.deny) ⟨?_, rfl, rfl⟩ ?_
  · have hsame : { f | f ∈ T ∧ ¬ (lo ≤ f ∧ f < lo + 0) } = T := by
      ext f
      show f ∈ T ∧ ¬ (lo ≤ f ∧ f < lo + 0) ↔ f ∈ T
      exact ⟨fun hf => hf.1, fun hf => ⟨hf, by omega⟩⟩
    rw [hsame]
    exact h
  rintro j m' hj ⟨hrep, hlen, hdeny⟩
  have hsplit : { f | f ∈ T ∧ ¬ (lo ≤ f ∧ f < lo + j) } =
      insert (lo + j) { f | f ∈ T ∧ ¬ (lo ≤ f ∧ f < lo + (j + 1)) } := by
    ext f
    rw [Set.mem_insert_iff]
    show f ∈ T ∧ ¬ (lo ≤ f ∧ f < lo + j) ↔
      f = lo + j ∨ f ∈ T ∧ ¬ (lo ≤ f ∧ f < lo + (j + 1))
    constructor
    · rintro ⟨hf, hout⟩
      by_cases he : f = lo + j
      · exact .inl he
      · exact .inr ⟨hf, by omega⟩
    · rintro (rfl | ⟨hf, hout⟩)
      · exact ⟨hT j hj, by omega⟩
      · exact ⟨hf, by omega⟩
  rw [hsplit] at hrep
  refine (kfree_spec hrep fun hin => ?_).post ?_
  · exact hin.2 ⟨by omega, by omega⟩
  rintro _ m'' ⟨rfl, hrep'⟩
  refine ⟨hrep', ?_, hdeny⟩
  show ((lo + j) :: m'.free).length = m.free.length + (j + 1)
  rw [List.length_cons, hlen]
  omega

structure Roomy (n : Nat) (m : Frames) : Prop where
  deny : m.deny = []
  free : n ≤ m.free.length

theorem Roomy.plenty {S : Finset Nat} (h : Roomy (n + s.missing S) m) : Plenty S s n m :=
  ⟨h.deny, h.free⟩

theorem Plenty.roomy {S : Finset Nat} (h : Plenty S s n m) : Roomy n m :=
  ⟨h.deny, by have := h.free; omega⟩

theorem Roomy.mono {n' : Nat} (h : Roomy n' m) (hn : n ≤ n') : Roomy n m :=
  ⟨h.deny, hn.trans h.free⟩

theorem Kalloced.not_roomy (h : Kalloced m none m') : ¬ Roomy 1 m := by
  intro hm
  cases h with
  | refused h =>
    rcases h with hd | hf
    · exact hd hm.deny
    · have hfree := hm.free
      rw [hf] at hfree
      cases hfree

theorem Kalloced.roomy {f : Nat} (h : Kalloced m (some f) m') (hm : Roomy (n + 1) m) :
    Roomy n m' := by
  cases h with
  | given h =>
    have hfree := hm.free
    rw [h, List.length_cons] at hfree
    refine ⟨?_, Nat.le_of_succ_le_succ hfree⟩
    show m.deny.tail = []
    rw [hm.deny]
    rfl

theorem missing_empty : Space.empty.missing kernelTables = 64 := by decide +kernel

theorem KvmSetup.roomy {r : Option Nat} (h : KvmSetup I D K T A x m r m') :
    (r = none → ¬ Roomy 65 m) ∧ (r ≠ none → ∀ n, Roomy (n + 65) m → Roomy n m') := by
  have hplenty (n : Nat) (hm : Roomy (n + 65) m) : Plenty kernelTables Space.empty (n + 1) m := by
    refine Roomy.plenty (hm.mono ?_)
    rw [missing_empty]
  cases h with
  | failed _ hscarce =>
    refine ⟨fun _ hm => ?_, fun hr => (hr rfl).elim⟩
    exact hscarce (Finset.Subset.refl _) (hplenty 0 hm)
  | made _ hmade =>
    refine ⟨fun hr => (some_ne_none _ hr).elim, fun _ n hm => ?_⟩
    exact (hmade (Finset.Subset.refl _) (hplenty n hm)).roomy

theorem UserSpace.first_page {f : Nat} (I : Image) (b : Bytes) :
    UserSpace I (((kernelSpace I).addTable 0).enter 0 (some (f * 4096 ||| (pteW ||| pteU) ||| pteP))
      b) 4096 := by
  have hfilled : (kernelSpace I).Filled Zeroed (((kernelSpace I).addTable 0).enter 0
      (some (f * 4096 ||| (pteW ||| pteU) ||| pteP)) fun _ => 0) (pages 0) (pages 4096) :=
    .cons (by decide) ⟨⟨f, rfl⟩, rfl⟩ (.nothing (by decide))
  have hmem := (UserSpace.grow (.of_kernelSpace I) (by decide) (Nat.zero_le _) hfilled).setMem
    (update (kernelSpace I).mem 0 b)
  exact hmem

theorem inituvm_spec {init : List Byte} (h : Rep I D K T A m) (hd : D x = some d)
    (hA : A x = some (kernelSpace I)) :
    Wp (inituvm d init) m (fun r m' =>
      (r = false → 4096 ≤ init.length ∨ ¬ Roomy 2 m) ∧
      (r = true → ∃ q, Rep I D K T (update A x (some q)) m' ∧ UserSpace I q 4096 ∧
        ∀ n, Roomy (n + 2) m → Roomy n m')) E := by
  unfold inituvm
  refine wp_ite (fun hlong => wp_pure ⟨fun _ => .inl hlong, fun hr => by cases hr⟩) fun hshort => ?_
  refine wp_seq (kalloc_spec m) ?_
  rintro (_ | f) m₁ hk
  · refine wp_pure ⟨fun _ => .inr fun hm => hk.not_roomy (hm.mono (by decide)),
      fun hr => by cases hr⟩
  obtain ⟨hf, hrep, hpage⟩ := h.given hk
  apply wp_modify_bind
  have hrep₁ := hrep.write_hand (b := fun _ => 0) (Set.mem_insert f T)
  refine wp_seq (mapPage_spec hrep₁ hf hd hA (by decide) (kernelSpace_user (by decide))
    (by decide)) ?_
  rintro r m₂ hmap
  have hroom (n : Nat) (hm : Roomy (n + 2) m) :
      Plenty {0} (kernelSpace I) n (m₁.setPage f fun _ => 0) := by
    have hm₁ : Roomy (n + 1) m₁ := hk.roomy hm
    have hmiss : (kernelSpace I).missing {0} ≤ 1 := Finset.card_filter_le ..
    exact ⟨hm₁.deny, by have := hm₁.free; show _ ≤ m₁.free.length; omega⟩
  cases hmap with
  | failed _ _ hscarce =>
    refine wp_pure ⟨fun _ => .inr fun hm => ?_, fun hr => (Bool.false_ne_true hr).elim⟩
    exact hscarce (Finset.mem_singleton_self 0) (hroom 0 hm)
  | @mapped m₂ hrep₂ _ hplenty =>
    refine wp_modify_bind (wp_pure ⟨fun hr => (Bool.false_ne_true hr.symm).elim, fun _ => ?_⟩)
    have hframe : frameOf (f * 4096 ||| (pteW ||| pteU) ||| pteP) = f := by
      rw [frameOf_or (by decide), Nat.mul_div_cancel _ (by decide)]
    have hwrite := hrep₂.write_user hd (update_self ..)
      (update_self ..) (by decide : 0 < userPages) ((m₂.page f).write 0 init)
    rw [hframe, update_idem] at hwrite
    refine ⟨_, hwrite, ?_, fun n hm => ?_⟩
    · have hfirst := UserSpace.first_page (f := f) I ((m₂.page f).write 0 init)
      simpa only [Space.enter, update_idem] using hfirst
    · have hm' := (hplenty (Finset.mem_singleton_self 0) (hroom n hm)).roomy
      exact ⟨hm'.deny, hm'.free⟩

theorem startothers_spec {D : Dirs Holder} {K : Wholes Holder} {A : Spaces Holder} {j : Nat}
    (h : Rep I D K T A m) (hK : ∀ i, j ≤ i → K (.cpu i) = none) :
    Wp (startothers n) m (fun r m' =>
      (r = none → ¬ Roomy n m) ∧
      ∀ fs, r = some fs → ∃ K', Rep I D K' T A m' ∧
        (∀ i, (K' (.cpu (j + i))).map Prod.fst = fs[i]?) ∧
        (∀ y, (∀ i, j ≤ i → y ≠ .cpu i) → K' y = K y) ∧
        ∀ k, Roomy (k + n) m → Roomy k m') E := by
  induction n generalizing j K m with
  | zero =>
    refine wp_pure ⟨fun hr => (some_ne_none _ hr).elim, fun fs hr => ?_⟩
    cases hr
    refine ⟨K, h, fun i => ?_, fun _ _ => rfl, fun _ hm => hm⟩
    rw [hK _ (Nat.le_add_right j i)]
    rfl
  | succ n ih =>
    refine wp_seq (kalloc_spec m) ?_
    rintro (_ | f) m₁ hk
    · refine wp_pure ⟨fun _ hm => hk.not_roomy (hm.mono (by omega)), fun fs hr => ?_⟩
      exact (some_ne_none _ hr.symm).elim
    obtain ⟨hf, hrep, _⟩ := h.given hk
    have hrep₁ := hrep.keep_page hf (hK j (Nat.le_refl j))
    refine wp_seq (ih (j := j + 1) hrep₁ fun i hi => ?_) ?_
    · rw [update_of_ne fun he => absurd (Holder.cpu.inj he) (by omega)]
      exact hK i (by omega)
    rintro (_ | fs) m₂ ⟨hnone, hsome⟩
    · refine wp_pure ⟨fun _ hm => hnone rfl (hk.roomy hm), fun fs hr => ?_⟩
      exact (some_ne_none _ hr.symm).elim
    refine wp_pure ⟨fun hr => (some_ne_none _ hr).elim, fun fs' hr => ?_⟩
    cases hr
    obtain ⟨K', hrep', hcpu, hother, hroom⟩ := hsome fs rfl
    refine ⟨K', hrep', fun i => ?_, fun y hy => ?_, fun k hm => hroom k (hk.roomy hm)⟩
    · cases i with
      | zero =>
        rw [hother _ fun i hi he => absurd (Holder.cpu.inj he) (by omega)]
        show (update K (.cpu j) _ (.cpu j)).map Prod.fst = some f
        rw [update_self]
        rfl
      | succ i =>
        rw [(by omega : j + (i + 1) = j + 1 + i)]
        exact hcpu i
    · rw [hother y fun i hi => hy i (by omega)]
      exact update_of_ne (hy j (Nat.le_refl j)) ..

section Start

variable {D : Dirs Holder} {K : Wholes Holder} {A : Spaces Holder} {init : List Byte}
  {others : Nat}

theorem userinitPages_spec {kpgdir : Nat} {cpuStacks : List Nat} (h : Rep I D K ∅ A m)
    (hD : D (.proc 0) = none) (hK : K (.proc 0) = none) :
    Wp (userinitPages I kpgdir cpuStacks init) m (fun r m' =>
      (r = none → 4096 ≤ init.length ∨ ¬ Roomy 68 m) ∧
      ∀ b, r = some b → b.kpgdir = kpgdir ∧ b.cpuStacks = cpuStacks ∧
        ∃ c q, Rep I (update D (.proc 0) (some b.pgdir)) (update K (.proc 0) (some (b.kstack, c))) ∅
            (update A (.proc 0) (some q)) m' ∧
          UserSpace I q 4096 ∧ ∀ n, Roomy (n + 68) m → Roomy n m') E := by
  refine wp_seq (kalloc_spec m) ?_
  rintro (_ | ks) m₁ hk
  · refine wp_pure ⟨fun _ => .inr fun hm => hk.not_roomy (hm.mono (by omega)), fun b hr => ?_⟩
    exact (some_ne_none _ hr.symm).elim
  obtain ⟨hf, hrep, _⟩ := h.given hk
  have hrep₁ := hrep.keep_page hf hK
  refine wp_seq (setupkvm_spec hrep₁ hD) ?_
  intro r m₂ hset
  have hroom := hset.roomy
  cases hset with
  | failed =>
    refine wp_pure ⟨fun _ => .inr fun hm => ?_, fun b hr => (some_ne_none _ hr.symm).elim⟩
    exact hroom.1 rfl (hk.roomy (hm.mono (by omega : 66 ≤ 68)))
  | @made _ d hrep₂ =>
    refine wp_seq (inituvm_spec hrep₂ (update_self ..) (update_self ..)) ?_
    rintro (_ | _) m₃ ⟨hfalse, htrue⟩
    · refine wp_pure ⟨fun _ => ?_, fun b hr => (some_ne_none _ hr.symm).elim⟩
      exact (hfalse rfl).imp_right fun hno hm =>
        hno (hroom.2 (some_ne_none d) 2 (hk.roomy hm))
    refine wp_pure ⟨fun hr => (some_ne_none _ hr).elim, fun b hr => ?_⟩
    cases hr
    obtain ⟨q, hrep₃, hq, hroom'⟩ := htrue rfl
    rw [update_idem] at hrep₃
    refine ⟨rfl, rfl, _, q, hrep₃, hq, fun n hm => hroom' n ?_⟩
    exact hroom.2 (some_ne_none d) (n + 2) (hk.roomy hm)

theorem kinit1_spec (page : Nat → Bytes) :
    Wp (kinit1 I) ⟨page, [], []⟩ (fun _ m' =>
      Rep I (fun _ : Holder => none) (fun _ => none) { f | I.owns f ∧ 1024 ≤ f }
        (fun _ => none) m' ∧
        Roomy (1024 - pages I.endAddr) m') E := by
  have hend : pages I.endAddr ≤ 1024 := pages_le.2 I.end_le
  have hT (i : Nat) (hi : i < 1024 - pages I.endAddr) : pages I.endAddr + i ∈ { f | I.owns f } := by
    refine ⟨pages_le.1 (Nat.le_add_right ..), ?_⟩
    show (pages I.endAddr + i) * 4096 < 0xE000000
    omega
  refine (freerange_spec (Rep.at_start (H := Holder) page) hT).post ?_
  rintro _ m' ⟨hrep, hlen, hdeny⟩
  refine ⟨?_, hdeny, by rw [hlen]; exact Nat.le_add_left ..⟩
  have hset : { f | f ∈ { f | I.owns f } ∧ ¬ (pages I.endAddr ≤ f ∧
      f < pages I.endAddr + (1024 - pages I.endAddr)) } = { f | I.owns f ∧ 1024 ≤ f } := by
    ext f
    show I.owns f ∧ _ ↔ I.owns f ∧ _
    refine and_congr_right fun hf => ?_
    have hpages := pages_le.2 hf.1
    omega
  rwa [hset] at hrep

theorem kinit2_spec (h : Rep I D K { f | I.owns f ∧ 1024 ≤ f } A m) :
    Wp (kinit2 I) m (fun _ m' => Rep I D K ∅ A m' ∧ (m.deny = [] → Roomy 56320 m')) E := by
  have hend := I.end_le
  have hT (i : Nat) (hi : i < 56320) : 1024 + i ∈ { f | I.owns f ∧ 1024 ≤ f } := by
    refine ⟨⟨by omega, ?_⟩, Nat.le_add_right ..⟩
    show (1024 + i) * 4096 < 0xE000000
    omega
  refine (freerange_spec h hT).post ?_
  rintro _ m' ⟨hrep, hlen, hdeny⟩
  refine ⟨?_, fun hd => ⟨hdeny.trans hd, by rw [hlen]; exact Nat.le_add_left ..⟩⟩
  have hset : { f | f ∈ { f | I.owns f ∧ 1024 ≤ f } ∧ ¬ (1024 ≤ f ∧ f < 1024 + 56320) } =
      (∅ : Set Nat) := by
    ext f
    refine ⟨fun ⟨⟨hf, hlo⟩, hout⟩ => hout ⟨hlo, ?_⟩, fun hf => hf.elim⟩
    have hhi : f * 4096 < 0xE000000 := hf.2
    omega
  rwa [hset] at hrep

theorem boot_spec (others : Nat) (init : List Byte) (page : Nat → Bytes) :
    Wp (boot I others init) ⟨page, [], []⟩ (fun r m' =>
      (r = none → 4096 ≤ init.length ∨ 1024 < pages I.endAddr + 65 + others) ∧
      ∀ b, r = some b → ∃ (K : Wholes Holder) (A : Spaces Holder) (q : Space),
        Rep I (update (update (fun _ => none) .kernel (some b.kpgdir)) (.proc 0)
          (some b.pgdir)) K ∅ A m' ∧
        (∀ i, (K (.cpu i)).map Prod.fst = b.cpuStacks[i]?) ∧
        (∃ c, K (.proc 0) = some (b.kstack, c)) ∧
        (∀ y, (∀ i, y ≠ .cpu i) → y ≠ .proc 0 → K y = none) ∧
        A (.proc 0) = some q ∧ UserSpace I q 4096 ∧
        (pages I.endAddr + 65 + others ≤ 1024 → Roomy 56252 m')) E := by
  refine wp_seq (kinit1_spec page) ?_
  rintro _ m₁ ⟨hrep₁, hroom₁⟩
  refine wp_seq (setupkvm_spec (x := .kernel) hrep₁ rfl) ?_
  intro r m₂ hset
  have hroom₂ := hset.roomy
  cases hset with
  | failed =>
    refine wp_pure ⟨fun _ => .inr ?_, fun b hr => (some_ne_none _ hr.symm).elim⟩
    by_contra hno
    exact hroom₂.1 rfl (hroom₁.mono (by omega))
  | @made _ k hrep₂ =>
    refine wp_seq (startothers_spec (j := 0) hrep₂ fun _ _ => rfl) ?_
    rintro (_ | fs) m₃ ⟨hnone, hsome⟩
    · refine wp_pure ⟨fun _ => .inr ?_, fun b hr => (some_ne_none _ hr.symm).elim⟩
      by_contra hno
      exact hnone rfl (hroom₂.2 (some_ne_none k) others (hroom₁.mono (by omega)))
    obtain ⟨K₃, hrep₃, hcpu, hother, hroom₃⟩ := hsome fs rfl
    refine wp_seq (kinit2_spec hrep₃) ?_
    rintro _ m₄ ⟨hrep₄, hfree₄⟩
    have hroom₄ (hsmall : pages I.endAddr + 65 + others ≤ 1024) : Roomy 56320 m₄ :=
      hfree₄ (hroom₃ 0 (hroom₂.2 (some_ne_none k) (0 + others)
        (hroom₁.mono (by omega)))).deny
    refine (userinitPages_spec hrep₄ ?_ ?_).post ?_
    · rfl
    · exact hother _ fun i _ he => by cases he
    rintro r m₅ ⟨hfail, hgood⟩
    refine ⟨fun hr => (hfail hr).imp_right fun hno => ?_, fun b hr => ?_⟩
    · by_contra hle
      exact hno ((hroom₄ (by omega)).mono (by omega))
    obtain ⟨rfl, rfl, c, q, hrep₅, hq, hroom₅⟩ := hgood b hr
    refine ⟨_, _, q, hrep₅, fun i => ?_, ⟨c, update_self ..⟩, fun y hy hy0 => ?_,
      update_self .., hq, fun hsmall => hroom₅ _ (hroom₄ hsmall)⟩
    · rw [update_of_ne fun he => by cases he]
      have hi := hcpu i
      rwa [Nat.zero_add] at hi
    · rw [update_of_ne hy0]
      exact hother y fun i _ => hy i

end Start

end Xv6Signals.Vm
