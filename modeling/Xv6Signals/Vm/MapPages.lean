import Xv6Signals.Vm.Build

namespace Xv6Signals.Vm
open Lib Function Frames List Nat

variable {m m' : Frames} {s s' : Space} {d t i j k n a v e pa perm last r : Nat}
  {E : Fault → Frames → Prop} {rs : List Region} {reg : Region} {lo : Nat} {free : List Nat}

/-- A page directory as the kernel builds it: its tables are all different, and no table is the
directory itself or a free frame. -/
structure Frames.Tidy (m : Frames) (d : Nat) : Prop where
  tables : ∀ i j t, m.tab d i = some t → m.tab d j = some t → i = j
  dir : ∀ i, m.tab d i ≠ some d
  nodup : m.free.Nodup
  free_dir : d ∉ m.free
  free_table : ∀ i t, m.tab d i = some t → t ∉ m.free
  free_lt : ∀ f ∈ m.free, f < 2 ^ 20

theorem Rep.tidy {H : Type} {I : Image} {D : Dirs H} {K : Wholes H} {T : Set Nat} {A : Spaces H}
    {x : H} (h : Rep I D K T A m) (hd : D x = some d) : m.Tidy d where
  tables i j t hi hj := by
    cases h.placed.one (At.table hd hi) (At.table hd hj)
    rfl
  dir i hi := by cases h.placed.one (At.table hd hi) (At.dir hd)
  nodup := h.nodup
  free_dir hf := by cases h.placed.one (At.free hf) (At.dir hd)
  free_table i t hi hf := by cases h.placed.one (At.free hf) (At.table hd hi)
  free_lt f hf := by
    have hlt := Image.owns_lt (h.placed.mem (At.free hf))
    omega

theorem Frames.Tidy.congr (h : m.Tidy d) (htab : m'.tab d = m.tab d) (hfree : m'.free = m.free) :
    m'.Tidy d where
  tables i j t := by
    rw [htab]
    exact h.tables i j t
  dir i := by
    rw [htab]
    exact h.dir i
  nodup := hfree ▸ h.nodup
  free_dir := hfree ▸ h.free_dir
  free_table i t := by
    rw [htab, hfree]
    exact h.free_table i t
  free_lt := hfree ▸ h.free_lt

theorem Frames.Tidy.enter (h : m.Tidy d) (ht : m.tab d (k / 1024) = some t) (hv : v < 2 ^ 32)
    (hp : present v = true) :
    (m.setWord t (k % 1024) v).Tidy d ∧
      (m.setWord t (k % 1024) v).pte d = update (m.pte d) k (some v) := by
  have hne : d ≠ t := fun he => h.dir (k / 1024) (he ▸ ht)
  have htab : (m.setWord t (k % 1024) v).tab d = m.tab d :=
    funext fun i => tab_congr (page_setPage_of_ne hne) i
  refine ⟨h.congr htab rfl, eq_update_iff.2 ⟨?_, fun j hj => ?_⟩⟩
  · rw [pte_of_tab ((congrFun htab _).trans ht), word_setWord hv, if_pos hp]
  · exact pte_setWord_of_ne hne (fun htj => h.tables _ _ _ htj ht) hj

theorem Frames.Tidy.addTable (h : m.Tidy d) (deny : List Bool)
    (hfree : m.free = t :: free) (hi : i < 1024) (hnone : m.tab d i = none) :
    let m' := (({ m with free := free, deny := deny } : Frames).setPage t fun _ => 0).setWord d i
      (t * 4096 ||| pteP ||| pteW ||| pteU)
    m'.Tidy d ∧ m'.tab d i = some t ∧ m'.pte d = m.pte d := by
  intro m'
  have htmem : t ∈ m.free := hfree ▸ mem_cons_self
  have hsub : ∀ f ∈ free, f ∈ m.free := fun f hf => hfree ▸ mem_cons_of_mem t hf
  have hlt : t * 4096 < 2 ^ 32 := by
    have := h.free_lt t htmem
    omega
  obtain ⟨hv, hp, hf⟩ := tableEntry hlt
  have hdt : d ≠ t := fun he => h.free_dir (he ▸ htmem)
  have htab : m'.tab d = update (m.tab d) i (some t) := by
    rw [tab_setWord hv hi hp, hf]
    congr 1
    exact funext fun j => tab_congr (page_setPage_of_ne hdt) j
  have hnodup := h.nodup
  rw [hfree, nodup_cons] at hnodup
  have hcases : ∀ {j t'}, m'.tab d j = some t' → j = i ∧ t = t' ∨ m.tab d j = some t' := by
    intro j t' hj
    rw [htab] at hj
    by_cases hji : j = i
    · rw [hji, update_self] at hj
      exact .inl ⟨hji, Option.some.inj hj⟩
    · rw [update_of_ne hji] at hj
      exact .inr hj
  refine ⟨⟨?_, ?_, hnodup.2, fun hd => h.free_dir (hsub d hd), ?_, fun f hf =>
    h.free_lt f (hsub f hf)⟩, ?_, ?_⟩
  · intro j j' t' hj hj'
    rcases hcases hj with ⟨hji, ht⟩ | hj <;> rcases hcases hj' with ⟨hji', ht'⟩ | hj'
    · exact hji.trans hji'.symm
    · exact (h.free_table j' t' hj' (ht ▸ htmem)).elim
    · exact (h.free_table j t' hj (ht' ▸ htmem)).elim
    · exact h.tables j j' t' hj hj'
  · intro j hj
    rcases hcases hj with ⟨_, he⟩ | hj
    · exact hdt he.symm
    · exact h.dir j hj
  · intro j t' hj
    rcases hcases hj with ⟨_, rfl⟩ | hj
    · exact hnodup.1
    · exact fun hmem => h.free_table j t' hj (hsub t' hmem)
  · rw [htab, update_self]
  · refine funext fun k => pte_addTable htab hnone ?_ fun j t' hj => ?_
    · exact (page_setPage_of_ne hdt.symm).trans (page_setPage ..)
    · have hne : t' ≠ t := fun he => h.free_table j t' hj (he ▸ htmem)
      have hned : t' ≠ d := fun he => h.dir j (he ▸ hj)
      exact (page_setPage_of_ne hned).trans (page_setPage_of_ne hne)

/-- What becomes of a memory when one table is asked for: `kalloc` refuses, or the table is there
and the entries are as before. -/
inductive TableFound (m : Frames) (d i : Nat) : Option Nat → Frames → Prop
  | refused {m' : Frames} (h : m.deny ≠ [] ∨ m'.free = []) : TableFound m d i none m'
  | found {t : Nat} {m' : Frames} (tidy : m'.Tidy d) (tab : m'.tab d i = some t)
      (pte : m'.pte d = m.pte d) (deny : m.deny = [] → m'.deny = []) :
      TableFound m d i (some t) m'

theorem walkpgdir_tidy (h : m.Tidy d) (hk : k < 2 ^ 20) :
    Wp (walkpgdir d (k * 4096) true) m (TableFound m d (k / 1024)) E := by
  refine walkpgdir_cases hk (fun t ht => .found h ht rfl id) (fun _ m' hm => ?_)
    fun htab t m₁ hm => ?_
  · cases hm with
    | refused hr => exact .refused hr
  cases hm with
  | given hfree =>
    obtain ⟨htidy, ht, hpte⟩ := h.addTable m.deny.tail hfree (by omega) htab
    refine .found htidy ht hpte fun hd => ?_
    show m.deny.tail = []
    rw [hd]
    rfl

/-- What becomes of a memory when pages are mapped: `kalloc` refuses a table, or the pages have
their entries and all others are as before. -/
inductive Mapped (m : Frames) (d k n pa perm : Nat) : Bool → Frames → Prop
  | refused {m' : Frames} (h : m.deny ≠ [] ∨ m'.free = []) : Mapped m d k n pa perm false m'
  | mapped {m' : Frames} (tidy : m'.Tidy d)
      (pte : m'.pte d = ((m.space d).mapRange k n pa perm).pte)
      (deny : m.deny = [] → m'.deny = []) : Mapped m d k n pa perm true m'

theorem mapLoop_round {Q : Bool → Frames → Prop} (h : m.Tidy d) (hperm : perm < 2 ^ 32)
    (hpa : pa < 2 ^ 32) (hk : k < 2 ^ 20) (hnone : m.pte d k = none)
    (hfail : ∀ m', m.deny ≠ [] ∨ m'.free = [] → Q false m')
    (hgo : ∀ m', Mapped m d k 1 pa perm true m' →
      Wp (if k * 4096 = last then pure true
        else mapLoop d perm last n ((k * 4096 + 4096) % 2 ^ 32) ((pa + 4096) % 2 ^ 32)) m' Q E) :
    Wp (mapLoop d perm last (n + 1) (k * 4096) pa) m Q E := by
  apply mapLoop_step (walkpgdir_tidy h hk)
  · intro m' hw
    cases hw with
    | refused hr => exact hfail m' hr
  intro t m' hw
  cases hw with
  | found htidy ht hpte hdeny =>
    have hv : (pa ||| perm ||| pteP) < 2 ^ 32 :=
      or_lt_two_pow (or_lt_two_pow hpa hperm) (by decide)
    obtain ⟨htidy', hpte'⟩ := htidy.enter ht hv (present_or pa perm)
    refine ⟨ht, (congrFun hpte k).trans hnone, hgo _ (.mapped htidy' ?_ hdeny)⟩
    rw [hpte', hpte, Space.mapRange_one hpa]
    rfl

theorem mapLoop_translates (h : m.Tidy d) (hperm : perm < 2 ^ 32) (hpa : pa < 2 ^ 32)
    (hn : k + n < 2 ^ 20) (hr : n < r) (hnone : ∀ j, k ≤ j → j ≤ k + n → m.pte d j = none) :
    Wp (mapLoop d perm ((k + n) * 4096) r (k * 4096) pa) m (Mapped m d k (n + 1) pa perm) E := by
  -- the pages mapped so far are in `m`
  induction n generalizing m k pa r with
  | zero =>
    obtain ⟨r, rfl⟩ : ∃ r', r = r' + 1 := ⟨r - 1, by omega⟩
    apply mapLoop_round h hperm hpa hn (hnone k (Nat.le_refl k) (Nat.le_refl k))
    · exact fun m' hf => .refused hf
    · intro m' hm
      rw [Nat.add_zero, if_pos rfl]
      exact wp_pure hm
  | succ n ih =>
    obtain ⟨r, rfl⟩ : ∃ r', r = r' + 1 := ⟨r - 1, by omega⟩
    apply mapLoop_round h hperm hpa (by omega) (hnone k (Nat.le_refl k) (by omega))
    · exact fun m' hf => .refused hf
    intro m' hm
    cases hm with
    | mapped htidy hpte hdeny =>
      have ha : (k * 4096 + 4096) % 2 ^ 32 = (k + 1) * 4096 := by omega
      have hlast : k + (n + 1) = k + 1 + n := by omega
      rw [if_neg (by omega), ha, hlast]
      have hnone' : ∀ j, k + 1 ≤ j → j ≤ k + 1 + n → m'.pte d j = none := by
        intro j hj hj'
        rw [hpte]
        show (if k ≤ j ∧ j < k + 1 then _ else m.pte d j) = none
        rw [if_neg (by omega), hnone j (by omega) (by omega)]
      apply (ih htidy (mod_lt _ (by decide)) (by omega) (by omega) hnone').post
      intro b m'' hm
      cases hm with
      | refused hf => exact .refused (hf.imp_left fun hne hd => hne (hdeny hd))
      | mapped htidy' hpte' hdeny' =>
        refine .mapped htidy' ?_ fun hd => hdeny' (hdeny hd)
        rw [← Space.mapRange_succ, hpte']
        funext j
        show (if k + 1 ≤ j ∧ j < k + 1 + (n + 1) then _ else m'.pte d j) =
          if k + 1 ≤ j ∧ j < k + 1 + (n + 1) then _ else _
        rw [hpte]

/-- `mappages` on any range that does not wrap; the last page may be the last one of the address
space. -/
theorem mappages_translates {va size : Nat} (h : m.Tidy d) (hsize : 0 < size)
    (hva : va + size ≤ 2 ^ 32) (hpa : pa < 2 ^ 32) (hperm : perm < 2 ^ 32)
    (hnone : ∀ k, va / 4096 ≤ k → k ≤ (va + size - 1) / 4096 → m.pte d k = none) :
    Wp (mappages d va size pa perm) m
      (Mapped m d (va / 4096) ((va + size - 1) / 4096 - va / 4096 + 1) pa perm) E := by
  have hlast : pgRoundDown ((va + size + (2 ^ 32 - 1)) % 2 ^ 32) =
      (va / 4096 + ((va + size - 1) / 4096 - va / 4096)) * 4096 := by
    unfold pgRoundDown
    omega
  have hfirst : pgRoundDown va = va / 4096 * 4096 := rfl
  rw [mappages, hlast, hfirst]
  refine mapLoop_translates h hperm hpa (by omega) ?_ fun j hj hj' => hnone j hj (by omega)
  show _ < 2 ^ 20
  omega

def Frames.translate (m : Frames) (d a : Nat) : Option (Nat × Nat) :=
  (m.pte d (a / 4096)).map fun e => (frameOf e * 4096 + a % 4096, pteFlags e)

theorem pteFlags_or (hperm : perm < 4096) :
    pteFlags (pa ||| perm ||| pteP) = pa % 4096 ||| perm ||| pteP := by
  show (pa ||| perm ||| 1) % 2 ^ 12 = pa % 2 ^ 12 ||| perm ||| 1
  rw [or_mod_two_pow, or_mod_two_pow, mod_eq_of_lt hperm]

theorem translate_mapRange (hm : m'.pte d = ((m.space d).mapRange k n pa perm).pte)
    (hperm : perm < 4096) (ha : k ≤ a / 4096) (ha' : a / 4096 < k + n) :
    m'.translate d a = some ((pa + (a / 4096 - k) * 4096) % 2 ^ 32 / 4096 * 4096 + a % 4096,
      pa % 4096 ||| perm ||| pteP) := by
  have hpte : m'.pte d (a / 4096) =
      some ((pa + (a / 4096 - k) * 4096) % 2 ^ 32 ||| perm ||| pteP) := by
    rw [hm]
    exact if_pos ⟨ha, ha'⟩
  have hmod : (pa + (a / 4096 - k) * 4096) % 2 ^ 32 % 4096 = pa % 4096 := by omega
  rw [Frames.translate, hpte, Option.map_some, frameOf_or hperm, pteFlags_or hperm, hmod]

/-! ### `setupkvm` -/

theorem addRegions_congr (h : s.pte = s'.pte) :
    (rs.foldl Space.addRegion s).pte = (rs.foldl Space.addRegion s').pte := by
  induction rs generalizing s s' with
  | nil => exact h
  | cons r rs ih =>
    refine ih (funext fun j => ?_)
    simp only [Space.addRegion, Space.mapRange, h]

theorem addRegions_region (hrs : Ordered lo rs)
    (hreg : reg ∈ rs) (hk : reg.first ≤ k) (hk' : k < reg.first + reg.count) :
    (rs.foldl Space.addRegion s).pte k =
      ((s.mapRange reg.first reg.count reg.physStart reg.perm).pte k) := by
  induction rs generalizing s lo with
  | nil => cases hreg
  | cons r rs ih =>
    obtain ⟨_, _, hrest⟩ := hrs
    rcases mem_cons.1 hreg with rfl | hreg
    · rw [foldl_cons, addRegions_pte hrest hk']
      rfl
    · rw [foldl_cons, ih hrest hreg]
      simp only [Space.mapRange, hk, hk', true_and, if_true]

theorem mapRegions_translates (h : m.Tidy d) (hrs : Ordered lo rs)
    (hnone : ∀ j, lo ≤ j → m.pte d j = none) :
    Wp (mapRegions d rs) m
      (fun b m' => b = true → m'.pte d = (rs.foldl Space.addRegion (m.space d)).pte) E := by
  induction rs generalizing m lo with
  | nil => exact wp_pure fun _ => rfl
  | cons r rs ih =>
    obtain ⟨hlo, hproper, hrest⟩ := hrs
    have hfirst : r.virt / 4096 = r.first := rfl
    have hcount : (r.virt + r.size - 1) / 4096 - r.virt / 4096 + 1 = r.count := by
      obtain ⟨h₁, h₂, h₃, _, _, _, _⟩ := hproper
      unfold Region.count
      omega
    have hperm : r.perm < 2 ^ 32 := Nat.lt_trans hproper.perm (by decide)
    have hmap := mappages_translates (E := E) h hproper.pos hproper.fits hproper.phys hperm
      fun k hk _ => hnone k (Nat.le_trans hlo hk)
    rw [hcount, hfirst] at hmap
    apply wp_seq hmap
    intro b m' hm
    cases hm with
    | refused _ => exact wp_pure fun hb => by cases hb
    | mapped htidy hpte _ =>
      rw [if_pos rfl]
      have hnone' : ∀ j, r.first + r.count ≤ j → m'.pte d j = none := by
        intro j hj
        rw [hpte]
        show (if r.first ≤ j ∧ j < r.first + r.count then _ else m.pte d j) = none
        rw [if_neg (by omega), hnone j (by omega)]
      apply (ih htidy hrest hnone').post
      intro b m'' hb hok
      rw [hb hok, foldl_cons]
      exact addRegions_congr (s := m'.space d) hpte

abbrev NoRemap {α : Type} (x : VmM α) (m : Frames) : Prop :=
  Wp x m (fun _ _ => True) fun e _ => e ≠ .remap

variable {I : Image}

theorem kfree_noRemap (f : Nat) : NoRemap (kfree I f) m :=
  wp_ite (fun _ => wp_modify trivial) fun _ => wp_throw fun he => by cases he

theorem deallocLoop_noRemap {oldsz : Nat} (ha : a < 2 ^ 32) :
    NoRemap (deallocLoop I d oldsz n a) m := by
  induction n generalizing m a with
  | zero => exact wp_pure trivial
  | succ n ih =>
    unfold deallocLoop
    refine wp_ite (fun _ => wp_walkpgdir ha ?_) fun _ => wp_pure trivial
    cases m.tab d (pdx a) with
    | none => exact ih (mod_lt _ (by decide))
    | some t =>
      apply wp_get_bind
      refine wp_ite (fun _ => wp_ite (fun _ => wp_throw fun he => by cases he) fun _ => ?_)
        fun _ => ih (mod_lt _ (by decide))
      refine wp_seq (kfree_noRemap _) fun _ m' _ => wp_modify_bind ?_
      exact ih (mod_lt _ (by decide))

theorem freeTables_noRemap : NoRemap (freeTables I d n i) m := by
  induction n generalizing m i with
  | zero => exact wp_pure trivial
  | succ n ih =>
    apply wp_get_bind
    exact wp_ite (fun _ => wp_seq (kfree_noRemap _) fun _ _ _ => ih) fun _ => ih

theorem freevm_noRemap : NoRemap (freevm I d) m := by
  refine wp_ite (fun _ => wp_throw fun he => by cases he) fun _ => ?_
  have hdealloc : NoRemap (deallocuvm I d kernBase 0) m :=
    wp_ite (fun _ => wp_pure trivial) fun _ =>
      wp_seq (deallocLoop_noRemap (by decide)) fun _ _ _ => wp_pure trivial
  refine wp_seq hdealloc fun _ _ _ => ?_
  exact wp_seq freeTables_noRemap fun _ _ _ => kfree_noRemap _

/-- `setupkvm` with `data` at any page; `I` says which frames `freevm` may give back. -/
def setupkvmAt (I : Image) (data : Nat) : VmM (Option Nat) := do
  match ← kalloc with
  | none => pure none
  | some d =>
    memset d 0
    if ← mapRegions d (kmapAt data) then pure (some d)
    else
      freevm I d
      pure none

theorem setupkvm_eq (I : Image) : setupkvm I = setupkvmAt I I.dataAddr := rfl

theorem tidy_zeroed (deny : List Bool) (hfree : m.free = d :: free)
    (hnodup : m.free.Nodup) (hlt : ∀ f ∈ m.free, f < 2 ^ 20) :
    let m' := ({ m with free := free, deny := deny } : Frames).setPage d fun _ => 0
    m'.Tidy d ∧ ∀ k, m'.pte d k = none := by
  intro m'
  have htab : ∀ i, m'.tab d i = none := tab_of_zero fun j => by
    rw [Frames.word, page_setPage, Bytes.word_zero]
  have hno : ∀ {i t}, m'.tab d i ≠ some t := fun {i t} => by simp [htab i]
  rw [hfree, nodup_cons] at hnodup
  exact ⟨⟨fun i j t hi => (hno hi).elim, fun i => hno, hnodup.2, hnodup.1,
    fun i t hi => (hno hi).elim, fun f hf => hlt f (hfree ▸ mem_cons_of_mem d hf)⟩,
    fun k => pte_of_no_tab (htab _)⟩

theorem setupkvmAt_spec {q : Nat} (hlo : 256 < q) (hhi : q < 57344) (hnodup : m.free.Nodup)
    (hlt : ∀ f ∈ m.free, f < 2 ^ 20) :
    Wp (setupkvmAt I (q * 4096)) m
      (fun r m' => ∀ d, r = some d →
        m'.pte d = ((kmapAt (q * 4096)).foldl Space.addRegion Space.empty).pte)
      fun e _ => e ≠ .remap := by
  apply wp_seq (kalloc_spec m)
  intro r m₁ hk
  cases hk with
  | refused _ => exact wp_pure fun d hd => by cases hd
  | given hfree =>
    obtain ⟨htidy, hnone⟩ := tidy_zeroed m.deny.tail hfree hnodup hlt
    apply wp_modify_bind
    have hmap := mapRegions_translates (E := fun e _ => e ≠ .remap) htidy
      (kmapAt_ordered hlo hhi) fun k _ => hnone k
    apply wp_seq hmap
    intro b m' hb
    cases b with
    | true =>
      refine wp_pure fun d hd => ?_
      cases hd
      rw [hb rfl]
      exact addRegions_congr (funext hnone)
    | false =>
      exact wp_seq freevm_noRemap fun _ _ _ => wp_pure fun d hd => by cases hd

theorem kmapAt_phys {data : Nat} (hlo : extMem < data) (hhi : data < physTop)
    (hreg : reg ∈ kmapAt data) : reg.physStart + reg.size ≤ 2 ^ 32 := by
  have hlo' : 0x100000 < data := hlo
  have hhi' : data < 0xE000000 := hhi
  simp only [kmapAt, mem_cons, not_mem_nil, or_false] at hreg
  rcases hreg with rfl | rfl | rfl | rfl
  · decide
  · show 0x100000 + (data + (2 ^ 32 - 0x100000)) % 2 ^ 32 ≤ 2 ^ 32
    omega
  · show data + (0xE000000 + (2 ^ 32 - data)) % 2 ^ 32 ≤ 2 ^ 32
    omega
  · decide

theorem ordered_proper (hrs : Ordered lo rs) (hreg : reg ∈ rs) : reg.Proper := by
  induction rs generalizing lo with
  | nil => cases hreg
  | cons r rs ih =>
    obtain ⟨_, hproper, hrest⟩ := hrs
    rcases mem_cons.1 hreg with rfl | hreg
    · exact hproper
    · exact ih hrest hreg

theorem translate_region (hrs : Ordered lo rs)
    (hreg : reg ∈ rs) (hphys : reg.physStart % 4096 = 0) (hend : reg.physStart + reg.size ≤ 2 ^ 32)
    (hm : m.pte d = (rs.foldl Space.addRegion s).pte) {o : Nat} (ho : o < reg.size) :
    m.translate d (reg.virt + o) = some (reg.physStart + o, reg.perm ||| pteP) := by
  obtain ⟨hvirt, hsize, _, _, _, _, hperm⟩ := ordered_proper hrs hreg
  have hpage : (reg.virt + o) / 4096 = reg.first + o / 4096 := by
    unfold Region.first
    omega
  have hin : o / 4096 < reg.count := by
    unfold Region.count
    omega
  have hpte : m.pte d ((reg.virt + o) / 4096) =
      some ((reg.physStart + o / 4096 * 4096) % 2 ^ 32 ||| reg.perm ||| pteP) := by
    rw [hm, hpage, addRegions_region hrs hreg (Nat.le_add_right _ _) (by omega)]
    show (if reg.first ≤ _ ∧ _ then _ else _) = _
    rw [if_pos ⟨Nat.le_add_right _ _, by omega⟩, Nat.add_sub_cancel_left]
  have hmod : (reg.physStart + o / 4096 * 4096) % 2 ^ 32 % 4096 = 0 := by omega
  have haddr : (reg.physStart + o / 4096 * 4096) % 2 ^ 32 / 4096 * 4096 + (reg.virt + o) % 4096 =
      reg.physStart + o := by omega
  rw [Frames.translate, hpte, Option.map_some, frameOf_or hperm, pteFlags_or hperm, hmod, haddr,
    zero_or]

theorem userBit_pteFlags (e : Nat) : userBit (pteFlags e) = userBit e := by
  have h : e % 4096 / 4 % 2 = e / 4 % 2 := by omega
  unfold userBit pteFlags
  rw [h]

/-- `mappages` gives every page of a range the entry for the frame at the same distance from `pa`
and changes no other page; the loop ends at the last page, or when `kalloc` refuses a table. So the
directories of `setupkvm` map the regions of `kmap`, without user access. -/
theorem page_tables_translate :
    (∀ (m : Frames) (d va size pa perm : Nat), m.Tidy d → 0 < size → va + size ≤ 2 ^ 32 →
      pa < 2 ^ 32 → perm < 2 ^ 32 →
      (∀ k, va / 4096 ≤ k → k ≤ (va + size - 1) / 4096 → m.pte d k = none) →
      ∃ ok m', mappages d va size pa perm m = .ok ok m' ∧
        (ok = false → m.deny ≠ [] ∨ m'.free = []) ∧
        (ok = true →
          (∀ a, va / 4096 ≤ a / 4096 → a / 4096 ≤ (va + size - 1) / 4096 →
            m'.pte d (a / 4096) =
              some ((pa + (a / 4096 - va / 4096) * 4096) % 2 ^ 32 ||| perm ||| pteP) ∧
            (perm < 4096 → m'.translate d a =
              some ((pa + (a / 4096 - va / 4096) * 4096) % 2 ^ 32 / 4096 * 4096 + a % 4096,
                pa % 4096 ||| perm ||| pteP))) ∧
          ∀ a, ¬ (va / 4096 ≤ a / 4096 ∧ a / 4096 ≤ (va + size - 1) / 4096) →
            m'.translate d a = m.translate d a)) ∧
    (∀ (I : Image) (data : Nat) (m : Frames), data % 4096 = 0 → extMem < data → data < physTop →
      m.free.Nodup → (∀ f ∈ m.free, f < 2 ^ 20) →
      Wp (setupkvmAt I data) m
        (fun r m' => ∀ d, r = some d →
          (∀ reg ∈ kmapAt data, ∀ o, o < reg.size →
            m'.translate d (reg.virt + o) = some (reg.physStart + o, reg.perm ||| pteP)) ∧
          ∀ a p, m'.translate d a = some p → userBit p.2 = false)
        fun e _ => e ≠ .remap) ∧
    ∀ I, setupkvm I = setupkvmAt I I.dataAddr := by
  refine ⟨?_, ?_, setupkvm_eq⟩
  · intro m d va size pa perm htidy hsize hva hpa hperm hnone
    have hmap := mappages_translates (E := fun _ _ => False) htidy hsize hva hpa hperm hnone
    obtain ⟨ok, m', hrun, hm⟩ := hmap.total fun _ _ he => he
    refine ⟨ok, m', hrun, ?_, ?_⟩
    · rintro rfl
      cases hm with
      | refused h => exact h
    rintro rfl
    cases hm with
    | mapped _ hpte _ =>
      refine ⟨fun a ha ha' => ⟨?_, fun hp => ?_⟩, fun a ha => ?_⟩
      · rw [hpte]
        exact if_pos ⟨ha, by omega⟩
      · exact translate_mapRange hpte hp ha (by omega)
      · have hsame : m'.pte d (a / 4096) = m.pte d (a / 4096) := by
          rw [hpte]
          exact if_neg fun hc => ha ⟨hc.1, by omega⟩
        rw [Frames.translate, Frames.translate, hsame]
  · intro I data m haligned hlo hhi hnodup hlt
    have hlo' : 0x100000 < data := hlo
    have hhi' : data < 0xE000000 := hhi
    obtain ⟨q, rfl⟩ : ∃ q, data = q * 4096 := ⟨data / 4096, by omega⟩
    have hq : 256 < q := by omega
    have hq' : q < 57344 := by omega
    apply (setupkvmAt_spec hq hq' hnodup hlt).post
    intro r m' hr d hd
    have hpte := hr d hd
    refine ⟨fun reg hreg o ho => ?_, fun a p hp => ?_⟩
    · exact translate_region (kmapAt_ordered hq hq') hreg (kmapAt_flags haligned hreg).1
        (kmapAt_phys hlo hhi hreg) hpte ho
    obtain ⟨e, he, rfl⟩ := Option.map_eq_some_iff.1 hp
    rw [hpte] at he
    rw [userBit_pteFlags]
    exact addRegions_userBit (fun reg hreg => kmapAt_flags haligned hreg)
      (fun k e hk => by cases hk) he

theorem last_page_translates :
    ∃ m', mappages 5 0xFFFFF000 4096 0xFE000000 pteW ⟨fun _ _ => 0, [6, 7], []⟩ = .ok true m' ∧
      m'.translate 5 0xFFFFF123 = some (0xFE000123, 3) := by
  obtain ⟨htidy, hnone⟩ := tidy_zeroed (d := 5) (m := ⟨fun _ _ => 0, [5, 6, 7], []⟩) [] rfl
    (by decide) (by decide)
  have hblank : (⟨fun _ _ => 0, [6, 7], []⟩ : Frames) =
      (⟨fun _ _ => 0, [6, 7], []⟩ : Frames).setPage 5 fun _ => 0 := by
    rw [Frames.setPage, update_eq_self]
  rw [hblank]
  obtain ⟨ok, m', hrun, hfalse, htrue⟩ := page_tables_translate.1 _ 5 0xFFFFF000 4096 0xFE000000
    pteW htidy (by decide) (by decide) (by decide) (by decide) fun k _ _ => hnone k
  have hok : runsTo (mappages 5 0xFFFFF000 4096 0xFE000000 pteW)
      ((⟨fun _ _ => 0, [6, 7], []⟩ : Frames).setPage 5 fun _ => 0) (fun ok _ => ok) = true := by
    decide +kernel
  obtain ⟨ok', m'', hrun', htest⟩ := exists_of_runsTo _ _ _ hok
  rw [hrun] at hrun'
  cases hrun'
  subst htest
  exact ⟨m', hrun, ((htrue rfl).1 0xFFFFF123 (by decide) (by decide)).2 (by decide)⟩

end Xv6Signals.Vm
