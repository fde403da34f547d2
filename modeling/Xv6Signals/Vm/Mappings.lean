import Mathlib.Logic.Equiv.Basic
import Xv6Signals.Vm.Ownership

namespace Xv6Signals.Vm
open Lib Function Frames

variable {H : Type} [DecidableEq H] {I : Image} {D : Dirs H} {K : Wholes H} {T : Set Nat}
  {A : Spaces H} {x y : H} {s : Space} {m m' : Frames} {f g d t i j k v e : Nat}

theorem Space.enter_eq {b b' : Bytes} {p p' : Option Nat} (hp : p = p') (hb : b = b') :
    s.enter k p b = s.enter k p' b' := by
  rw [hp, hb]

theorem Rep.map_user (h : Rep I D K (insert f T) A m) (hf : f ∉ T) (hd : D x = some d)
    (hs : A x = some s) (ht : m.tab d (k / 1024) = some t) (hnone : s.pte k = none)
    (hk : k < userPages) (hv : v < 2 ^ 32) (hp : present v = true) (hframe : frameOf v = f) :
    Rep I D K T (update A x (some (s.enter k (some v) (m.page f))))
      (m.setWord t (k % 1024) v) := by
  have he := h.entered hd ht (v := v)
  have hpte : (m.setWord t (k % 1024) v).pte d k = some v := by
    rw [h.pte_setWord hd ht hv, if_pos hp]
  have hft : f ≠ t := h.placed.ne (At.hand (Set.mem_insert f T)) (At.table hd ht)
    fun he => by cases he
  rw [h.pte_eq hd hs] at hnone
  refine ⟨h.nodup, h.placed.move (x := .hand) (y := .user x k) (Set.mem_insert f T)
    (fun he => by cases he) (fun g => mem_iff_of_insert hf) ?_ ?_,
    h.spaces_update hd he.same ?_, he.whole⟩
  · intro g
    rw [at_user hd, at_user hd, hpte, hnone]
    simp [hk, hframe, eq_comm]
  · intro z g hz hz'
    exact he.keep hz' fun heq => (hz heq).elim
  · rw [he.space, h.space_eq hd hs]
    apply Space.enter_eq hpte
    rw [mem_of_pte hk hpte, hframe]
    exact page_setPage_of_ne hft

section Entries

variable (h : Rep I D K T A m) (hd : D x = some d) (hs : A x = some s)
include h hd hs

theorem Rep.map_kernel (ht : m.tab d (k / 1024) = some t) (hk : userPages ≤ k) (hv : v < 2 ^ 32)
    (hp : present v = true) :
    Rep I D K T (update A x (some { s with pte := update s.pte k (some v) }))
      (m.setWord t (k % 1024) v) := by
  have he := h.entered hd ht (v := v)
  refine ⟨h.nodup, h.placed.congr fun z g => ?_, h.spaces_update hd he.same ?_, he.whole⟩
  · by_cases hz : z = .user x k
    · subst hz
      exact iff_of_false (fun hu => Nat.not_lt.2 hk hu.1) fun hu => Nat.not_lt.2 hk hu.1
    · exact he.keep hz fun _ => rfl
  have hmem : ∀ m : Frames, m.mem d k = fun _ => 0 := fun m => by
    rw [Frames.mem, if_neg (Nat.not_lt.2 hk)]
  rw [he.space, h.space_eq hd hs, h.pte_setWord hd ht hv, if_pos hp, hmem, ← hmem m]
  show Space.mk _ _ (update (m.mem d) k (m.mem d k)) = _
  rw [update_eq_self]
  rfl

variable (hpte : s.pte k = some e) (hk : k < userPages)
include hpte hk

omit [DecidableEq H] in
theorem Rep.user_at : At m D K T (.user x k) (frameOf e) := by
  rw [h.pte_eq hd hs] at hpte
  exact ⟨hk, d, e, hd, hpte, rfl⟩

theorem Rep.unmap (ht : m.tab d (k / 1024) = some t) :
    frameOf e ∉ T ∧ Rep I D K (insert (frameOf e) T)
      (update A x (some (s.enter k none fun _ => 0))) (m.setWord t (k % 1024) 0) := by
  have huser := h.user_at hd hs hpte hk
  have he := h.entered hd ht (v := 0)
  have hnew : (m.setWord t (k % 1024) 0).pte d k = none := by
    rw [h.pte_setWord hd ht (by decide)]
    exact if_neg (by decide)
  have hT : frameOf e ∉ T := fun hT => by cases h.placed.one huser (At.hand hT)
  rw [h.pte_eq hd hs] at hpte
  refine ⟨hT, h.nodup, h.placed.move (y := .hand) huser (fun he => by cases he) ?_
    (fun g => mem_insert_iff_or) ?_, h.spaces_update hd he.same ?_, he.whole⟩
  · intro g
    rw [at_user hd, at_user hd, hnew, hpte]
    refine iff_of_false (fun ⟨_, _, he, _⟩ => by cases he) fun ⟨⟨_, _, he, hg⟩, hne⟩ => ?_
    cases he
    exact hne hg.symm
  · intro z g hz hz'
    exact he.keep hz fun heq => (hz' heq).elim
  · rw [he.space, ← h.space_eq hd hs]
    exact Space.enter_eq hnew (mem_of_no_pte hnew)

theorem Rep.set_flags (ht : m.tab d (k / 1024) = some t) (hv : v < 2 ^ 32) (hp : present v = true)
    (hframe : frameOf v = frameOf e) :
    Rep I D K T (update A x (some (s.enter k (some v) (s.mem k))))
      (m.setWord t (k % 1024) v) := by
  have he := h.entered hd ht (v := v)
  have hspace := h.space_eq hd hs
  have hold : m.pte d k = some e := h.pte_eq hd hs ▸ hpte
  have hnew : (m.setWord t (k % 1024) v).pte d k = some v := by
    rw [h.pte_setWord hd ht hv, if_pos hp]
  have hft : frameOf e ≠ t := At.ne_user h.placed (At.table hd ht) hk hd hold fun he => by cases he
  refine ⟨h.nodup, h.placed.congr fun z g => ?_, h.spaces_update hd he.same ?_, he.whole⟩
  · by_cases hz : z = .user x k
    · subst hz
      rw [at_user hd, at_user hd, hnew, hold]
      simp only [Option.some.injEq, exists_eq_left', hframe]
    · exact he.keep hz fun _ => rfl
  · rw [he.space, ← hspace]
    apply Space.enter_eq hnew
    rw [mem_of_pte hk hnew, hframe, hspace]
    show (m.setWord t (k % 1024) v).page (frameOf e) = m.mem d k
    rw [mem_of_pte hk hold]
    exact page_setPage_of_ne hft

theorem Rep.write_user (b : Bytes) : Rep I D K T (update A x (some (s.enter k (some e) b)))
      (m.setPage (frameOf e) b) := by
  have huser := h.user_at hd hs hpte hk
  have hold : m.pte d k = some e := h.pte_eq hd hs ▸ hpte
  have hpage : ∀ f, f ≠ frameOf e → (m.setPage (frameOf e) b).page f = m.page f := fun f hf =>
    page_setPage_of_ne hf
  have hother : ∀ y d', y ≠ x → D y = some d' → m.Same (m.setPage (frameOf e) b) d' :=
    fun y d' hy hd' => h.same_of_other huser (fun he => hy (Option.some.inj he).symm) hd' hpage
  have hdir := hpage d (At.ne_dir h.placed huser hd fun he => by cases he)
  have htab : ∀ i, (m.setPage (frameOf e) b).tab d i = m.tab d i := tab_congr hdir
  have hnew : ∀ k', (m.setPage (frameOf e) b).pte d k' = m.pte d k' := fun k' =>
    pte_congr hdir fun t ht =>
      hpage t (At.ne_table h.placed huser hd ht fun he => by cases he)
  have hmem : ∀ j, j ≠ k → (m.setPage (frameOf e) b).mem d j = m.mem d j := fun j hj =>
    mem_congr (hnew j) fun e' hu he' =>
      hpage _ (At.ne_user h.placed huser hu hd he' fun heq => hj (Place.user.inj heq).2.symm)
  refine ⟨h.nodup, h.placed.congr fun z g => ?_, h.spaces_update hd hother ?_,
    h.whole_of_other huser (fun _ he => by cases he) hpage⟩
  · exact At.keep_others hd hother (fun _ => rfl) (fun _ => rfl) (fun i _ => htab i)
      fun k' _ => hnew k'
  · rw [h.space_eq hd hs, space_enter htab (fun j _ => hnew j) hmem, hnew, hold,
      mem_of_pte hk ((hnew k).trans hold), page_setPage]

end Entries

def Frames.tables (m : Frames) (d : Nat) : Set Nat := { g | g = d ∨ ∃ i, m.tab d i = some g }

omit [DecidableEq H] in
theorem At.mem_tables {z : Place H} (hat : At m D K T z g) (hz : z.owner = some x)
    (hd : D x = some d) (hnone : ∀ k, k < userPages → m.pte d k = none) : g ∈ m.tables d := by
  cases z with
  | dir y =>
    cases hz
    exact .inl (Option.some.inj (hat.symm.trans hd))
  | table y i =>
    cases hz
    exact .inr ⟨i, (at_table hd).1 hat⟩
  | user y k =>
    cases hz
    obtain ⟨hk, e, he, _⟩ := (at_user hd).1 hat
    rw [hnone k hk] at he
    cases he
  | _ => cases hz

theorem Rep.detach (h : Rep I D K T A m) (hd : D x = some d) (hs : A x = some s)
    (hnone : ∀ k, k < userPages → s.pte k = none) :
    Rep I (update D x none) K (T ∪ m.tables d) (update A x none) m := by
  rw [h.pte_eq hd hs] at hnone
  have hdetached : ∀ {z : Place H} {T g}, z.owner ≠ some x →
      (At m (update D x none) K T z g ↔ At m D K T z g) := fun hz =>
    At.congr_dirs fun y hy => update_of_ne (fun he : y = x => hz (he ▸ hy)) ..
  refine ⟨h.nodup, h.placed.map (fun _ z => if z.owner = some x then .hand else z) ?_, ?_,
    h.whole⟩
  · intro z g
    constructor
    · intro hat
      have hz : z.owner ≠ some x := fun hz => not_at_of_no_dir (update_self ..) hz hat
      rw [hdetached hz] at hat
      by_cases hh : z = .hand
      · subst hh
        rcases hat with hT | rfl | ⟨i, hi⟩
        · exact ⟨.hand, hT, if_neg hz⟩
        · exact ⟨.dir x, hd, if_pos rfl⟩
        · exact ⟨.table x i, ⟨d, hd, hi⟩, if_pos rfl⟩
      · exact ⟨z, (At.congr_hand hh).1 hat, if_neg hz⟩
    · rintro ⟨w, hat, rfl⟩
      by_cases hw : w.owner = some x
      · rw [if_pos hw]
        exact .inr (hat.mem_tables hw hd hnone)
      rw [if_neg hw, hdetached hw]
      by_cases hh : w = .hand
      · subst hh
        exact .inl hat
      · exact (At.congr_hand hh).1 hat
  · intro y
    by_cases hy : y = x
    · subst hy
      rw [update_self, update_self]
      rfl
    · rw [update_of_ne hy, update_of_ne hy, h.spaces]

theorem At.keep_pages {T' : Set Nat} {z : Place H} {c : Option (Nat × Bytes)} (hz : z ≠ .page x)
    (hz' : z ≠ .hand) : At m D (update K x c) T z g ↔ At m D K T' z g := by
  cases z with
  | hand => exact (hz' rfl).elim
  | page y =>
    have hy : y ≠ x := fun he => hz (he ▸ rfl)
    refine exists_congr fun b => ?_
    rw [update_of_ne hy]
  | _ => exact Iff.rfl

theorem Rep.keep_page (h : Rep I D K (insert f T) A m) (hf : f ∉ T) (hx : K x = none) :
    Rep I D (update K x (some (f, m.page f))) T A m := by
  refine ⟨h.nodup, h.placed.move (x := .hand) (y := .page x) (Set.mem_insert f T)
    (fun he => by cases he) (fun g => mem_iff_of_insert hf) ?_
    (fun z g hz hz' => At.keep_pages hz' hz), h.spaces, ?_⟩
  · intro g
    show (∃ b, update K x (some (f, m.page f)) x = some (g, b)) ↔
      (∃ b, K x = some (g, b)) ∨ g = f
    rw [update_self, hx]
    simp [eq_comm]
  · intro y g b hk
    by_cases hy : y = x
    · subst hy
      rw [update_self] at hk
      cases hk
      rfl
    · rw [update_of_ne hy] at hk
      exact h.whole y g b hk

theorem Rep.drop_page {b : Bytes} (h : Rep I D K T A m) (hx : K x = some (f, b)) :
    f ∉ T ∧ Rep I D (update K x none) (insert f T) A m := by
  have hpage : At m D K T (.page x) f := ⟨b, hx⟩
  have hT : f ∉ T := fun hT => by cases h.placed.one hpage (At.hand hT)
  refine ⟨hT, h.nodup, h.placed.move (y := .hand) hpage (fun he => by cases he) ?_
    (fun g => mem_insert_iff_or) (fun z g => At.keep_pages), h.spaces, ?_⟩
  · intro g
    show (∃ b, update K x none x = some (g, b)) ↔ (∃ b, K x = some (g, b)) ∧ g ≠ f
    rw [update_self, hx]
    refine iff_of_false (fun ⟨_, he⟩ => by cases he) fun ⟨⟨_, he⟩, hne⟩ => ?_
    cases he
    exact hne rfl
  · intro y g c hk
    by_cases hy : y = x
    · subst hy
      rw [update_self] at hk
      cases hk
    · rw [update_of_ne hy] at hk
      exact h.whole y g c hk

def Place.rename (r : H → H) : Place H → Place H
  | .dir x => .dir (r x)
  | .table x i => .table (r x) i
  | .user x k => .user (r x) k
  | z => z

omit [DecidableEq H] in
theorem Rep.rename (h : Rep I D K T A m) (r : Equiv.Perm H) : Rep I (D ∘ r) K T (A ∘ r) m := by
  refine ⟨h.nodup, h.placed.map (fun _ => Place.rename r.symm) fun z g => ?_,
    fun x => h.spaces (r x), h.whole⟩
  constructor
  · intro hat
    refine ⟨z.rename r, ?_, ?_⟩
    · cases z <;> exact hat
    · cases z <;> simp only [Place.rename, Equiv.symm_apply_apply]
  · rintro ⟨w, hat, rfl⟩
    cases w <;> simpa only [Place.rename, At, comp_apply, Equiv.apply_symm_apply] using hat

end Xv6Signals.Vm
