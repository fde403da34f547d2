import Mathlib.Data.Set.Insert
import Xv6Signals.Lib.Places
import Xv6Signals.Vm.Paging

namespace Xv6Signals.Vm
open Lib Function Frames Option

@[simp] theorem present_or (pa perm : Nat) : present (pa ||| perm ||| pteP) = true := by
  have h : (pa ||| perm ||| 1) % 2 = 1 := Nat.or_mod_two_eq_one.2 (.inr rfl)
  rw [present, pteP, h]
  rfl

theorem frameOf_or {pa perm : Nat} (h : perm < 4096) :
    frameOf (pa ||| perm ||| pteP) = pa / 4096 := by
  show (pa ||| perm ||| 1) / 2 ^ 12 = pa / 2 ^ 12
  rw [Nat.or_div_two_pow, Nat.or_div_two_pow, Nat.div_eq_of_lt h, Nat.or_zero]
  exact Nat.or_zero _

theorem or_lt {pa perm : Nat} (hpa : pa < 2 ^ 32) (h : perm < 4096) :
    (pa ||| perm ||| pteP) < 2 ^ 32 := by
  have hone : pteP < 2 ^ 32 := by decide
  exact Nat.or_lt_two_pow (Nat.or_lt_two_pow hpa (by omega)) hone

variable {m m' : Frames} {f g d t i j k v : Nat}

@[simp] theorem Frames.page_setPage (m : Frames) (f : Nat) (b : Bytes) :
    (m.setPage f b).page f = b := update_self ..

theorem Frames.page_setPage_of_ne {b : Bytes} (h : g ≠ f) :
    (m.setPage f b).page g = m.page g := update_of_ne h ..

theorem Frames.word_setWord (hv : v < 2 ^ 32) : (m.setWord f j v).word f j = v := by
  rw [Frames.word, Frames.setWord, page_setPage, Bytes.word_setWord _ _ hv]

theorem Frames.word_setWord_of_ne (h : k ≠ j) : (m.setWord f j v).word f k = m.word f k := by
  rw [Frames.word, Frames.setWord, page_setPage, Bytes.word_setWord_of_ne h]
  rfl

def Frames.tab (m : Frames) (d i : Nat) : Option Nat :=
  if i < 1024 ∧ present (m.word d i) then some (frameOf (m.word d i)) else none

def Frames.pte (m : Frames) (d k : Nat) : Option Nat :=
  (m.tab d (k / 1024)).bind fun t =>
    if present (m.word t (k % 1024)) then some (m.word t (k % 1024)) else none

def userPages : Nat := 524288

def Frames.mem (m : Frames) (d k : Nat) : Bytes :=
  if k < userPages then (m.pte d k).elim (fun _ => 0) fun e => m.page (frameOf e) else fun _ => 0

/-- An address space: the page tables that exist, the entries that are present and the contents
of the user pages. -/
@[ext] structure Space where
  table : Nat → Bool
  pte : Nat → Option Nat
  mem : Nat → Bytes

def Frames.space (m : Frames) (d : Nat) : Space := ⟨fun i => (m.tab d i).isSome, m.pte d, m.mem d⟩

def Space.empty : Space := ⟨fun _ => false, fun _ => none, fun _ _ => 0⟩

def Space.addTable (s : Space) (i : Nat) : Space :=
  { s with table := update s.table i true }

def Space.enter (s : Space) (k : Nat) (e : Option Nat) (b : Bytes) : Space :=
  { s with pte := update s.pte k e, mem := update s.mem k b }

theorem Frames.tab_congr (h : m'.page d = m.page d) (i : Nat) : m'.tab d i = m.tab d i := by
  unfold Frames.tab Frames.word
  rw [h]

theorem Frames.tab_lt (h : m.tab d i = some t) : i < 1024 := by
  unfold Frames.tab at h
  split at h
  · rename_i hi
    exact hi.1
  · cases h

theorem Frames.pte_of_tab (h : m.tab d (k / 1024) = some t) :
    m.pte d k = if present (m.word t (k % 1024)) then some (m.word t (k % 1024)) else none := by
  rw [Frames.pte, h, bind_some]

theorem Frames.pte_of_no_tab (h : m.tab d (k / 1024) = none) : m.pte d k = none := by
  rw [Frames.pte, h, bind_none]

theorem Frames.exists_tab {e : Nat} (h : m.pte d k = some e) :
    ∃ t, m.tab d (k / 1024) = some t := by
  obtain ⟨t, ht, _⟩ := bind_eq_some_iff.1 h
  exact ⟨t, ht⟩

theorem Frames.pte_congr (hd : m'.page d = m.page d)
    (ht : ∀ t, m.tab d (k / 1024) = some t → m'.page t = m.page t) : m'.pte d k = m.pte d k := by
  unfold Frames.pte
  rw [tab_congr hd]
  refine Option.bind_congr fun t htab => ?_
  unfold Frames.word
  rw [ht t htab]

theorem Frames.pte_setWord_of_ne (hne : d ≠ t)
    (htab : m.tab d (j / 1024) = some t → j / 1024 = k / 1024) (hj : j ≠ k) :
    (m.setWord t (k % 1024) v).pte d j = m.pte d j := by
  have hdir : (m.setWord t (k % 1024) v).tab d (j / 1024) = m.tab d (j / 1024) :=
    tab_congr (page_setPage_of_ne hne) _
  unfold Frames.pte
  rw [hdir]
  refine Option.bind_congr fun t' ht' => ?_
  by_cases he : t' = t
  · subst he
    have hdiv := htab ht'
    rw [word_setWord_of_ne (by omega)]
  · have hword : (m.setWord t (k % 1024) v).word t' (j % 1024) = m.word t' (j % 1024) :=
      congrArg (Bytes.word · _) (page_setPage_of_ne he)
    rw [hword]

theorem Frames.tab_setWord (hv : v < 2 ^ 32) (hi : i < 1024) (hp : present v = true) :
    (m.setWord d i v).tab d = update (m.tab d) i (some (frameOf v)) := by
  refine eq_update_iff.2 ⟨?_, fun j hj => ?_⟩
  · rw [Frames.tab, word_setWord hv, if_pos ⟨hi, hp⟩]
  · rw [Frames.tab, Frames.tab, word_setWord_of_ne hj]

theorem Frames.pte_addTable (htab : m'.tab d = update (m.tab d) i (some t))
    (hnone : m.tab d i = none) (hz : m'.page t = fun _ => 0)
    (hpage : ∀ j t', m.tab d j = some t' → m'.page t' = m.page t') : m'.pte d k = m.pte d k := by
  unfold Frames.pte Frames.word
  rw [htab]
  by_cases hk : k / 1024 = i
  · rw [hk, update_self, hnone, bind_some, hz, Bytes.word_zero]
    rfl
  · rw [update_of_ne hk]
    refine Option.bind_congr fun t' ht' => ?_
    rw [hpage _ t' ht']

theorem Frames.mem_of_pte {e : Nat} (hk : k < userPages) (h : m.pte d k = some e) :
    m.mem d k = m.page (frameOf e) := by
  rw [Frames.mem, if_pos hk, h, elim_some]

theorem Frames.mem_of_no_pte (h : m.pte d k = none) : m.mem d k = fun _ => 0 := by
  rw [Frames.mem, h, elim_none, ite_self]

theorem Frames.mem_congr (hp : m'.pte d k = m.pte d k)
    (hu : ∀ e, k < userPages → m.pte d k = some e → m'.page (frameOf e) = m.page (frameOf e)) :
    m'.mem d k = m.mem d k := by
  unfold Frames.mem
  rw [hp]
  split
  · cases h : m.pte d k with
    | none => rfl
    | some e => exact hu e ‹_› h
  · rfl

structure Frames.Same (m m' : Frames) (d : Nat) : Prop where
  tab : ∀ i, m'.tab d i = m.tab d i
  pte : ∀ k, m'.pte d k = m.pte d k
  mem : ∀ k, m'.mem d k = m.mem d k

theorem Frames.Same.space (h : m.Same m' d) : m'.space d = m.space d := by
  ext1
  · exact funext fun i => congrArg Option.isSome (h.tab i)
  · exact funext h.pte
  · exact funext h.mem

theorem Frames.space_enter (htab : ∀ i, m'.tab d i = m.tab d i)
    (hpte : ∀ j, j ≠ k → m'.pte d j = m.pte d j) (hmem : ∀ j, j ≠ k → m'.mem d j = m.mem d j) :
    m'.space d = (m.space d).enter k (m'.pte d k) (m'.mem d k) := by
  ext1
  · exact funext fun i => congrArg Option.isSome (htab i)
  · exact eq_update_iff.2 ⟨rfl, hpte⟩
  · exact eq_update_iff.2 ⟨rfl, hmem⟩

theorem Frames.same_of_page (hd : m'.page d = m.page d)
    (ht : ∀ i t, m.tab d i = some t → m'.page t = m.page t)
    (hu : ∀ k e, k < userPages → m.pte d k = some e → m'.page (frameOf e) = m.page (frameOf e)) :
    m.Same m' d := by
  have hp : ∀ k, m'.pte d k = m.pte d k := fun k => pte_congr hd (ht (k / 1024))
  exact ⟨tab_congr hd, hp, fun k => mem_congr (hp k) (hu k)⟩

/-- Where a frame can be: on the free list, in the hands of a running function, a page that its
holder uses as a whole (a kernel stack, a pipe), or a part of a holder's address space. -/
inductive Place (H : Type)
  | free
  | hand
  | page (x : H)
  | dir (x : H)
  | table (x : H) (i : Nat)
  | user (x : H) (k : Nat)

abbrev Dirs (H : Type) := H → Option Nat

abbrev Wholes (H : Type) := H → Option (Nat × Bytes)

abbrev Spaces (H : Type) := H → Option Space

variable {H : Type} {I : Image} {D : Dirs H} {K : Wholes H} {T : Set Nat} {A : Spaces H}
  {x y : H} {s : Space}

def At (m : Frames) (D : Dirs H) (K : Wholes H) (T : Set Nat) : Place H → Nat → Prop
  | .free, f => f ∈ m.free
  | .hand, f => f ∈ T
  | .page x, f => ∃ b, K x = some (f, b)
  | .dir x, f => D x = some f
  | .table x i, f => ∃ d, D x = some d ∧ m.tab d i = some f
  | .user x k, f => k < userPages ∧ ∃ d e, D x = some d ∧ m.pte d k = some e ∧ frameOf e = f

/-- Every frame is in one place; `D` gives the page directories, `K` the whole pages with their
contents, `T` the frames in hand, and `A` says what the address spaces are. -/
structure Rep (I : Image) (D : Dirs H) (K : Wholes H) (T : Set Nat) (A : Spaces H)
    (m : Frames) : Prop where
  nodup : m.free.Nodup
  placed : Placed I.owns (At m D K T)
  spaces : ∀ x, A x = (D x).map m.space
  whole : ∀ x f b, K x = some (f, b) → m.page f = b

section Places

def Place.owner : Place H → Option H
  | .dir x | .table x _ | .user x _ => some x
  | _ => none

variable {z : Place H} {T' : Set Nat}

theorem At.free (h : f ∈ m.free) : At m D K T .free f := h

theorem At.hand (h : f ∈ T) : At m D K T .hand f := h

theorem At.dir (h : D x = some d) : At m D K T (.dir x) d := h

theorem At.table (hd : D x = some d) (ht : m.tab d i = some t) : At m D K T (.table x i) t :=
  ⟨d, hd, ht⟩

theorem at_table (hd : D x = some d) : At m D K T (.table x i) g ↔ m.tab d i = some g := by
  simp only [At, hd, Option.some.injEq, exists_eq_left']

theorem at_user (hd : D x = some d) :
    At m D K T (.user x k) g ↔ k < userPages ∧ ∃ e, m.pte d k = some e ∧ frameOf e = g := by
  simp only [At, hd, Option.some.injEq, exists_and_left, exists_eq_left']

theorem At.exists_dir (hz : At m D K T z f) (ho : z.owner = some x) : ∃ d, D x = some d := by
  cases z with
  | dir y =>
    cases ho
    exact ⟨f, hz⟩
  | table y i =>
    cases ho
    exact hz.imp fun _ => And.left
  | user y k =>
    cases ho
    exact hz.2.imp fun _ ⟨_, hd, _⟩ => hd
  | _ => cases ho

section

variable (h : Placed I.owns (At m D K T)) (hz : At m D K T z g)
include h hz

theorem At.ne_dir (hd : D x = some d) (hx : z ≠ .dir x) : d ≠ g :=
  h.ne (At.dir hd) hz (Ne.symm hx)

theorem At.ne_table (hd : D x = some d) (ht : m.tab d i = some t) (hx : z ≠ .table x i) : t ≠ g :=
  h.ne (At.table hd ht) hz (Ne.symm hx)

theorem At.ne_user
    (hk : k < userPages) (hd : D x = some d) (he : m.pte d k = some v) (hx : z ≠ .user x k) :
    frameOf v ≠ g :=
  h.ne ((at_user hd).2 ⟨hk, v, he, rfl⟩) hz (Ne.symm hx)

end

theorem At.keep (hfree : z = .free → m'.free = m.free) (hhand : z = .hand → T' = T)
    (htab : ∀ y i, z = .table y i → ∀ d, D y = some d → m'.tab d i = m.tab d i)
    (hpte : ∀ y k, z = .user y k → ∀ d, D y = some d → m'.pte d k = m.pte d k) :
    At m' D K T' z g ↔ At m D K T z g := by
  cases z with
  | free =>
    show g ∈ m'.free ↔ g ∈ m.free
    rw [hfree rfl]
  | hand =>
    show g ∈ T' ↔ g ∈ T
    rw [hhand rfl]
  | table y i =>
    refine exists_congr fun d => and_congr_right fun hd => ?_
    rw [htab y i rfl d hd]
  | user y k =>
    refine and_congr_right fun _ => exists₂_congr fun d e => and_congr_right fun hd => ?_
    rw [hpte y k rfl d hd]
  | _ => exact Iff.rfl

theorem At.keep_of_same (hfree : z = .free → m'.free = m.free)
    (hhand : z = .hand → T' = T) (hsame : ∀ y d, D y = some d → m.Same m' d) :
    At m' D K T' z g ↔ At m D K T z g :=
  At.keep hfree hhand (fun y i _ d hd => (hsame y d hd).tab i)
    fun y k _ d hd => (hsame y d hd).pte k

theorem At.keep_others (hd : D x = some d)
    (hother : ∀ y d', y ≠ x → D y = some d' → m.Same m' d') (hfree : z = .free → m'.free = m.free)
    (hhand : z = .hand → T' = T) (htab : ∀ i, z = .table x i → m'.tab d i = m.tab d i)
    (hpte : ∀ k, z = .user x k → m'.pte d k = m.pte d k) :
    At m' D K T' z g ↔ At m D K T z g := by
  apply At.keep hfree hhand
  · intro y i hz d' hd'
    by_cases hy : y = x
    · subst hy
      cases hd.symm.trans hd'
      exact htab i hz
    · exact (hother y d' hy hd').tab i
  · intro y k hz d' hd'
    by_cases hy : y = x
    · subst hy
      cases hd.symm.trans hd'
      exact hpte k hz
    · exact (hother y d' hy hd').pte k

theorem At.congr_dirs {D' : Dirs H} (h : ∀ y, z.owner = some y → D' y = D y) :
    At m D' K T z g ↔ At m D K T z g := by
  cases z with
  | dir y =>
    show D' y = some g ↔ D y = some g
    rw [h y rfl]
  | table y i =>
    refine exists_congr fun d => ?_
    rw [h y rfl]
  | user y k =>
    refine and_congr_right fun _ => exists₂_congr fun d e => ?_
    rw [h y rfl]
  | _ => exact Iff.rfl

theorem At.congr_hand (hz : z ≠ .hand) : At m D K T z g ↔ At m D K T' z g :=
  At.keep (fun _ => rfl) (fun he => (hz he).elim) (fun _ _ _ _ _ => rfl) fun _ _ _ _ _ => rfl

theorem not_at_of_no_dir (hx : D x = none) (hz : z.owner = some x) : ¬ At m D K T z g := by
  intro hat
  obtain ⟨d, hd⟩ := hat.exists_dir hz
  rw [hx] at hd
  cases hd

end Places

section Edits

variable (h : Rep I D K T A m)
include h

omit h in
theorem mem_insert_iff_or : g ∈ insert f T ↔ g ∈ T ∨ g = f := by
  rw [Set.mem_insert_iff, or_comm]

theorem Rep.space_eq (hd : D x = some d) (hs : A x = some s) : s = m.space d := by
  have he := h.spaces x
  rw [hd, hs] at he
  exact Option.some.inj he

theorem Rep.pte_eq (hd : D x = some d) (hs : A x = some s) : s.pte = m.pte d :=
  congrArg Space.pte (h.space_eq hd hs)

theorem Rep.table_eq (hd : D x = some d) (hs : A x = some s) : s.table i = (m.tab d i).isSome := by
  rw [h.space_eq hd hs]
  rfl

theorem Rep.same [DecidableEq H] (hs : A x = some s) : Rep I D K T (update A x (some s)) m := by
  rw [← hs, update_eq_self]
  exact h

theorem Rep.same_of_other {z : Place H} (hz : At m D K T z g) (hx : z.owner ≠ some x)
    (hd : D x = some d) (hpage : ∀ f, f ≠ g → m'.page f = m.page f) : m.Same m' d := by
  apply same_of_page
  · exact hpage d (At.ne_dir h.placed hz hd fun he => hx (he ▸ rfl))
  · intro i t ht
    exact hpage t (At.ne_table h.placed hz hd ht fun he => hx (he ▸ rfl))
  · intro k e hk he
    exact hpage _ (At.ne_user h.placed hz hk hd he fun he => hx (he ▸ rfl))

theorem Rep.whole_of_other {z : Place H} (hz : At m D K T z g) (hne : ∀ x, z ≠ .page x)
    (hpage : ∀ f, f ≠ g → m'.page f = m.page f) (y : H) (f : Nat) (b : Bytes)
    (hk : K y = some (f, b)) : m'.page f = b := by
  rw [hpage f (h.placed.ne (show At m D K T (.page y) f from ⟨b, hk⟩) hz (hne y).symm)]
  exact h.whole y f b hk

theorem Rep.spaces_update [DecidableEq H] (hd : D x = some d)
    (hother : ∀ y d', y ≠ x → D y = some d' → m.Same m' d') (hs : m'.space d = s) (y : H) :
    update A x (some s) y = (D y).map m'.space := by
  by_cases hy : y = x
  · subst hy
    rw [update_self, hd, map_some, hs]
  · rw [update_of_ne hy, h.spaces]
    cases hdy : D y with
    | none => rfl
    | some d' => rw [map_some, map_some, (hother y d' hy hdy).space]

theorem Rep.spaces_same (hother : ∀ y d', D y = some d' → m.Same m' d') (y : H) :
    A y = (D y).map m'.space := by
  rw [h.spaces]
  cases hdy : D y with
  | none => rfl
  | some d' => rw [map_some, map_some, (hother y d' hdy).space]

theorem Rep.take {free : List Nat} (deny : List Bool) (hfree : m.free = f :: free) :
    f ∉ T ∧ Rep I D K (insert f T) A { m with free := free, deny := deny } := by
  have hf : At m D K T .free f := At.free (hfree ▸ List.mem_cons_self)
  have hnodup := h.nodup
  rw [hfree, List.nodup_cons] at hnodup
  constructor
  · intro hT
    cases h.placed.one hf (At.hand hT)
  refine ⟨hnodup.2, h.placed.move (y := .hand) hf (fun he => by cases he) ?_
    (fun g => mem_insert_iff_or) ?_, h.spaces, h.whole⟩
  · intro g
    show g ∈ free ↔ g ∈ m.free ∧ g ≠ f
    rw [hfree, List.mem_cons]
    exact ⟨fun hg => ⟨.inr hg, fun he => hnodup.1 (he ▸ hg)⟩, fun hg => hg.1.resolve_left hg.2⟩
  · intro z g hz hz'
    exact At.keep (fun he => (hz he).elim) (fun he => (hz' he).elim) (fun _ _ _ _ _ => rfl)
      fun _ _ _ _ _ => rfl

theorem Rep.write_hand {b : Bytes} (hf : f ∈ T) : Rep I D K T A (m.setPage f b) := by
  have hhand : At m D K T .hand f := hf
  have hpage : ∀ g, g ≠ f → (m.setPage f b).page g = m.page g := fun g hg =>
    page_setPage_of_ne hg
  have hsame : ∀ y d, D y = some d → m.Same (m.setPage f b) d := fun y d hd =>
    h.same_of_other hhand (fun he => by cases he) hd hpage
  exact ⟨h.nodup, h.placed.congr fun z g => At.keep_of_same (fun _ => rfl) (fun _ => rfl) hsame,
    h.spaces_same hsame, h.whole_of_other hhand (fun _ he => by cases he) hpage⟩

end Edits

theorem mem_iff_of_insert (hf : f ∉ T) : g ∈ T ↔ g ∈ insert f T ∧ g ≠ f := by
  rw [Set.mem_insert_iff]
  exact ⟨fun hg => ⟨.inr hg, fun he => hf (he ▸ hg)⟩, fun hg => hg.1.resolve_left hg.2⟩

theorem Rep.release (h : Rep I D K (insert f T) A m) (hf : f ∉ T) :
    Rep I D K T A (m.release f) := by
  have hhand : At m D K (insert f T) .hand f := Set.mem_insert f T
  have hpage : ∀ g, g ≠ f → (m.release f).page g = m.page g := fun g hg =>
    page_setPage_of_ne hg
  have hsame : ∀ y d, D y = some d → m.Same (m.release f) d := fun y d hd =>
    h.same_of_other hhand (fun he => by cases he) hd hpage
  refine ⟨List.nodup_cons.2 ⟨?_, h.nodup⟩, h.placed.move (y := .free) hhand (fun he => by cases he)
    (fun g => mem_iff_of_insert hf) ?_ ?_, h.spaces_same hsame,
    h.whole_of_other hhand (fun _ he => by cases he) hpage⟩
  · intro hmem
    cases h.placed.one hhand (At.free hmem)
  · intro g
    show g ∈ f :: m.free ↔ g ∈ m.free ∨ g = f
    rw [List.mem_cons, or_comm]
  · intro z g hz hz'
    exact At.keep_of_same (fun he => (hz' he).elim) (fun he => (hz he).elim) hsame

section Tables

variable [DecidableEq H]

theorem Frames.tab_of_zero (hz : ∀ j, m.word f j = 0) (i : Nat) : m.tab f i = none := by
  rw [Frames.tab, hz i]
  exact if_neg fun hp => by cases hp.2

theorem Frames.space_of_zero (hz : ∀ j, m.word f j = 0) : m.space f = Space.empty := by
  have hp : ∀ k, m.pte f k = none := fun k => pte_of_no_tab (tab_of_zero hz _)
  ext1
  · exact funext fun i => congrArg Option.isSome (tab_of_zero hz i)
  · exact funext hp
  · exact funext fun k => mem_of_no_pte (hp k)

theorem Rep.new_dir (h : Rep I D K (insert f T) A m) (hf : f ∉ T) (hx : D x = none)
    (hz : ∀ j, m.word f j = 0) :
    Rep I (update D x (some f)) K T (update A x (some Space.empty)) m := by
  refine ⟨h.nodup, h.placed.move (x := .hand) (y := .dir x) (Set.mem_insert f T)
    (fun he => by cases he) (fun g => mem_iff_of_insert hf) ?_ ?_, ?_, h.whole⟩
  · intro g
    show update D x (some f) x = some g ↔ D x = some g ∨ g = f
    rw [update_self, hx]
    simp only [Option.some.injEq, reduceCtorEq, false_or, eq_comm]
  · intro z g hz' hzx
    by_cases ho : z.owner = some x
    · refine iff_of_false ?_ (not_at_of_no_dir hx ho)
      cases z with
      | dir y =>
        cases ho
        exact (hzx rfl).elim
      | table y i =>
        cases ho
        rw [at_table (update_self ..), tab_of_zero hz]
        exact fun he => by cases he
      | user y k =>
        cases ho
        rw [at_user (update_self ..), pte_of_no_tab (tab_of_zero hz _)]
        exact fun ⟨_, _, he, _⟩ => by cases he
      | _ => cases ho
    · have hdirs : ∀ y, z.owner = some y → update D x (some f) y = D y := fun y hy =>
        update_of_ne (fun he : y = x => ho (he ▸ hy)) ..
      exact (At.congr_dirs hdirs).trans (At.congr_hand hz')
  · intro y
    by_cases hy : y = x
    · subst hy
      rw [update_self, update_self, map_some, space_of_zero hz]
    · rw [update_of_ne hy, update_of_ne hy, h.spaces]

theorem Rep.new_table (h : Rep I D K (insert t T) A m) (ht : t ∉ T) (hd : D x = some d)
    (hs : A x = some s) (hi : i < 1024) (hnone : m.tab d i = none) (hz : m.page t = fun _ => 0)
    (hv : v < 2 ^ 32) (hp : present v = true) (hframe : frameOf v = t) :
    Rep I D K T (update A x (some (s.addTable i))) (m.setWord d i v) := by
  have hpage : ∀ f, f ≠ d → (m.setWord d i v).page f = m.page f := fun f hf =>
    page_setPage_of_ne hf
  have hdir : At m D K (insert t T) (.dir x) d := hd
  have htd : t ≠ d := h.placed.ne (At.hand (Set.mem_insert t T)) hdir fun he => by cases he
  have hother : ∀ y d', y ≠ x → D y = some d' → m.Same (m.setWord d i v) d' := fun y d' hy hd' =>
    h.same_of_other hdir (fun he => hy (Option.some.inj he).symm) hd' hpage
  have htab : (m.setWord d i v).tab d = update (m.tab d) i (some t) := by
    rw [tab_setWord hv hi hp, hframe]
  have hpte : ∀ k, (m.setWord d i v).pte d k = m.pte d k := fun k =>
    pte_addTable htab hnone ((hpage t htd).trans hz) fun j t' ht' =>
      hpage t' (At.ne_table h.placed hdir hd ht' fun he => by cases he)
  have hmem : ∀ k, (m.setWord d i v).mem d k = m.mem d k := fun k =>
    mem_congr (hpte k) fun e hk he =>
      hpage _ (At.ne_user h.placed hdir hk hd he fun he => by cases he)
  refine ⟨h.nodup, h.placed.move (x := .hand) (y := .table x i) (Set.mem_insert t T)
    (fun he => by cases he) (fun g => mem_iff_of_insert ht) ?_ ?_, h.spaces_update hd hother ?_,
    h.whole_of_other hdir (fun _ he => by cases he) hpage⟩
  · intro g
    rw [at_table hd, at_table hd, htab, update_self, hnone]
    simp only [Option.some.injEq, reduceCtorEq, false_or, eq_comm]
  · intro z g hz hz'
    refine At.keep_others hd hother (fun _ => rfl) (fun he => (hz he).elim) ?_ fun k _ => hpte k
    rintro j rfl
    have hj : j ≠ i := fun he => hz' (he ▸ rfl)
    rw [htab, update_of_ne hj]
  · rw [h.space_eq hd hs]
    ext1
    · show (fun j => ((m.setWord d i v).tab d j).isSome) = update _ i true
      rw [htab]
      refine eq_update_iff.2 ⟨?_, fun j hj => ?_⟩
      · rw [update_self]
        rfl
      · rw [update_of_ne hj]
        rfl
    · exact funext hpte
    · exact funext hmem

end Tables

structure Entered (m m' : Frames) (D : Dirs H) (K : Wholes H) (x : H) (d k : Nat) : Prop where
  free : m'.free = m.free
  tab : ∀ y d' i, D y = some d' → m'.tab d' i = m.tab d' i
  pte : ∀ y d' k', D y = some d' → ¬ (y = x ∧ k' = k) → m'.pte d' k' = m.pte d' k'
  same : ∀ y d', y ≠ x → D y = some d' → m.Same m' d'
  space : m'.space d = (m.space d).enter k (m'.pte d k) (m'.mem d k)
  whole : ∀ y f b, K y = some (f, b) → m'.page f = b

theorem Entered.keep (he : Entered m m' D K x d k) {z : Place H}
    (hz : z ≠ .user x k) (hhand : z = .hand → T' = T) :
    At m' D K T' z g ↔ At m D K T z g := by
  apply At.keep (fun _ => he.free) hhand
  · intro y i _ d' hd'
    exact he.tab y d' i hd'
  · rintro y k' rfl d' hd'
    exact he.pte y d' k' hd' fun ⟨hy, hk⟩ => hz (by rw [hy, hk])

section Entries

variable (h : Rep I D K T A m) (hd : D x = some d) (ht : m.tab d (k / 1024) = some t)
include h hd ht

theorem Rep.entered : Entered m (m.setWord t (k % 1024) v) D K x d k := by
  have hpage : ∀ f, f ≠ t → (m.setWord t (k % 1024) v).page f = m.page f := fun f hf =>
    page_setPage_of_ne hf
  have htable : At m D K T (.table x (k / 1024)) t := ⟨d, hd, ht⟩
  have hsame : ∀ y d', y ≠ x → D y = some d' → m.Same (m.setWord t (k % 1024) v) d' :=
    fun y d' hy hd' => h.same_of_other htable (fun he => hy (Option.some.inj he).symm) hd' hpage
  have hdt : ∀ {y d'}, D y = some d' → d' ≠ t := fun hd' =>
    At.ne_dir h.placed htable hd' fun he => by cases he
  have htab : ∀ y d' i, D y = some d' → (m.setWord t (k % 1024) v).tab d' i = m.tab d' i :=
    fun y d' i hd' => tab_congr (hpage d' (hdt hd')) i
  have hpte : ∀ k', k' ≠ k → (m.setWord t (k % 1024) v).pte d k' = m.pte d k' := fun k' hk =>
    pte_setWord_of_ne (hdt hd)
      (fun ht' => (Place.table.inj (h.placed.one (At.table hd ht') htable)).2) hk
  refine ⟨rfl, htab, ?_, hsame, ?_, h.whole_of_other htable (fun _ he => by cases he) hpage⟩
  · intro y d' k' hd' hne
    by_cases hy : y = x
    · subst hy
      cases hd.symm.trans hd'
      exact hpte k' fun he => hne ⟨rfl, he⟩
    · exact (hsame y d' hy hd').pte k'
  · refine space_enter (fun i => htab x d i hd) hpte fun k' hk => ?_
    exact mem_congr (hpte k' hk) fun e hu he =>
      hpage _ (At.ne_user h.placed htable hu hd he fun he => by cases he)

theorem Rep.pte_setWord (hv : v < 2 ^ 32) :
    (m.setWord t (k % 1024) v).pte d k = if present v then some v else none := by
  have htab := (h.entered hd ht (v := v)).tab x d (k / 1024) hd
  rw [pte_of_tab (htab.trans ht), word_setWord hv]

end Entries

end Xv6Signals.Vm
