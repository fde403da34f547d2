import Mathlib.Data.List.Pairwise
import Mathlib.Data.List.Perm.Subperm
import Xv6Signals.Umalloc.Heap

namespace Xv6Signals.Umalloc
open Lib List Nat

variable {base b p q v n fuel : Nat} {h h₁ h₂ : Heap} {l ps qs : List Nat}

theorem ptr_setPtr (h : Heap) (p v : Nat) : (h.setPtr p v).ptr p = v % 2 ^ 32 :=
  h.mem.wordAt_setWordAt p v

theorem size_setSize (h : Heap) (p v : Nat) : (h.setSize p v).size p = v % 2 ^ 32 :=
  h.mem.wordAt_setWordAt (p + 4) v

theorem size_setPtr (h : Heap) (p v : Nat) : (h.setPtr p v).size p = h.size p :=
  Bytes.wordAt_setWordAt_outside (.inr (Nat.le_refl _))

theorem ptr_setSize (h : Heap) (p v : Nat) : (h.setSize p v).ptr p = h.ptr p :=
  Bytes.wordAt_setWordAt_outside (.inl (Nat.le_refl _))

theorem ptr_lt (h : Heap) (p : Nat) : h.ptr p < 2 ^ 32 := h.mem.wordAt_lt p

def Clear (p q : Nat) : Prop := p + 8 ≤ q ∨ q + 8 ≤ p

def Keeps (ps : List Nat) (h h' : Heap) : Prop :=
  ∀ c, (∀ p ∈ ps, Clear c p) → h'.ptr c = h.ptr c ∧ h'.size c = h.size c

theorem keeps_setPtr (h : Heap) (p v : Nat) : Keeps [p] h (h.setPtr p v) := by
  intro c hc
  have hc := hc p mem_cons_self
  unfold Clear at hc
  exact ⟨Bytes.wordAt_setWordAt_outside (by omega), Bytes.wordAt_setWordAt_outside (by omega)⟩

theorem keeps_setSize (h : Heap) (p v : Nat) : Keeps [p] h (h.setSize p v) := by
  intro c hc
  have hc := hc p mem_cons_self
  unfold Clear at hc
  exact ⟨Bytes.wordAt_setWordAt_outside (by omega), Bytes.wordAt_setWordAt_outside (by omega)⟩

theorem Keeps.mono (hk : Keeps ps h h₁) (hsub : ∀ p ∈ ps, p ∈ qs) : Keeps qs h h₁ :=
  fun c hc => hk c fun p hp => hc p (hsub p hp)

theorem Keeps.trans (hk : Keeps ps h h₁) (hk' : Keeps ps h₁ h₂) : Keeps ps h h₂ := by
  intro c hc
  obtain ⟨hp, hs⟩ := hk c hc
  obtain ⟨hp', hs'⟩ := hk' c hc
  exact ⟨hp'.trans hp, hs'.trans hs⟩

def Heap.span (h : Heap) (a : Nat) : Span := ⟨a, a + 8 * h.size a⟩

/-- The free list: a circle that begins with `base` and goes on in the order of the addresses, with
a gap after every block. -/
structure FreeList (base : Nat) (h : Heap) (l : List Nat) : Prop where
  links : Threaded h.ptr (base :: l) base
  freep : h.freep ∈ base :: l
  zero : h.size base = 0
  apart : (l.map h.span).Pairwise Span.Before
  pos : ∀ a ∈ l, 0 < h.size a
  within : ∀ a ∈ l, base + 8 ≤ a ∧ a + 8 * h.size a < 2 ^ 32

section

variable (hf : FreeList base h l)
include hf

theorem FreeList.sorted : (base :: l).Pairwise (· < ·) := by
  refine pairwise_cons.2 ⟨fun a ha => ?_, ?_⟩
  · have := (hf.within a ha).1
    omega
  · refine (pairwise_map.1 hf.apart).imp fun {a c} hac => ?_
    unfold Span.Before Heap.span at hac
    dsimp only at hac
    omega

theorem FreeList.base_lt : base < 2 ^ 32 := by
  obtain ⟨p, hp⟩ := hf.links.exists_last
  rw [← hp]
  exact ptr_lt h p

theorem FreeList.node_lt (hp : p ∈ base :: l) : p < 2 ^ 32 := by
  rcases mem_cons.1 hp with rfl | hp
  · exact hf.base_lt
  · have := (hf.within p hp).2
    omega

theorem FreeList.length_le : (base :: l).length ≤ 2 ^ 32 := by
  have hnodup : (base :: l).Nodup := hf.sorted.imp Nat.ne_of_lt
  have hsub : (base :: l) ⊆ List.range (2 ^ 32) := fun p hp => mem_range.2 (hf.node_lt hp)
  have hle := (List.Nodup.subperm hnodup hsub).length_le
  rwa [length_range] at hle

theorem FreeList.clear (hp : p ∈ base :: l) (hq : q ∈ base :: l) (hne : p ≠ q) : Clear p q := by
  have hpair : (base :: l).Pairwise fun a c => a + 8 ≤ c := by
    refine pairwise_cons.2 ⟨fun a ha => (hf.within a ha).1, ?_⟩
    refine (pairwise_map.1 hf.apart).imp_of_mem fun {a c} ha _ hac => ?_
    have := hf.pos a ha
    unfold Span.Before Heap.span at hac
    dsimp only at hac
    omega
  have : Std.Symm Clear := ⟨fun _ _ => Or.symm⟩
  exact (hpair.imp (S := Clear) .inl).forall hp hq hne

theorem FreeList.congr {g : Heap} (hfreep : g.freep = h.freep)
    (hk : ∀ a ∈ base :: l, g.ptr a = h.ptr a ∧ g.size a = h.size a) :
    FreeList base g l ∧ l.map g.span = l.map h.span := by
  have hsize (a : Nat) (ha : a ∈ l) : g.size a = h.size a := (hk a (mem_cons_of_mem _ ha)).2
  have hspan : l.map g.span = l.map h.span := by
    refine map_congr_left fun a ha => ?_
    rw [Heap.span, Heap.span, hsize a ha]
  refine ⟨⟨hf.links.congr fun a ha => (hk a ha).1, ?_, ?_, ?_, ?_, ?_⟩, hspan⟩
  · rw [hfreep]
    exact hf.freep
  · rw [(hk base mem_cons_self).2, hf.zero]
  · rw [hspan]
    exact hf.apart
  · intro a ha
    rw [hsize a ha]
    exact hf.pos a ha
  · intro a ha
    rw [hsize a ha]
    exact hf.within a ha

end

section
variable {Y pre post : List Nat}

theorem findPlace_up (hl : Threaded h.ptr (p :: l) base) (hbase : base ≤ p) (hp : p < b)
    (hs : (p :: l).Pairwise (· < ·)) (hb : b ∉ l) (hfuel : l.length < fuel) :
    ∃ pre q post, p :: l = pre ++ q :: post ∧ h.findPlace b fuel p = some q ∧ q < b ∧
      ∀ a ∈ post, b < a := by
  induction l generalizing p fuel with
  | nil =>
    obtain ⟨f, rfl⟩ := exists_eq_add_one_of_ne_zero (Nat.ne_of_gt hfuel)
    have hptr : h.ptr p = base := hl.1
    refine ⟨[], p, [], rfl, ?_, hp, fun a ha => by cases ha⟩
    rw [Heap.findPlace, hptr, if_neg (by omega), if_pos (by omega)]
  | cons c l ih =>
    obtain ⟨f, rfl⟩ := exists_eq_add_one_of_ne_zero (Nat.ne_of_gt (zero_lt_of_lt hfuel))
    have hptr : h.ptr p = c := hl.1
    obtain ⟨hlt, hs'⟩ := pairwise_cons.1 hs
    have hpc := hlt c mem_cons_self
    rw [mem_cons, not_or] at hb
    by_cases hc : b < c
    · refine ⟨[], p, c :: l, rfl, ?_, hp, fun a ha => ?_⟩
      · rw [Heap.findPlace, hptr, if_pos ⟨hp, hc⟩]
      · rcases mem_cons.1 ha with rfl | ha
        · exact hc
        · exact Nat.lt_trans hc ((pairwise_cons.1 hs').1 a ha)
    · obtain ⟨pre, q, post, hsplit, hfind, hq, hpost⟩ :=
        ih hl.2 (by omega) (by omega) hs' hb.2 (show l.length < f by simpa using hfuel)
      refine ⟨p :: pre, q, post, by rw [hsplit]; rfl, ?_, hq, hpost⟩
      rw [Heap.findPlace, hptr, if_neg (by omega), if_neg (by omega)]
      exact hfind

theorem findPlace_round (hl : Threaded h.ptr (p :: l) base) (hp : b < p) (hbase : base < b)
    (hs : (p :: l).Pairwise (· < ·)) (hfuel : l.length < fuel) :
    h.findPlace b fuel p = h.findPlace b (fuel - (l.length + 1)) base := by
  induction l generalizing p fuel with
  | nil =>
    obtain ⟨f, rfl⟩ := exists_eq_add_one_of_ne_zero (Nat.ne_of_gt hfuel)
    have hptr : h.ptr p = base := hl.1
    rw [Heap.findPlace, hptr, if_neg (by omega), if_neg (by omega)]
    rfl
  | cons c l ih =>
    obtain ⟨f, rfl⟩ := exists_eq_add_one_of_ne_zero (Nat.ne_of_gt (zero_lt_of_lt hfuel))
    have hptr : h.ptr p = c := hl.1
    obtain ⟨hlt, hs'⟩ := pairwise_cons.1 hs
    have hpc := hlt c mem_cons_self
    rw [length_cons] at hfuel ⊢
    rw [Heap.findPlace, hptr, if_neg (by omega), if_neg (by omega),
      ih hl.2 (by omega) hs' (by omega), Nat.add_sub_add_right]

theorem FreeList.findPlace (hf : FreeList base h l) (hb : base < b) (hnot : b ∉ l) :
    ∃ pre q post, base :: l = pre ++ q :: post ∧
      h.findPlace b maxRounds h.freep = some q ∧ q < b ∧ ∀ a ∈ post, b < a := by
  have hlen := hf.length_le
  rw [length_cons] at hlen
  obtain ⟨pre, post, hsplit⟩ := append_of_mem hf.freep
  have hlinks := hf.links
  have hsorted := hf.sorted
  rw [hsplit] at hlinks hsorted
  have htail := (threaded_append.1 hlinks).2
  have hstail := (pairwise_append.1 hsorted).2.1
  have hpost : post.length ≤ l.length := by
    have := congrArg List.length hsplit
    rw [length_cons, length_append, length_cons] at this
    omega
  have hmem : h.freep ∈ base :: l := hf.freep
  by_cases hlt : h.freep < b
  · have hbase : base ≤ h.freep := by
      rcases mem_cons.1 hmem with he | hm
      · omega
      · have := (hf.within _ hm).1
        omega
    have hb' : b ∉ post := by
      intro hm
      have : b ∈ base :: l := by
        rw [hsplit]
        exact mem_append_right _ (mem_cons_of_mem _ hm)
      rcases mem_cons.1 this with he | hm
      · omega
      · exact hnot hm
    obtain ⟨pre', q, post', hsplit', hfind, hq, habove⟩ :=
      findPlace_up htail hbase hlt hstail hb'
        (show post.length < maxRounds by unfold maxRounds; omega)
    exact ⟨pre ++ pre', q, post', by rw [hsplit, hsplit', append_assoc], hfind, hq, habove⟩
  · have hne : h.freep ≠ b := by
      intro he
      rcases mem_cons.1 hmem with hm | hm
      · omega
      · exact hnot (he ▸ hm)
    rw [findPlace_round htail (by omega) hb hstail (by unfold maxRounds; omega)]
    exact findPlace_up hf.links (Nat.le_refl _) hb hf.sorted hnot (by unfold maxRounds; omega)

/-- A node before a list of nodes becomes one with the first of them, if there is no gap. -/
def Heap.attach (h : Heap) (x y : Nat) : Heap :=
  if plusUnits x (h.size x) = y then
    (h.setSize x (h.size x + h.size y)).setPtr x (h.ptr y)
  else h.setPtr x y

theorem joinNext_eq (hclear : Clear p b) (hclear' : Clear (h.ptr p) b) :
    h.joinNext b p = h.attach b (h.ptr p) := by
  have hk := keeps_setSize h b (h.size b + h.size (h.ptr p))
  have hp := hk p fun c hc => by rw [mem_singleton.1 hc]; exact hclear
  have hq := hk (h.ptr p) fun c hc => by rw [mem_singleton.1 hc]; exact hclear'
  unfold Heap.joinNext Heap.attach
  dsimp only
  rw [hp.1, hq.1]

theorem joinPrev_eq (hclear : Clear p b) : h.joinPrev b p = h.attach p b := by
  have hk := keeps_setSize h p (h.size p + h.size b)
  have hb := hk b fun c hc => by rw [mem_singleton.1 hc]; exact Or.symm hclear
  unfold Heap.joinPrev Heap.attach
  dsimp only
  rw [hb.1]

theorem attach_spec {x : Nat} (hY : Threaded h.ptr Y base) (hclear : ∀ a ∈ Y, Clear a x)
    (hx : x + 8 * h.size x < 2 ^ 32) (hends : ∀ a ∈ Y, a + 8 * h.size a < 2 ^ 32)
    (hbase : Y = [] → x + 8 * h.size x ≠ base) (hlt : base < 2 ^ 32) :
    Keeps [x] h (h.attach x (Y.headD base)) ∧
    x + 8 * (h.attach x (Y.headD base)).size x < 2 ^ 32 ∧
    ∃ Y', (∀ a ∈ Y', a ∈ Y) ∧ Threaded (h.attach x (Y.headD base)).ptr (x :: Y') base ∧
      (x :: Y').map (h.attach x (Y.headD base)).span = joinFront (h.span x) (Y.map h.span) := by
  have hplus : plusUnits x (h.size x) = x + 8 * h.size x := mod_eq_of_lt hx
  -- the nodes of the list stay as they are
  have hrest {g : Heap} (hk : Keeps [x] h g) (a : Nat) (ha : a ∈ Y) :
      g.ptr a = h.ptr a ∧ g.size a = h.size a := by
    refine hk a fun c hc => ?_
    rw [mem_singleton.1 hc]
    exact hclear a ha
  have hspans {g : Heap} (hk : Keeps [x] h g) {Z : List Nat} (hZ : ∀ a ∈ Z, a ∈ Y) :
      Z.map g.span = Z.map h.span := by
    refine map_congr_left fun a ha => ?_
    rw [Heap.span, Heap.span, (hrest hk a (hZ a ha)).2]
  unfold Heap.attach
  rw [hplus]
  split
  · rename_i hjoin
    cases Y with
    | nil => exact (hbase rfl hjoin).elim
    | cons y Y =>
      rw [headD_cons] at hjoin ⊢
      have hy := hends y mem_cons_self
      have hk : Keeps [x] h ((h.setSize x (h.size x + h.size y)).setPtr x (h.ptr y)) :=
        (keeps_setSize _ _ _).trans (keeps_setPtr _ _ _)
      have hsize : ((h.setSize x (h.size x + h.size y)).setPtr x (h.ptr y)).size x =
          h.size x + h.size y := by
        rw [size_setPtr, size_setSize, mod_eq_of_lt (by omega)]
      refine ⟨hk, by omega, Y, fun a ha => mem_cons_of_mem y ha, ⟨?_, ?_⟩, ?_⟩
      · rw [ptr_setPtr, mod_eq_of_lt (ptr_lt h y)]
        exact hY.1
      · exact hY.2.congr fun a ha => (hrest hk a (mem_cons_of_mem y ha)).1
      rw [map_cons, map_cons, joinFront,
        if_pos (show (h.span x).hi = (h.span y).lo from hjoin)]
      congr 1
      · rw [Heap.span, hsize]
        show Span.mk _ _ = Span.mk x (y + 8 * h.size y)
        congr 1
        omega
      · exact hspans hk fun a ha => mem_cons_of_mem y ha
  · rename_i hgap
    have hk : Keeps [x] h (h.setPtr x (Y.headD base)) := keeps_setPtr _ _ _
    refine ⟨hk, by rwa [size_setPtr], Y, fun a ha => ha, ⟨?_, ?_⟩, ?_⟩
    · rw [ptr_setPtr]
      cases Y with
      | nil => exact mod_eq_of_lt hlt
      | cons y Y =>
        have := hends y mem_cons_self
        exact mod_eq_of_lt (show y < 2 ^ 32 by omega)
    · exact hY.congr fun a ha => (hrest hk a ha).1
    · have hself : (h.setPtr x (Y.headD base)).span x = h.span x := by
        rw [Heap.span, Heap.span, size_setPtr]
      rw [map_cons, hself, hspans hk fun a ha => ha]
      cases Y with
      | nil => rfl
      | cons y Y =>
        rw [map_cons, joinFront, if_neg (show ¬ (h.span x).hi = (h.span y).lo from hgap)]

structure Freed (base : Nat) (h : Heap) (l : List Nat) (b : Nat) (h' : Heap) (l' : List Nat) :
    Prop where
  list : FreeList base h' l'
  joined : Joined (l.map h.span) (h.span b) (l'.map h'.span)
  keeps : Keeps (b :: base :: l) h h'
  got : h'.got = h.got

theorem attach_got (h : Heap) (x y : Nat) : (h.attach x y).got = h.got := by
  unfold Heap.attach
  split <;> rfl

theorem FreeList.of_spans (hlinks : Threaded h.ptr (base :: l) base) (hfreep : h.freep ∈ base :: l)
    (hzero : h.size base = 0) (hapart : (l.map h.span).Pairwise Span.Before)
    (hspans : ∀ c ∈ l.map h.span, c.lo < c.hi ∧ base + 8 ≤ c.lo ∧ c.hi < 2 ^ 32) :
    FreeList base h l := by
  refine ⟨hlinks, hfreep, hzero, hapart, ?_, ?_⟩
  · intro a ha
    have hpos : a < a + 8 * h.size a := (hspans _ (mem_map_of_mem ha)).1
    omega
  · intro a ha
    exact (hspans _ (mem_map_of_mem ha)).2

theorem FreeList.spans (hf : FreeList base h l) :
    ∀ c ∈ l.map h.span, c.lo < c.hi ∧ base + 8 ≤ c.lo ∧ c.hi < 2 ^ 32 := by
  intro c hc
  obtain ⟨a, ha, rfl⟩ := mem_map.1 hc
  have := hf.pos a ha
  exact ⟨show a < a + 8 * h.size a by omega, hf.within a ha⟩

theorem FreeList.of_joined (hf : FreeList base h l) {l' : List Nat}
    (hlinks : Threaded h₁.ptr (base :: l') base) (hfreep : h₁.freep ∈ base :: l')
    (hzero : h₁.size base = 0) (hj : Joined (l.map h.span) (h.span b) (l'.map h₁.span))
    (hlow : base + 8 ≤ b) (hend : b + 8 * h.size b < 2 ^ 32) : FreeList base h₁ l' := by
  have hwithin : ∀ c ∈ l'.map h₁.span, base + 8 ≤ c.lo ∧ c.hi ≤ 2 ^ 32 - 1 := by
    refine hj.within (fun c hc => ?_) ⟨hlow, le_sub_one_of_lt hend⟩
    obtain ⟨-, hlo, hhi⟩ := hf.spans c hc
    exact ⟨hlo, le_sub_one_of_lt hhi⟩
  refine .of_spans hlinks hfreep hzero hj.apart fun c hc => ⟨hj.pos c hc, ?_⟩
  obtain ⟨hlo, hhi⟩ := hwithin c hc
  exact ⟨hlo, by omega⟩

theorem FreeList.insert (hf : FreeList base h l) (hsplit : base :: l = pre ++ q :: post)
    (hq : q < b) (hpost : ∀ a ∈ post, b < a) (hlow : base + 8 ≤ b) (hpos : 0 < h.size b)
    (hend : b + 8 * h.size b < 2 ^ 32) (hdisj : ∀ a ∈ l, (h.span a).Disjoint (h.span b)) :
    ∃ l', Freed base h l b { (h.joinNext b q).joinPrev b q with freep := q } l' := by
  have hclear (a : Nat) (ha : a ∈ base :: l) : Clear a b := by
    rcases mem_cons.1 ha with rfl | ha
    · exact .inl hlow
    have := hf.pos a ha
    have hd := hdisj a ha
    unfold Span.Disjoint Heap.span at hd
    unfold Clear
    dsimp only at hd
    omega
  have hmem (a : Nat) (ha : a ∈ pre ++ q :: post) : a ∈ base :: l := by
    rwa [hsplit]
  have hqmem : q ∈ base :: l := hmem q (mem_append_right _ mem_cons_self)
  have hinpost (a : Nat) (ha : a ∈ post) : a ∈ base :: l :=
    hmem a (mem_append_right _ (mem_cons_of_mem _ ha))
  have hends (a : Nat) (ha : a ∈ base :: l) : a + 8 * h.size a < 2 ^ 32 := by
    rcases mem_cons.1 ha with rfl | ha
    · rw [hf.zero]
      exact hf.base_lt
    · exact (hf.within a ha).2
  have hlinks := hf.links
  rw [hsplit, threaded_append] at hlinks
  obtain ⟨hpre, hptr, hthread⟩ := hlinks
  have hptr' : Clear (h.ptr q) b := by
    rw [hptr]
    cases post with
    | nil => exact hclear base mem_cons_self
    | cons y Y => exact hclear y (hinpost y mem_cons_self)
  rw [joinNext_eq (hclear q hqmem) hptr', joinPrev_eq (hclear q hqmem), hptr]
  -- the block and what comes after it
  obtain ⟨hk₁, hend₁, Y₁, hY₁, ht₁, hs₁⟩ := attach_spec hthread
    (fun a ha => hclear a (hinpost a ha)) hend (fun a ha => hends a (hinpost a ha))
    (fun _ => by omega) hf.base_lt
  have hgot₁ := attach_got h b (post.headD base)
  generalize h.attach b (post.headD base) = h₁ at hk₁ hend₁ ht₁ hs₁ hgot₁
  have hsame₁ (a : Nat) (ha : a ∈ base :: l) : h₁.ptr a = h.ptr a ∧ h₁.size a = h.size a := by
    refine hk₁ a fun c hc => ?_
    rw [mem_singleton.1 hc]
    exact hclear a ha
  -- the node before it
  have hY (a : Nat) (ha : a ∈ b :: Y₁) : Clear a q ∧ a + 8 * h₁.size a < 2 ^ 32 := by
    rcases mem_cons.1 ha with rfl | ha
    · exact ⟨Or.symm (hclear q hqmem), hend₁⟩
    · have ham := hinpost a (hY₁ a ha)
      have := hpost a (hY₁ a ha)
      rw [(hsame₁ a ham).2]
      exact ⟨hf.clear ham hqmem (by omega), hends a ham⟩
  have hqend : q + 8 * h₁.size q < 2 ^ 32 := by
    rw [(hsame₁ q hqmem).2]
    exact hends q hqmem
  obtain ⟨hk₂, -, Y₂, hY₂, ht₂, hs₂⟩ := attach_spec ht₁ (fun a ha => (hY a ha).1) hqend
    (fun a ha => (hY a ha).2) (fun he => by cases he) hf.base_lt
  have hgot₂ := attach_got h₁ q b
  rw [headD_cons] at hk₂ ht₂ hs₂
  have hspan₁ : h₁.span q = h.span q := by
    rw [Heap.span, Heap.span, (hsame₁ q hqmem).2]
  rw [hs₁, hspan₁] at hs₂
  generalize h₁.attach q b = h₂ at hk₂ ht₂ hs₂ hgot₂
  have hsame (a : Nat) (ha : a ∈ pre) : h₂.ptr a = h.ptr a ∧ h₂.size a = h.size a := by
    have ham := hmem a (mem_append_left _ ha)
    obtain ⟨hp, hs⟩ := hsame₁ a ham
    rw [← hp, ← hs]
    refine hk₂ a fun c hc => ?_
    rw [mem_singleton.1 hc]
    have hsorted := hf.sorted
    rw [hsplit] at hsorted
    have hlt := (pairwise_append.1 hsorted).2.2 a ha q mem_cons_self
    exact hf.clear ham hqmem (Nat.ne_of_lt hlt)
  have hlinks : Threaded h₂.ptr (pre ++ q :: Y₂) base :=
    threaded_append.2 ⟨hpre.congr fun a ha => (hsame a ha).1, ht₂⟩
  have hkeeps : Keeps (b :: base :: l) h h₂ := by
    refine (hk₁.mono ?_).trans (hk₂.mono ?_)
    · intro c hc
      rw [mem_singleton.1 hc]
      exact mem_cons_self
    · intro c hc
      rw [mem_singleton.1 hc]
      exact mem_cons_of_mem _ hqmem
  have hspos : ∀ c ∈ l.map h.span, c.lo < c.hi := fun c hc => (hf.spans c hc).1
  have hbpos : (h.span b).lo < (h.span b).hi := by
    show b < b + 8 * h.size b
    omega
  have hafter : ∀ c ∈ post.map h.span, (h.span b).hi ≤ c.lo := by
    intro c hc
    obtain ⟨a, ha, rfl⟩ := mem_map.1 hc
    have hlt := hpost a ha
    have hal : a ∈ l := (mem_cons.1 (hinpost a ha)).resolve_left (by omega)
    have hd := hdisj a hal
    unfold Span.Disjoint at hd
    show b + 8 * h.size b ≤ a
    change a + 8 * h.size a ≤ b ∨ b + 8 * h.size b ≤ a at hd
    omega
  cases pre with
  | nil =>
    obtain ⟨rfl, rfl⟩ := List.cons.inj hsplit
    obtain ⟨hj, hle⟩ := joinFront_spec hbpos hafter hf.apart hspos
    have hgap : ∀ c ∈ joinFront (h.span b) (l.map h.span), (h.span base).hi < c.lo := by
      intro c hc
      have hbc : b ≤ c.lo := hle c hc
      show base + 8 * h.size base < c.lo
      rw [hf.zero]
      omega
    rw [joinFront_of_gap hgap, map_cons] at hs₂
    obtain ⟨hself, hrest⟩ := List.cons.inj hs₂
    have hzero : h₂.size base = 0 := by
      have := congrArg Span.hi hself
      change base + 8 * h₂.size base = base + 8 * h.size base at this
      rw [hf.zero] at this
      omega
    have hj : Joined (l.map h.span) (h.span b) (Y₂.map h₂.span) := hrest ▸ hj
    exact ⟨Y₂, hf.of_joined hlinks mem_cons_self hzero hj hlow hend, hj, hkeeps,
      hgot₂.trans hgot₁⟩
  | cons c pre =>
    rw [cons_append] at hsplit
    obtain ⟨rfl, rfl⟩ := List.cons.inj hsplit
    have hql : q ∈ pre ++ q :: post := mem_append_right _ mem_cons_self
    have hqb : (h.span q).hi ≤ (h.span b).lo := by
      have hd := hdisj q hql
      change q + 8 * h.size q ≤ b ∨ b + 8 * h.size b ≤ q at hd
      show q + 8 * h.size q ≤ b
      omega
    have hspans : (pre ++ q :: Y₂).map h₂.span = pre.map h.span ++
        joinFront (h.span q) (joinFront (h.span b) (post.map h.span)) := by
      rw [map_append, hs₂]
      congr 1
      refine map_congr_left fun a ha => ?_
      rw [Heap.span, Heap.span, (hsame a (mem_cons_of_mem _ ha)).2]
    have hj : Joined ((pre ++ q :: post).map h.span) (h.span b) ((pre ++ q :: Y₂).map h₂.span) := by
      have hapart := hf.apart
      rw [map_append, map_cons] at hapart hspos ⊢
      rw [hspans]
      exact joinFront_between hbpos hqb hafter hapart hspos
    have hzero : h₂.size base = 0 := by
      rw [(hsame base mem_cons_self).2, hf.zero]
    have hfreep : q ∈ base :: (pre ++ q :: Y₂) :=
      mem_cons_of_mem _ (mem_append_right _ mem_cons_self)
    exact ⟨pre ++ q :: Y₂, hf.of_joined hlinks hfreep hzero hj hlow hend, hj, hkeeps,
      hgot₂.trans hgot₁⟩

theorem freeWithin_eq {ap rounds : Nat}
    (hfind : h.findPlace (headerOf ap) rounds h.freep = some q) :
    h.freeWithin rounds ap =
      some { (h.joinNext (headerOf ap) q).joinPrev (headerOf ap) q with freep := q } := by
  rw [Heap.freeWithin]
  dsimp only
  rw [hfind]

theorem FreeList.free (hf : FreeList base h l) (hlow : base + 8 ≤ b) (hpos : 0 < h.size b)
    (hend : b + 8 * h.size b < 2 ^ 32) (hdisj : ∀ a ∈ l, (h.span a).Disjoint (h.span b)) :
    ∃ h' l', h.free (plusUnits b 1) = some h' ∧ Freed base h l b h' l' := by
  have hnot : b ∉ l := by
    intro hm
    have hd := hdisj b hm
    change b + 8 * h.size b ≤ b ∨ b + 8 * h.size b ≤ b at hd
    omega
  have hbp : headerOf (plusUnits b 1) = b := by
    unfold headerOf plusUnits
    omega
  obtain ⟨pre, q, post, hsplit, hfind, hq, hpost⟩ := hf.findPlace (by omega) hnot
  obtain ⟨l', hl'⟩ := hf.insert hsplit hq hpost hlow hpos hend hdisj
  generalize plusUnits b 1 = ap at hbp
  subst hbp
  exact ⟨_, l', freeWithin_eq hfind, hl'⟩

def Heap.cut (h : Heap) (n q : Nat) : Nat := q + 8 * (h.size q - n)

structure Taken (base n : Nat) (h : Heap) (l : List Nat) (h' : Heap) (r q : Nat)
    (l₁ l₂ l' : List Nat) : Prop where
  split : l = l₁ ++ q :: l₂
  fits : n ≤ h.size q
  list : FreeList base h' l'
  spans : l'.map h'.span = l₁.map h.span ++ (leftOf (h.span q) (h.cut n q) ++ l₂.map h.span)
  result : r = h.cut n q + 8
  size : h'.size (h.cut n q) = n
  keeps : Keeps (h.cut n q :: base :: l) h h'
  got : h'.got = h.got

theorem FreeList.of_cut (hf : FreeList base h (pre ++ q :: post)) {l' : List Nat} (hn : 0 < n)
    (hfits : n ≤ h.size q) (hlinks : Threaded h₁.ptr (base :: l') base)
    (hfreep : h₁.freep ∈ base :: l') (hzero : h₁.size base = 0)
    (hspans : l'.map h₁.span =
      pre.map h.span ++ (leftOf (h.span q) (h.cut n q) ++ post.map h.span)) :
    FreeList base h₁ l' := by
  have hcut : (h.span q).lo ≤ h.cut n q ∧ h.cut n q < (h.span q).hi := by
    show q ≤ q + 8 * (h.size q - n) ∧ q + 8 * (h.size q - n) < q + 8 * h.size q
    omega
  have hold := hf.spans
  have hapart := hf.apart
  rw [map_append, map_cons] at hold hapart
  have htile : Tiling (pre.map h.span ++ h.span q :: post.map h.span) []
      (pre.map h.span ++ h.span q :: post.map h.span) := by
    refine ⟨fun c hc => (hold c hc).1, ?_, hapart, List.Pairwise.nil, ?_, fun x => ?_⟩
    · intro c hc
      cases hc
    · intro a _ c hc
      cases hc
    · exact (or_iff_left fun ⟨_, hm, _⟩ => by cases hm).symm
  have hcarve := htile.carve hcut
  refine .of_spans hlinks hfreep hzero ?_ ?_
  · rw [hspans]
    exact hcarve.apart
  rw [hspans]
  intro c hc
  refine ⟨hcarve.posFree c hc, ?_⟩
  obtain ⟨-, hlo, hhi⟩ := hold _ (mem_append_right _ mem_cons_self)
  rcases mem_append.1 hc with hc | hc
  · exact (hold c (mem_append_left _ hc)).2
  · rcases mem_append.1 hc with hc | hc
    · rw [(mem_leftOf hcut.1 hc).1]
      exact ⟨hlo, Nat.lt_trans hcut.2 hhi⟩
    · exact (hold c (mem_append_right _ (mem_cons_of_mem _ hc))).2

theorem map_span_congr {Z : List Nat} (hs : ∀ a ∈ Z, h₁.size a = h.size a) :
    Z.map h₁.span = Z.map h.span := by
  refine map_congr_left fun a ha => ?_
  rw [Heap.span, Heap.span, hs a ha]

theorem FreeList.take_all (hf : FreeList base h (pre ++ q :: post)) {ps : List Nat}
    (hps : ps ++ [p] = base :: pre) (hpre : Threaded h.ptr ps p)
    (hq : Threaded h.ptr (q :: post) base) (heq : h.size q = n) (hn : 0 < n) :
    Taken base n h (pre ++ q :: post) { h.setPtr p (h.ptr q) with freep := p } (plusUnits q 1) q pre
      post (pre ++ post) := by
  have hcut : h.cut n q = q := by
    unfold Heap.cut
    omega
  have hnodes : base :: (pre ++ q :: post) = ps ++ p :: (q :: post) := by
    rw [← cons_append, ← hps, append_assoc]
    rfl
  have hqin : q ∈ pre ++ q :: post := mem_append_right _ mem_cons_self
  have hpm : p ∈ base :: pre := by
    rw [← hps]
    exact mem_append_right _ (mem_singleton_self p)
  have hin (a : Nat) (ha : a ∈ base :: pre ∨ a ∈ post) : a ∈ base :: (pre ++ q :: post) := by
    rw [← cons_append, mem_append]
    exact ha.imp_right (mem_cons_of_mem q)
  have hsorted := hf.sorted
  rw [hnodes] at hsorted
  obtain ⟨-, hsp, hcross⟩ := pairwise_append.1 hsorted
  have hother (a : Nat) (ha : a ∈ base :: pre ∨ a ∈ post) (hne : a ≠ p) :
      (h.setPtr p (h.ptr q)).ptr a = h.ptr a ∧ (h.setPtr p (h.ptr q)).size a = h.size a := by
    refine keeps_setPtr h p _ a fun c hc => ?_
    rw [mem_singleton.1 hc]
    exact hf.clear (hin a ha) (hin p (.inl hpm)) hne
  have hsize (a : Nat) (ha : a ∈ base :: pre ∨ a ∈ post) :
      (h.setPtr p (h.ptr q)).size a = h.size a := by
    by_cases hap : a = p
    · rw [hap, size_setPtr]
    · exact (hother a ha hap).2
  have hps' (a : Nat) (ha : a ∈ ps) : a ∈ base :: pre := by
    rw [← hps]
    exact mem_append_left _ ha
  have hlinks : Threaded (h.setPtr p (h.ptr q)).ptr (base :: (pre ++ post)) base := by
    rw [← cons_append, ← hps, append_assoc]
    refine threaded_append.2 ⟨hpre.congr fun a ha => ?_, ?_, hq.2.congr fun a ha => ?_⟩
    · have := hcross a ha p mem_cons_self
      exact (hother a (.inl (hps' a ha)) (by omega)).1
    · rw [ptr_setPtr, mod_eq_of_lt (ptr_lt h q)]
      exact hq.1
    · have := (pairwise_cons.1 hsp).1 a (mem_cons_of_mem _ ha)
      exact (hother a (.inr ha) (by omega)).1
  have hspans : (pre ++ post).map (h.setPtr p (h.ptr q)).span =
      pre.map h.span ++ (leftOf (h.span q) (h.cut n q) ++ post.map h.span) := by
    rw [hcut, leftOf, if_pos (show q = (h.span q).lo from rfl), nil_append,
      ← map_append]
    refine map_span_congr fun a ha => hsize a ?_
    rw [mem_append] at ha
    exact ha.imp_left (mem_cons_of_mem base)
  have hfreep : p ∈ base :: (pre ++ post) := by
    rw [← cons_append]
    exact mem_append_left _ hpm
  refine ⟨rfl, Nat.le_of_eq heq.symm, ?_, hspans, ?_, ?_, ?_, rfl⟩
  · refine hf.of_cut hn (Nat.le_of_eq heq.symm) hlinks hfreep ?_ hspans
    exact (hsize base (.inl mem_cons_self)).trans hf.zero
  · rw [hcut]
    have := (hf.within q hqin).2
    exact mod_eq_of_lt (by omega)
  · rw [hcut, ← heq]
    show (h.setPtr p (h.ptr q)).size q = h.size q
    refine (keeps_setPtr h p _ q fun c hc => ?_).2
    rw [mem_singleton.1 hc]
    have := (pairwise_cons.1 hsp).1 q mem_cons_self
    exact hf.clear (mem_cons_of_mem _ hqin) (hin p (.inl hpm)) (by omega)
  · refine (keeps_setPtr h p _).mono fun c hc => ?_
    rw [mem_singleton.1 hc]
    exact mem_cons_of_mem _ (hin p (.inl hpm))

theorem FreeList.take_end (hf : FreeList base h (pre ++ q :: post))
    (hp : p ∈ base :: (pre ++ q :: post)) (hlt : n < h.size q) (hn : 0 < n) :
    Taken base n h (pre ++ q :: post)
      { (h.setSize q (h.size q - n)).setSize (h.cut n q) n with freep := p } (h.cut n q + 8) q pre
      post (pre ++ q :: post) := by
  have hqin : q ∈ pre ++ q :: post := mem_append_right _ mem_cons_self
  have hqm := mem_cons_of_mem base hqin
  obtain ⟨hlow, hend⟩ := hf.within q hqin
  have hcut : q + 8 ≤ h.cut n q ∧ h.cut n q + 8 ≤ q + 8 * h.size q := by
    unfold Heap.cut
    omega
  have hapart := hf.apart
  rw [map_append, map_cons, pairwise_append] at hapart
  obtain ⟨-, hafter, hbefore⟩ := hapart
  -- the other nodes are clear of the block and of the new header in it
  have hclear (a : Nat) (ha : a ∈ base :: (pre ++ q :: post)) (hne : a ≠ q) :
      Clear a q ∧ Clear a (h.cut n q) := by
    have hc := hf.clear ha hqm hne
    refine ⟨hc, ?_⟩
    unfold Clear at hc ⊢
    rcases mem_cons.1 ha with rfl | ha
    · omega
    rcases mem_append.1 ha with ha | ha
    · have : a + 8 * h.size a < q := hbefore _ (mem_map_of_mem ha) _ mem_cons_self
      omega
    · have ha := (mem_cons.1 ha).resolve_left hne
      have : q + 8 * h.size q < a := (pairwise_cons.1 hafter).1 _ (mem_map_of_mem ha)
      omega
  obtain ⟨g, hg⟩ : ∃ g, g = (h.setSize q (h.size q - n)).setSize (h.cut n q) n := ⟨_, rfl⟩
  have hother (a : Nat) (ha : a ∈ base :: (pre ++ q :: post)) (hne : a ≠ q) :
      g.ptr a = h.ptr a ∧ g.size a = h.size a := by
    obtain ⟨hc, hc'⟩ := hclear a ha hne
    obtain ⟨hp₁, hs₁⟩ := keeps_setSize h q (h.size q - n) a
      fun c hm => by rw [mem_singleton.1 hm]; exact hc
    obtain ⟨hp₂, hs₂⟩ := keeps_setSize (h.setSize q (h.size q - n)) (h.cut n q) n a
      fun c hm => by rw [mem_singleton.1 hm]; exact hc'
    rw [hg]
    exact ⟨hp₂.trans hp₁, hs₂.trans hs₁⟩
  have hself : g.ptr q = h.ptr q ∧ g.size q = h.size q - n := by
    obtain ⟨hp₂, hs₂⟩ := keeps_setSize (h.setSize q (h.size q - n)) (h.cut n q) n q
      fun c hm => by rw [mem_singleton.1 hm]; exact .inl hcut.1
    rw [hg, hp₂, hs₂, ptr_setSize, size_setSize, mod_eq_of_lt (by omega)]
    exact ⟨rfl, rfl⟩
  have hnew : g.size (h.cut n q) = n := by
    rw [hg, size_setSize, mod_eq_of_lt (by omega)]
  have hptr (a : Nat) (ha : a ∈ base :: (pre ++ q :: post)) : g.ptr a = h.ptr a := by
    by_cases haq : a = q
    · rw [haq, hself.1]
    · exact (hother a ha haq).1
  have hsize (a : Nat) (ha : a ∈ pre ∨ a ∈ post) : g.size a = h.size a := by
    have ham : a ∈ pre ++ q :: post := by
      rw [mem_append, mem_cons]
      tauto
    refine (hother a (mem_cons_of_mem _ ham) ?_).2
    rintro rfl
    rcases ha with ha | ha
    · have : a + 8 * h.size a < a := hbefore _ (mem_map_of_mem ha) _ mem_cons_self
      omega
    · have : a + 8 * h.size a < a := (pairwise_cons.1 hafter).1 _ (mem_map_of_mem ha)
      omega
  have hspans : (pre ++ q :: post).map g.span =
      pre.map h.span ++ (leftOf (h.span q) (h.cut n q) ++ post.map h.span) := by
    have hq : g.span q = ⟨q, h.cut n q⟩ := by
      rw [Heap.span, hself.2]
      rfl
    rw [map_append, map_cons, hq, leftOf,
      if_neg (show h.cut n q ≠ (h.span q).lo from Nat.ne_of_gt (by show q < _; omega)),
      map_span_congr fun a ha => hsize a (.inl ha), map_span_congr fun a ha => hsize a (.inr ha)]
    rfl
  rw [← hg]
  refine ⟨rfl, Nat.le_of_lt hlt, ?_, hspans, rfl, hnew, ?_, by rw [hg]; rfl⟩
  · refine hf.of_cut hn (Nat.le_of_lt hlt) (hf.links.congr hptr) hp ?_ hspans
    refine (hother base mem_cons_self ?_).2.trans hf.zero
    omega
  rw [hg]
  refine ((keeps_setSize _ _ _).mono ?_).trans ((keeps_setSize _ _ _).mono ?_)
  · intro c hc
    rw [mem_singleton.1 hc]
    exact mem_cons_of_mem _ hqm
  · intro c hc
    rw [mem_singleton.1 hc]
    exact mem_cons_self

theorem FreeList.take (hf : FreeList base h l) (hp : p ∈ base :: l) (hn : 0 < n)
    (hfit : n ≤ h.size (h.ptr p)) :
    ∃ q l₁ l₂ l', Taken base n h l (h.take n p (h.ptr p)).1 (h.take n p (h.ptr p)).2 q l₁ l₂ l' := by
  obtain ⟨pre, post, hsplit⟩ := append_of_mem hp
  have hlinks := hf.links
  rw [hsplit, threaded_append] at hlinks
  obtain ⟨hpre, hptr, hthread⟩ := hlinks
  cases post with
  | nil =>
    have hptr : h.ptr p = base := hptr
    rw [hptr, hf.zero] at hfit
    omega
  | cons q l₂ =>
    have hptr : h.ptr p = q := hptr
    rw [hptr] at hfit ⊢
    obtain ⟨c, l₁, hc⟩ : ∃ c l₁, pre ++ [p] = c :: l₁ :=
      exists_cons_of_ne_nil (append_ne_nil_of_right_ne_nil _ (cons_ne_nil _ _))
    have hsplit' : base :: l = c :: (l₁ ++ q :: l₂) := by
      rw [hsplit, ← cons_append, ← hc, append_assoc]
      rfl
    obtain ⟨rfl, rfl⟩ := List.cons.inj hsplit'
    refine ⟨q, l₁, l₂, ?_⟩
    rw [Heap.take]
    split
    · rename_i heq
      exact ⟨_, hf.take_all hc hpre hthread heq hn⟩
    rename_i hne
    have hqin : q ∈ l₁ ++ q :: l₂ := mem_append_right _ mem_cons_self
    have hend := (hf.within q hqin).2
    have hsize : (h.setSize q (h.size q - n)).size q = h.size q - n := by
      rw [size_setSize, mod_eq_of_lt (by omega)]
    have hplus : plusUnits q (h.size q - n) = h.cut n q := mod_eq_of_lt (by omega)
    have hres : plusUnits (h.cut n q) 1 = h.cut n q + 8 := by
      unfold Heap.cut
      exact mod_eq_of_lt (by omega)
    have htaken := hf.take_end hp (by omega : n < h.size q) hn
    dsimp only
    rw [hsize, hplus, hres]
    exact ⟨_, htaken⟩

end

end Xv6Signals.Umalloc
