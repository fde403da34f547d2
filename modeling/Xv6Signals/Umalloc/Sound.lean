import Mathlib.Data.Nat.Find
import Xv6Signals.Umalloc.FreeList

namespace Xv6Signals.Umalloc
open Lib List Nat Function

variable {base b p q n k fuel : Nat} {h h₁ h₂ : Heap} {l : List Nat} {live : List (Nat × Nat)}
  {s t : HeapState} {sbrk : Option Nat} {sbrks : List (Option Nat)}

/-- The heap after the first call of `malloc`: the blocks of the free list and those of the program
are all the memory that `sbrk` has returned. -/
structure HeapInv (base : Nat) (h : Heap) (live : List (Nat × Nat)) (l : List Nat) : Prop where
  list : FreeList base h l
  tiling : Tiling (l.map h.span) (live.map blockSpan) h.got
  sizes : ∀ b ∈ live, h.size b.1 = b.2
  above : ∀ r ∈ h.got, base + 8 ≤ r.lo ∧ r.hi < 2 ^ 32
  base_pos : 0 < base

section

variable (hi : HeapInv base h live l)
include hi

theorem HeapInv.freep_ne : h.freep ≠ 0 := by
  have hpos := hi.base_pos
  rcases mem_cons.1 hi.list.freep with he | hm
  · omega
  · have := (hi.list.within _ hm).1
    omega

theorem HeapInv.span_eq {b : Nat × Nat} (hb : b ∈ live) : h.span b.1 = blockSpan b := by
  rw [Heap.span, hi.sizes b hb]
  rfl

theorem HeapInv.live_pos {b : Nat × Nat} (hb : b ∈ live) : 0 < b.2 := by
  have : b.1 < b.1 + 8 * b.2 := hi.tiling.posLive _ (mem_map_of_mem hb)
  omega

theorem HeapInv.live_within {b : Nat × Nat} (hb : b ∈ live) :
    base + 8 ≤ b.1 ∧ b.1 + 8 * b.2 < 2 ^ 32 := by
  have hpos := hi.live_pos hb
  have hgot (x : Nat) (hx : (blockSpan b).Has x) : base + 8 ≤ x ∧ x + 1 < 2 ^ 32 := by
    obtain ⟨r, hr, hrx⟩ := (hi.tiling.tiles x).2 (.inr ⟨_, mem_map_of_mem hb, hx⟩)
    have := hi.above r hr
    unfold Span.Has at hrx
    omega
  have hlo := hgot b.1 ⟨Nat.le_refl _, by show b.1 < b.1 + 8 * b.2; omega⟩
  have hhi := hgot (b.1 + 8 * b.2 - 1) ⟨by show b.1 ≤ _; omega, by
    show b.1 + 8 * b.2 - 1 < b.1 + 8 * b.2; omega⟩
  omega

theorem HeapInv.live_clear {b : Nat × Nat} (hb : b ∈ live) (hp : p ∈ base :: l) : Clear b.1 p := by
  have hpos := hi.live_pos hb
  unfold Clear
  rcases mem_cons.1 hp with rfl | hp
  · exact .inr (hi.live_within hb).1
  · have hsize := hi.list.pos p hp
    have hd := hi.tiling.between _ (mem_map_of_mem hp) _ (mem_map_of_mem hb)
    change p + 8 * h.size p ≤ b.1 ∨ b.1 + 8 * b.2 ≤ p at hd
    omega

theorem HeapInv.live_disjoint {b c : Nat × Nat} (hb : b ∈ live)
    (hc : c ∈ live) : b = c ∨ (blockSpan b).Disjoint (blockSpan c) := by
  by_cases he : blockSpan b = blockSpan c
  · have hlo : b.1 = c.1 := congrArg Span.lo he
    have hhi : b.1 + 8 * b.2 = c.1 + 8 * c.2 := congrArg Span.hi he
    exact .inl (Prod.ext hlo (by omega))
  · have hsymm : Std.Symm Span.Disjoint := ⟨fun _ _ => Or.symm⟩
    exact .inr (hi.tiling.disjoint.forall (mem_map_of_mem hb) (mem_map_of_mem hc) he)

theorem HeapInv.pair_clear {l₁ l₂ : List (Nat × Nat)} {b c : Nat × Nat}
    (hsplit : live = l₁ ++ b :: l₂) (hc : c ∈ l₁ ++ l₂) : Clear c.1 b.1 := by
  have hmem : b ∈ live := by
    rw [hsplit]
    exact mem_append_right _ mem_cons_self
  have hcm : c ∈ live := by
    rw [hsplit]
    rcases mem_append.1 hc with hc | hc
    · exact mem_append_left _ hc
    · exact mem_append_right _ (mem_cons_of_mem _ hc)
  have hbp := hi.live_pos hmem
  have hcp := hi.live_pos hcm
  have hdisj := hi.tiling.disjoint
  rw [hsplit, map_append, map_cons, pairwise_append] at hdisj
  obtain ⟨-, h₂, h₁₂⟩ := hdisj
  have hd : (blockSpan c).Disjoint (blockSpan b) := by
    rcases mem_append.1 hc with hc | hc
    · exact h₁₂ _ (mem_map_of_mem hc) _ mem_cons_self
    · exact ((pairwise_cons.1 h₂).1 _ (mem_map_of_mem hc)).symm
  change c.1 + 8 * c.2 ≤ b.1 ∨ b.1 + 8 * b.2 ≤ c.1 at hd
  unfold Clear
  omega

theorem HeapInv.free {b : Nat × Nat} (hb : b ∈ live) :
    ∃ h' l', h.free (b.1 + 8) = some h' ∧ HeapInv base h' (live.erase b) l' := by
  obtain ⟨hlow, hend⟩ := hi.live_within hb
  have hpos := hi.live_pos hb
  have hsize := hi.sizes b hb
  obtain ⟨l₁, l₂, -, hsplit, herase⟩ := exists_erase_eq hb
  have hdisj : ∀ a ∈ l, (h.span a).Disjoint (h.span b.1) := by
    intro a ha
    rw [hi.span_eq hb]
    exact hi.tiling.between _ (mem_map_of_mem ha) _ (mem_map_of_mem hb)
  obtain ⟨h', l', hrun, hfreed⟩ := hi.list.free hlow (by omega) (by omega) hdisj
  have hplus : plusUnits b.1 1 = b.1 + 8 := mod_eq_of_lt (by omega)
  rw [hplus] at hrun
  refine ⟨h', l', hrun, hfreed.list, ?_, ?_, ?_, hi.base_pos⟩
  · have htile := hi.tiling
    have hjoined := hfreed.joined
    rw [hsplit, map_append, map_cons] at htile
    rw [hi.span_eq hb] at hjoined
    rw [herase, map_append, hfreed.got]
    exact htile.release hjoined
  · intro c hc
    rw [herase] at hc
    have hcm : c ∈ live := by
      rw [hsplit]
      rcases mem_append.1 hc with hc | hc
      · exact mem_append_left _ hc
      · exact mem_append_right _ (mem_cons_of_mem _ hc)
    rw [← hi.sizes c hcm]
    refine (hfreed.keeps c.1 fun p hp => ?_).2
    rcases mem_cons.1 hp with rfl | hp
    · exact hi.pair_clear hsplit hc
    · exact hi.live_clear hcm hp
  · rw [hfreed.got]
    exact hi.above

theorem HeapInv.morecore (hn : 0 < n) (hfresh : h.Fresh base (8 * coreUnits n) p) :
    ∃ h' l', h.morecore n (some p) = some (h', h'.freep) ∧ HeapInv base h' live l' ∧
      ∃ a ∈ l', n ≤ h'.size a := by
  obtain ⟨hlow, hgot, hend⟩ := hfresh
  have hunits : n ≤ coreUnits n := by
    unfold coreUnits
    split <;> omega
  obtain ⟨g, hg⟩ : ∃ g : Heap, g = Heap.setSize
      { h with got := ⟨p, p + 8 * coreUnits n⟩ :: h.got } p (coreUnits n) := ⟨_, rfl⟩
  have hk : Keeps [p] h g := by
    rw [hg]
    exact keeps_setSize { h with got := ⟨p, p + 8 * coreUnits n⟩ :: h.got } p _
  have hsize : g.size p = coreUnits n := by
    rw [hg, size_setSize, mod_eq_of_lt (by omega)]
  have hggot : g.got = ⟨p, p + 8 * coreUnits n⟩ :: h.got := by rw [hg]; rfl
  have hgspan : g.span p = ⟨p, p + 8 * coreUnits n⟩ := by rw [Heap.span, hsize]
  -- all that was there before ends where the new memory begins
  have hbelow (c : Span) (hc : c ∈ l.map h.span ∨ c ∈ live.map blockSpan) (hcp : c.lo < c.hi) :
      c.hi ≤ p := by
    have hcov : Covers h.got (c.hi - 1) := by
      refine (hi.tiling.tiles _).2 ?_
      rcases hc with hc | hc
      · exact .inl ⟨c, hc, by omega, by omega⟩
      · exact .inr ⟨c, hc, by omega, by omega⟩
    obtain ⟨r, hr, hrx⟩ := hcov
    have := hgot r hr
    unfold Span.Has at hrx
    omega
  have hsame (a : Nat) (ha : Clear a p) : g.ptr a = h.ptr a ∧ g.size a = h.size a := by
    refine hk a fun c hc => ?_
    rw [mem_singleton.1 hc]
    exact ha
  have hnode (a : Nat) (ha : a ∈ base :: l) : Clear a p := by
    rcases mem_cons.1 ha with rfl | ha
    · exact .inl hlow
    · have hpos := hi.list.pos a ha
      have : a + 8 * h.size a ≤ p := hbelow (h.span a) (.inl (mem_map_of_mem ha))
        (by show a < a + 8 * h.size a; omega)
      exact .inl (by omega)
  obtain ⟨hlist, hspans⟩ := hi.list.congr (g := g) (by rw [hg]; rfl)
    fun a ha => hsame a (hnode a ha)
  have hdisj : ∀ a ∈ l, (g.span a).Disjoint (g.span p) := by
    intro a ha
    have hpos := hlist.pos a ha
    have hspan : g.span a ∈ l.map h.span := by
      rw [← hspans]
      exact mem_map_of_mem ha
    exact .inl (hbelow (g.span a) (.inl hspan) (by show a < a + 8 * g.size a; omega))
  obtain ⟨h', l', hrun, hfreed⟩ := hlist.free hlow (by omega) (by omega) hdisj
  have hjoined := hfreed.joined
  rw [hspans, hgspan] at hjoined
  refine ⟨h', l', ?_, ⟨hfreed.list, ?_, ?_, ?_, hi.base_pos⟩, ?_⟩
  · rw [hg] at hrun
    rw [Heap.morecore, hrun]
    rfl
  · rw [hfreed.got, hggot]
    refine hi.tiling.grow (fun x hx => ?_) hjoined
    rintro ⟨r, hr, hrx⟩
    have := hgot r hr
    unfold Span.Has at hx hrx
    dsimp only at hx
    omega
  · intro c hc
    have hcpos := hi.live_pos hc
    have hcend : c.1 + 8 * c.2 ≤ p := hbelow (blockSpan c) (.inr (mem_map_of_mem hc))
      (by show c.1 < c.1 + 8 * c.2; omega)
    have hcp : Clear c.1 p := .inl (by omega)
    rw [← hi.sizes c hc, ← (hsame c.1 hcp).2]
    refine (hfreed.keeps c.1 fun a ha => ?_).2
    rcases mem_cons.1 ha with rfl | ha
    · exact hcp
    · exact hi.live_clear hc ha
  · rw [hfreed.got, hggot]
    intro r hr
    rcases mem_cons.1 hr with rfl | hr
    · exact ⟨hlow, hend⟩
    · exact hi.above r hr
  · obtain ⟨c, hc, hlo, hhi⟩ := hjoined.contains (by show p < p + 8 * coreUnits n; omega)
    obtain ⟨a, ha, rfl⟩ := mem_map.1 hc
    refine ⟨a, ha, ?_⟩
    change a ≤ p at hlo
    change p + 8 * coreUnits n ≤ a + 8 * h'.size a at hhi
    omega

theorem HeapInv.take (hp : p ∈ base :: l) (hn : 0 < n) (hfit : n ≤ h.size (h.ptr p)) :
    ∃ m l', (h.take n p (h.ptr p)).2 = m + 8 ∧
      HeapInv base (h.take n p (h.ptr p)).1 ((m, n) :: live) l' := by
  obtain ⟨q, l₁, l₂, l', ht⟩ := hi.list.take hp hn hfit
  obtain rfl := ht.split
  have hqin : q ∈ l₁ ++ q :: l₂ := mem_append_right _ mem_cons_self
  have hfits := ht.fits
  have hcut : (h.span q).lo ≤ h.cut n q ∧ h.cut n q < (h.span q).hi := by
    show q ≤ q + 8 * (h.size q - n) ∧ q + 8 * (h.size q - n) < q + 8 * h.size q
    omega
  have hblock : (⟨h.cut n q, (h.span q).hi⟩ : Span) = blockSpan (h.cut n q, n) := by
    show Span.mk _ (q + 8 * h.size q) = Span.mk _ (q + 8 * (h.size q - n) + 8 * n)
    congr 1
    omega
  refine ⟨h.cut n q, l', ht.result, ht.list, ?_, ?_, ?_, hi.base_pos⟩
  · have htile := hi.tiling
    rw [map_append, map_cons] at htile
    rw [ht.spans, ht.got, map_cons, ← hblock]
    exact htile.carve hcut
  · intro c hc
    rcases mem_cons.1 hc with rfl | hc
    · exact ht.size
    rw [← hi.sizes c hc]
    refine (ht.keeps c.1 fun a ha => ?_).2
    rcases mem_cons.1 ha with rfl | ha
    · have hpos := hi.live_pos hc
      have hd := hi.tiling.between _ (mem_map_of_mem hqin) _ (mem_map_of_mem hc)
      change q + 8 * h.size q ≤ c.1 ∨ c.1 + 8 * c.2 ≤ q at hd
      unfold Clear Heap.cut
      omega
    · exact hi.live_clear hc ha
  · rw [ht.got]
    exact hi.above

end

/-- Where the loop of `malloc` stops to look: at a block that is large enough, or at `freep`. -/
def Heap.stops (h : Heap) (n p : Nat) : Prop := n ≤ h.size p ∨ p = h.freep

theorem mallocLoop_take (hfit : n ≤ h.size (h.ptr p)) :
    h.mallocLoop n (fuel + 1) p sbrks = some (h.take n p (h.ptr p)) := by
  conv_lhs => unfold Heap.mallocLoop
  exact if_pos hfit

theorem mallocLoop_core (hfit : ¬ n ≤ h.size (h.ptr p)) (hp : h.ptr p = h.freep) :
    h.mallocLoop n (fuel + 1) p (sbrk :: sbrks) = (h.morecore n sbrk).bind fun r =>
      if r.2 = 0 then some (r.1, 0) else r.1.mallocLoop n fuel r.2 sbrks := by
  conv_lhs => unfold Heap.mallocLoop
  exact (if_neg hfit).trans (if_pos hp)

theorem mallocLoop_next (hn : ¬ h.stops n (h.ptr p)) :
    h.mallocLoop n (fuel + 1) p sbrks = h.mallocLoop n fuel (h.ptr p) sbrks := by
  unfold Heap.stops at hn
  rw [not_or] at hn
  conv_lhs => unfold Heap.mallocLoop
  exact (if_neg hn.1).trans (if_neg hn.2)

theorem mallocLoop_walk (sbrks : List (Option Nat)) (hk : k < fuel)
    (hstop : h.stops n (h.ptr^[k + 1] p)) :
    ∃ j ≤ k, h.stops n (h.ptr^[j + 1] p) ∧
      h.mallocLoop n fuel p sbrks = h.mallocLoop n (fuel - j) (h.ptr^[j] p) sbrks := by
  induction k generalizing p fuel with
  | zero => exact ⟨0, Nat.le_refl 0, hstop, rfl⟩
  | succ k ih =>
    by_cases hnow : h.stops n (h.ptr p)
    · exact ⟨0, Nat.zero_le _, hnow, rfl⟩
    · obtain ⟨f, rfl⟩ := exists_eq_add_one_of_ne_zero (Nat.ne_of_gt (zero_lt_of_lt hk))
      obtain ⟨j, hj, hstop', hloop⟩ := ih (lt_of_succ_lt_succ hk) hstop
      refine ⟨j + 1, succ_le_succ hj, hstop', ?_⟩
      rw [mallocLoop_next hnow, hloop, iterate_succ_apply, Nat.add_sub_add_right]

theorem FreeList.iterate_mem (hf : FreeList base h l) (hp : p ∈ base :: l) (j : Nat) :
    h.ptr^[j] p ∈ base :: l := by
  induction j generalizing p with
  | zero => exact hp
  | succ j ih =>
    rw [iterate_succ_apply]
    refine ih ?_
    obtain ⟨pre, post, hsplit⟩ := append_of_mem hp
    have hlinks := hf.links
    rw [hsplit, threaded_append] at hlinks
    rw [hlinks.2.1]
    cases post with
    | nil => exact mem_cons_self
    | cons q post =>
      rw [hsplit]
      exact mem_append_right _ (mem_cons_of_mem _ mem_cons_self)

theorem HeapInv.mallocLoop_fit (hi : HeapInv base h live l) (sbrks : List (Option Nat)) (hn : 0 < n)
    (hfit : ∃ a ∈ l, n ≤ h.size a) (hfuel : 2 ^ 32 ≤ fuel) :
    ∃ h' m l', h.mallocLoop n fuel h.freep sbrks = some (h', m + 8) ∧
      HeapInv base h' ((m, n) :: live) l' := by
  obtain ⟨a, ha, hna⟩ := hfit
  have hlen := hi.list.length_le
  rw [length_cons] at hlen
  obtain ⟨k, ⟨hk, hka⟩, hmin⟩ : ∃ k, (k ≤ l.length ∧ h.ptr^[k + 1] h.freep = a) ∧
      ∀ m < k, ¬ (m ≤ l.length ∧ h.ptr^[m + 1] h.freep = a) := by
    classical
    have hex := hi.list.links.circle hi.list.freep (mem_cons_of_mem _ ha)
    exact ⟨Nat.find hex, Nat.find_spec hex, fun m => Nat.find_min hex⟩
  have hstop : h.stops n (h.ptr^[k + 1] h.freep) := by
    rw [hka]
    exact .inl hna
  obtain ⟨j, hj, hstop, hloop⟩ := mallocLoop_walk sbrks (show k < fuel by omega) hstop
  -- if the loop came back to `freep` before, there would be a shorter way to the block
  have hsize : n ≤ h.size (h.ptr (h.ptr^[j] h.freep)) := by
    rw [← iterate_succ_apply' h.ptr j]
    rcases hstop with hfit | hback
    · exact hfit
    by_cases hjk : j = k
    · rw [hjk, hka]
      exact hna
    refine (hmin (k - (j + 1)) (by omega) ⟨by omega, ?_⟩).elim
    calc h.ptr^[k - (j + 1) + 1] h.freep
        = h.ptr^[k - (j + 1) + 1] (h.ptr^[j + 1] h.freep) := by rw [hback]
      _ = h.ptr^[k + 1] h.freep := by
        rw [← iterate_add_apply]
        congr 1
        omega
      _ = a := hka
  obtain ⟨f, hf⟩ := exists_eq_add_one_of_ne_zero (by omega : fuel - j ≠ 0)
  obtain ⟨m, l', hres, hinv⟩ := hi.take (hi.list.iterate_mem hi.list.freep j) hn hsize
  refine ⟨_, m, l', ?_, hinv⟩
  rw [hloop, hf, mallocLoop_take hsize, ← hres]

theorem HeapInv.mallocLoop (hi : HeapInv base h live l) (hn : 0 < n)
    (hfresh : ∀ p ∈ sbrk, h.Fresh base (8 * coreUnits n) p) :
    ∃ h' r, h.mallocLoop n maxRounds h.freep [sbrk] = some (h', r) ∧
      (r = 0 ∧ sbrk = none ∧ HeapInv base h' live l ∨
        ∃ m l', r = m + 8 ∧ HeapInv base h' ((m, n) :: live) l') := by
  have hlen := hi.list.length_le
  rw [length_cons] at hlen
  have hrounds : maxRounds = 2 ^ 33 := rfl
  by_cases hfit : ∃ a ∈ l, n ≤ h.size a
  · obtain ⟨h', m, l', hrun, hinv⟩ :=
      hi.mallocLoop_fit [sbrk] hn hfit (show 2 ^ 32 ≤ maxRounds by omega)
    exact ⟨h', m + 8, hrun, .inr ⟨m, l', rfl, hinv⟩⟩
  obtain ⟨k, hk, hback⟩ := hi.list.links.circle hi.list.freep hi.list.freep
  have hstop : h.stops n (h.ptr^[k + 1] h.freep) := .inr hback
  obtain ⟨j, hj, hstop, hloop⟩ := mallocLoop_walk [sbrk] (show k < maxRounds by omega) hstop
  -- no node is large enough, so this is `freep`
  have hnot : ¬ n ≤ h.size (h.ptr^[j + 1] h.freep) := by
    intro hle
    rcases mem_cons.1 (hi.list.iterate_mem hi.list.freep (j + 1)) with he | hm
    · rw [he, hi.list.zero] at hle
      omega
    · exact hfit ⟨_, hm, hle⟩
  have hfreep := hstop.resolve_left hnot
  rw [iterate_succ_apply'] at hnot hfreep
  obtain ⟨f, hf⟩ := exists_eq_add_one_of_ne_zero (by omega : maxRounds - j ≠ 0)
  rw [hloop, hf, mallocLoop_core hnot hfreep]
  cases sbrk with
  | none => exact ⟨h, 0, rfl, .inl ⟨rfl, rfl, hi⟩⟩
  | some p =>
    obtain ⟨h₁, l₁, hcore, hi₁, hfit₁⟩ := hi.morecore hn (hfresh p rfl)
    obtain ⟨h', m, l', hrun, hinv⟩ :=
      hi₁.mallocLoop_fit [] hn hfit₁ (show 2 ^ 32 ≤ f by omega)
    refine ⟨h', m + 8, ?_, .inr ⟨m, l', rfl, hinv⟩⟩
    rw [hcore, Option.bind_some, if_neg hi₁.freep_ne]
    exact hrun

def HeapOk (base : Nat) (s : HeapState) : Prop :=
  0 < base ∧ base + 8 < 2 ^ 32 ∧ s.heap.freep = 0 ∧ s.heap.got = [] ∧ s.live = [] ∨
    ∃ l, HeapInv base s.heap s.live l

theorem heapInv_first (hpos : 0 < base) (hlt : base + 8 < 2 ^ 32) (hgot : h.got = []) :
    HeapInv base { (h.setPtr base base).setSize base 0 with freep := base } [] [] := by
  refine ⟨⟨⟨?_, trivial⟩, mem_cons_self, size_setSize _ _ _, List.Pairwise.nil, ?_, ?_⟩, ?_,
    ?_, ?_, hpos⟩
  · show ((h.setPtr base base).setSize base 0).ptr base = base
    rw [ptr_setSize, ptr_setPtr, mod_eq_of_lt (by omega)]
  · intro a ha
    cases ha
  · intro a ha
    cases ha
  · show Tiling [] [] h.got
    rw [hgot]
    exact Tiling.nil
  · intro b hb
    cases hb
  · intro r hr
    change r ∈ h.got at hr
    rw [hgot] at hr
    cases hr

theorem unitsOf_pos (nbytes : Nat) : 0 < unitsOf nbytes := succ_pos _

theorem HeapOk.malloc (hs : HeapOk base s) {nbytes : Nat} (hask : s.Asks base nbytes sbrk) :
    ∃ h' r, s.heap.malloc base nbytes sbrk = some (h', r) ∧
      (r = 0 ∧ HeapOk base ⟨h', s.live⟩ ∨
        ∃ m l', r = m + 8 ∧ HeapInv base h' ((m, unitsOf nbytes) :: s.live) l') := by
  have hn := unitsOf_pos nbytes
  unfold Heap.malloc
  rcases hs with ⟨hpos, hlt, hzero, hgot, hlive⟩ | ⟨l, hi⟩
  · have hi := heapInv_first hpos hlt hgot
    rw [if_pos hzero, hlive]
    obtain ⟨h', r, hrun, hres⟩ := hi.mallocLoop hn hask.2
    exact ⟨h', r, hrun, hres.imp_left fun hr => ⟨hr.1, .inr ⟨_, hr.2.2⟩⟩⟩
  · rw [if_neg hi.freep_ne]
    obtain ⟨h', r, hrun, hres⟩ := hi.mallocLoop hn hask.2
    exact ⟨h', r, hrun, hres.imp_left fun hr => ⟨hr.1, .inr ⟨_, hr.2.2⟩⟩⟩

theorem HeapInv.write (hi : HeapInv base h live l) {x : Nat} {v : Byte}
    (hx : HeapState.Writes base ⟨h, live⟩ x) :
    HeapInv base { h with mem := h.mem.write x [v] } live l := by
  have hkeep (a : Nat) (ha : x < a ∨ a + 8 ≤ x) :
      Heap.ptr { h with mem := h.mem.write x [v] } a = h.ptr a ∧
      Heap.size { h with mem := h.mem.write x [v] } a = h.size a := by
    constructor
    · refine congrArg (fun bs => (bytesWord bs).toNat) (Bytes.read_write_outside ?_)
      rw [length_singleton]
      omega
    · refine congrArg (fun bs => (bytesWord bs).toNat) (Bytes.read_write_outside ?_)
      rw [length_singleton]
      omega
  have hnode (a : Nat) (ha : a ∈ base :: l) : x < a ∨ a + 8 ≤ x := by
    rcases hx with ⟨b, hb, hlo, hhi⟩ | ⟨hbase, hgot⟩
    · have hlow := (hi.live_within hb).1
      rcases mem_cons.1 ha with rfl | ha
      · omega
      · have hpos := hi.list.pos a ha
        have hd := hi.tiling.between _ (mem_map_of_mem ha) _ (mem_map_of_mem hb)
        change a + 8 * h.size a ≤ b.1 ∨ b.1 + 8 * b.2 ≤ a at hd
        omega
    rcases mem_cons.1 ha with rfl | ha
    · omega
    by_contra hin
    have hpos := hi.list.pos a ha
    obtain ⟨r, hr, hrx⟩ := (hi.tiling.tiles x).2
      (.inl ⟨h.span a, mem_map_of_mem ha, by show a ≤ x; omega, by
        show x < a + 8 * h.size a; omega⟩)
    have hout : x < r.lo ∨ r.hi ≤ x := hgot r hr
    unfold Span.Has at hrx
    omega
  have hlive (b : Nat × Nat) (hb : b ∈ live) : x < b.1 ∨ b.1 + 8 ≤ x := by
    have hbpos := hi.live_pos hb
    rcases hx with ⟨c, hc, hlo, hhi⟩ | ⟨-, hgot⟩
    · rcases hi.live_disjoint hb hc with rfl | hd
      · exact .inr hlo
      · change b.1 + 8 * b.2 ≤ c.1 ∨ c.1 + 8 * c.2 ≤ b.1 at hd
        omega
    by_contra hin
    obtain ⟨r, hr, hrx⟩ := (hi.tiling.tiles x).2
      (.inr ⟨blockSpan b, mem_map_of_mem hb, by show b.1 ≤ x; omega, by
        show x < b.1 + 8 * b.2; omega⟩)
    have hout : x < r.lo ∨ r.hi ≤ x := hgot r hr
    unfold Span.Has at hrx
    omega
  obtain ⟨hlist, hspans⟩ := hi.list.congr (g := { h with mem := h.mem.write x [v] }) rfl
    fun a ha => hkeep a (hnode a ha)
  refine ⟨hlist, ?_, fun b hb => ?_, hi.above, hi.base_pos⟩
  · rw [hspans]
    exact hi.tiling
  · rw [(hkeep b.1 (hlive b hb)).2]
    exact hi.sizes b hb

theorem HeapOk.malloc_block (hs : HeapOk base s) (nbytes : Nat) (sbrk : Option Nat)
    (hask : s.Asks base nbytes sbrk) :
    ∃ h' r, s.heap.malloc base nbytes sbrk = some (h', r) ∧
      (r ≠ 0 → h'.size (r - 8) = unitsOf nbytes ∧
        ∀ b ∈ s.live, (blockSpan (r - 8, unitsOf nbytes)).Disjoint (blockSpan b)) := by
  obtain ⟨h', r, hrun, hres⟩ := hs.malloc hask
  refine ⟨h', r, hrun, fun hne => ?_⟩
  rcases hres with ⟨hr, -⟩ | ⟨m, l', hr, hinv⟩
  · exact (hne hr).elim
  rw [hr, Nat.add_sub_cancel]
  refine ⟨hinv.sizes (m, unitsOf nbytes) mem_cons_self, fun b hb => ?_⟩
  have hdisj := hinv.tiling.disjoint
  rw [map_cons] at hdisj
  exact (pairwise_cons.1 hdisj).1 _ (mem_map_of_mem hb)

theorem HeapOk.step (hs : HeapOk base s) {a : HeapLabel} (hnext : s.next base a = some t) :
    HeapOk base t := by
  cases a with
  | malloc nbytes sbrk =>
    simp only [HeapState.next] at hnext
    split at hnext
    · rename_i hask
      obtain ⟨h', r, hrun, hres⟩ := hs.malloc hask
      rw [hrun, Option.map_some] at hnext
      cases hnext
      rcases hres with ⟨rfl, hok⟩ | ⟨m, l', rfl, hinv⟩
      · exact hok
      · exact .inr ⟨l', hinv⟩
    · cases hnext
  | free ap =>
    simp only [HeapState.next] at hnext
    split at hnext
    · cases hnext
    rename_i b hfind
    have hb := mem_of_find?_eq_some hfind
    have hdec := find?_some hfind
    have hap : b.1 + 8 = ap := of_decide_eq_true hdec
    rcases hs with ⟨-, -, -, -, hlive⟩ | ⟨l, hi⟩
    · rw [hlive] at hb
      cases hb
    · obtain ⟨h', l', hrun, hinv⟩ := hi.free hb
      rw [← hap, hrun, Option.map_some] at hnext
      cases hnext
      exact .inr ⟨l', hinv⟩
  | write x v =>
    simp only [HeapState.next] at hnext
    split at hnext
    · rename_i hx
      cases hnext
      rcases hs with hs | ⟨l, hi⟩
      · exact .inl hs
      · exact .inr ⟨l, hi.write hx⟩
    · cases hnext

theorem heapOk_of_reachable (h : (heapMachine base).Reachable s) : HeapOk base s := by
  refine h.invariant (P := HeapOk base) (fun _ hs => .inl hs) ?_
  intro _ _ _ _ hs _ hnext
  exact hs.step hnext

/-- The free list is a circle in the order of the addresses, its blocks and those of the program
tile the memory from `sbrk`, with gaps between free blocks, and `free` and `malloc` return. -/
theorem heap_sound (h : (heapMachine base).Reachable s) :
    (∃ l, (s.heap.freep = 0 ∧ l = [] ∨
          s.heap.freep ∈ base :: l ∧ Threaded s.heap.ptr (base :: l) base) ∧
        (base :: l).Pairwise (· < ·) ∧
        Tiling (l.map s.heap.span) (s.live.map blockSpan) s.heap.got) ∧
      (∀ b ∈ s.live, s.heap.size b.1 = b.2) ∧
      (∀ b ∈ s.live, ∃ h', s.heap.free (b.1 + 8) = some h') ∧
      ∀ nbytes sbrk, s.Asks base nbytes sbrk →
        ∃ h' r, s.heap.malloc base nbytes sbrk = some (h', r) ∧
          (r ≠ 0 → h'.size (r - 8) = unitsOf nbytes ∧
            ∀ b ∈ s.live, (blockSpan (r - 8, unitsOf nbytes)).Disjoint (blockSpan b)) := by
  have hok := heapOk_of_reachable h
  have hmalloc := hok.malloc_block
  rcases hok with ⟨-, -, hzero, hgot, hlive⟩ | ⟨l, hi⟩
  · refine ⟨⟨[], .inl ⟨hzero, rfl⟩, pairwise_singleton _ _, ?_⟩, ?_, ?_, hmalloc⟩
    · rw [hlive, hgot]
      exact Tiling.nil
    · intro b hb
      rw [hlive] at hb
      cases hb
    · intro b hb
      rw [hlive] at hb
      cases hb
  · refine ⟨⟨l, .inr ⟨hi.list.freep, hi.list.links⟩, hi.list.sorted, hi.tiling⟩, hi.sizes, ?_,
      hmalloc⟩
    intro b hb
    obtain ⟨h', -, hrun, -⟩ := hi.free hb
    exact ⟨h', hrun⟩

def freshHeap : HeapState := ⟨⟨fun _ => 0, 0, []⟩, []⟩

theorem heap_sound_two : ∃ s, (heapMachine 4096).Reachable s ∧ s.live = [(40824, 14)] ∧
    (∃ l, (s.heap.freep = 0 ∧ l = [] ∨
        s.heap.freep ∈ 4096 :: l ∧ Threaded s.heap.ptr (4096 :: l) 4096) ∧
      (4096 :: l).Pairwise (· < ·) ∧
      Tiling (l.map s.heap.span) (s.live.map blockSpan) s.heap.got) := by
  have hinit : (heapMachine 4096).Reachable freshHeap :=
    .init ⟨by decide, by decide, rfl, rfl, rfl⟩
  obtain ⟨s, hs, hlive⟩ := hinit.exists_run (P := fun s => s.live = [(40824, 14)])
    (l := [.malloc 10 (some 8192), .malloc 100 none, .free 40944])
    (Machine.permits_true _ _) (by decide +kernel)
  exact ⟨s, hs, hlive, (heap_sound hs).1⟩

end Xv6Signals.Umalloc
