import Xv6Signals.Bio.Cache

namespace Xv6Signals.Bio
open Lib Function

/-- What is done to the buffers: `bget`, `brelse` of a buffer that is in use, and the flags, which
the log and the disk driver change. -/
inductive BufOp
  | bget (dev blockno : Word)
  | brelse (i : BufId)
  | flags (i : BufId) (valid dirty : Bool)

def bufMachine : Machine Bcache BufOp where
  init := fun c => c = binit
  next := fun c op =>
    match op with
    | .bget dev blockno => (c.bget dev blockno).map Prod.snd
    | .brelse i => if 0 < (c.buf i).refcnt then some (c.brelse i) else none
    | .flags i valid dirty => some (c.setBuf i { c.buf i with valid := valid, dirty := dirty })

/-- The number of steps so far, and the step in which a buffer was last given back by all: 0 for a
buffer that has never been used. -/
structure Drops where
  now : Nat
  last : BufId → Nat

def Drops.update (g : Drops) (c : Bcache) : BufOp → Drops
  | .brelse i => ⟨g.now + 1, if (c.buf i).refcnt = 1 then Function.update g.last i (g.now + 1)
      else g.last⟩
  | _ => ⟨g.now + 1, g.last⟩

def lruMachine : Machine (Bcache × Drops) BufOp := bufMachine.track ⟨0, fun _ => 0⟩ Drops.update

variable {c c' : Bcache} {g : Drops} {l : List BufId} {i j : BufId} {dev blockno : Word} {op : BufOp}

def Drops.Later (g : Drops) (i j : BufId) : Prop :=
  g.last j < g.last i ∨ g.last i = 0 ∧ g.last j = 0

/-- The buffers that nobody uses are in the order in which they were given back. -/
structure LruOrder (c : Bcache) (g : Drops) (l : List BufId) : Prop where
  listed : Listed c l
  order : l.Pairwise fun i j => (c.buf i).refcnt = 0 → (c.buf j).refcnt = 0 → g.Later i j
  past : ∀ i, g.last i ≤ g.now

theorem LruOrder.keep (h : LruOrder c g l) (hl : Listed c' l)
    (hfree : ∀ i, (c'.buf i).refcnt = 0 → (c.buf i).refcnt = 0) :
    LruOrder c' ⟨g.now + 1, g.last⟩ l :=
  ⟨hl, h.order.imp fun hij hi hj => hij (hfree _ hi) (hfree _ hj), fun i => (h.past i).trans (Nat.le_succ _)⟩

theorem LruOrder.bget (h : LruOrder c g l) (hgot : Got c l dev blockno i c') :
    LruOrder c' ⟨g.now + 1, g.last⟩ l := by
  refine h.keep (hgot.listed h.listed) fun j hj => ?_
  cases hgot with
  | hit =>
    by_cases hji : j = i
    · rw [hji, setBuf_self] at hj
      cases hj
    · rwa [setBuf_of_ne hji] at hj
  | recycled _ _ _ href =>
    by_cases hji : j = i
    · rwa [hji]
    · rwa [setBuf_of_ne hji] at hj

theorem LruOrder.brelse (h : LruOrder c g l) (hpos : 0 < (c.buf i).refcnt) :
    ∃ l', LruOrder (c.brelse i) (g.update c (.brelse i)) l' := by
  obtain ⟨xs, ys, rfl⟩ := List.append_of_mem (h.listed.all i)
  have hl := h.listed.brelse hpos
  have hne (j : BufId) (hj : j ≠ i) : (c.brelse i).buf j = c.buf j := by
    rw [brelse_buf]
    exact update_of_ne hj ..
  unfold Drops.update
  dsimp only
  by_cases hone : (c.buf i).refcnt = 1
  · rw [if_pos hone] at hl ⊢
    have hni := (List.nodup_cons.1 (List.nodup_middle.1 h.listed.linked.nodup)).1
    have hlast (j : BufId) (hj : j ∈ xs ++ ys) :
        update g.last i (g.now + 1) j = g.last j ∧ j ≠ i := by
      have hji : j ≠ i := fun he => hni (he ▸ hj)
      exact ⟨update_of_ne hji .., hji⟩
    have hsub : (xs ++ ys).Sublist (xs ++ i :: ys) :=
      List.Sublist.append_left (List.sublist_cons_self i ys) xs
    refine ⟨_, hl, List.pairwise_cons.2 ⟨fun j hj _ _ => .inl ?_, ?_⟩, fun j => ?_⟩
    · dsimp only
      rw [(hlast j hj).1, update_self]
      exact Nat.lt_succ_of_le (h.past j)
    · refine (h.order.sublist hsub).imp_of_mem fun {j k} hj hk hjk hfj hfk => ?_
      obtain ⟨hlj, hji⟩ := hlast j hj
      obtain ⟨hlk, hki⟩ := hlast k hk
      rw [hne j hji] at hfj
      rw [hne k hki] at hfk
      unfold Drops.Later
      dsimp only
      rw [hlj, hlk]
      exact hjk hfj hfk
    · dsimp only
      by_cases hji : j = i
      · rw [hji, update_self]
      · rw [update_of_ne hji]
        exact (h.past j).trans (Nat.le_succ _)
  · rw [if_neg hone] at hl ⊢
    refine ⟨_, h.keep hl fun j hj => ?_⟩
    by_cases hji : j = i
    · rw [hji, brelse_buf, update_self] at hj
      have hj : (c.buf i).refcnt - 1 = 0 := hj
      omega
    · rwa [hne j hji] at hj

theorem lruOrder_of_reachable {s : Bcache × Drops} (h : lruMachine.Reachable s) :
    ∃ l, LruOrder s.1 s.2 l := by
  refine Machine.Reach.invariant (P := fun s => ∃ l, LruOrder s.1 s.2 l) h ?_ ?_
  · rintro ⟨c, g⟩ ⟨rfl, rfl⟩
    refine ⟨_, binit_listed, ?_, fun _ => Nat.le_refl _⟩
    exact List.pairwise_of_forall fun _ _ _ _ => .inr ⟨rfl, rfl⟩
  rintro ⟨c, g⟩ op ⟨c', g'⟩ - ⟨l, hl⟩ - hn
  obtain ⟨c'', hc, he⟩ := Option.map_eq_some_iff.1 hn
  cases he
  cases op with
  | bget dev blockno =>
    obtain ⟨⟨i, c''⟩, hget, rfl⟩ := Option.map_eq_some_iff.1 hc
    exact ⟨l, hl.bget (hl.listed.bget hget)⟩
  | brelse i =>
    simp only [bufMachine, Option.ite_none_right_eq_some, Option.some.injEq] at hc
    obtain ⟨hpos, rfl⟩ := hc
    exact hl.brelse hpos
  | flags i valid dirty =>
    cases hc
    refine ⟨l, hl.keep (hl.listed.setBuf i _) fun j hj => ?_⟩
    by_cases hji : j = i
    · rw [hji, setBuf_self] at hj
      rwa [hji]
    · rwa [setBuf_of_ne hji] at hj

/-- The list through `next` goes from the head through all buffers, each of them once, and `prev` is
its inverse. A buffer that `bget` recycles is free, and of all free buffers it was given back first;
those that have never been used come before the others. -/
theorem buffer_list_lru {s : Bcache × Drops} (h : lruMachine.Reachable s) :
    (∃ l : List BufId, l.Perm (List.finRange 30) ∧
      (List.range 30).map (fun k => s.1.links.next^[k + 1] none) = l.map some) ∧
    s.1.links.next^[31] none = none ∧
    (∀ x, s.1.links.prev (s.1.links.next x) = x) ∧
    (∀ x, s.1.links.next (s.1.links.prev x) = x) ∧
    ∀ dev blockno i c, s.1.bget dev blockno = some (i, c) →
      (∀ j, ¬ ((s.1.buf j).dev = dev ∧ (s.1.buf j).blockno = blockno)) →
      ((s.1.buf i).refcnt = 0 ∧ (s.1.buf i).dirty = false) ∧
      ∀ j, j ≠ i → (s.1.buf j).refcnt = 0 → (s.1.buf j).dirty = false →
        s.2.last i < s.2.last j ∨ s.2.last i = 0 ∧ s.2.last j = 0 := by
  obtain ⟨l, hl⟩ := lruOrder_of_reachable h
  have hvisits := hl.listed.linked.visits
  rw [hl.listed.length] at hvisits
  refine ⟨⟨l, ?_, hvisits.1⟩, hvisits.2, hl.listed.linked.prev_next hl.listed.all,
    hl.listed.linked.next_prev hl.listed.all, fun dev blockno i c hget hnew => ?_⟩
  · exact hl.listed.perm
  cases hl.listed.bget hget with
  | hit hdev hblockno => exact (hnew i ⟨hdev, hblockno⟩).elim
  | recycled xs ys _ href hclean hlist hlast =>
    refine ⟨⟨href, hclean⟩, fun j hji hj hjclean => ?_⟩
    -- the others that are free come before it in the list
    have hm := hl.listed.all j
    rw [hlist, List.mem_append, List.mem_cons] at hm
    have hjx : j ∈ xs := by
      rcases hm with hm | hm | hm
      · exact hm
      · exact (hji hm).elim
      · exact (hlast j hm ⟨hj, hjclean⟩).elim
    have horder := hl.order
    rw [hlist, List.pairwise_append] at horder
    rcases horder.2.2 j hjx i List.mem_cons_self hj href with hlt | ⟨hj0, hi0⟩
    · exact .inl hlt
    · exact .inr ⟨hi0, hj0⟩

theorem buffer_list_lru_second : ∃ s, lruMachine.Reachable s ∧
    ((s.1.bget 1 8).map Prod.fst = some ⟨1, by decide⟩ ∧ s.2.last ⟨0, by decide⟩ = 2) ∧
    ∀ j, j ≠ ⟨1, by decide⟩ → (s.1.buf j).refcnt = 0 → (s.1.buf j).dirty = false →
      s.2.last ⟨1, by decide⟩ < s.2.last j ∨ s.2.last ⟨1, by decide⟩ = 0 ∧ s.2.last j = 0 := by
  obtain ⟨s, hreach, hs⟩ := Machine.Reach.exists_run (M := lruMachine)
    (P := fun s => ((s.1.bget 1 8).map Prod.fst = some ⟨1, by decide⟩ ∧
      s.2.last ⟨0, by decide⟩ = 2) ∧
      ∀ j, ¬ ((s.1.buf j).dev = 1 ∧ (s.1.buf j).blockno = 8))
    (l := [.bget 1 7, .brelse ⟨0, by decide⟩]) (s := (binit, ⟨0, fun _ => 0⟩)) (.init ⟨rfl, rfl⟩)
    (Machine.permits_true _ _) (by decide +kernel)
  obtain ⟨⟨i, c⟩, hget, hi⟩ := Option.map_eq_some_iff.1 hs.1.1
  have hi : i = ⟨1, by decide⟩ := hi
  subst hi
  exact ⟨s, hreach, hs.1, ((buffer_list_lru hreach).2.2.2.2 1 8 _ c hget hs.2).2⟩

end Xv6Signals.Bio
