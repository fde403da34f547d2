import Xv6Signals.Lib.Dlist
import Xv6Signals.Log.Machine
import Mathlib.Data.List.FinRange

namespace Xv6Signals.Bio
open Lib Function List

abbrev BufId := Fin 30

structure Buf where
  dev : Word
  blockno : Word
  valid : Bool
  dirty : Bool
  refcnt : Nat
  locked : Bool
  data : Block

/-- The buffer cache; the head of the list is the node `none`. -/
structure Bcache where
  links : Links BufId
  buf : BufId → Buf

def Bcache.setBuf (c : Bcache) (i : BufId) (b : Buf) : Bcache :=
  { c with buf := update c.buf i b }

def binit : Bcache where
  links := (List.finRange 30).foldl Links.pushFront ⟨fun _ => none, fun _ => none⟩
  buf := fun _ => ⟨0, 0, false, false, 0, false, fun _ => 0⟩

def Bcache.cached (c : Bcache) (dev blockno : Word) : Option BufId :=
  walkTo c.links.next (fun i => (c.buf i).dev = dev ∧ (c.buf i).blockno = blockno) 31
    (c.links.next none)

def Bcache.unused (c : Bcache) : Option BufId :=
  walkTo c.links.prev (fun i => (c.buf i).refcnt = 0 ∧ (c.buf i).dirty = false) 31
    (c.links.prev none)

/-- `bget` while it has the lock of the cache; `none` is its panic. -/
def Bcache.bget (c : Bcache) (dev blockno : Word) : Option (BufId × Bcache) :=
  match c.cached dev blockno with
  | some i => some (i, c.setBuf i { c.buf i with refcnt := (c.buf i).refcnt + 1 })
  | none =>
    match c.unused with
    | some i => some (i, c.setBuf i { c.buf i with
        dev := dev, blockno := blockno, valid := false, dirty := false, refcnt := 1 })
    | none => none

def Bcache.brelse (c : Bcache) (i : BufId) : Bcache :=
  let c := c.setBuf i { c.buf i with refcnt := (c.buf i).refcnt - 1 }
  if (c.buf i).refcnt = 0 then { c with links := (c.links.unlink i).pushFront i } else c

variable {c c' : Bcache} {l : List BufId} {i j : BufId} {dev blockno : Word}

structure Listed (c : Bcache) (l : List BufId) : Prop where
  linked : Chained c.links l
  all : ∀ i, i ∈ l

theorem Listed.perm (h : Listed c l) : l.Perm (List.finRange 30) :=
  (perm_ext_iff_of_nodup h.linked.nodup (nodup_finRange 30)).2 fun i =>
    ⟨fun _ => mem_finRange i, fun _ => h.all i⟩

theorem Listed.length (h : Listed c l) : l.length = 30 := by
  rw [h.perm.length_eq, length_finRange]

theorem binit_listed : Listed binit (List.finRange 30).reverse := by
  have h := chained_nil.foldl_pushFront (nodup_finRange 30) fun i _ => not_mem_nil
  rw [append_nil] at h
  exact ⟨h, fun i => mem_reverse.2 (mem_finRange i)⟩

theorem Listed.cached_eq (h : Listed c l) (dev blockno : Word) : c.cached dev blockno =
    l.find? fun i => (c.buf i).dev = dev ∧ (c.buf i).blockno = blockno := by
  rw [Bcache.cached, h.linked.next_none]
  exact walkTo_eq_find _ h.linked.next.2 (by rw [h.length]; decide)

theorem Listed.unused_eq (h : Listed c l) : c.unused =
    l.reverse.find? fun i => (c.buf i).refcnt = 0 ∧ (c.buf i).dirty = false := by
  have hprev := h.linked.prev.2
  rw [Bcache.unused, h.linked.prev_none, ← map_reverse]
  rw [← map_reverse] at hprev
  exact walkTo_eq_find _ hprev (by rw [length_reverse, h.length]; decide)

/-- What `bget` does: it finds the block in a buffer, or it takes the last buffer of the list that
is free. -/
inductive Got (c : Bcache) (l : List BufId) (dev blockno : Word) : BufId → Bcache → Prop
  | hit {i : BufId} (hdev : (c.buf i).dev = dev) (hblockno : (c.buf i).blockno = blockno) :
      Got c l dev blockno i (c.setBuf i { c.buf i with refcnt := (c.buf i).refcnt + 1 })
  | recycled {i : BufId} (xs ys : List BufId)
      (hnew : ∀ j, ¬ ((c.buf j).dev = dev ∧ (c.buf j).blockno = blockno))
      (href : (c.buf i).refcnt = 0) (hclean : (c.buf i).dirty = false)
      (hlist : l = xs ++ i :: ys)
      (hlast : ∀ j ∈ ys, ¬ ((c.buf j).refcnt = 0 ∧ (c.buf j).dirty = false)) :
      Got c l dev blockno i (c.setBuf i { c.buf i with
        dev := dev, blockno := blockno, valid := false, dirty := false, refcnt := 1 })

theorem Listed.bget (h : Listed c l) (hget : c.bget dev blockno = some (i, c')) :
    Got c l dev blockno i c' := by
  unfold Bcache.bget at hget
  rw [h.cached_eq, h.unused_eq] at hget
  split at hget
  · rename_i j hj
    cases hget
    have htest := find?_some hj
    obtain ⟨hdev, hblockno⟩ := of_decide_eq_true htest
    exact .hit hdev hblockno
  rename_i hnone
  split at hget
  · rename_i j hj
    cases hget
    obtain ⟨htest, ys, xs, hlist, hlast⟩ := find?_eq_some_iff_append.1 hj
    obtain ⟨href, hclean⟩ := of_decide_eq_true htest
    refine .recycled xs.reverse ys.reverse (fun j hj => ?_) href hclean ?_ ?_
    · exact find?_eq_none.1 hnone j (h.all j) (decide_eq_true hj)
    · rw [← reverse_reverse l, hlist]
      simp
    · intro j hj hfree
      have := hlast j (mem_reverse.1 hj)
      simp [hfree] at this
  · cases hget

theorem setBuf_self (c : Bcache) (i : BufId) (b : Buf) : (c.setBuf i b).buf i = b :=
  update_self ..

theorem setBuf_of_ne (h : j ≠ i) (c : Bcache) (b : Buf) : (c.setBuf i b).buf j = c.buf j :=
  update_of_ne h ..

theorem Listed.setBuf (h : Listed c l) (i : BufId) (b : Buf) : Listed (c.setBuf i b) l :=
  ⟨h.linked, h.all⟩

theorem Got.listed (h : Listed c l) (hgot : Got c l dev blockno i c') : Listed c' l := by
  cases hgot with
  | hit => exact h.setBuf i _
  | recycled => exact h.setBuf i _

theorem brelse_buf (c : Bcache) (i : BufId) : (c.brelse i).buf =
    update c.buf i { c.buf i with refcnt := (c.buf i).refcnt - 1 } := by
  unfold Bcache.brelse
  dsimp only
  split <;> rfl

theorem Listed.brelse {xs ys : List BufId} (h : Listed c (xs ++ i :: ys))
    (hpos : 0 < (c.buf i).refcnt) :
    Listed (c.brelse i) (if (c.buf i).refcnt = 1 then i :: (xs ++ ys) else xs ++ i :: ys) := by
  have hdec : (c.brelse i) = if (c.buf i).refcnt - 1 = 0 then
      { c.setBuf i { c.buf i with refcnt := (c.buf i).refcnt - 1 } with
        links := (c.links.unlink i).pushFront i }
      else c.setBuf i { c.buf i with refcnt := (c.buf i).refcnt - 1 } := by
    rw [Bcache.brelse, setBuf_self]
    rfl
  rw [hdec]
  by_cases hone : (c.buf i).refcnt = 1
  · rw [if_pos (by omega), if_pos hone]
    have hni := (nodup_cons.1 (nodup_middle.1 h.linked.nodup)).1
    refine ⟨h.linked.unlink.pushFront hni, fun j => ?_⟩
    have := h.all j
    simp only [mem_append, mem_cons] at this ⊢
    tauto
  · rw [if_neg (by omega), if_neg hone]
    exact h.setBuf i _

end Xv6Signals.Bio
