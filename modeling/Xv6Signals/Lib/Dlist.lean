import Xv6Signals.Lib.Circle
import Mathlib.Data.Option.Basic

namespace Lib
open Function List

variable {α : Type} {a : α} {l xs ys : List α}

/-- The links of a circular list in both directions; `none` is the head of the list, which is no
element. -/
structure Links (α : Type) where
  next : Option α → Option α
  prev : Option α → Option α

structure Chained (d : Links α) (l : List α) : Prop where
  nodup : l.Nodup
  next : Threaded d.next (none :: l.map some) none
  prev : Threaded d.prev (none :: (l.map some).reverse) none

variable {d : Links α}

theorem Chained.nodup_nodes (h : Chained d l) : (none :: l.map some).Nodup := by
  refine nodup_cons.2 ⟨?_, h.nodup.map (Option.some_injective α)⟩
  simp

theorem Chained.nodup_reverse (h : Chained d l) : (none :: (l.map some).reverse).Nodup := by
  have := h.nodup_nodes
  rw [nodup_cons] at this ⊢
  rwa [mem_reverse, List.nodup_reverse]

theorem chained_nil : Chained ⟨fun _ => none, fun _ => none⟩ ([] : List α) :=
  ⟨nodup_nil, ⟨rfl, trivial⟩, ⟨rfl, trivial⟩⟩

theorem Chained.next_eq (h : Chained d (xs ++ a :: ys)) :
    d.next (some a) = (ys.map some).headD none := by
  have hn := h.next
  rw [map_append, map_cons, ← cons_append, threaded_append] at hn
  exact hn.2.1

theorem Chained.prev_eq (h : Chained d (xs ++ a :: ys)) :
    d.prev (some a) = (xs.map some).reverse.headD none := by
  have hp := h.prev
  rw [map_append, map_cons, reverse_append, reverse_cons, append_assoc,
    singleton_append, ← cons_append, threaded_append] at hp
  exact hp.2.1

theorem Chained.next_none (h : Chained d l) : d.next none = (l.map some).headD none := h.next.1

theorem Chained.prev_none (h : Chained d l) : d.prev none = (l.map some).reverse.headD none :=
  h.prev.1

theorem Chained.swap (h : Chained d l) : Chained ⟨d.prev, d.next⟩ l.reverse := by
  refine ⟨List.nodup_reverse.2 h.nodup, ?_, ?_⟩
  · rw [map_reverse]
    exact h.prev
  · rw [map_reverse, reverse_reverse]
    exact h.next

theorem Chained.prev_next (h : Chained d l) (hall : ∀ a, a ∈ l) (x : Option α) :
    d.prev (d.next x) = x := by
  cases x with
  | none =>
    rw [h.next_none]
    cases l with
    | nil => exact h.prev_none
    | cons a l =>
      have h' : Chained d ([] ++ a :: l) := h
      exact h'.prev_eq
  | some a =>
    obtain ⟨xs, ys, rfl⟩ := append_of_mem (hall a)
    rw [h.next_eq]
    cases ys with
    | nil =>
      show d.prev none = some a
      rw [h.prev_none]
      simp
    | cons y ys =>
      have h' : Chained d ((xs ++ [a]) ++ y :: ys) := by
        rwa [append_assoc, singleton_append]
      show d.prev (some y) = some a
      rw [h'.prev_eq]
      simp

theorem Chained.next_prev (h : Chained d l) (hall : ∀ a, a ∈ l) (x : Option α) :
    d.next (d.prev x) = x :=
  h.swap.prev_next (fun a => mem_reverse.2 (hall a)) x

theorem Chained.visits (h : Chained d l) :
    (List.range l.length).map (fun k => d.next^[k + 1] none) = l.map some ∧
      d.next^[l.length + 1] none = none := by
  have := h.next.map_iterate
  rwa [length_map] at this

variable [DecidableEq α]

def Links.unlink (d : Links α) (a : α) : Links α :=
  let d := { d with prev := update d.prev (d.next (some a)) (d.prev (some a)) }
  { d with next := update d.next (d.prev (some a)) (d.next (some a)) }

def Links.pushFront (d : Links α) (a : α) : Links α :=
  let d := { d with next := update d.next (some a) (d.next none) }
  let d := { d with prev := update d.prev (some a) none }
  let d := { d with prev := update d.prev (d.next none) (some a) }
  { d with next := update d.next none (some a) }

theorem Chained.unlink (h : Chained d (xs ++ a :: ys)) : Chained (d.unlink a) (xs ++ ys) := by
  have hnd := h.nodup_nodes
  have hnd' := h.nodup_reverse
  have hnext := h.next
  have hprev := h.prev
  have hna := h.next_eq
  have hpa := h.prev_eq
  rw [map_append, map_cons] at hnd hnext
  rw [map_append, map_cons, reverse_append, reverse_cons, append_assoc,
    singleton_append] at hnd' hprev
  -- the node before the element in each direction, as the last of what comes before it
  obtain ⟨l₁, hl₁⟩ := exists_reverse_eq (xs.map some).reverse none
  obtain ⟨l₂, hl₂⟩ := exists_reverse_eq (ys.map some) none
  rw [reverse_reverse] at hl₁
  rw [← cons_append, hl₁, append_assoc, singleton_append] at hnd hnext
  rw [← cons_append, hl₂, append_assoc, singleton_append] at hnd' hprev
  have hne : some a ≠ (ys.map some).headD none := by
    intro he
    rw [← he] at hnd'
    exact (nodup_cons.1 (nodup_append.1 hnd').2.1).1 mem_cons_self
  have hp : (d.unlink a).prev = update d.prev ((ys.map some).headD none)
      (d.prev (some a)) := by rw [← hna]; rfl
  have hn : (d.unlink a).next = update d.next ((xs.map some).reverse.headD none)
      (d.next (some a)) := by
    rw [← hpa, ← update_of_ne hne (d.prev (some a)) d.prev, ← hna]
    rfl
  refine ⟨?_, ?_, ?_⟩
  · exact (nodup_cons.1 (nodup_middle.1 h.nodup)).2
  · have := hnext.unlink hnd
    rw [hn, map_append, ← cons_append, hl₁, append_assoc, singleton_append]
    exact this
  · have := hprev.unlink hnd'
    rw [hp, map_append, reverse_append, ← cons_append, hl₂, append_assoc,
      singleton_append]
    exact this

theorem Chained.pushFront (h : Chained d l) (ha : a ∉ l) : Chained (d.pushFront a) (a :: l) := by
  have hmem : some a ∉ none :: l.map some := by simpa using ha
  have hmem' : some a ∉ none :: (l.map some).reverse := by simpa using ha
  have hnd' := h.nodup_reverse
  have hprev := h.prev
  obtain ⟨l₁, hl₁⟩ := exists_reverse_eq (l.map some) none
  rw [hl₁] at hmem' hnd' hprev
  have hlast : d.prev ((l.map some).headD none) = none := (threaded_append.1 hprev).2.1
  have hn : (d.pushFront a).next =
      update (update d.next (some a) (d.next none)) none (some a) := rfl
  have hp : (d.pushFront a).prev = update (update d.prev (some a)
      (d.prev ((l.map some).headD none))) ((l.map some).headD none) (some a) := by
    rw [hlast, ← h.next_none]
    have hnone : update d.next (some a) (d.next none) none = d.next none :=
      update_of_ne (Option.some_ne_none a).symm ..
    rw [← hnone]
    rfl
  refine ⟨nodup_cons.2 ⟨ha, h.nodup⟩, ?_, ?_⟩
  · have hnext : Threaded d.next ([] ++ none :: l.map some) none := h.next
    rw [hn]
    exact hnext.insert h.nodup_nodes hmem
  · rw [hp, map_cons, reverse_cons, ← cons_append, hl₁, append_assoc,
      singleton_append]
    exact hprev.insert hnd' hmem'

theorem Chained.foldl_pushFront (h : Chained d l) (hnd : xs.Nodup) (hnew : ∀ a ∈ xs, a ∉ l) :
    Chained (xs.foldl Links.pushFront d) (xs.reverse ++ l) := by
  induction xs generalizing d l with
  | nil => exact h
  | cons a xs ih =>
    obtain ⟨ha, hnd⟩ := nodup_cons.1 hnd
    obtain ⟨hal, hnew⟩ := forall_mem_cons.1 hnew
    rw [foldl_cons, reverse_cons, append_assoc, singleton_append]
    refine ih (h.pushFront hal) hnd fun c hc hm => ?_
    rcases mem_cons.1 hm with rfl | hm
    · exact ha hc
    · exact hnew c hc hm

/-- An element is found by following links from a node, with as many rounds as are allowed. -/
def walkTo (step : Option α → Option α) (test : α → Bool) : Nat → Option α → Option α
  | 0, _ => none
  | _ + 1, none => none
  | fuel + 1, some a => if test a then some a else walkTo step test fuel (step (some a))

omit [DecidableEq α] in
theorem walkTo_eq_find {step : Option α → Option α} (test : α → Bool) {fuel : Nat}
    (h : Threaded step (l.map some) none) (hfuel : l.length < fuel) :
    walkTo step test fuel ((l.map some).headD none) = l.find? test := by
  induction l generalizing fuel with
  | nil =>
    cases fuel with
    | zero => rfl
    | succ fuel => rfl
  | cons a l ih =>
    cases fuel with
    | zero => exact (Nat.not_lt_zero _ hfuel).elim
    | succ fuel =>
      obtain ⟨ha, hl⟩ := h
      rw [map_cons, headD_cons, walkTo, find?_cons, ha, ih hl (Nat.lt_of_succ_lt_succ hfuel)]
      cases test a <;> rfl

end Lib
