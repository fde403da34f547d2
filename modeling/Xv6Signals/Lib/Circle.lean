import Mathlib.Data.List.Nodup
import Mathlib.Logic.Function.Iterate

namespace Lib
open Function List

universe u

variable {α : Type u} {next next' : α → α} {l l₁ l₂ : List α} {a b q x : α}

/-- The nodes of the list lead each to the next one, and the last to `q`. -/
def Threaded (next : α → α) : List α → α → Prop
  | [], _ => True
  | a :: l, q => next a = l.headD q ∧ Threaded next l q

theorem threaded_append :
    Threaded next (l₁ ++ l₂) q ↔ Threaded next l₁ (l₂.headD q) ∧ Threaded next l₂ q := by
  induction l₁ with
  | nil => exact ⟨fun h => ⟨trivial, h⟩, fun h => h.2⟩
  | cons a l ih =>
    have hhead : (l ++ l₂).headD q = l.headD (l₂.headD q) := by
      cases l <;> rfl
    rw [cons_append, Threaded, Threaded, ih, hhead, and_assoc]

theorem Threaded.congr (h : Threaded next l q) (he : ∀ a ∈ l, next' a = next a) :
    Threaded next' l q := by
  induction l with
  | nil => trivial
  | cons a l ih =>
    obtain ⟨ha, hl⟩ := h
    refine ⟨(he a mem_cons_self).trans ha, ih hl fun c hc => ?_⟩
    exact he c (mem_cons_of_mem a hc)

theorem Threaded.exists_last (h : Threaded next (a :: l) q) : ∃ c, next c = q := by
  induction l generalizing a with
  | nil => exact ⟨a, h.1⟩
  | cons c l ih => exact ih h.2

theorem Threaded.exists_iterate (h : Threaded next (a :: l) q) (hx : x ∈ l ++ [q]) :
    ∃ k, k ≤ l.length ∧ next^[k + 1] a = x := by
  induction l generalizing a with
  | nil =>
    refine ⟨0, Nat.le_refl 0, ?_⟩
    rw [mem_singleton.1 hx]
    exact h.1
  | cons c l ih =>
    obtain ⟨hc, hl⟩ := h
    rcases mem_cons.1 hx with rfl | hx
    · exact ⟨0, Nat.zero_le _, hc⟩
    · obtain ⟨k, hk, he⟩ := ih hl hx
      refine ⟨k + 1, Nat.succ_le_succ hk, ?_⟩
      rw [Function.iterate_succ_apply, hc]
      exact he

theorem Threaded.map_iterate (h : Threaded next (a :: l) q) :
    (List.range l.length).map (fun k => next^[k + 1] a) = l ∧ next^[l.length + 1] a = q := by
  induction l generalizing a with
  | nil => exact ⟨rfl, h.1⟩
  | cons c l ih =>
    obtain ⟨hc, hl⟩ := h
    have hc : next a = c := hc
    obtain ⟨hmap, hend⟩ := ih hl
    have hshift (k : Nat) : next^[k + 1 + 1] a = next^[k + 1] c := by
      rw [Function.iterate_succ_apply, hc]
    refine ⟨?_, (hshift _).trans hend⟩
    rw [length_cons, range_succ_eq_map, map_cons, map_map]
    refine cons_eq_cons.2 ⟨hc, ?_⟩
    refine (map_congr_left fun k _ => ?_).trans hmap
    exact hshift k

theorem Threaded.circle (h : Threaded next (b :: l) b) (ha : a ∈ b :: l) (hx : x ∈ b :: l) :
    ∃ k, k ≤ l.length ∧ next^[k + 1] a = x := by
  obtain ⟨pre, post, hsplit⟩ := append_of_mem ha
  rw [hsplit, threaded_append] at h
  obtain ⟨hpre, hpost⟩ := h
  have hlen : l.length = pre.length + post.length := by
    have := congrArg List.length hsplit
    rw [length_cons, length_append, length_cons] at this
    omega
  cases pre with
  | nil =>
    obtain ⟨rfl, rfl⟩ := List.cons.inj hsplit
    refine hpost.exists_iterate ?_
    rw [mem_append, mem_singleton]
    exact (mem_cons.1 hx).symm
  | cons c pre =>
    rw [cons_append] at hsplit
    obtain ⟨rfl, rfl⟩ := List.cons.inj hsplit
    rw [length_cons] at hlen
    have hx : x ∈ post ++ [b] ∨ x ∈ pre ++ [a] := by
      simp only [mem_append, mem_cons, not_mem_nil] at hx ⊢
      tauto
    rcases hx with hx | hx
    · obtain ⟨k, hk, he⟩ := hpost.exists_iterate hx
      exact ⟨k, by omega, he⟩
    obtain ⟨k, hk, he⟩ := hpre.exists_iterate hx
    obtain ⟨m, hm, hb⟩ := hpost.exists_iterate (x := b)
      (mem_append_right _ (mem_singleton_self b))
    refine ⟨k + 1 + m, by omega, ?_⟩
    rw [Nat.add_assoc, Function.iterate_add_apply, hb]
    exact he

section
variable [DecidableEq α]

theorem Threaded.unlink (h : Threaded next (l₁ ++ b :: a :: l₂) q)
    (hnd : (l₁ ++ b :: a :: l₂).Nodup) :
    Threaded (update next b (next a)) (l₁ ++ b :: l₂) q := by
  obtain ⟨h₁, -, ha, h₂⟩ := threaded_append.1 h
  have hb := (nodup_middle.1 hnd)
  have hb := (nodup_cons.1 hb).1
  refine threaded_append.2 ⟨h₁.congr fun c hc => ?_, ?_, h₂.congr fun c hc => ?_⟩
  · refine update_of_ne ?_ _ _
    rintro rfl
    exact hb (mem_append_left _ hc)
  · rw [update_self, ha]
  · refine update_of_ne ?_ _ _
    rintro rfl
    exact hb (mem_append_right _ (mem_cons_of_mem a hc))

theorem Threaded.insert (h : Threaded next (l₁ ++ b :: l₂) q) (hnd : (l₁ ++ b :: l₂).Nodup)
    (ha : a ∉ l₁ ++ b :: l₂) :
    Threaded (update (update next a (next b)) b a) (l₁ ++ b :: a :: l₂) q := by
  obtain ⟨h₁, hb, h₂⟩ := threaded_append.1 h
  have hnb := (nodup_cons.1 (nodup_middle.1 hnd)).1
  have hne (c : α) (hc : c ∈ l₁ ++ l₂) : update (update next a (next b)) b a c = next c := by
    rw [update_of_ne, update_of_ne]
    · rintro rfl
      exact ha (mem_append.2 ((mem_append.1 hc).imp_right (mem_cons_of_mem b)))
    · rintro rfl
      exact hnb hc
  refine threaded_append.2 ⟨h₁.congr fun c hc => hne c (mem_append_left _ hc), ?_, ?_,
    h₂.congr fun c hc => hne c (mem_append_right _ hc)⟩
  · rw [update_self]
    rfl
  · rw [update_of_ne, update_self, hb]
    rintro rfl
    exact ha (mem_append_right _ mem_cons_self)

/-- The last node is sought by following the thread as long as it does not lead to the end. -/
def seekLast (next : α → α) (q : α) : Nat → α → α
  | 0, a => a
  | fuel + 1, a => if next a = q then a else seekLast next q fuel (next a)

theorem Threaded.seekLast_eq (h : Threaded next (a :: l) q) (hq : q ∉ l) {fuel : Nat}
    (hfuel : l.length ≤ fuel) : ∃ l₁, a :: l = l₁ ++ [seekLast next q fuel a] := by
  induction l generalizing a fuel with
  | nil =>
    refine ⟨[], ?_⟩
    cases fuel with
    | zero => rfl
    | succ fuel =>
      have ha : next a = q := h.1
      rw [seekLast, if_pos ha]
      rfl
  | cons c l ih =>
    cases fuel with
    | zero => exact (Nat.not_succ_le_zero _ hfuel).elim
    | succ fuel =>
      obtain ⟨hc, hl⟩ := h
      have hc : next a = c := hc
      have hne : c ≠ q := fun he => hq (he ▸ mem_cons_self)
      have hq : q ∉ l := fun hm => hq (mem_cons_of_mem c hm)
      obtain ⟨l₁, hl₁⟩ := ih hl hq (Nat.le_of_succ_le_succ hfuel)
      refine ⟨a :: l₁, ?_⟩
      rw [seekLast, hc, if_neg hne, hl₁, cons_append]

end

theorem exists_reverse_eq (l : List α) (q : α) : ∃ l₁, q :: l.reverse = l₁ ++ [l.headD q] := by
  cases l with
  | nil => exact ⟨[], rfl⟩
  | cons a l => exact ⟨q :: l.reverse, by rw [reverse_cons, cons_append]; rfl⟩

end Lib
