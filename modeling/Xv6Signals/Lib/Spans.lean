import Mathlib.Data.List.Basic
import Mathlib.Data.List.Pairwise

namespace Lib
open List

structure Span where
  lo : Nat
  hi : Nat
  deriving DecidableEq

def Span.Has (a : Span) (x : Nat) : Prop := a.lo ≤ x ∧ x < a.hi

def Span.Disjoint (a b : Span) : Prop := a.hi ≤ b.lo ∨ b.hi ≤ a.lo

def Span.Before (a b : Span) : Prop := a.hi < b.lo

instance Span.decidableDisjoint (a b : Span) : Decidable (a.Disjoint b) :=
  inferInstanceAs (Decidable (_ ∨ _))

variable {a b c d : Span} {l l₁ l₂ free free' live live' got : List Span} {x m n : Nat}

theorem Span.disjoint_iff (ha : a.lo < a.hi) (hb : b.lo < b.hi) :
    a.Disjoint b ↔ ∀ x, a.Has x → ¬ b.Has x := by
  constructor
  · rintro hd x ⟨h₁, h₂⟩ ⟨h₃, h₄⟩
    rcases hd with hd | hd <;> omega
  intro h
  by_contra hd
  unfold Span.Disjoint at hd
  rcases Nat.le_total a.lo b.lo with hle | hle
  · exact h b.lo ⟨hle, by omega⟩ ⟨Nat.le_refl _, hb⟩
  · exact h a.lo ⟨Nat.le_refl _, ha⟩ ⟨hle, by omega⟩

theorem Span.Disjoint.symm (h : a.Disjoint b) : b.Disjoint a := Or.symm h

def Covers (l : List Span) (x : Nat) : Prop := ∃ a ∈ l, a.Has x

theorem covers_cons : Covers (a :: l) x ↔ a.Has x ∨ Covers l x := by
  simp only [Covers, mem_cons, exists_eq_or_imp]

theorem covers_append : Covers (l₁ ++ l₂) x ↔ Covers l₁ x ∨ Covers l₂ x := by
  simp only [Covers, mem_append, or_and_right, exists_or]

def joinFront (a : Span) : List Span → List Span
  | [] => [a]
  | c :: l => if a.hi = c.lo then ⟨a.lo, c.hi⟩ :: l else a :: c :: l

structure Joined (free : List Span) (b : Span) (free' : List Span) : Prop where
  apart : free'.Pairwise Span.Before
  pos : ∀ a ∈ free', a.lo < a.hi
  covers : ∀ x, Covers free' x ↔ Covers free x ∨ b.Has x

theorem joinFront_spec (ha : a.lo < a.hi) (hle : ∀ c ∈ l, a.hi ≤ c.lo)
    (hapart : l.Pairwise Span.Before) (hpos : ∀ c ∈ l, c.lo < c.hi) :
    Joined l a (joinFront a l) ∧ ∀ c ∈ joinFront a l, a.lo ≤ c.lo := by
  cases l with
  | nil =>
    refine ⟨⟨pairwise_singleton _ _, ?_, ?_⟩, ?_⟩
    · intro c hc
      rwa [mem_singleton.1 hc]
    · intro x
      rw [joinFront, covers_cons, or_comm]
    · intro c hc
      exact Nat.le_of_eq (congrArg Span.lo (mem_singleton.1 hc)).symm
  | cons c l =>
    obtain ⟨hc, hl⟩ := pairwise_cons.1 hapart
    have hac := hle c mem_cons_self
    have hcpos := hpos c mem_cons_self
    rw [joinFront]
    split
    · rename_i heq
      refine ⟨⟨pairwise_cons.2 ⟨hc, hl⟩, ?_, ?_⟩, ?_⟩
      · intro d hd
        rcases mem_cons.1 hd with rfl | hd
        · show a.lo < c.hi
          omega
        · exact hpos d (mem_cons_of_mem _ hd)
      · intro x
        have hsplit : Span.Has ⟨a.lo, c.hi⟩ x ↔ a.Has x ∨ c.Has x := by
          unfold Span.Has
          dsimp only
          omega
        rw [covers_cons, covers_cons, hsplit]
        tauto
      · intro d hd
        rcases mem_cons.1 hd with rfl | hd
        · exact Nat.le_refl _
        · have := hle d (mem_cons_of_mem _ hd)
          omega
    · rename_i hne
      have hgap : a.Before c := by
        unfold Span.Before
        omega
      refine ⟨⟨pairwise_cons.2 ⟨?_, hapart⟩, ?_, ?_⟩, ?_⟩
      · intro d hd
        rcases mem_cons.1 hd with rfl | hd
        · exact hgap
        · have hcd : c.hi < d.lo := hc d hd
          show a.hi < d.lo
          omega
      · intro d hd
        rcases mem_cons.1 hd with rfl | hd
        · exact ha
        · exact hpos d hd
      · intro x
        rw [covers_cons, or_comm]
      · intro d hd
        rcases mem_cons.1 hd with rfl | hd
        · exact Nat.le_refl _
        · have := hle d hd
          omega

theorem joinFront_of_gap (h : ∀ c ∈ l, a.hi < c.lo) : joinFront a l = a :: l := by
  cases l with
  | nil => rfl
  | cons c l => rw [joinFront, if_neg (Nat.ne_of_lt (h c mem_cons_self))]

theorem joinFront_between (hb : b.lo < b.hi) (ha : a.hi ≤ b.lo) (hle : ∀ c ∈ l₂, b.hi ≤ c.lo)
    (hapart : (l₁ ++ a :: l₂).Pairwise Span.Before) (hpos : ∀ c ∈ l₁ ++ a :: l₂, c.lo < c.hi) :
    Joined (l₁ ++ a :: l₂) b (l₁ ++ joinFront a (joinFront b l₂)) := by
  obtain ⟨hl₁, hrest, hcross⟩ := pairwise_append.1 hapart
  obtain ⟨-, hl₂⟩ := pairwise_cons.1 hrest
  have hpos₁ (c : Span) (hc : c ∈ l₁) := hpos c (mem_append_left _ hc)
  have hpos₂ (c : Span) (hc : c ∈ l₂) :=
    hpos c (mem_append_right _ (mem_cons_of_mem _ hc))
  have hapos := hpos a (mem_append_right _ mem_cons_self)
  obtain ⟨hj, hjle⟩ := joinFront_spec hb hle hl₂ hpos₂
  obtain ⟨hj', hjle'⟩ := joinFront_spec hapos (fun c hc => Nat.le_trans ha (hjle c hc)) hj.apart hj.pos
  refine ⟨pairwise_append.2 ⟨hl₁, hj'.apart, ?_⟩, ?_, ?_⟩
  · intro d hd c hc
    have hda : d.hi < a.lo := hcross d hd a mem_cons_self
    have := hjle' c hc
    show d.hi < c.lo
    omega
  · intro c hc
    rcases mem_append.1 hc with hc | hc
    · exact hpos₁ c hc
    · exact hj'.pos c hc
  · intro x
    rw [covers_append, hj'.covers, hj.covers, covers_append, covers_cons]
    tauto

theorem Joined.within (h : Joined free b free') (hfree : ∀ a ∈ free, m ≤ a.lo ∧ a.hi ≤ n)
    (hb : m ≤ b.lo ∧ b.hi ≤ n) : ∀ a ∈ free', m ≤ a.lo ∧ a.hi ≤ n := by
  intro a ha
  have hpos := h.pos a ha
  have hbounds (x : Nat) (hx : a.Has x) : m ≤ x ∧ x < n := by
    rcases (h.covers x).1 ⟨a, ha, hx⟩ with ⟨c, hc, hcx⟩ | hbx
    · have := hfree c hc
      unfold Span.Has at hcx
      omega
    · unfold Span.Has at hbx
      omega
  have hlo := hbounds a.lo ⟨Nat.le_refl _, hpos⟩
  have hhi := hbounds (a.hi - 1) ⟨by omega, by omega⟩
  omega

theorem Joined.contains (h : Joined free b free') (hb : b.lo < b.hi) :
    ∃ c ∈ free', c.lo ≤ b.lo ∧ b.hi ≤ c.hi := by
  obtain ⟨c, hc, hlo, hhi⟩ := (h.covers b.lo).2 (.inr ⟨Nat.le_refl _, hb⟩)
  refine ⟨c, hc, hlo, ?_⟩
  by_contra hlt
  -- the address at which `c` ends is in another one, which would begin after a gap
  obtain ⟨d, hd, hdlo, hdhi⟩ := (h.covers c.hi).2 (.inr ⟨by omega, by omega⟩)
  have hne : c ≠ d := by
    rintro rfl
    omega
  have hor : ∀ x ∈ free', ∀ y ∈ free', x ≠ y → x.hi < y.lo ∨ y.hi < x.lo := by
    have hsymm : Std.Symm fun x y : Span => x.hi < y.lo ∨ y.hi < x.lo := ⟨fun _ _ => Or.symm⟩
    have hpair := h.apart.imp (S := fun x y : Span => x.hi < y.lo ∨ y.hi < x.lo) .inl
    exact fun x hx y hy => hpair.forall hx hy
  rcases hor c hc d hd hne with hlt' | hlt'
  · omega
  · have := h.pos c hc
    omega

/-- Memory in pieces: those that are free, with gaps between them, and those that are in use
together are all that has been obtained. -/
structure Tiling (free live got : List Span) : Prop where
  posFree : ∀ a ∈ free, a.lo < a.hi
  posLive : ∀ a ∈ live, a.lo < a.hi
  apart : free.Pairwise Span.Before
  disjoint : live.Pairwise Span.Disjoint
  between : ∀ a ∈ free, ∀ b ∈ live, a.Disjoint b
  tiles : ∀ x, Covers got x ↔ Covers free x ∨ Covers live x

theorem Tiling.nil : Tiling [] [] [] := by
  refine ⟨?_, ?_, List.Pairwise.nil, List.Pairwise.nil, ?_, ?_⟩
  · intro a ha
    cases ha
  · intro a ha
    cases ha
  · intro a ha
    cases ha
  · intro x
    exact (or_self_iff).symm

theorem Tiling.not_live (h : Tiling free live got) (hx : Covers free x) : ¬ Covers live x := by
  rintro ⟨b, hb, hbx⟩
  obtain ⟨a, ha, hax⟩ := hx
  exact (Span.disjoint_iff (h.posFree a ha) (h.posLive b hb)).1 (h.between a ha b hb) x hax hbx

theorem Joined.between (h : Joined free b free') (hpos : ∀ c ∈ live, c.lo < c.hi)
    (hfree : ∀ x, Covers free x ∨ b.Has x → ¬ Covers live x) :
    ∀ a ∈ free', ∀ c ∈ live, a.Disjoint c := by
  intro a ha c hc
  refine (Span.disjoint_iff (h.pos a ha) (hpos c hc)).2 fun x hax hcx => ?_
  exact hfree x ((h.covers x).1 ⟨a, ha, hax⟩) ⟨c, hc, hcx⟩

theorem Tiling.release (h : Tiling free (l₁ ++ b :: l₂) got) (hj : Joined free b free') :
    Tiling free' (l₁ ++ l₂) got := by
  have hsub : (l₁ ++ l₂).Sublist (l₁ ++ b :: l₂) :=
    (List.Sublist.refl l₁).append (sublist_cons_self b l₂)
  have hpos (c : Span) (hc : c ∈ l₁ ++ l₂) := h.posLive c (hsub.subset hc)
  have hb : b ∈ l₁ ++ b :: l₂ := mem_append_right _ mem_cons_self
  refine ⟨hj.pos, hpos, hj.apart, h.disjoint.sublist hsub, hj.between hpos ?_, ?_⟩
  · rintro x (hx | hx) ⟨c, hc, hcx⟩
    · exact h.not_live hx ⟨c, hsub.subset hc, hcx⟩
    · have hbc : b.Disjoint c := by
        obtain ⟨-, h₂, h₁₂⟩ := pairwise_append.1 h.disjoint
        rcases mem_append.1 hc with hc | hc
        · exact (h₁₂ c hc b mem_cons_self).symm
        · exact (pairwise_cons.1 h₂).1 c hc
      exact (Span.disjoint_iff (h.posLive b hb) (hpos c hc)).1 hbc x hx hcx
  · intro x
    rw [h.tiles, hj.covers, covers_append, covers_append, covers_cons]
    tauto

theorem Tiling.grow (h : Tiling free live got) (hb : ∀ x, b.Has x → ¬ Covers got x)
    (hj : Joined free b free') : Tiling free' live (b :: got) := by
  refine ⟨hj.pos, h.posLive, hj.apart, h.disjoint, hj.between h.posLive ?_, ?_⟩
  · rintro x (hx | hx) hl
    · exact h.not_live hx hl
    · exact hb x hx ((h.tiles x).2 (.inr hl))
  · intro x
    rw [covers_cons, h.tiles, hj.covers]
    tauto

def leftOf (a : Span) (x : Nat) : List Span := if x = a.lo then [] else [⟨a.lo, x⟩]

theorem mem_leftOf (hm : a.lo ≤ m) (hc : c ∈ leftOf a m) : c = ⟨a.lo, m⟩ ∧ a.lo < m := by
  unfold leftOf at hc
  split at hc
  · cases hc
  · exact ⟨mem_singleton.1 hc, by omega⟩

theorem covers_leftOf (hx : a.lo ≤ m ∧ m < a.hi) :
    a.Has x ↔ Covers (leftOf a m) x ∨ Span.Has ⟨m, a.hi⟩ x := by
  unfold leftOf
  split
  · rename_i he
    subst he
    exact ⟨.inr, fun h => h.elim (fun ⟨_, hm, _⟩ => by cases hm) id⟩
  rw [covers_cons]
  have hnil : ¬ Covers [] x := fun ⟨_, hm, _⟩ => by cases hm
  rw [or_iff_left hnil]
  unfold Span.Has
  dsimp only
  omega

theorem Tiling.carve (h : Tiling (l₁ ++ a :: l₂) live got) (hm : a.lo ≤ m ∧ m < a.hi) :
    Tiling (l₁ ++ (leftOf a m ++ l₂)) (⟨m, a.hi⟩ :: live) got := by
  have ha : a ∈ l₁ ++ a :: l₂ := mem_append_right _ mem_cons_self
  obtain ⟨hl₁, hrest, hcross⟩ := pairwise_append.1 h.apart
  obtain ⟨hal₂, hl₂⟩ := pairwise_cons.1 hrest
  have hold (c : Span) (hc : c ∈ l₁ ∨ c ∈ l₂) : c ∈ l₁ ++ a :: l₂ := by
    rcases hc with hc | hc
    · exact mem_append_left _ hc
    · exact mem_append_right _ (mem_cons_of_mem _ hc)
  -- a piece that is left is one of the old ones or the beginning of the one that is cut
  have hcases (c : Span) (hc : c ∈ l₁ ++ (leftOf a m ++ l₂)) :
      c ∈ l₁ ∨ (c = ⟨a.lo, m⟩ ∧ a.lo < m) ∨ c ∈ l₂ := by
    rw [mem_append, mem_append] at hc
    exact hc.imp_right fun hc => hc.imp_left (mem_leftOf hm.1)
  refine ⟨?_, ?_, ?_, ?_, ?_, ?_⟩
  · intro c hc
    rcases hcases c hc with hc | ⟨rfl, hlt⟩ | hc
    · exact h.posFree c (hold c (.inl hc))
    · exact hlt
    · exact h.posFree c (hold c (.inr hc))
  · intro c hc
    rcases mem_cons.1 hc with rfl | hc
    · exact hm.2
    · exact h.posLive c hc
  · refine pairwise_append.2 ⟨hl₁, pairwise_append.2 ⟨?_, hl₂, ?_⟩, ?_⟩
    · unfold leftOf
      split
      · exact List.Pairwise.nil
      · exact pairwise_singleton _ _
    · intro c hc d hd
      rw [(mem_leftOf hm.1 hc).1]
      exact Nat.lt_trans hm.2 (hal₂ d hd)
    · intro c hc d hd
      rcases mem_append.1 hd with hd | hd
      · rw [(mem_leftOf hm.1 hd).1]
        exact hcross c hc a mem_cons_self
      · exact hcross c hc d (mem_cons_of_mem _ hd)
  · refine pairwise_cons.2 ⟨fun c hc => ?_, h.disjoint⟩
    rcases h.between a ha c hc with hd | hd
    · exact .inl hd
    · exact .inr (Nat.le_trans hd hm.1)
  · intro c hc d hd
    rcases mem_cons.1 hd with rfl | hd
    · rcases hcases c hc with hc | ⟨rfl, -⟩ | hc
      · exact .inl (Nat.le_trans (Nat.le_of_lt (hcross c hc a mem_cons_self)) hm.1)
      · exact .inl (Nat.le_refl _)
      · exact .inr (Nat.le_of_lt (hal₂ c hc))
    rcases hcases c hc with hc | ⟨rfl, -⟩ | hc
    · exact h.between c (hold c (.inl hc)) d hd
    · rcases h.between a ha d hd with hd' | hd'
      · exact .inl (Nat.le_trans (Nat.le_of_lt hm.2) hd')
      · exact .inr hd'
    · exact h.between c (hold c (.inr hc)) d hd
  · intro x
    rw [h.tiles, covers_append, covers_append, covers_append, covers_cons, covers_cons,
      covers_leftOf hm]
    tauto

end Lib
