import Mathlib.Init

namespace Lib

universe u v w

variable {P : Type u} {F : Type v} {all : F → Prop} {At At' : P → F → Prop} {f g : F} {x y : P}

/-- Each of the things counted lies in exactly one place, and nothing else lies anywhere. -/
structure Placed (all : F → Prop) (At : P → F → Prop) : Prop where
  one : ∀ {f x y}, At x f → At y f → x = y
  covers : ∀ f, all f ↔ ∃ x, At x f

theorem Placed.mem (h : Placed all At) (hx : At x f) : all f := (h.covers f).2 ⟨x, hx⟩

theorem Placed.ne (h : Placed all At) (hx : At x f) (hy : At y g) (hxy : x ≠ y) : f ≠ g := by
  rintro rfl
  exact hxy (h.one hx hy)

theorem Placed.congr (h : Placed all At) (he : ∀ z g, At' z g ↔ At z g) : Placed all At' where
  one hx hy := h.one ((he _ _).1 hx) ((he _ _).1 hy)
  covers g := by
    rw [h.covers g]
    exact exists_congr fun z => (he z g).symm

theorem Placed.map {Q : Type w} {At' : Q → F → Prop} (h : Placed all At) (φ : F → P → Q)
    (he : ∀ z g, At' z g ↔ ∃ x, At x g ∧ φ g x = z) : Placed all At' where
  one := by
    intro g z z' hz hz'
    obtain ⟨x, hx, rfl⟩ := (he z g).1 hz
    obtain ⟨y, hy, rfl⟩ := (he z' g).1 hz'
    rw [h.one hx hy]
  covers g := by
    rw [h.covers g]
    constructor
    · rintro ⟨x, hx⟩
      exact ⟨φ g x, (he _ g).2 ⟨x, hx, rfl⟩⟩
    · rintro ⟨z, hz⟩
      obtain ⟨x, hx, _⟩ := (he z g).1 hz
      exact ⟨x, hx⟩

theorem Placed.move (h : Placed all At) (hx : At x f) (hxy : x ≠ y)
    (hold : ∀ g, At' x g ↔ At x g ∧ g ≠ f) (hnew : ∀ g, At' y g ↔ At y g ∨ g = f)
    (hkeep : ∀ z g, z ≠ x → z ≠ y → (At' z g ↔ At z g)) : Placed all At' := by
  classical
  apply h.map fun g z => if g = f then y else z
  intro z g
  have hother : (∃ w, At w g ∧ (if g = f then y else w) = z) ↔ g ≠ f ∧ At z g ∨ g = f ∧ z = y := by
    by_cases hg : g = f
    · simp only [hg, ne_eq, not_true_eq_false, false_and, true_and, false_or]
      exact ⟨fun ⟨_, _, he⟩ => he.symm, fun he => ⟨x, hx, he.symm⟩⟩
    · simp only [hg, ne_eq, not_false_eq_true, true_and, false_and, or_false]
      exact ⟨fun ⟨_, hw, he⟩ => he ▸ hw, fun hz => ⟨z, hz, rfl⟩⟩
  rw [hother]
  by_cases hzx : z = x
  · subst hzx
    rw [hold]
    exact ⟨fun ⟨ha, hg⟩ => .inl ⟨hg, ha⟩, fun hz => hz.elim (fun ⟨hg, ha⟩ => ⟨ha, hg⟩)
      fun ⟨_, he⟩ => (hxy he).elim⟩
  by_cases hzy : z = y
  · subst hzy
    rw [hnew]
    constructor
    · rintro (ha | rfl)
      · exact .inl ⟨h.ne ha hx hzx, ha⟩
      · exact .inr ⟨rfl, rfl⟩
    · rintro (⟨_, ha⟩ | ⟨he, _⟩)
      · exact .inl ha
      · exact .inr he
  · rw [hkeep z g hzx hzy]
    constructor
    · intro ha
      exact .inl ⟨h.ne ha hx hzx, ha⟩
    · rintro (⟨_, ha⟩ | ⟨_, he⟩)
      · exact ha
      · exact (hzy he).elim

end Lib
