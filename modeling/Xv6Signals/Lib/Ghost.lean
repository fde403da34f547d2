import Xv6Signals.Lib.Wp

namespace Lib

variable {ε σ γ α β : Type} {x : EStateM ε σ α} {c : EStateM ε (σ × γ) α}
  {k : α → EStateM ε σ β} {f : α → EStateM ε (σ × γ) β} {s : σ} {g : γ}
  {P : α → σ → Prop} {F : ε → σ → Prop} {R : β → σ × γ → Prop} {E : ε → σ × γ → Prop}

/-- A program as one that leaves the ghost beside its state alone. -/
def ghost (x : EStateM ε σ α) : EStateM ε (σ × γ) α := fun s =>
  match x s.1 with
  | .ok a t => .ok a (t, s.2)
  | .error e t => .error e (t, s.2)

def record (h : σ → γ → γ) : EStateM ε (σ × γ) PUnit := modify fun s => (s.1, h s.1 s.2)

theorem Wp.ghost (h : Wp x s P F) :
    Wp (ghost x) (s, g) (fun a t => t.2 = g ∧ P a t.1) fun e t => t.2 = g ∧ F e t.1 := by
  unfold Wp at h ⊢
  unfold Lib.ghost
  split at h
  · rename_i a t hx
    simp only [hx]
    exact ⟨trivial, h⟩
  · rename_i e t hx
    simp only [hx]
    exact ⟨trivial, h⟩

theorem wp_ghost (h : Wp x s P F) (hE : ∀ e t, F e t → E e (t, g))
    (hf : ∀ a t, P a t → Wp (f a) (t, g) R E) : Wp (ghost x >>= f) (s, g) R E := by
  apply wp_bind h.ghost
  · rintro e ⟨t, _⟩ ⟨rfl, he⟩
    exact hE e t he
  · rintro a ⟨t, _⟩ ⟨rfl, ha⟩
    exact hf a t ha

theorem wp_ghost_get {f : σ → EStateM ε (σ × γ) β} (hf : Wp (f s) (s, g) R E) :
    Wp (ghost get >>= f) (s, g) R E := hf

theorem wp_record {h : σ → γ → γ} {f : PUnit → EStateM ε (σ × γ) β}
    (hf : Wp (f ⟨⟩) (s, h s g) R E) : Wp (record h >>= f) (s, g) R E := hf

/-- Without the ghost, `c` is `x`. -/
def Erases (c : EStateM ε (σ × γ) α) (x : EStateM ε σ α) : Prop :=
  ∀ s g, Wp c (s, g) (fun a t => x s = .ok a t.1) fun e t => x s = .error e t.1

theorem Erases.ghost (x : EStateM ε σ α) : Erases (ghost x : EStateM ε (σ × γ) α) x := by
  intro s g
  have h : Wp x s (fun a t => x s = .ok a t) fun e t => x s = .error e t := by
    unfold Wp
    split
    · assumption
    · assumption
  exact h.ghost.mono (fun _ _ h => h.2) fun _ _ h => h.2

theorem Erases.pure (a : α) : Erases (pure a : EStateM ε (σ × γ) α) (pure a : EStateM ε σ α) :=
  fun _ _ => rfl

theorem Erases.throw (e : ε) : Erases (throw e : EStateM ε (σ × γ) α) (throw e : EStateM ε σ α) :=
  fun _ _ => rfl

theorem Erases.bind (hc : Erases c x) (hf : ∀ a, Erases (f a) (k a)) :
    Erases (c >>= f) (x >>= k) := by
  intro s g
  have hbind : ∀ {r}, x s = r → (x >>= k) s = match r with
      | .ok a t => k a t
      | .error e t => .error e t := by
    rintro _ rfl
    rfl
  apply wp_bind (hc s g)
  · intro e t h
    exact hbind h
  · rintro a ⟨t, g'⟩ h
    rw [hbind h]
    exact hf a t g'

theorem Erases.record {h : σ → γ → γ} {f : PUnit → EStateM ε (σ × γ) α} (hf : Erases (f ⟨⟩) x) :
    Erases (record h >>= f) x := fun s g => hf s (h s g)

theorem Erases.ite {p : Prop} [Decidable p] {c' : EStateM ε (σ × γ) α} {x' : EStateM ε σ α}
    (h : Erases c x) (h' : Erases c' x') :
    Erases (if p then c else c') (if p then x else x') := by
  split
  · exact h
  · exact h'

theorem Erases.wp (h : Erases c x)
    (hc : Wp c (s, g) (fun a t => P a t.1) fun e t => F e t.1) : Wp x s P F := by
  have hboth := (h s g).and hc
  unfold Wp at hboth ⊢
  split at hboth
  · rw [hboth.1]
    exact hboth.2
  · rw [hboth.1]
    exact hboth.2

end Lib
