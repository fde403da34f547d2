import Mathlib.Init

namespace Lib

variable {ε σ α β ι : Type} {x : EStateM ε σ α} {f : α → EStateM ε σ β} {s t : σ}
  {P Q : α → σ → Prop} {R : β → σ → Prop} {E F : ε → σ → Prop} {g : σ → σ} {e : ε} {a : α}

/-- What holds when the program ends in a state, with a value or with an exception. -/
def Wp (x : EStateM ε σ α) (s : σ) (Q : α → σ → Prop) (E : ε → σ → Prop) : Prop :=
  match x s with
  | .ok a t => Q a t
  | .error e t => E e t

theorem wp_pure (h : Q a s) : Wp (pure a) s Q E := h

theorem wp_throw (h : E e s) : Wp (throw e) s Q E := h

theorem wp_modify {Q : PUnit → σ → Prop} (h : Q ⟨⟩ (g s)) : Wp (modify g) s Q E := h

/-- What holds when the program ends with a value. -/
abbrev Leaves (x : EStateM ε σ α) (s : σ) (Q : α → σ → Prop) : Prop := Wp x s Q fun _ _ => True

theorem Wp.mono (h : Wp x s P F) (hQ : ∀ a t, P a t → Q a t) (hE : ∀ e t, F e t → E e t) :
    Wp x s Q E := by
  unfold Wp at h ⊢
  split at h
  · exact hQ _ _ h
  · exact hE _ _ h

theorem Wp.post (h : Wp x s P E) (hQ : ∀ a t, P a t → Q a t) : Wp x s Q E :=
  h.mono hQ fun _ _ he => he

theorem wp_bind (h : Wp x s P F) (hE : ∀ e t, F e t → E e t)
    (hf : ∀ a t, P a t → Wp (f a) t R E) : Wp (x >>= f) s R E := by
  unfold Wp at h
  show match EStateM.bind x f s with
    | .ok a t => R a t
    | .error e t => E e t
  unfold EStateM.bind
  split at h
  · rename_i a t hx
    rw [hx]
    exact hf a t h
  · rename_i e t hx
    rw [hx]
    exact hE e t h

theorem wp_seq (h : Wp x s P E) (hf : ∀ a t, P a t → Wp (f a) t R E) : Wp (x >>= f) s R E :=
  wp_bind h (fun _ _ he => he) hf

theorem wp_seq_pure {b : β} (h : Wp x s (fun _ => R b) E) : Wp (x >>= fun _ => pure b) s R E :=
  wp_seq h fun _ _ ht => ht

theorem wp_step (h : Wp x s P fun _ _ => False) (hf : ∀ a t, P a t → Wp (f a) t R E) :
    Wp (x >>= f) s R E :=
  wp_bind h (fun _ _ he => he.elim) hf

theorem wp_get_bind {f : σ → EStateM ε σ β} (h : Wp (f s) s R E) : Wp (get >>= f) s R E := h

theorem wp_modify_bind {f : PUnit → EStateM ε σ β} (h : Wp (f ⟨⟩) (g s) R E) :
    Wp (modify g >>= f) s R E := h

theorem wp_pure_bind (h : Wp (f a) s R E) : Wp (pure a >>= f) s R E := h

theorem wp_ite {p : Prop} [Decidable p] {y : EStateM ε σ α} (hx : p → Wp x s Q E)
    (hy : ¬ p → Wp y s Q E) : Wp (if p then x else y) s Q E := by
  split
  · exact hx ‹_›
  · exact hy ‹_›

theorem wp_forM {l : List ι} {g : ι → EStateM ε σ PUnit} (I : List ι → σ → Prop) (hs : I l s)
    (hg : ∀ a l s, I (a :: l) s → Wp (g a) s (fun _ t => I l t) E) :
    Wp (l.forM g) s (fun _ t => I [] t) E := by
  induction l generalizing s with
  | nil => exact hs
  | cons a l ih =>
    show Wp (g a >>= fun _ => l.forM g) s _ E
    apply wp_bind (hg a l s hs)
    · intro e t h
      exact h
    · intro _ t h
      exact ih h

theorem wp_forM_range {n : Nat} {g : Nat → EStateM ε σ PUnit} (I : Nat → σ → Prop) (hs : I 0 s)
    (hg : ∀ j s, j < n → I j s → Wp (g j) s (fun _ t => I (j + 1) t) E) :
    Wp ((List.range n).forM g) s (fun _ t => I n t) E := by
  refine (wp_forM (fun l t => ∃ j, j ≤ n ∧ l = List.range' j (n - j) ∧ I j t) ?_ ?_).mono ?_
    fun _ _ h => h
  · refine ⟨0, Nat.zero_le n, ?_, hs⟩
    rw [List.range_eq_range', Nat.sub_zero]
  · rintro a l t ⟨j, hj, hl, h⟩
    cases hn : n - j with
    | zero =>
      rw [hn] at hl
      cases hl
    | succ m =>
      rw [hn, List.range'_succ] at hl
      cases hl
      apply (hg _ t (by omega) h).post
      intro _ u hu
      exact ⟨a + 1, by omega, by rw [(by omega : n - (a + 1) = m)], hu⟩
  · rintro _ t ⟨j, hj, hl, h⟩
    have hlen := congrArg List.length hl
    rw [List.length_nil, List.length_range'] at hlen
    have he : j = n := by omega
    exact he ▸ h

theorem Wp.total (h : Wp x s Q E) (hE : ∀ e t, ¬ E e t) : ∃ a t, x s = .ok a t ∧ Q a t := by
  unfold Wp at h
  split at h
  · exact ⟨_, _, ‹_›, h⟩
  · exact (hE _ _ h).elim

theorem Wp.and {Q' : α → σ → Prop} (h : Wp x s Q E) (h' : Wp x s Q' F) :
    Wp x s (fun a t => Q a t ∧ Q' a t) fun e t => E e t ∧ F e t := by
  unfold Wp at h h' ⊢
  cases hx : x s with
  | ok a t =>
    rw [hx] at h h'
    exact ⟨h, h'⟩
  | error e t =>
    rw [hx] at h h'
    exact ⟨h, h'⟩

theorem Wp.ok (h : Wp x s Q E) (hx : x s = .ok a t) : Q a t := by
  unfold Wp at h
  rw [hx] at h
  exact h

theorem Wp.error (h : Wp x s Q E) (hx : x s = .error e t) : E e t := by
  unfold Wp at h
  rw [hx] at h
  exact h

def runsTo (x : EStateM ε σ α) (s : σ) (test : α → σ → Bool) : Bool :=
  match x s with
  | .ok a t => test a t
  | .error _ _ => false

theorem exists_of_runsTo (x : EStateM ε σ α) (s : σ) (test : α → σ → Bool)
    (h : runsTo x s test = true) :
    ∃ a t, x s = .ok a t ∧ test a t = true := by
  unfold runsTo at h
  split at h
  · exact ⟨_, _, ‹_›, h⟩
  · cases h

def failsWith [DecidableEq ε] (x : EStateM ε σ α) (s : σ) (e : ε) : Bool :=
  match x s with
  | .ok _ _ => false
  | .error e' _ => decide (e' = e)

theorem exists_of_failsWith [DecidableEq ε] {x : EStateM ε σ α} {s : σ}
    (h : failsWith x s e = true) : ∃ t, x s = .error e t := by
  unfold failsWith at h
  split at h
  · cases h
  · rename_i e' t hx
    obtain rfl := of_decide_eq_true h
    exact ⟨t, hx⟩

end Lib
