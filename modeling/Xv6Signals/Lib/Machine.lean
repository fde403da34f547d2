import Mathlib.Data.Nat.Init

namespace Lib

universe u v

/-- A state machine whose partial step function takes every nondeterministic choice as a label. -/
structure Machine (σ : Type u) (α : Type v) where
  init : σ → Prop
  next : σ → α → Option σ

variable {σ : Type u} {α : Type v} {M : Machine σ α} {ok ok' : σ → α → Prop} {P : σ → Prop}
  {s t : σ} {a : α} {l : List α} {γ : Type u} {g : γ}

/-- States reached by steps that all meet a condition on the state before the step. -/
inductive Machine.Reach (M : Machine σ α) (ok : σ → α → Prop) : σ → Prop
  | init {s : σ} : M.init s → M.Reach ok s
  | step {s t : σ} {a : α} : M.Reach ok s → ok s a → M.next s a = some t → M.Reach ok t

def Machine.Reachable (M : Machine σ α) (s : σ) : Prop := M.Reach (fun _ _ => True) s

theorem Machine.Reach.mono (h : M.Reach ok s) (hok : ∀ s a, ok s a → ok' s a) : M.Reach ok' s := by
  induction h with
  | init h => exact .init h
  | step _ ha hs ih => exact .step ih (hok _ _ ha) hs

/-- What holds initially and is kept by every permitted step holds of every reached state. -/
theorem Machine.Reach.invariant (h : M.Reach ok s) (hinit : ∀ s, M.init s → P s)
    (hstep : ∀ s a t, M.Reach ok s → P s → ok s a → M.next s a = some t → P t) : P s := by
  induction h with
  | init h => exact hinit _ h
  | step hr ha hs ih => exact hstep _ _ _ hr ih ha hs

/-- Run a list of labels, stopping at the first step that is not enabled. -/
def Machine.run (M : Machine σ α) (s : σ) : List α → Option σ
  | [] => some s
  | a :: l => match M.next s a with
    | some t => M.run t l
    | none => none

theorem Machine.run_append (s : σ) (l l' : List α) :
    M.run s (l ++ l') = (M.run s l).bind fun t => M.run t l' := by
  induction l generalizing s with
  | nil => rfl
  | cons a l ih =>
    simp only [List.cons_append, Machine.run]
    cases M.next s a with
    | none => rfl
    | some t => exact ih t

def Machine.Permits (M : Machine σ α) (ok : σ → α → Prop) (s : σ) : List α → Prop
  | [] => True
  | a :: l => ok s a ∧ match M.next s a with
    | some t => M.Permits ok t l
    | none => True

instance Machine.decidablePermits (M : Machine σ α) (ok : σ → α → Prop)
    [∀ s a, Decidable (ok s a)] : ∀ (s : σ) (l : List α), Decidable (M.Permits ok s l)
  | _, [] => .isTrue True.intro
  | s, a :: l =>
    have : Decidable (match M.next s a with
        | some t => M.Permits ok t l
        | none => True) :=
      match M.next s a with
      | some t => decidablePermits M ok t l
      | none => .isTrue True.intro
    inferInstanceAs (Decidable (_ ∧ _))

theorem Machine.Reach.run (h : M.Reach ok s) (hp : M.Permits ok s l)
    (hr : M.run s l = some t) : M.Reach ok t := by
  induction l generalizing s with
  | nil =>
    simp only [Machine.run, Option.some.injEq] at hr
    exact hr ▸ h
  | cons a l ih =>
    obtain ⟨ha, hl⟩ := hp
    simp only [Machine.run] at hr
    cases hn : M.next s a with
    | none => simp [hn] at hr
    | some u =>
      simp only [hn] at hr hl
      exact ih (.step h ha hn) hl hr

theorem Machine.permits_true (s : σ) (l : List α) : M.Permits (fun _ _ => True) s l := by
  induction l generalizing s with
  | nil => exact True.intro
  | cons a l ih =>
    refine ⟨True.intro, ?_⟩
    cases M.next s a with
    | none => exact True.intro
    | some t => exact ih t

theorem Machine.Reachable.run (h : M.Reachable s) (hr : M.run s l = some t) : M.Reachable t :=
  Machine.Reach.run h (Machine.permits_true s l) hr

theorem Machine.Reach.exists_run [DecidablePred P] (h : M.Reach ok s)
    (hl : M.Permits ok s l) (hr : (M.run s l).any (fun t => decide (P t)) = true) :
    ∃ t, M.Reach ok t ∧ P t := by
  obtain ⟨t, ht, hP⟩ := (Option.any_eq_true ..).1 hr
  exact ⟨t, h.run hl ht, of_decide_eq_true hP⟩

/-- A stretch of a run: permitted steps from one state to another. -/
inductive Machine.Path (M : Machine σ α) (ok : σ → α → Prop) (s : σ) : σ → Prop
  | refl : M.Path ok s s
  | step {t u : σ} {a : α} : M.Path ok s t → ok t a → M.next t a = some u → M.Path ok s u

theorem Machine.Path.invariant (h : M.Path ok s t) (hs : P s)
    (hstep : ∀ u a v, P u → ok u a → M.next u a = some v → P v) : P t := by
  induction h with
  | refl => exact hs
  | step _ ha hu ih => exact hstep _ _ _ ih ha hu

theorem Machine.Path.mono (h : M.Path ok s t) (hok : ∀ s a, ok s a → ok' s a) : M.Path ok' s t := by
  induction h with
  | refl => exact .refl
  | step _ ha hu ih => exact .step ih (hok _ _ ha) hu

theorem Machine.Path.reach (h : M.Path ok s t) (hs : M.Reach ok s) : M.Reach ok t := by
  induction h with
  | refl => exact hs
  | step _ ha hu ih => exact .step ih ha hu

theorem Machine.Path.run (hp : M.Permits ok s l) (hr : M.run s l = some t) : M.Path ok s t := by
  suffices h : ∀ u, M.Path ok u s → M.Path ok u t from h s .refl
  intro u hu
  induction l generalizing s with
  | nil =>
    simp only [Machine.run, Option.some.injEq] at hr
    exact hr ▸ hu
  | cons a l ih =>
    obtain ⟨ha, hl⟩ := hp
    simp only [Machine.run] at hr
    cases hn : M.next s a with
    | none => simp [hn] at hr
    | some v =>
      simp only [hn] at hr hl
      exact ih hl hr (.step hu ha hn)

theorem Machine.Path.exists_run [DecidablePred P] (hl : M.Permits ok s l)
    (hr : (M.run s l).any (fun t => decide (P t)) = true) : ∃ t, M.Path ok s t ∧ P t := by
  obtain ⟨t, ht, hP⟩ := (Option.any_eq_true ..).1 hr
  exact ⟨t, .run hl ht, of_decide_eq_true hP⟩

theorem Machine.Reach.exists_stretch {Q : σ → Prop} {R : σ → α → Prop} [DecidablePred P]
    [DecidablePred Q] [∀ s a, Decidable (R s a)] {l m : List α} (h : M.Reach ok s)
    (hl : M.Permits ok s l)
    (hr : (M.run s l).any (fun t => decide (P t ∧ M.Permits R t m ∧
      (M.run t m).any (fun u => decide (Q u)) = true)) = true) :
    ∃ t u, M.Reach ok t ∧ P t ∧ M.Path R t u ∧ Q u := by
  obtain ⟨t, ht, hP⟩ := (Option.any_eq_true ..).1 hr
  obtain ⟨hP, hm, hQ⟩ := of_decide_eq_true hP
  obtain ⟨u, hu, hQu⟩ := Machine.Path.exists_run hm hQ
  exact ⟨t, u, h.run hl ht, hP, hu, hQu⟩

/-- The machine with a history variable, which the steps update and never read. -/
def Machine.track {γ : Type u} (M : Machine σ α) (g : γ) (update : γ → σ → α → γ) :
    Machine (σ × γ) α where
  init := fun s => M.init s.1 ∧ s.2 = g
  next := fun s a => (M.next s.1 a).map fun t => (t, update s.2 s.1 a)

theorem Machine.Reach.untrack_mono {update : γ → σ → α → γ} {s : σ × γ}
    {R : σ × γ → α → Prop} (h : (M.track g update).Reach R s)
    (hR : ∀ s a, R s a → ok s.1 a) : M.Reach ok s.1 := by
  induction h with
  | init h => exact .init h.1
  | step _ ha hs ih =>
    obtain ⟨t, ht, rfl⟩ := Option.map_eq_some_iff.1 hs
    exact .step ih (hR _ _ ha) ht

theorem Machine.Reach.untrack {update : γ → σ → α → γ} {s : σ × γ}
    (h : (M.track g update).Reach (fun s => ok s.1) s) : M.Reach ok s.1 :=
  h.untrack_mono fun _ _ h => h

theorem Machine.Reachable.untrack {update : γ → σ → α → γ} {s : σ × γ}
    (h : (M.track g update).Reachable s) : M.Reachable s.1 :=
  Machine.Reach.untrack_mono h fun _ _ h => h

end Lib
