import Xv6Signals.Vm.Release

namespace Xv6Signals.Vm
open Lib

variable {H : Type} {I : Image} {D : Dirs H} {K : Wholes H} {T : Set Nat} {A : Spaces H} {x y : H}
  {s : Space} {m m' : Frames} {f g d : Nat} {E : Fault → Frames → Prop} {D' : Dirs (Option Nat)}
  {z : Place H}

def Held (m : Frames) (D : Dirs H) (K : Wholes H) (T : Set Nat) (x : H) (f : Nat) : Prop :=
  ∃ z, At m D K T z f ∧ z ≠ .free ∧ z ≠ .hand ∧ z.owner ≠ some x

open Classical in
/-- The frames that do not belong to `x`, each as a whole page with its contents. -/
noncomputable def pins (m : Frames) (D : Dirs H) (K : Wholes H) (T : Set Nat) (x : H) :
    Wholes (Option Nat) := fun z =>
  z.bind fun f => if Held m D K T x f then some (f, m.page f) else none

/-- Seen from `x`, the other holders have pages that do not change. -/
def only {α : Type} (c : Option α) : Option Nat → Option α := fun z => z.elim c fun _ => none

theorem pins_some {b : Bytes} :
    pins m D K T x (some g) = some (f, b) ↔ g = f ∧ Held m D K T x f ∧ b = m.page f := by
  unfold pins
  rw [Option.bind_some]
  constructor
  · intro he
    split at he
    · cases he
      exact ⟨rfl, ‹_›, rfl⟩
    · cases he
  · rintro ⟨rfl, hh, rfl⟩
    rw [if_pos hh]

theorem pins_none {b : Bytes} : pins m D K T x none ≠ some (f, b) := by
  intro he
  cases he

open Classical in
/-- The place of a frame as `x` sees it. -/
noncomputable def Place.seenBy (x : H) (f : Nat) : Place H → Place (Option Nat)
  | .free => .free
  | .hand => .hand
  | .page _ => .page (some f)
  | .dir y => if y = x then .dir none else .page (some f)
  | .table y i => if y = x then .table none i else .page (some f)
  | .user y k => if y = x then .user none k else .page (some f)

theorem Place.seenBy_other (hf : z ≠ .free) (hh : z ≠ .hand)
    (hx : z.owner ≠ some x) : z.seenBy x g = .page (some g) := by
  cases z with
  | free => exact (hf rfl).elim
  | hand => exact (hh rfl).elim
  | page y => rfl
  | dir y => exact if_neg fun he => hx (congrArg some he)
  | table y i => exact if_neg fun he => hx (congrArg some he)
  | user y k => exact if_neg fun he => hx (congrArg some he)

theorem At.seenBy (hz : At m D K T z g) :
    At m (only (D x)) (pins m D K T x) T (z.seenBy x g) g := by
  by_cases hx : z.owner = some x
  · cases z with
    | free => cases hx
    | hand => cases hx
    | page y => cases hx
    | dir y =>
      cases hx
      rw [Place.seenBy, if_pos rfl]
      exact hz
    | table y i =>
      cases hx
      rw [Place.seenBy, if_pos rfl]
      exact hz
    | user y k =>
      cases hx
      rw [Place.seenBy, if_pos rfl]
      exact hz
  · by_cases hf : z = .free
    · subst hf
      exact hz
    by_cases hh : z = .hand
    · subst hh
      exact hz
    · rw [Place.seenBy_other hf hh hx]
      exact ⟨m.page g, pins_some.2 ⟨rfl, ⟨z, hz, hf, hh, hx⟩, rfl⟩⟩

theorem At.of_seen {z : Place (Option Nat)} (hz : At m (only (D x)) (pins m D K T x) T z g) :
    ∃ w, At m D K T w g ∧ w.seenBy x g = z := by
  cases z with
  | free => exact ⟨.free, hz, rfl⟩
  | hand => exact ⟨.hand, hz, rfl⟩
  | page y =>
    obtain ⟨b, hb⟩ := hz
    cases y with
    | none => exact (pins_none hb).elim
    | some f =>
      obtain ⟨rfl, ⟨w, hw, hf, hh, hx⟩, _⟩ := pins_some.1 hb
      exact ⟨w, hw, Place.seenBy_other hf hh hx⟩
  | dir y =>
    cases y with
    | none => exact ⟨.dir x, hz, if_pos rfl⟩
    | some f => cases hz
  | table y i =>
    cases y with
    | none => exact ⟨.table x i, hz, if_pos rfl⟩
    | some f =>
      obtain ⟨d, hd, _⟩ := hz
      cases hd
  | user y k =>
    cases y with
    | none => exact ⟨.user x k, hz, if_pos rfl⟩
    | some f =>
      obtain ⟨_, d, e, hd, _⟩ := hz
      cases hd

theorem Rep.isolate (h : Rep I D K T A m) (x : H) :
    Rep I (only (D x)) (pins m D K T x) T (only (A x)) m := by
  refine ⟨h.nodup, h.placed.map (Place.seenBy x) ?_, ?_, ?_⟩
  · intro z g
    constructor
    · exact At.of_seen
    · rintro ⟨w, hw, rfl⟩
      exact hw.seenBy
  · intro z
    cases z with
    | none => exact h.spaces x
    | some f => rfl
  · intro z f b hk
    cases z with
    | none => exact (pins_none hk).elim
    | some g => exact (pins_some.1 hk).2.2.symm

theorem Rep.held_kept {T' : Set Nat} {A' : Spaces (Option Nat)}
    (h : Rep I D' (pins m D K T x) T' A' m') (hf : Held m D K T x f) :
    m'.page f = m.page f ∧ f ∉ m'.free := by
  have hpin : pins m D K T x (some f) = some (f, m.page f) := pins_some.2 ⟨rfl, hf, rfl⟩
  refine ⟨h.whole _ _ _ hpin, fun hfree => ?_⟩
  cases h.placed.one (show At m' D' (pins m D K T x) T' .free f from hfree)
    (show At m' D' (pins m D K T x) T' (.page (some f)) f from ⟨_, hpin⟩)

theorem At.free_or_held {w : Place (Option Nat)}
    (hw : At m' D' (pins m D K T x) ∅ w f) (hno : ∀ y, D' y = none) :
    f ∈ m'.free ∨ Held m D K T x f := by
  cases ho : w.owner with
  | some y =>
    obtain ⟨d, hd⟩ := hw.exists_dir ho
    rw [hno] at hd
    cases hd
  | none =>
    cases w with
    | free => exact .inl hw
    | hand => exact hw.elim
    | page y =>
      obtain ⟨b, hb⟩ := hw
      cases y with
      | none => exact (pins_none hb).elim
      | some g =>
        exact .inr (pins_some.1 hb).2.1
    | dir y => cases ho
    | table y i => cases ho
    | user y k => cases ho

theorem Rep.not_held (h : Rep I D K T A m) (hz : At m D K T z f)
    (hx : z.owner = some x) : ¬ Held m D K T x f := by
  rintro ⟨w, hw, _, _, hwx⟩
  exact hwx (h.placed.one hw hz ▸ hx)

theorem freevm_frees [DecidableEq H] (h : Rep I D K ∅ A m) (hd : D x = some d) :
    Wp (freevm I d) m (fun _ m' =>
      (∀ f, I.owns f → ¬ Held m D K ∅ x f → f ∈ m'.free) ∧
        ∀ f, Held m D K ∅ x f → m'.page f = m.page f ∧ f ∉ m'.free) E := by
  have hiso := h.isolate x
  apply (freevm_spec (x := none) hiso hd).post
  intro _ m' hrep
  refine ⟨fun f howns hnot => ?_, fun f hf => hrep.held_kept hf⟩
  obtain ⟨w, hw⟩ := (hrep.placed.covers f).1 howns
  have hno : ∀ y, Function.update (only (D x)) none none y = none := by
    intro y
    cases y with
    | none => rfl
    | some g => rfl
  exact (hw.free_or_held hno).resolve_right hnot

end Xv6Signals.Vm
