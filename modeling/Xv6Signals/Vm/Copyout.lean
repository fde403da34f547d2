import Xv6Signals.Vm.CopyoutExact
import Xv6Signals.Vm.Grow

namespace Xv6Signals.Vm
open Lib Function

variable {H : Type} [DecidableEq H] {I : Image} {D : Dirs H} {K : Wholes H} {T : Set Nat}
  {A : Spaces H} {x y : H} {s s' : Space} {m m' : Frames} {d i j k e va hi : Nat}
  {E : Fault → Frames → Prop} {buf : List Byte}

def Space.Writable (s : Space) (k : Nat) : Prop :=
  k < userPages ∧ ∃ e, s.pte k = some e ∧ userBit e = true

def Space.Blocked (s : Space) (k : Nat) : Prop :=
  k < 2 ^ 20 ∧ s.table (k / 1024) = true ∧ ∀ e, s.pte k = some e → userBit e = false

def Space.setMem (s : Space) (b : Nat → Bytes) : Space := { s with mem := b }

theorem Space.enter_same {b : Bytes} (s : Space) (he : s.pte k = some e) :
    s.enter k (some e) b = s.setMem (update s.mem k b) := by
  unfold Space.enter Space.setMem
  rw [← he, update_eq_self]

section

variable {α : Type} {c : Option Nat → VmM α} {Q : α → Frames → Prop} (h : Rep I D K T A m)
  (hd : D x = some d) (hs : A x = some s)
include h hd hs

omit [DecidableEq H] in
theorem Rep.uva2ka_writable (hk : k < userPages)
    (he : s.pte k = some e) (hu : userBit e = true) (hc : Wp (c (some (frameOf e))) m Q E) :
    Wp (uva2ka d (k * 4096) >>= c) m Q E := by
  obtain ⟨t, ht, _⟩ := h.pte_spec hd hs he
  apply wp_seq (uva2ka_frame (Nat.lt_trans hk (by decide)) ht)
  rintro _ _ ⟨rfl, rfl⟩
  rwa [Frames.userFrame, ← h.pte_eq hd hs, he, Option.bind_some, if_pos hu]

omit [DecidableEq H] in
theorem Rep.uva2ka_blocked (hk : s.Blocked k)
    (hc : Wp (c none) m Q E) : Wp (uva2ka d (k * 4096) >>= c) m Q E := by
  obtain ⟨hlt, htable, hno⟩ := hk
  rw [h.table_eq hd hs] at htable
  obtain ⟨t, ht⟩ := Option.isSome_iff_exists.1 htable
  have hnone : m.userFrame d k = none := by
    rw [Frames.userFrame, ← h.pte_eq hd hs]
    cases he : s.pte k with
    | none => rfl
    | some e =>
      rw [Option.bind_some, hno e he]
      rfl
  apply wp_seq (uva2ka_frame hlt ht)
  rintro _ _ ⟨rfl, rfl⟩
  rwa [hnone]

end

theorem copyoutLoop_spec {r : Nat} (h : Rep I D K T A m) (hd : D x = some d)
    (hs : A x = some s) (hr : buf.length < r) (hva : va / 4096 ≤ hi)
    (hok : ∀ j, va / 4096 ≤ j → j < hi → s.Writable j)
    (hstop : va + buf.length ≤ hi * 4096 ∨ s.Blocked hi) :
    Wp (copyoutLoop d r va buf) m (fun b m' => (b = true ↔ va + buf.length ≤ hi * 4096 ∨ buf = []) ∧
      m'.free = m.free ∧ m'.deny = m.deny ∧
      ∃ mem, Rep I D K T (update A x (some (s.setMem mem))) m') E := by
  induction r generalizing A s m va buf with
  | zero => exact (Nat.not_lt_zero _ hr).elim
  | succ r ih =>
    have hsame : ∃ mem, Rep I D K T (update A x (some (s.setMem mem))) m := ⟨s.mem, h.same hs⟩
    unfold copyoutLoop
    apply wp_ite
    · intro hlen
      exact wp_pure ⟨⟨fun _ => .inr (List.eq_nil_of_length_eq_zero hlen), fun _ => rfl⟩, rfl, rfl,
        hsame⟩
    intro hlen
    have hne : buf ≠ [] := fun he => hlen (he ▸ rfl)
    have hround : pgRoundDown va = va / 4096 * 4096 := rfl
    rw [hround]
    by_cases hlast : va / 4096 = hi
    · have hno : ¬ (va + buf.length ≤ hi * 4096) := by omega
      have hblocked : s.Blocked (va / 4096) := hlast ▸ hstop.resolve_left hno
      apply h.uva2ka_blocked hd hs hblocked
      refine wp_pure ⟨⟨fun hc => (by cases hc), fun hc => ?_⟩, rfl, rfl, hsame⟩
      exact (hc.elim hno hne).elim
    obtain ⟨hk, e, he, hu⟩ := hok (va / 4096) (Nat.le_refl _) (by omega)
    apply h.uva2ka_writable hd hs hk he hu
    apply wp_modify_bind
    have hk' : va / 4096 < 524288 := hk
    have hpos : 0 < buf.length := Nat.pos_of_ne_zero hlen
    obtain ⟨n, hn⟩ : ∃ n, n = min (4096 - (va - va / 4096 * 4096)) buf.length := ⟨_, rfl⟩
    rw [← hn]
    have hrep := h.write_user hd hs he hk
      ((m.page (frameOf e)).write (va - va / 4096 * 4096) (buf.take n))
    rw [s.enter_same he] at hrep
    have hnext : (va / 4096 * 4096 + 4096) % 2 ^ 32 = (va / 4096 + 1) * 4096 := by omega
    rw [hnext]
    have hlength : (buf.drop n).length = buf.length - n := List.length_drop
    have hend : (va / 4096 + 1) * 4096 + (buf.drop n).length ≤ hi * 4096 ∨ buf.drop n = [] ↔
        va + buf.length ≤ hi * 4096 := by
      rw [List.drop_eq_nil_iff, hlength]
      omega
    have hstop' : (va / 4096 + 1) * 4096 + (buf.drop n).length ≤ hi * 4096 ∨ s.Blocked hi := by
      rcases hstop with hstop | hstop
      · rw [hlength]
        exact .inl (by omega)
      · exact .inr hstop
    apply (ih hrep (update_self ..) (by omega)
      (by omega) (fun j hj => hok j (by omega)) hstop').post
    rintro b m' ⟨hb, hfree, hdeny, mem, hrep'⟩
    rw [update_idem] at hrep'
    refine ⟨?_, hfree, hdeny, mem, hrep'⟩
    rw [hb, hend]
    exact ⟨.inl, fun hc => hc.resolve_right hne⟩

theorem copyout_spec (h : Rep I D K T A m) (hd : D x = some d)
    (hs : A x = some s) (hbuf : buf ≠ []) (hva : va / 4096 ≤ hi)
    (hok : ∀ j, va / 4096 ≤ j → j < hi → s.Writable j)
    (hstop : va + buf.length ≤ hi * 4096 ∨ s.Blocked hi) :
    Wp (copyout d va buf) m (fun b m' => (b = true ↔ va + buf.length ≤ hi * 4096) ∧
      m'.free = m.free ∧ m'.deny = m.deny ∧
      ∃ mem, Rep I D K T (update A x (some (s.setMem mem))) m') E := by
  apply (copyoutLoop_spec h hd hs (Nat.lt_succ_self _) hva hok hstop).post
  rintro b m' ⟨hb, hrest⟩
  exact ⟨hb.trans ⟨fun hc => hc.resolve_right hbuf, .inl⟩, hrest⟩

omit [DecidableEq H] in
theorem copyout_null (h : Rep I D K T A m) (hd : D x = some d)
    (hs : A x = some s) (hbuf : buf ≠ []) (hva : va < 2 ^ 32)
    (hnone : s.table (va / 4096 / 1024) = false) :
    Wp (copyout d va buf) m (fun _ _ => False) fun e m' => e = .nullPte ∧ m' = m := by
  have hlen : buf.length ≠ 0 := fun he => hbuf (List.eq_nil_of_length_eq_zero he)
  rw [h.table_eq hd hs, Option.isSome_eq_false_iff, Option.isNone_iff_eq_none] at hnone
  unfold copyout copyoutLoop
  rw [if_neg hlen]
  exact wp_seq (uva2ka_null (by omega) hnone) fun _ _ he => he.elim

end Xv6Signals.Vm
