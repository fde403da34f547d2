import Xv6Signals.Umalloc.Sound
import Xv6Signals.Vm.Growproc

namespace Xv6Signals.Umalloc
open Lib BitVec

/-- `sys_sbrk` in a process of size `sz`: its result, where nothing stands for -1, and the new size;
`refused` says that there are no pages for a larger process. -/
def sysSbrk (sz n : Word) (refused : Bool) : Option Nat × Word :=
  if 0 < n.toInt then
    if refused = true ∨ Vm.kernBase ≤ (sz + n).toNat then (none, sz) else (some sz.toNat, sz + n)
  else if n.toInt < 0 then
    let sz' := if sz ≤ sz + n then sz else sz + n
    if sz' = 0 then (none, sz) else (some sz.toNat, sz')
  else (some sz.toNat, sz)

variable {base n k fuel : Nat} {h h' : Heap} {s : HeapState} {sz : Word} {refused : Bool}
  {sbrk : Option Nat}

theorem sysSbrk_of_grew {n : Word} {r : Option Word} {sp sp' : Vm.Space}
    (hg : Vm.Grew sp sz n r sp') (hsz : sz.toNat < Vm.kernBase) (hpos : sz ≠ 0) :
    ∃ refused, sysSbrk sz n refused = (r.map fun _ => sz.toNat, r.getD sz) := by
  cases hg with
  | refused kind =>
    refine ⟨true, ?_⟩
    rw [sysSbrk, if_pos (kind.resolve_right hpos), if_pos (.inl rfl)]
    rfl
  | still kind =>
    refine ⟨false, ?_⟩
    rcases kind with rfl | ⟨_, hneg⟩
    · rfl
    have hn : n.toInt < 0 := by omega
    have hle : sz ≤ sz + n := by
      rcases Vm.toNat_add_of_neg hsz hn with ⟨_, hlt⟩ | ⟨hge, _⟩
      · exact le_def.2 hlt.le
      · omega
    rw [sysSbrk, if_neg (by omega), if_pos hn]
    dsimp only
    rw [if_pos hle, if_neg hpos]
    rfl
  | grown pos lt size =>
    refine ⟨false, ?_⟩
    rw [sysSbrk, if_pos pos, if_neg]
    · rfl
    · rintro (hf | hge)
      · cases hf
      · omega
  | cut neg pos size =>
    refine ⟨false, ?_⟩
    have hgt : ¬ sz ≤ sz + n := by
      rw [le_def]
      omega
    have hne : sz + n ≠ 0 := by
      intro he
      rw [he] at size
      have h0 : (0 : Word).toNat = 0 := rfl
      omega
    rw [sysSbrk, if_neg (by omega), if_pos neg]
    dsimp only
    rw [if_neg hgt, if_neg hne]
    rfl
  | lost neg zero =>
    refine ⟨false, ?_⟩
    have hsum : sz + n = 0 := by
      rcases Vm.toNat_add_of_neg hsz neg with ⟨hlt, _⟩ | ⟨_, heq⟩
      · omega
      · apply eq_of_toNat_eq
        have h0 : (0 : Word).toNat = 0 := rfl
        omega
    have hgt : ¬ sz ≤ sz + n := by
      rw [hsum, le_def]
      have h0 : (0 : Word).toNat = 0 := rfl
      intro hle
      exact hpos (eq_of_toNat_eq (by omega))
    rw [sysSbrk, if_neg (by omega), if_pos neg]
    dsimp only
    rw [if_neg hgt, if_pos hsum]
    rfl

end Xv6Signals.Umalloc
