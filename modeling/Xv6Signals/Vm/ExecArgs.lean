import Xv6Signals.Lib.Spans
import Xv6Signals.Vm.ExecRestores

namespace Xv6Signals.Vm
open Lib Function List

variable {H : Type} [DecidableEq H] {I : Image} {D : Dirs H} {K : Wholes H} {A : Spaces H}
  {x p : H} {q : Space} {s : ExecState} {m m' : Frames} {a d i n v top used : Nat}
  {argv : List (List Byte)} {img : NewImage}

def Frames.userWord (m : Frames) (d a : Nat) : Option Nat := do
  let b₀ ← m.byteAt d a
  let b₁ ← m.byteAt d (a + 1)
  let b₂ ← m.byteAt d (a + 2)
  let b₃ ← m.byteAt d (a + 3)
  pure (bytesWord [b₀, b₁, b₂, b₃]).toNat

theorem Frames.Holds.userWord {w : BitVec 32} (h : m.Holds d a (wordBytes w)) :
    m.userWord d a = some w.toNat := by
  have hword := bytesWord_wordBytes w
  have h₀ := h 0 (show 0 < 4 by decide)
  have h₁ := h 1 (show 1 < 4 by decide)
  have h₂ := h 2 (show 2 < 4 by decide)
  have h₃ := h 3 (show 3 < 4 by decide)
  unfold wordBytes at h₀ h₁ h₂ h₃ hword
  rw [Nat.add_zero] at h₀
  rw [Frames.userWord, h₀, h₁, h₂, h₃]
  exact congrArg (fun w : BitVec 32 => some w.toNat) hword

theorem Frames.Holds.userWords {ws : List Nat} (h : m.Holds d a (stackBytes ws))
    (hv : ws[i]? = some v) (hlt : v < 2 ^ 32) : m.userWord d (a + 4 * i) = some v := by
  induction ws generalizing a i with
  | nil => cases hv
  | cons w ws ih =>
    have hcons : stackBytes (w :: ws) = wordBytes (BitVec.ofNat 32 w) ++ stackBytes ws := rfl
    rw [hcons] at h
    cases i with
    | zero =>
      cases hv
      rw [Nat.mul_zero, Nat.add_zero, h.left.userWord, BitVec.toNat_ofNat, Nat.mod_eq_of_lt hlt]
    | succ i =>
      rw [Nat.mul_succ, Nat.add_comm (4 * i), ← Nat.add_assoc]
      exact ih h.right hv

def stackSpans (esp vec : Nat) (ptrs : List Nat) (argv : List (List Byte)) : List Span :=
  ⟨esp, esp + 12⟩ :: ⟨vec, vec + 4 * (argv.length + 1)⟩ ::
    List.zipWith (fun ptr arg => ⟨ptr, ptr + arg.length + 1⟩) ptrs argv

/-- The stack of an address space of `sz` bytes has the arguments, with the vector at `vec` and the
strings at `ptrs`. -/
structure StackEncodes (m : Frames) (d sz esp : Nat) (argv : List (List Byte)) (vec : Nat)
    (ptrs : List Nat) : Prop where
  returnPc : m.userWord d esp = some 0xffffffff
  argc : m.userWord d (esp + 4) = some argv.length
  argvPtr : m.userWord d (esp + 8) = some vec
  count : ptrs.length = argv.length
  vector : ∀ i, i < argv.length → m.userWord d (vec + 4 * i) = ptrs[i]?
  last : m.userWord d (vec + 4 * argv.length) = some 0
  strings : List.Forall₂ (fun ptr arg => m.Holds d ptr (arg ++ [0])) ptrs argv
  apart : (stackSpans esp vec ptrs argv).Pairwise Span.Disjoint
  page : ∀ o ∈ stackSpans esp vec ptrs argv, sz - 4096 ≤ o.lo ∧ o.hi ≤ sz
  guard : ∃ e, m.pte d (sz / 4096 - 2) = some e ∧ userBit e = false

theorem stackPtrs_spans (h : stackUsed used argv ≤ top) :
    (∀ o ∈ List.zipWith (fun ptr arg => (⟨ptr, ptr + arg.length + 1⟩ : Span))
        (stackPtrs top used argv) argv, top - stackUsed used argv ≤ o.lo ∧ o.hi ≤ top - used) ∧
      (List.zipWith (fun ptr arg => (⟨ptr, ptr + arg.length + 1⟩ : Span))
        (stackPtrs top used argv) argv).Pairwise Span.Disjoint := by
  induction argv generalizing used with
  | nil => exact ⟨fun _ ho => (by cases ho), .nil⟩
  | cons arg argv ih =>
    obtain ⟨hlo, _, _⟩ := argBytes_spec used arg
    have hle := le_stackUsed (argBytes used arg) argv
    have htop : stackUsed (argBytes used arg) argv ≤ top := h
    obtain ⟨hall, hpair⟩ := ih htop
    have hused : stackUsed used (arg :: argv) = stackUsed (argBytes used arg) argv := rfl
    rw [stackPtrs, zipWith_cons_cons, hused]
    refine ⟨fun o ho => ?_, pairwise_cons.2 ⟨fun o ho => .inr (hall o ho).2, hpair⟩⟩
    rcases mem_cons.1 ho with rfl | ho
    · show top - stackUsed (argBytes used arg) argv ≤ top - argBytes used arg ∧
        top - argBytes used arg + arg.length + 1 ≤ top - used
      omega
    · obtain ⟨h₁, h₂⟩ := hall o ho
      exact ⟨h₁, by omega⟩

theorem stackPtrs_le (top used : Nat) (argv : List (List Byte)) :
    ∀ ptr ∈ stackPtrs top used argv, ptr ≤ top := by
  induction argv generalizing used with
  | nil =>
    intro ptr hptr
    cases hptr
  | cons arg argv ih =>
    intro ptr hptr
    rcases mem_cons.1 hptr with rfl | hptr
    · exact Nat.sub_le ..
    · exact ih _ ptr hptr

theorem NewImage.Encodes.stackEncodes (h : img.Encodes m d top argv) (htop : top = n * 4096)
    (hn : n < 524288) (htwo : 2 ≤ n)
    (hguard : ∃ e, m.pte d (n - 2) = some e ∧ userBit e = false) :
    StackEncodes m d top img.esp argv (img.esp + 12) (stackPtrs top 0 argv) := by
  obtain ⟨_, _, ⟨hargs, hfit⟩, hesp, hvector, hstrings⟩ := h
  have hlen := length_stackPtrs top 0 argv
  have hvec : sub32 (top - stackUsed 0 argv) ((argv.length + 1) * 4) = img.esp + 12 := by
    unfold sub32
    omega
  have hused : stackUsed 0 argv ≤ top := by omega
  obtain ⟨hall, hpair⟩ := stackPtrs_spans hused
  have hwords : ustack (top - stackUsed 0 argv) (stackPtrs top 0 argv) =
      0xffffffff :: argv.length :: (img.esp + 12) :: (stackPtrs top 0 argv ++ [0]) := by
    rw [ustack, hlen, hvec]
    rfl
  rw [hwords] at hvector
  refine ⟨?_, ?_, ?_, hlen, fun i hi => ?_, ?_, hstrings, ?_, ?_, ?_⟩
  · exact hvector.userWords (i := 0) rfl (by decide)
  · exact hvector.userWords (i := 1) rfl (by omega)
  · exact hvector.userWords (i := 2) rfl (by omega)
  · have hi' : i < (stackPtrs top 0 argv).length := by omega
    have hget : (stackPtrs top 0 argv ++ [0])[i]? = some (stackPtrs top 0 argv)[i] := by
      rw [getElem?_append_left hi', getElem?_eq_getElem hi']
    have hle := stackPtrs_le top 0 argv _ (getElem_mem hi')
    rw [getElem?_eq_getElem hi', (by omega : img.esp + 12 + 4 * i = img.esp + 4 * (i + 3))]
    exact hvector.userWords hget (by omega)
  · have hget : (stackPtrs top 0 argv ++ [0])[argv.length]? = some 0 := by
      rw [← hlen, getElem?_append_right (Nat.le_refl _), Nat.sub_self]
      rfl
    rw [(by omega : img.esp + 12 + 4 * argv.length = img.esp + 4 * (argv.length + 3))]
    exact hvector.userWords hget (by decide)
  · refine pairwise_cons.2 ⟨fun o ho => .inl ?_, pairwise_cons.2 ⟨fun o ho => .inl ?_,
      hpair⟩⟩
    · rcases mem_cons.1 ho with rfl | ho
      · exact Nat.le_refl _
      · have hlo := (hall o ho).1
        show img.esp + 12 ≤ o.lo
        omega
    · have hlo := (hall o ho).1
      show img.esp + 12 + 4 * (argv.length + 1) ≤ o.lo
      omega
  · intro o ho
    rcases mem_cons.1 ho with rfl | ho
    · show top - 4096 ≤ img.esp ∧ img.esp + 12 ≤ top
      omega
    rcases mem_cons.1 ho with rfl | ho
    · show top - 4096 ≤ img.esp + 12 ∧ img.esp + 12 + 4 * (argv.length + 1) ≤ top
      omega
    · obtain ⟨h₁, h₂⟩ := hall o ho
      omega
  · rw [htop, Nat.mul_div_cancel n (by decide)]
    exact hguard

theorem StackSpace.byteAt_eq (hs : StackSpace I q n) (hm : m.space d = q) (hm' : m'.space d = q)
    (a : Nat) : m'.byteAt d a = m.byteAt d a := by
  have hpte : m'.pte d = m.pte d := congrArg Space.pte (hm'.trans hm.symm)
  rw [Frames.byteAt, Frames.byteAt, Frames.userFrame_congr hpte]
  cases hf : m.userFrame d (a / 4096) with
  | none => rfl
  | some f =>
    obtain ⟨e, he, hu, hfe⟩ := Frames.userFrame_spec hf
    have hk : a / 4096 < userPages := by
      by_contra hk
      have hkernel := hs.kernel (a / 4096) (Nat.le_of_not_lt hk)
      rw [← hm] at hkernel
      rw [kernelSpace_userBit (hkernel.symm.trans he)] at hu
      cases hu
    have hmem : ∀ {m₀ : Frames}, m₀.pte d (a / 4096) = some e → m₀.mem d (a / 4096) = m₀.page f := by
      intro m₀ he₀
      rw [Frames.mem, if_pos hk, he₀, ← hfe]
      rfl
    have hsame : m'.mem d (a / 4096) = m.mem d (a / 4096) :=
      congrArg (fun q => q.mem (a / 4096)) (hm'.trans hm.symm)
    rw [hmem he, hmem (by rw [hpte, he])] at hsame
    rw [Option.map_some, Option.map_some, hsame]

theorem NewImage.Encodes.congr (h : img.Encodes m d top argv)
    (hsame : ∀ a, m'.byteAt d a = m.byteAt d a) : img.Encodes m' d top argv :=
  ⟨h.pgdir, h.sz, h.fits, h.esp, h.vector.congr fun _ _ => hsame _,
    held_of_above h.strings fun _ _ => hsame _⟩

theorem LongArg.lt_length {limit argc : Nat} (hused : used ≤ 4096)
    (h : LongArg limit used argc argv) : limit < (argv.map List.length).sum + 4100 := by
  induction argv generalizing used argc with
  | nil => exact h.elim
  | cons arg argv ih =>
    obtain ⟨_, h⟩ := h
    rw [map_cons, sum_cons]
    split at h
    · have hlt := ih ‹_› h
      omega
    · obtain ⟨_, hle, _⟩ := argBytes_spec used arg
      omega

/-- The stack of the new program has the arguments when `exec` returns 0, and it returns -1 when
they do not fit. -/
def EncodesArguments (argv : List (List Byte)) (r : Int) (t : ExecState) : Prop :=
  (r = 0 ∨ r = -1) ∧
    (r = 0 → ∃ vec ptrs,
      StackEncodes t.vm t.pgdir t.proc.sz.toNat t.proc.tf.esp.toNat argv vec ptrs) ∧
    (4096 < stackUsed 0 argv + 4 * (argv.length + 4) → r = -1)

/-- `exec` has found a page that is not there, for arguments that are longer than the image it was
building. -/
def LongerThanImage (I : Image) (D : Dirs H) (K : Wholes H) (A : Spaces H) (x : H)
    (argv : List (List Byte)) (e : Fault) (t : ExecState) : Prop :=
  e = .nullPte ∧ ∃ d q n, StackSpace I q n ∧
    Rep I (update D x (some d)) K ∅ (update A x (some q)) t.vm ∧
    n * 4096 < (argv.map List.length).sum

theorem exec_encodes (path : List Byte) (found : Bool) (h : Rep I D K ∅ A s.vm) (hx : D x = none)
    (hp : D p = some s.pgdir) (hs : s.locked = false)
    (hargv : ∀ arg ∈ argv, arg.length < physTop) :
    Wp (exec I path found argv) s (EncodesArguments argv) (LongerThanImage I D K A x argv) := by
  have hpx : p ≠ x := by
    rintro rfl
    rw [hx] at hp
    cases hp
  apply wp_bind (buildImage_encodes h hx hs hargv)
  · rintro e t ⟨he, d, q, n, hstack, hlong, hrep⟩
    have hlt := (hlong.mono (Nat.add_le_add_left (by decide : 4100 ≤ 0x2000000) _)).lt_length
      (Nat.zero_le _)
    exact ⟨he, d, q, n, hstack, hrep, Nat.lt_of_add_lt_add_right hlt⟩
  rintro r t ⟨hb, himg⟩
  cases hb with
  | failed _ _ => exact wp_pure ⟨.inr rfl, fun hr => (by cases hr), fun _ => rfl⟩
  | @built _ q n img hinner hrep hstack hsize =>
    have himg := himg img rfl
    have hpD : update D x (some img.pgdir) p = some s.pgdir := by
      rw [update_of_ne hpx, hp]
    have hn : n < 524288 := hstack.size
    apply wp_get_bind
    apply wp_modify_bind
    rw [hinner.pgdir]
    have hfree : Wp (freevm I s.pgdir) (t.commit path img).vm _ fun _ _ => False :=
      freevm_spec hrep hpD
    apply wp_onVm hfree fun _ _ he => he.elim
    intro _ m hrep'
    refine wp_pure ⟨.inl rfl, fun _ => ?_, fun hno => ?_⟩
    · have hspace : t.vm.space img.pgdir = q :=
        (hrep.space_eq (update_self ..) (update_self ..)).symm
      have hspace' : m.space img.pgdir = q := by
        refine (hrep'.space_eq (x := x) ?_ ?_).symm
        · rw [update_of_ne hpx.symm, update_self]
        · rw [update_of_ne hpx.symm, update_self]
      obtain ⟨e, he, hu⟩ := hstack.guard
      have hguard : m.pte img.pgdir (n - 2) = some e := by
        rw [← hspace'] at he
        exact he
      have henc := (himg.congr (hstack.byteAt_eq hspace hspace')).stackEncodes hsize hn hstack.two
        ⟨e, hguard, hu⟩
      have hesp := himg.esp
      have hsz' : (BitVec.ofNat 32 img.sz : Word).toNat = img.sz := by
        rw [BitVec.toNat_ofNat]
        omega
      have hesp' : (BitVec.ofNat 32 img.esp : Word).toNat = img.esp := by
        rw [BitVec.toNat_ofNat]
        omega
      refine ⟨img.esp + 12, stackPtrs img.sz 0 argv, ?_⟩
      show StackEncodes m img.pgdir (BitVec.ofNat 32 img.sz : Word).toNat
        (BitVec.ofNat 32 img.esp : Word).toNat argv _ _
      rw [hsz', hesp']
      exact henc
    · exact (Nat.not_le.2 hno himg.fits.vector).elim

/-- Whatever the file is, `exec` leaves the arguments on the stack of the new program or returns
-1; only for arguments that are longer than the new image it does neither. -/
theorem exec_encodes_arguments (I : Image) (D : Dirs Holder) (K : Wholes Holder)
    (A : Spaces Holder) (p : Fin 64) (s : ExecState) (path : List Byte) (found : Bool)
    (argv : List (List Byte)) (h : Rep I D K ∅ A s.vm) (hx : D .fresh = none)
    (hp : D (.proc p) = some s.pgdir) (hs : s.locked = false)
    (hargv : ∀ arg ∈ argv, arg.length < physTop) :
    Wp (exec I path found argv) s (EncodesArguments argv)
      (LongerThanImage I D K A .fresh argv) :=
  exec_encodes path found h hx hp hs hargv

theorem exec_empty_returns (path : List Byte) (h : Rep I D K ∅ A s.vm) (hx : D x = none)
    (hp : D p = some s.pgdir) (hs : s.locked = false)
    (hreads : s.reads = [fun _ _ => some emptyElf])
    (hplenty : Plenty (insert 0 kernelTables) Space.empty 3 s.vm)
    (hargv : ∀ arg ∈ argv, arg.length < physTop) (hfits : StackFits argv)
    (hshort : ¬ LongArg 0x2002000 0 0 argv) :
    Wp (exec I path true argv) s (fun r _ => r = 0) fun _ _ => False := by
  have hA : A x = none := by rw [h.spaces, hx, Option.map_none]
  have hpx : p ≠ x := by
    rintro rfl
    rw [hx] at hp
    cases hp
  have hbuild : Wp (buildImage I true argv) s
      (fun r t => Built I D K A x s r t ∧ r.isSome = true) fun _ _ => False := by
    refine buildImage_empty h hx hs hreads hplenty fun t d q entry ht hrep hstack => ?_
    have hargs : Wp (pushStack I d 8192 entry argv) t _ _ :=
      pushStack_spec hx hA hrep ht hstack rfl hargv
    apply hargs.mono (fun r u hr => ⟨hr.1.1, hr.2 hfits⟩)
    rintro e u ⟨_, d, q, n, hstack', hlong, _⟩
    have htop : 8192 ≤ n * 4096 := Nat.mul_le_mul_right 4096 hstack'.two
    exact hshort (hlong.mono (by omega))
  apply wp_seq hbuild
  rintro r t ⟨hb, hsome⟩
  cases hb with
  | failed _ _ => cases hsome
  | @built _ q n img hinner hrep _ _ =>
    have hpD : update D x (some img.pgdir) p = some s.pgdir := by
      rw [update_of_ne hpx, hp]
    apply wp_get_bind
    apply wp_modify_bind
    rw [hinner.pgdir]
    have hfree : Wp (freevm I s.pgdir) (t.commit path img).vm _ fun _ _ => False :=
      freevm_spec hrep hpD
    exact wp_onVm hfree (fun _ _ he => he) fun _ _ _ => wp_pure rfl

theorem exec_encodes_command :
    ∃ (D : Dirs Holder) (A : Spaces Holder) (s t : ExecState),
      Rep .small D (fun _ => none) ∅ A s.vm ∧ D .fresh = none ∧ D (.proc 0) = some s.pgdir ∧
        s.locked = false ∧ exec .small [] true [[101, 99, 104, 111], [104, 105]] s = .ok 0 t ∧
        EncodesArguments [[101, 99, 104, 111], [104, 105]] 0 t := by
  have hne : Holder.fresh ≠ Holder.proc 0 := fun he => by cases he
  obtain ⟨D, A, m, d, hrep, hx, hp, _, hplenty⟩ := exists_room .small hne
  have hargv : ∀ arg ∈ ([[101, 99, 104, 111], [104, 105]] : List (List Byte)),
      arg.length < physTop := by decide
  have hfits : StackFits [[101, 99, 104, 111], [104, 105]] :=
    ⟨⟨by decide, by decide⟩, by decide⟩
  have hshort : ¬ LongArg 0x2002000 0 0 [[101, 99, 104, 111], [104, 105]] := fun hlong => hlong.2.2
  have hzero := exec_empty_returns (s := ⟨m, Proc.empty, d, [], 0, 0, false,
    [fun _ _ => some emptyElf]⟩) [] hrep hx hp rfl rfl hplenty hargv hfits hshort
  obtain ⟨_, t, hrun, rfl, henc⟩ := (hzero.and (exec_encodes_arguments .small D _ A 0 _ [] true _
    hrep hx hp rfl hargv)).total fun _ _ he => he.1
  exact ⟨D, A, _, t, hrep, hx, hp, rfl, hrun, henc⟩

end Xv6Signals.Vm
