import Xv6Signals.Vm.ExecImage

namespace Xv6Signals.Vm
open Lib Function List Finset

variable {H : Type} [DecidableEq H] {I : Image} {D : Dirs H} {K : Wholes H} {T : Set Nat}
  {A : Spaces H} {x y : H} {p q : Space} {m m' : Frames}
  {d i j k e n used argc : Nat} {arg : List Byte} {argv : List (List Byte)}
  {E : Fault → Frames → Prop}

/-- An image of `n` pages, of which the last is the stack and the last but one the guard. -/
structure StackSpace (I : Image) (p : Space) (n : Nat) : Prop where
  size : n < userPages
  two : 2 ≤ n
  image : ∀ j, j < n - 2 → ∃ e, p.pte j = some e ∧ userBit e = true
  guard : ∃ e, p.pte (n - 2) = some e ∧ userBit e = false
  stack : ∃ e, p.pte (n - 1) = some e ∧ userBit e = true
  above : ∀ j, n ≤ j → j < userPages → p.pte j = none
  table : ∀ i, p.table i = true ↔ i ∈ kernelTables ∨ ∃ j, j < n ∧ j / 1024 = i
  kernel : ∀ k, userPages ≤ k → p.pte k = (kernelSpace I).pte k

theorem StackSpace.setMem (h : StackSpace I p n) (b : Nat → Bytes) : StackSpace I (p.setMem b) n :=
  ⟨h.size, h.two, h.image, h.guard, h.stack, h.above, h.table, h.kernel⟩

theorem UserSpace.stack {b : Bytes} (h : UserSpace I p (n * 4096)) (hn : 2 ≤ n)
    (hp : present e = true) :
    StackSpace I (p.enter (n - 2) (some (withoutUser e)) b) n := by
  have hsize : n * 4096 < 0x80000000 := h.size
  have hpages : pages (n * 4096) = n := by
    unfold pages
    omega
  have hother : ∀ j, j ≠ n - 2 → (p.enter (n - 2) (some (withoutUser e)) b).pte j = p.pte j :=
    fun j hj => update_of_ne hj ..
  have hmapped := h.mapped
  have habove := h.above
  have htable := h.table
  rw [hpages] at hmapped habove htable
  refine ⟨?_, hn, ?_, ?_, ?_, ?_, htable, ?_⟩
  · show n < 524288
    omega
  · intro j hj
    rw [hother j (by omega)]
    exact hmapped j (by omega)
  · exact ⟨_, update_self .., (withoutUser_spec hp).2.2⟩
  · rw [hother _ (by omega)]
    exact hmapped _ (by omega)
  · intro j hj hju
    rw [hother j (by omega)]
    exact habove j hj hju
  · intro k hk
    have hk' : 524288 ≤ k := hk
    rw [hother k (by omega)]
    exact h.kernel k hk

theorem StackSpace.writable (h : StackSpace I p n) (hj : j < n) (hne : j ≠ n - 2) :
    p.Writable j := by
  have hsize : n < 524288 := h.size
  refine ⟨Nat.lt_trans hj h.size, ?_⟩
  by_cases hlast : j = n - 1
  · rw [hlast]
    exact h.stack
  · exact h.image j (by omega)

theorem StackSpace.blocked_guard (h : StackSpace I p n) : p.Blocked (n - 2) := by
  have hsize : n < 524288 := h.size
  have htwo := h.two
  obtain ⟨e, he, hu⟩ := h.guard
  refine ⟨by omega, (h.table _).2 (.inr ⟨n - 2, by omega, rfl⟩), fun e' he' => ?_⟩
  rw [he] at he'
  cases he'
  exact hu

theorem StackSpace.blocked_kernel (h : StackSpace I p n) (hk : userPages ≤ k) (hlt : k < 2 ^ 20)
    (ht : k / 1024 ∈ kernelTables) : p.Blocked k := by
  refine ⟨hlt, (h.table _).2 (.inl ht), fun e he => ?_⟩
  rw [h.kernel k hk] at he
  exact kernelSpace_userBit he

omit [DecidableEq H] in
theorem StackSpace.separate (hs : StackSpace I p n) (h : Rep I D K T A m) (hd : D x = some d)
    (hp : A x = some p) : m.Separate d := by
  refine h.separate hd fun k e hk he => ?_
  have hpte : p.pte k = some e := by
    rw [h.space_eq hd hp]
    exact he
  rw [hs.kernel k hk] at hpte
  exact kernelSpace_userBit hpte

def argBytes (used : Nat) (arg : List Byte) : Nat := (used + arg.length + 1 + 3) / 4 * 4

/-- Some argument, the first that does not fit into the stack page, takes more than `limit`
bytes. -/
def LongArg (limit : Nat) : Nat → Nat → List (List Byte) → Prop
  | _, _, [] => False
  | used, argc, arg :: argv => argc < maxArg ∧
    if argBytes used arg ≤ 4096 then LongArg limit (argBytes used arg) (argc + 1) argv
    else limit < argBytes used arg

theorem LongArg.mono {limit limit' : Nat} (hle : limit ≤ limit')
    (h : LongArg limit' used argc argv) : LongArg limit used argc argv := by
  induction argv generalizing used argc with
  | nil => exact h
  | cons arg argv ih =>
    obtain ⟨hargc, h⟩ := h
    refine ⟨hargc, ?_⟩
    split at h
    · rw [if_pos ‹_›]
      exact ih h
    · rw [if_neg ‹_›]
      exact Nat.lt_of_le_of_lt hle h

def stackUsed : Nat → List (List Byte) → Nat
  | used, [] => used
  | used, arg :: argv => stackUsed (argBytes used arg) argv

def stackPtrs (top : Nat) : Nat → List (List Byte) → List Nat
  | _, [] => []
  | used, arg :: argv => (top - argBytes used arg) :: stackPtrs top (argBytes used arg) argv

variable {top : Nat}

theorem pushed_eq (hused : used ≤ top) (hused4 : used % 4 = 0) (htop4 : top % 4 = 0)
    (htop : top < 2 ^ 31) (harg : arg.length < physTop) :
    pushed (top - used) arg =
      if argBytes used arg ≤ top then top - argBytes used arg
      else 2 ^ 32 + top - argBytes used arg := by
  have harg' : arg.length < 0xE000000 := harg
  unfold pushed sub32 argBytes
  split <;> omega

theorem argBytes_spec (used : Nat) (arg : List Byte) :
    used + arg.length + 1 ≤ argBytes used arg ∧ argBytes used arg ≤ used + arg.length + 4 ∧
      argBytes used arg % 4 = 0 := by
  unfold argBytes
  omega

theorem le_stackUsed (used : Nat) (argv : List (List Byte)) : used ≤ stackUsed used argv := by
  induction argv generalizing used with
  | nil => exact Nat.le_refl _
  | cons arg argv ih =>
    obtain ⟨hlo, _, _⟩ := argBytes_spec used arg
    exact Nat.le_trans (by omega) (ih (argBytes used arg))

theorem length_stackPtrs (top used : Nat) (argv : List (List Byte)) :
    (stackPtrs top used argv).length = argv.length := by
  induction argv generalizing used with
  | nil => rfl
  | cons arg argv ih => rw [stackPtrs, length_cons, length_cons, ih]

structure ArgsFit (used argc : Nat) (argv : List (List Byte)) : Prop where
  bytes : stackUsed used argv ≤ 4096
  count : argc + argv.length ≤ maxArg

theorem argsFit_cons : ArgsFit used argc (arg :: argv) ↔
    argc < maxArg ∧ argBytes used arg ≤ 4096 ∧ ArgsFit (argBytes used arg) (argc + 1) argv := by
  have hle := le_stackUsed (argBytes used arg) argv
  have hlen : argc + (arg :: argv).length = argc + 1 + argv.length := by
    rw [length_cons]
    omega
  constructor
  · rintro ⟨hbytes, hcount⟩
    rw [hlen] at hcount
    exact ⟨by omega, Nat.le_trans hle hbytes, hbytes, hcount⟩
  · rintro ⟨_, _, hbytes, hcount⟩
    refine ⟨hbytes, ?_⟩
    rw [hlen]
    exact hcount

structure ArgsPushed (m : Frames) (d top used : Nat) (argv : List (List Byte))
    (r : Option (Nat × List Nat)) (m' : Frames) : Prop where
  result : r = some (top - stackUsed used argv, stackPtrs top used argv)
  above : ∀ a, top - used ≤ a → m'.byteAt d a = m.byteAt d a
  held : List.Forall₂ (fun ptr arg => m'.Holds d ptr (arg ++ [0])) (stackPtrs top used argv) argv

theorem held_of_above
    (h : List.Forall₂ (fun ptr arg => m.Holds d ptr (arg ++ [0])) (stackPtrs top used argv) argv)
    (hsame : ∀ a, top - stackUsed used argv ≤ a → m'.byteAt d a = m.byteAt d a) :
    List.Forall₂ (fun ptr arg => m'.Holds d ptr (arg ++ [0])) (stackPtrs top used argv) argv := by
  induction argv generalizing used with
  | nil => exact .nil
  | cons arg argv ih =>
    obtain ⟨harg, hrest⟩ := forall₂_cons.1 h
    have hle := le_stackUsed (argBytes used arg) argv
    refine .cons (harg.congr fun i _ => hsame _ ?_) (ih hrest hsame)
    show top - stackUsed (argBytes used arg) argv ≤ top - argBytes used arg + i
    omega

section

variable (h : Rep I D K T A m) (hd : D x = some d) (hp : A x = some p) (hs : StackSpace I p n)
  (htop : top = n * 4096) (hused : used ≤ 4096) (hused4 : used % 4 = 0)
include h hd hp hs htop hused hused4

theorem pushArg_spec (harg : arg.length < physTop) (hshort : argBytes used arg ≤ top + 0x2000000) :
    Wp (copyout d (pushed (top - used) arg) (arg ++ [0])) m (fun b m' =>
      (b = true ↔ argBytes used arg ≤ 4096) ∧ m'.free = m.free ∧ m'.deny = m.deny ∧
      ∃ mem, Rep I D K T (update A x (some (p.setMem mem))) m') E := by
  have hsize : n < 524288 := hs.size
  have htwo := hs.two
  have harg' : arg.length < 0xE000000 := harg
  have hlen : (arg ++ [0]).length = arg.length + 1 := by
    rw [length_append, length_singleton]
  have hne : arg ++ [0] ≠ [] := append_ne_nil_of_right_ne_nil _ (cons_ne_nil _ _)
  obtain ⟨hlo, hhi, _⟩ := argBytes_spec used arg
  rw [pushed_eq (by omega) hused4 (by omega) (by omega) harg]
  by_cases hfit : argBytes used arg ≤ 4096
  · rw [if_pos (by omega)]
    have hok : ∀ j, (top - argBytes used arg) / 4096 ≤ j → j < n → p.Writable j := by
      intro j hj hj'
      exact hs.writable hj' (by omega)
    have hend : top - argBytes used arg + (arg ++ [0]).length ≤ n * 4096 := by
      rw [hlen]
      omega
    apply (copyout_spec h hd hp hne (by omega) hok (.inl hend)).post
    rintro b m' ⟨hb, hrest⟩
    exact ⟨hb.trans ⟨fun _ => hfit, fun _ => hend⟩, hrest⟩
  by_cases hwrap : argBytes used arg ≤ top
  · rw [if_pos hwrap]
    have hok : ∀ j, (top - argBytes used arg) / 4096 ≤ j → j < n - 2 → p.Writable j := by
      intro j _ hj'
      exact hs.writable (by omega) (by omega)
    have hend : ¬ (top - argBytes used arg + (arg ++ [0]).length ≤ (n - 2) * 4096) := by
      rw [hlen]
      omega
    apply (copyout_spec h hd hp hne (by omega) hok (.inr hs.blocked_guard)).post
    rintro b m' ⟨hb, hrest⟩
    exact ⟨hb.trans ⟨fun hc => (hend hc).elim, fun hc => (hfit hc).elim⟩, hrest⟩
  rw [if_neg hwrap]
  have hva : 0xFE000000 ≤ 2 ^ 32 + top - argBytes used arg ∧
      2 ^ 32 + top - argBytes used arg < 2 ^ 32 := by omega
  generalize 2 ^ 32 + top - argBytes used arg = va at hva
  have hblocked : p.Blocked (va / 4096) := by
    refine hs.blocked_kernel ?_ (by omega) ?_
    · show 524288 ≤ va / 4096
      omega
    · rw [kernelTables, mem_union, mem_Ico, mem_Ico]
      omega
  have hend : ¬ (va + (arg ++ [0]).length ≤ va / 4096 * 4096) := by
    rw [hlen]
    omega
  apply (copyout_spec h hd hp hne (Nat.le_refl _) (fun j hj hj' => by omega)
    (.inr hblocked)).post
  rintro b m' ⟨hb, hrest⟩
  exact ⟨hb.trans ⟨fun hc => (hend hc).elim, fun hc => (hfit hc).elim⟩, hrest⟩

theorem pushArg_copies (harg : arg.length < physTop)
    (hshort : argBytes used arg ≤ top + 0x2000000) :
    Wp (copyout d (pushed (top - used) arg) (arg ++ [0])) m (fun b m' =>
      ((b = true ↔ argBytes used arg ≤ 4096) ∧ m'.free = m.free ∧ m'.deny = m.deny ∧
        ∃ mem, Rep I D K T (update A x (some (p.setMem mem))) m') ∧
      CopiedOut m d (pushed (top - used) arg) (arg ++ [0]) b m') E := by
  have harg' : arg.length < 0xE000000 := harg
  have hva : pushed (top - used) arg < 2 ^ 32 := by
    unfold pushed sub32
    omega
  have hlen : (arg ++ [0]).length < 2 ^ 32 := by
    rw [length_append, length_singleton]
    omega
  exact ((pushArg_spec h hd hp hs htop hused hused4 harg hshort).and
    (copyout_copies (hs.separate h hd hp) hva hlen)).mono (fun _ _ h => h) fun _ _ h => h.1

omit [DecidableEq H] in
theorem pushArg_null (harg : arg.length < physTop) (hlong : top + 0x2000000 < argBytes used arg) :
    Wp (copyout d (pushed (top - used) arg) (arg ++ [0])) m (fun _ _ => False)
      fun e m' => e = .nullPte ∧ m' = m := by
  have hsize : n < 524288 := hs.size
  have htwo := hs.two
  have harg' : arg.length < 0xE000000 := harg
  have hne : arg ++ [0] ≠ [] := append_ne_nil_of_right_ne_nil _ (cons_ne_nil _ _)
  obtain ⟨hlo, hhi, _⟩ := argBytes_spec used arg
  rw [pushed_eq (by omega) hused4 (by omega) (by omega) harg, if_neg (by omega)]
  have hva : 0x8E000000 ≤ 2 ^ 32 + top - argBytes used arg ∧
      2 ^ 32 + top - argBytes used arg < 0xFE000000 := by omega
  generalize 2 ^ 32 + top - argBytes used arg = va at hva
  have hnone : p.table (va / 4096 / 1024) = false := by
    apply Bool.eq_false_iff.2
    rw [ne_eq, hs.table, kernelTables, mem_union, mem_Ico, mem_Ico]
    rintro (hc | ⟨j, hj, hc⟩) <;> omega
  exact copyout_null h hd hp hne (by omega) hnone

theorem pushArgs_spec (hargc : argc ≤ maxArg) (hargv : ∀ arg ∈ argv, arg.length < physTop)
    (hshort : ¬ LongArg (top + 0x2000000) used argc argv) :
    Wp (pushArgs d argv argc (top - used)) m (fun r m' =>
      (∃ mem, Rep I D K T (update A x (some (p.setMem mem))) m') ∧
      (ArgsFit used argc argv → ArgsPushed m d top used argv r m') ∧
      (¬ ArgsFit used argc argv → r = none)) E := by
  induction argv generalizing A p m used argc with
  | nil =>
    unfold pushArgs
    refine wp_pure ⟨⟨p.mem, h.same hp⟩, fun _ => ⟨rfl, fun _ _ => rfl, .nil⟩, fun hno => ?_⟩
    exact (hno ⟨hused, hargc⟩).elim
  | cons arg argv ih =>
    obtain ⟨hlo, _, hbytes4⟩ := argBytes_spec used arg
    rw [argsFit_cons]
    unfold pushArgs
    apply wp_ite
    · intro hmax
      refine wp_pure ⟨⟨p.mem, h.same hp⟩, fun hfit => ?_, fun _ => rfl⟩
      exact (Nat.not_lt.2 hmax hfit.1).elim
    intro hmax
    have hlt := Nat.lt_of_not_le hmax
    have harg := hargv arg mem_cons_self
    have hshort' : argBytes used arg ≤ top + 0x2000000 := by
      by_contra hc
      refine hshort ⟨hlt, ?_⟩
      rw [if_neg (by omega)]
      exact Nat.lt_of_not_le hc
    apply wp_seq (pushArg_copies h hd hp hs htop hused hused4 harg hshort')
    rintro b m₁ ⟨⟨hb, _, _, mem, hrep⟩, hcopied⟩
    apply wp_ite
    swap
    · intro hno
      exact wp_pure ⟨⟨mem, hrep⟩, fun hfit => (hno (hb.2 hfit.2.1)).elim, fun _ => rfl⟩
    intro hbt
    have hfit := hb.1 hbt
    subst hbt
    have hsize : n < 524288 := hs.size
    have htwo := hs.two
    have hpushed : pushed (top - used) arg = top - argBytes used arg := by
      rw [pushed_eq (by omega) hused4 (by omega) (by omega) harg, if_pos (by omega)]
    have hlen : (arg ++ [0]).length = arg.length + 1 := by
      rw [length_append, length_singleton]
    have hshort'' : ¬ LongArg (top + 0x2000000) (argBytes used arg) (argc + 1) argv := by
      intro hc
      refine hshort ⟨hlt, ?_⟩
      rw [if_pos hfit]
      exact hc
    rw [hpushed] at hcopied ⊢
    apply wp_seq (ih hrep (update_self ..) (hs.setMem mem) hfit hbytes4 hlt
      (fun a ha => hargv a (mem_cons_of_mem arg ha)) hshort'')
    rintro r m₂ ⟨⟨mem', hrep'⟩, hpush, hnone⟩
    rw [update_idem] at hrep'
    -- the string stays, since the later ones are below it
    have hall : ArgsFit (argBytes used arg) (argc + 1) argv → ArgsPushed m d top used (arg :: argv)
          (r.map fun r => (r.1, (top - argBytes used arg) :: r.2)) m₂ := by
      intro hf
      obtain ⟨hr, habove, hheld⟩ := hpush hf
      refine ⟨?_, fun a ha => ?_, .cons ?_ hheld⟩
      · rw [hr]
        rfl
      · rw [habove a (by omega)]
        exact hcopied.byteAt_out (hs.separate h hd hp) (by omega) (.inr (by omega))
      · exact (hcopied.holds (by omega)).congr fun i _ => habove _ (Nat.le_add_right ..)
    cases r with
    | none => exact wp_pure ⟨⟨mem', hrep'⟩, fun hf => hall hf.2.2, fun _ => rfl⟩
    | some r =>
      refine wp_pure ⟨⟨mem', hrep'⟩, fun hf => hall hf.2.2, fun hno => ?_⟩
      have hf : ¬ ArgsFit (argBytes used arg) (argc + 1) argv := fun hf => hno ⟨hlt, hfit, hf⟩
      cases hnone hf

theorem pushArgs_null (hargv : ∀ arg ∈ argv, arg.length < physTop)
    (hlong : LongArg (top + 0x2000000) used argc argv) :
    Wp (pushArgs d argv argc (top - used)) m (fun _ _ => False) fun e m' => e = .nullPte ∧
      ∃ mem, Rep I D K T (update A x (some (p.setMem mem))) m' := by
  induction argv generalizing A p m used argc with
  | nil => exact hlong.elim
  | cons arg argv ih =>
    obtain ⟨hargc, hlong⟩ := hlong
    obtain ⟨_, _, hbytes4⟩ := argBytes_spec used arg
    have harg := hargv arg mem_cons_self
    have hsize : n < 524288 := hs.size
    have htwo := hs.two
    unfold pushArgs
    rw [if_neg (Nat.not_le.2 hargc)]
    by_cases hfit : argBytes used arg ≤ 4096
    · rw [if_pos hfit] at hlong
      have hpushed : pushed (top - used) arg = top - argBytes used arg := by
        rw [pushed_eq (by omega) hused4 (by omega) (by omega) harg, if_pos (by omega)]
      apply wp_bind (pushArg_spec (E := fun _ _ => False) h hd hp hs htop hused hused4 harg
        (by omega)) fun _ _ he => he.elim
      rintro b m₁ ⟨hb, _, _, mem, hrep⟩
      rw [if_pos (hb.2 hfit), hpushed]
      refine wp_bind (ih hrep (update_self ..) (hs.setMem mem) hfit hbytes4
        (fun a ha => hargv a (mem_cons_of_mem arg ha)) hlong) ?_ fun _ _ he => he.elim
      rintro e m' ⟨he, mem', hrep'⟩
      rw [update_idem] at hrep'
      exact ⟨he, mem', hrep'⟩
    · rw [if_neg hfit] at hlong
      refine wp_bind (pushArg_null h hd hp hs htop hused hused4 harg hlong) ?_
        fun _ _ he => he.elim
      rintro e m' ⟨he, rfl⟩
      exact ⟨he, p.mem, h.same hp⟩

end

end Xv6Signals.Vm
