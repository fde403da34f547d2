import Xv6Signals.Lib.Wp
import Xv6Signals.Syscall

namespace Xv6Signals.Args
open Lib List

/-- The addresses of user memory that the kernel has read, and its stores into the array `argv` of
`sys_exec`, each with the index. -/
structure Access where
  reads : List Word
  stores : List (Nat × Word)

abbrev ArgM := EStateM Unit Access

def readByte (p : Proc) (a : Word) : ArgM Byte := do
  modify fun s => { s with reads := a :: s.reads }
  pure (p.mem a)

def readWord (p : Proc) (a : Word) : ArgM Word := do
  modify fun s => { s with reads := a :: (a + 1) :: (a + 2) :: (a + 3) :: s.reads }
  pure (p.mem.loadWord a)

def fetchint (p : Proc) (addr : Word) : ArgM Word :=
  if p.sz ≤ addr ∨ p.sz < addr + 4 then throw () else readWord p addr

theorem toNat_succ {s ep : Word} (h : s < ep) : (s + 1).toNat = s.toNat + 1 := by
  bv_omega

def strLoop (p : Proc) (start s : Word) : ArgM Nat :=
  if h : s < p.sz then do
    if (← readByte p s) = 0 then pure (s - start).toNat else strLoop p start (s + 1)
  else throw ()
termination_by p.sz.toNat - s.toNat
decreasing_by
  have hs := toNat_succ h
  have hlt := BitVec.lt_def.1 h
  omega

/-- The length of the string; the pointer that is handed on is `addr` itself. -/
def fetchstr (p : Proc) (addr : Word) : ArgM Nat :=
  if p.sz ≤ addr then throw () else strLoop p addr addr

def argint (p : Proc) (n : Word) : ArgM Word := fetchint p (p.tf.esp + 4 + 4 * n)

def argptr (p : Proc) (n size : Word) : ArgM Word := do
  let i ← argint p n
  if size.toInt < 0 ∨ p.sz ≤ i ∨ p.sz < i + size then throw () else pure i

def argstr (p : Proc) (n : Word) : ArgM (Word × Nat) := do
  let addr ← argint p n
  let len ← fetchstr p addr
  pure (addr, len)

def maxArg : Nat := 32

def storeArg (i : Nat) (v : Word) : ArgM Unit :=
  modify fun s => { s with stores := (i, v) :: s.stores }

def execLoop (p : Proc) (uargv : Word) (i : Nat) : ArgM (List Word) :=
  if maxArg ≤ i then throw ()
  else do
    let uarg ← fetchint p (uargv + 4 * BitVec.ofNat 32 i)
    if uarg = 0 then
      storeArg i 0
      pure []
    else
      let _ ← fetchstr p uarg
      storeArg i uarg
      let rest ← execLoop p uargv (i + 1)
      pure (uarg :: rest)
termination_by maxArg - i
decreasing_by
  omega

def sysExec (p : Proc) : ArgM (Word × List Word) := do
  let (path, _) ← argstr p 0
  let uargv ← argint p 1
  (List.range maxArg).forM fun i => storeArg i 0
  let argv ← execLoop p uargv 0
  pure (path, argv)

variable {p : Proc} {s t : Access} {a b addr n size : Word} {i len : Nat}
  {α : Type} {Q Q' : α → Prop} {x : ArgM α}

structure Confined (p : Proc) (s : Access) : Prop where
  reads : ∀ a ∈ s.reads, a.toNat < p.sz.toNat
  stores : ∀ e ∈ s.stores, e.1 < maxArg

def Safe (p : Proc) (x : ArgM α) (Q : α → Prop) : Prop :=
  ∀ s, Confined p s → Wp x s (fun v t => Confined p t ∧ Q v) fun _ t => Confined p t

theorem Safe.mono (h : Safe p x Q) (hQ : ∀ v, Q v → Q' v) : Safe p x Q' :=
  fun s hs => (h s hs).post (fun v _ ht => ⟨ht.1, hQ v ht.2⟩)

theorem safe_pure {v : α} (h : Q v) : Safe p (pure v : ArgM α) Q := fun _ hs => wp_pure ⟨hs, h⟩

theorem safe_throw : Safe p (throw () : ArgM α) Q := fun _ hs => wp_throw hs

theorem Safe.bind {β : Type} {f : α → ArgM β} {R : β → Prop} (h : Safe p x Q)
    (hf : ∀ v, Q v → Safe p (f v) R) : Safe p (x >>= f) R := by
  intro s hs
  refine wp_seq (h s hs) ?_
  rintro v t ⟨ht, hv⟩
  exact hf v hv t ht

theorem safe_readByte (ha : a.toNat < p.sz.toNat) : Safe p (readByte p a) (· = p.mem a) := by
  intro s hs
  refine ⟨⟨fun b hb => ?_, hs.stores⟩, rfl⟩
  rcases mem_cons.1 hb with rfl | hb
  · exact ha
  · exact hs.reads b hb

theorem safe_readWord (ha : a.toNat + 4 ≤ p.sz.toNat) :
    Safe p (readWord p a) (· = p.mem.loadWord a) := by
  intro s hs
  have hsz := p.sz.isLt
  refine ⟨⟨fun b hb => ?_, hs.stores⟩, rfl⟩
  rcases mem_cons.1 hb with rfl | hb
  · omega
  rcases mem_cons.1 hb with rfl | hb
  · bv_omega
  rcases mem_cons.1 hb with rfl | hb
  · bv_omega
  rcases mem_cons.1 hb with rfl | hb
  · bv_omega
  exact hs.reads b hb

theorem safe_storeArg {v : Word} (hi : i < maxArg) : Safe p (storeArg i v) fun _ => True := by
  intro s hs
  refine ⟨⟨hs.reads, fun e he => ?_⟩, trivial⟩
  rcases mem_cons.1 he with rfl | he
  · exact hi
  · exact hs.stores e he

structure StringAt (p : Proc) (addr : Word) (len : Nat) : Prop where
  inside : addr.toNat + len < p.sz.toNat
  nul : p.mem (addr + BitVec.ofNat 32 len) = 0
  first : ∀ i, i < len → p.mem (addr + BitVec.ofNat 32 i) ≠ 0

theorem safe_strLoop (hb : b.toNat = addr.toNat + i)
    (hfirst : ∀ j, j < i → p.mem (addr + BitVec.ofNat 32 j) ≠ 0) :
    Safe p (strLoop p addr b) (StringAt p addr) := by
  have hbi : b = addr + BitVec.ofNat 32 i := by
    apply BitVec.eq_of_toNat_eq
    have := b.isLt
    rw [BitVec.toNat_add, BitVec.toNat_ofNat]
    omega
  induction hn : p.sz.toNat - b.toNat generalizing b i with
  | zero =>
    rw [strLoop, dif_neg (by rw [BitVec.lt_def]; omega)]
    exact safe_throw
  | succ n ih =>
    have hlt : b < p.sz := BitVec.lt_def.2 (by omega)
    rw [strLoop, dif_pos hlt]
    refine (safe_readByte (BitVec.lt_def.1 hlt)).bind ?_
    rintro _ rfl
    split
    · rename_i hnul
      have hlen : (b - addr).toNat = i := by
        have := b.isLt
        rw [BitVec.toNat_sub]
        omega
      rw [hlen]
      refine safe_pure ⟨?_, hbi ▸ hnul, hfirst⟩
      have := BitVec.lt_def.1 hlt
      omega
    · rename_i hchar
      have hnext := toNat_succ hlt
      refine ih (i := i + 1) (by omega) (fun j hj => ?_) ?_ (by omega)
      · rcases Nat.lt_succ_iff_lt_or_eq.1 hj with hj | rfl
        · exact hfirst j hj
        · exact hbi ▸ hchar
      · rw [hbi, BitVec.add_assoc]
        congr 1
        rw [BitVec.ofNat_add]
        rfl

theorem safe_fetchstr (p : Proc) (addr : Word) : Safe p (fetchstr p addr) (StringAt p addr) := by
  unfold fetchstr
  split
  · exact safe_throw
  · exact safe_strLoop rfl fun j hj => (Nat.not_lt_zero j hj).elim

section Sizes

variable (hsz : p.sz.toNat ≤ kernBase)
include hsz

theorem fetchint_check (h : ¬ (p.sz ≤ addr ∨ p.sz < addr + 4)) : addr.toNat + 4 ≤ p.sz.toNat := by
  have hk : p.sz.toNat ≤ 0x80000000 := hsz
  rw [not_or, BitVec.not_le, BitVec.not_lt, BitVec.lt_def, BitVec.le_def, BitVec.toNat_add] at h
  have h4 : (4 : Word).toNat = 4 := rfl
  omega

theorem argptr_check (h : ¬ (size.toInt < 0 ∨ p.sz ≤ a ∨ p.sz < a + size)) :
    a.toNat + size.toNat ≤ p.sz.toNat := by
  have hk : p.sz.toNat ≤ 0x80000000 := hsz
  rw [not_or, not_or, BitVec.not_le, BitVec.not_lt, BitVec.lt_def, BitVec.le_def,
    BitVec.toNat_add] at h
  have hcond := BitVec.toInt_eq_toNat_cond size
  split at hcond <;> omega

theorem safe_fetchint (addr : Word) :
    Safe p (fetchint p addr) fun v => Xv6Signals.fetchint p addr = some v := by
  unfold fetchint Xv6Signals.fetchint
  split
  · exact safe_throw
  · rename_i h
    exact (safe_readWord (fetchint_check hsz h)).mono fun v hv => congrArg some hv.symm

theorem safe_argint (n : Word) : Safe p (argint p n) fun v => Xv6Signals.argint p n = some v :=
  safe_fetchint hsz _

theorem safe_argptr (n size : Word) : Safe p (argptr p n size) fun a =>
    Xv6Signals.argptr p n size = some a ∧ a.toNat + size.toNat ≤ p.sz.toNat := by
  refine (safe_argint hsz n).bind fun i hi => ?_
  unfold Xv6Signals.argptr
  rw [hi]
  split
  · exact safe_throw
  · rename_i h
    exact safe_pure ⟨if_neg h, argptr_check hsz h⟩

theorem safe_argstr (n : Word) : Safe p (argstr p n) fun r => StringAt p r.1 r.2 := by
  refine (safe_argint hsz n).bind fun addr _ => ?_
  refine (safe_fetchstr p addr).bind fun len hlen => ?_
  exact safe_pure hlen

/-- Round after round the loop stores inside `argv`, and only pointers to strings below `sz`. -/
theorem safe_execLoop (uargv : Word) (i : Nat) :
    Safe p (execLoop p uargv i) fun argv => ∀ a ∈ argv, ∃ len, StringAt p a len := by
  induction hn : maxArg - i generalizing i with
  | zero =>
    rw [execLoop, if_pos (by omega)]
    exact safe_throw
  | succ n ih =>
    have hi : i < maxArg := by omega
    rw [execLoop, if_neg (Nat.not_le.2 hi)]
    refine (safe_fetchint hsz _).bind fun uarg _ => ?_
    split
    · refine (safe_storeArg hi).bind fun _ _ => safe_pure fun a ha => ?_
      cases ha
    refine (safe_fetchstr p uarg).bind fun len hlen => ?_
    refine (safe_storeArg hi).bind fun _ _ => ?_
    refine (ih (i + 1) (by omega)).bind fun rest hrest => ?_
    refine safe_pure fun a ha => ?_
    rcases mem_cons.1 ha with rfl | ha
    · exact ⟨len, hlen⟩
    · exact hrest a ha

end Sizes

theorem safe_clearArgs (l : List Nat) (hl : ∀ i ∈ l, i < maxArg) :
    Safe p (l.forM fun i => storeArg i 0) fun _ => True := by
  induction l with
  | nil => exact safe_pure trivial
  | cons i l ih =>
    show Safe p (storeArg i 0 >>= fun _ => l.forM fun i => storeArg i 0) _
    refine (safe_storeArg (hl i (mem_cons_self ..))).bind fun _ _ => ?_
    exact ih fun j hj => hl j (mem_cons_of_mem i hj)

theorem safe_sysExec (hsz : p.sz.toNat ≤ kernBase) : Safe p (sysExec p) fun r =>
    (∃ len, StringAt p r.1 len) ∧ ∀ a ∈ r.2, ∃ len, StringAt p a len := by
  refine (safe_argstr hsz 0).bind fun r hr => ?_
  refine (safe_argint hsz 1).bind fun uargv _ => ?_
  refine (safe_clearArgs _ fun i hi => mem_range.1 hi).bind fun _ _ => ?_
  refine (safe_execLoop hsz uargv 0).bind fun argv hargv => ?_
  exact safe_pure ⟨⟨r.2, hr⟩, hargv⟩

/-- The argument functions read, and hand on, only bytes below `sz`, for every frame, memory and
argument. -/
theorem args_below_sz (p : Proc) (hsz : p.sz.toNat ≤ kernBase) :
    (∀ addr, Safe p (fetchint p addr) fun v => Xv6Signals.fetchint p addr = some v) ∧
    (∀ n, Safe p (argint p n) fun v => Xv6Signals.argint p n = some v) ∧
    (∀ n size, Safe p (argptr p n size) fun a =>
      Xv6Signals.argptr p n size = some a ∧ a.toNat + size.toNat ≤ p.sz.toNat) ∧
    (∀ addr, Safe p (fetchstr p addr) (StringAt p addr)) ∧
    (∀ n, Safe p (argstr p n) fun r => StringAt p r.1 r.2) ∧
    Safe p (sysExec p) fun r =>
      (∃ len, StringAt p r.1 len) ∧ ∀ a ∈ r.2, ∃ len, StringAt p a len :=
  ⟨safe_fetchint hsz, safe_argint hsz, safe_argptr hsz, safe_fetchstr p, safe_argstr hsz,
    safe_sysExec hsz⟩

theorem args_below_sz_zeros : ∃ t, argptr { Proc.empty with sz := 0x2000 } 0 16 ⟨[], []⟩ = .ok 0 t ∧
    t.reads = [4, 5, 6, 7] ∧ Confined { Proc.empty with sz := 0x2000 } t := by
  have hstart : Confined { Proc.empty with sz := 0x2000 } ⟨[], []⟩ :=
    ⟨fun _ ha => (List.not_mem_nil ha).elim, fun _ he => (List.not_mem_nil he).elim⟩
  have hsafe := (args_below_sz { Proc.empty with sz := 0x2000 } (by decide)).2.2.1 0 16 _ hstart
  exact ⟨_, rfl, rfl, hsafe.1⟩

end Xv6Signals.Args
