import Xv6Signals.Vm.ExecCall
import Xv6Signals.Vm.Isolation

namespace Xv6Signals.Vm
open Lib Function List

/-- Who can hold pages: the kernel's own page directory, the processors that were started later,
the slots of the process table, the pipes, and an address space that is being built. -/
inductive Holder
  | kernel
  | cpu (i : Nat)
  | proc (i : Fin 64)
  | pipe (i : Nat)
  | fresh
  deriving DecidableEq

section Outcome

variable {H : Type}

/-- Nothing has changed: the process, the inode, the pages in use, and which pages are free. -/
structure Restored (I : Image) (s t : ExecState) : Prop where
  inner : Inner s t
  pages : ∀ f, I.owns f → f ∉ s.vm.free → t.vm.page f = s.vm.page f
  free : t.vm.free.Perm s.vm.free

/-- The process `p` has a new address space: the pages of the old one are free, those of the
others are as they were, and no handler of the old program is left. -/
structure Replaced (D : Dirs H) (K : Wholes H) (p : H) (s t : ExecState) : Prop where
  handlers : ∀ sig, t.proc.sigHandlers sig = sigDfl ∨ t.proc.sigHandlers sig = sigIgn
  freed : ∀ z f, At s.vm D K ∅ z f → z.owner = some p → f ∈ t.vm.free
  others : ∀ f, Held s.vm D K ∅ p f → t.vm.page f = s.vm.page f ∧ f ∉ t.vm.free
  ops : t.ops = s.ops
  refs : t.refs = s.refs
  locked : t.locked = s.locked

/-- A call of `exec` that fails changes nothing, and one that succeeds gives up the old image. -/
def ExecProper (I : Image) (D : Dirs H) (K : Wholes H) (p : H) (s : ExecState)
    (path : List Byte) (found : Bool) (argv : List (List Byte)) : Prop :=
  Wp (exec I path found argv) s
    (fun r t => r = -1 ∧ Restored I s t ∨ r = 0 ∧ Replaced D K p s t) fun _ _ => False

end Outcome

variable {H : Type} [DecidableEq H] {I : Image} {D : Dirs H} {K : Wholes H}
  {A : Spaces H} {x p : H} {q : Space} {s t u : ExecState} {m m' : Frames}
  {f d n : Nat} {argv : List (List Byte)}

omit [DecidableEq H] in
theorem At.held {z : Place H} (hz : At m D K ∅ z f) (hx : D x = none) (hfree : z ≠ .free) :
    Held m D K ∅ x f := by
  refine ⟨z, hz, hfree, ?_, fun ho => ?_⟩
  · rintro rfl
    exact hz
  · obtain ⟨d, hd⟩ := hz.exists_dir ho
    rw [hx] at hd
    cases hd

omit [DecidableEq H] in
theorem Rep.held (h : Rep I D K ∅ A m) (hx : D x = none) (hf : I.owns f) (hfree : f ∉ m.free) :
    Held m D K ∅ x f := by
  obtain ⟨z, hz⟩ := (h.placed.covers f).1 hf
  apply hz.held hx
  rintro rfl
  exact hfree hz

omit [DecidableEq H] in
theorem Rep.mem_free_iff {D' : Dirs (Option Nat)} {A' : Spaces (Option Nat)}
    (h : Rep I D K ∅ A m) (hx : D x = none) (hno : ∀ z, D' z = none)
    (h' : Rep I D' (pins m D K ∅ x) ∅ A' m') : f ∈ m'.free ↔ f ∈ m.free := by
  constructor
  · intro hf
    by_contra hfree
    have howns : I.owns f := h'.placed.mem
      (show At m' D' (pins m D K ∅ x) ∅ .free f from hf)
    exact (h'.held_kept (h.held hx howns hfree)).2 hf
  · intro hf
    have hat : At m D K ∅ .free f := hf
    obtain ⟨z, hz⟩ := (h'.placed.covers f).1 (h.placed.mem hat)
    rcases hz.free_or_held hno with hfree | ⟨w, hw, hwf, _⟩
    · exact hfree
    · exact (hwf (h.placed.one hw hat)).elim

theorem At.of_kept {c : Option Nat} {z : Place H} (hx : D x = none)
    (hkept : ∀ f, Held m D K ∅ x f → m'.page f = m.page f) (hz : At m D K ∅ z f)
    (hfree : z ≠ .free) : At m' (update D x c) K ∅ z f := by
  have hD : ∀ y d, D y = some d → update D x c y = some d := by
    intro y d hd
    by_cases hy : y = x
    · subst hy
      rw [hx] at hd
      cases hd
    · rw [update_of_ne hy, hd]
  have hne : ∀ {w : Place H} {g}, At m D K ∅ w g → w ≠ .free → m'.page g = m.page g :=
    fun hw hwf => hkept _ (hw.held hx hwf)
  have hsame : ∀ y d, D y = some d → m.Same m' d := fun y d hd => Frames.same_of_page
    (hne (show At m D K ∅ (.dir y) d from hd) fun he => by cases he)
    (fun i t ht => hne (show At m D K ∅ (.table y i) t from ⟨d, hd, ht⟩) fun he => by cases he)
    (fun k e hk he => hne (show At m D K ∅ (.user y k) (frameOf e) from ⟨hk, d, e, hd, he, rfl⟩)
      fun he => by cases he)
  cases z with
  | free => exact (hfree rfl).elim
  | hand => exact hz.elim
  | page y => exact hz
  | dir y => exact hD y f hz
  | table y i =>
    obtain ⟨d, hd, ht⟩ := hz
    exact ⟨d, hD y d hd, ((hsame y d hd).tab i).trans ht⟩
  | user y k =>
    obtain ⟨hk, d, e, hd, he, hf⟩ := hz
    exact ⟨hk, d, e, hD y d hd, ((hsame y d hd).pte k).trans he, hf⟩

theorem defaultSighandlers_spec (p : Proc) (sig : Sig) :
    (defaultSighandlers p).sigHandlers sig = sigDfl ∨
      (defaultSighandlers p).sigHandlers sig = sigIgn := by
  simp only [defaultSighandlers]
  split
  · exact .inl rfl
  · rename_i hc
    by_contra hno
    exact hc (not_or.1 hno)

theorem exec_spec {path : List Byte} {found : Bool} (h : Rep I D K ∅ A s.vm) (hx : D x = none)
    (hp : D p = some s.pgdir) (hs : s.locked = false)
    (hargv : ∀ arg ∈ argv, arg.length < physTop) (hshort : ¬ LongArg 0x2002000 0 0 argv) :
    ExecProper I D K p s path found argv := by
  have hpx : p ≠ x := by
    rintro rfl
    rw [hx] at hp
    cases hp
  have hiso := h.isolate x
  have hno : ∀ z, only (D x) z = none := by
    intro z
    cases z with
    | none => exact hx
    | some f => rfl
  have hbuild : Wp (buildImage I found argv) s (fun r t => Built I D K A x s r t ∧
      Built I (only (D x)) (pins s.vm D K ∅ x) (only (A x)) none s r t)
      fun _ _ => False ∧ False :=
    (buildImage_spec h hx hs hargv hshort).and (buildImage_spec hiso (hno none) hs hargv hshort)
  apply wp_bind hbuild fun _ _ he => he.1
  rintro r t ⟨hr, hr'⟩
  cases hr with
  | failed hinner hrep =>
    cases hr' with
    | failed _ hrep' =>
      refine wp_pure (.inl ⟨rfl, hinner, fun f hf hfree => ?_, ?_⟩)
      · exact (hrep'.held_kept (h.held hx hf hfree)).1
      · apply (perm_ext_iff_of_nodup hrep.nodup h.nodup).2
        intro f
        exact h.mem_free_iff hx hno hrep'
  | @built _ q n img hinner hrep hstack hsize =>
    cases hr' with
    | built _ hrep' _ _ =>
      have hkept : ∀ f, Held s.vm D K ∅ x f → t.vm.page f = s.vm.page f := fun f hf =>
        (hrep'.held_kept hf).1
      have hpD : update D x (some img.pgdir) p = some s.pgdir := by
        rw [update_of_ne hpx, hp]
      apply wp_get_bind
      apply wp_modify_bind
      rw [hinner.pgdir]
      have hfree : Wp (freevm I s.pgdir) (t.commit path img).vm _ fun _ _ => False :=
        freevm_frees hrep hpD
      apply wp_onVm hfree fun _ _ he => he
      rintro _ m ⟨hfreed, hothers⟩
      refine wp_pure (.inr ⟨rfl, ?_, ?_, ?_, hinner.ops, hinner.refs, hinner.locked⟩)
      · exact defaultSighandlers_spec t.proc
      · intro z f hz ho
        have hzf : z ≠ .free := by
          rintro rfl
          cases ho
        have hz' : At t.vm (update D x (some img.pgdir)) K ∅ z f :=
          hz.of_kept hx hkept hzf
        exact hfreed f (hrep.placed.mem hz') (hrep.not_held hz' ho)
      · rintro f ⟨z, hz, hzf, hzh, hzp⟩
        have hz' : At t.vm (update D x (some img.pgdir)) K ∅ z f :=
          hz.of_kept hx hkept hzf
        obtain ⟨hpage, hnot⟩ := hothers f ⟨z, hz', hzf, hzh, hzp⟩
        exact ⟨hpage.trans (hkept f (hz.held hx hzf)), hnot⟩

def emptyElf : List Byte := [0x7F, 0x45, 0x4C, 0x46] ++ List.replicate 48 0

theorem emptyElf_magic : (ElfHdr.ofBytes emptyElf).magic = elfMagic := by decide

theorem emptyElf_phnum : (ElfHdr.ofBytes emptyElf).phnum = 0 := by decide

theorem buildImage_empty {Q : Option NewImage → ExecState → Prop} {E : Fault → ExecState → Prop}
    (h : Rep I D K ∅ A s.vm) (hx : D x = none) (hs : s.locked = false)
    (hreads : s.reads = [fun _ _ => some emptyElf])
    (hplenty : Plenty (insert 0 kernelTables) Space.empty 3 s.vm)
    (hgo : ∀ t d q entry, Inner s t →
      Rep I (update D x (some d)) K ∅ (update A x (some q)) t.vm →
      StackSpace I q 2 → Wp (pushStack I d 8192 entry argv) t Q E) :
    Wp (buildImage I true argv) s Q E := by
  have hrun : readi 0 52 s.opened = .ok (some emptyElf) { s.opened with reads := [] } := by
    have hopened : s.opened.reads = [fun _ _ => some emptyElf] := hreads
    unfold readi
    rw [hopened]
    rfl
  have hread : Wp (readi 0 52) s.opened
      (fun r t => r = some emptyElf ∧ t.vm = s.vm ∧ Inner s.opened t) E := by
    unfold Wp
    rw [hrun]
    exact ⟨rfl, rfl, rfl, rfl, rfl, rfl, rfl, rfl⟩
  unfold buildImage
  apply wp_modify_bind
  apply wp_modify_bind
  apply wp_seq hread
  rintro _ t ⟨rfl, hvm, ht⟩
  rw [← hvm] at h hplenty
  have hmagic : ¬ (ElfHdr.ofBytes emptyElf).magic ≠ elfMagic := not_not.2 emptyElf_magic
  have hsub : kernelTables ⊆ insert 0 kernelTables := Finset.subset_insert 0 kernelTables
  show Wp (if (ElfHdr.ofBytes emptyElf).magic ≠ elfMagic then _ else _) t _ E
  rw [if_neg hmagic]
  apply wp_onVm (setupkvm_spec (E := fun _ _ => False) h hx) fun _ _ he => he.elim
  intro r m hr
  cases hr with
  | failed _ hscarce => exact (hscarce hsub hplenty).elim
  | @made _ d hrep hplenty' =>
    have hm := hplenty' hsub hplenty
    have hclosed : Inner s (ExecState.shut { t with vm := m }) := (ht.trans (.vm t m)).close hs
    show Wp (loadSegments I d (ElfHdr.ofBytes emptyElf).phnum _ 0 >>= _) _ _ E
    rw [emptyElf_phnum]
    apply wp_pure_bind
    show Wp (buildStack I d 0 (ElfHdr.ofBytes emptyElf).entry argv)
      (ExecState.shut { t with vm := m }) _ E
    have hrep' : Rep I (update D x (some d)) K ∅
      (update A x (some (kernelSpace I))) (ExecState.shut { t with vm := m }).vm := hrep
    refine buildStack_rule hrep' (update_self ..) (update_self ..)
      (.of_kernelSpace I) ?_ ?_
    · intro m' q _ hscarce
      refine (hscarce (insert 0 kernelTables) ?_ (by decide) hm).elim
      intro j _ hj
      have hj' : j < 2 := hj
      rw [Nat.div_eq_of_lt (by omega)]
      exact Finset.mem_insert_self ..
    · intro m' q n hrep'' hstack hn
      have hn' : n = 2 := hn
      subst hn'
      rw [update_idem] at hrep''
      exact hgo _ d q _ (hclosed.trans (.vm _ m')) hrep'' hstack

/-- The frames below `n`, without those of the kernel, are free; nothing else is in use. -/
def Frames.unused (I : Image) (n : Nat) : Frames where
  page := fun _ _ => 0
  free := (List.range n).filter fun f => I.owns f
  deny := []

theorem Frames.mem_unused (hn : n * 4096 = physTop) : f ∈ (Frames.unused I n).free ↔ I.owns f := by
  show f ∈ (List.range n).filter _ ↔ _
  rw [mem_filter, mem_range, decide_eq_true_iff]
  constructor
  · exact fun hf => hf.2
  · intro hf
    have hlt : f * 4096 < physTop := hf.2
    exact ⟨by omega, hf⟩

omit [DecidableEq H] in
theorem Rep.unused (hn : n * 4096 = physTop) :
    Rep I (fun _ : H => none) (fun _ => none) ∅ (fun _ => none) (Frames.unused I n) := by
  have hat : ∀ {z : Place H} {g}, At (Frames.unused I n) (fun _ => none) (fun _ => none) ∅ z g →
      z = .free := by
    intro z g hz
    cases z with
    | free => rfl
    | hand => exact hz.elim
    | page y =>
      obtain ⟨b, hb⟩ := hz
      cases hb
    | dir y => cases hz
    | table y i =>
      obtain ⟨d, hd, _⟩ := hz
      cases hd
    | user y k =>
      obtain ⟨_, d, e, hd, _⟩ := hz
      cases hd
  refine ⟨nodup_range.filter _, ⟨?_, ?_⟩, fun _ => rfl, fun _ _ _ hk => by cases hk⟩
  · intro g z w hz hw
    rw [hat hz, hat hw]
  intro g
  rw [← Frames.mem_unused hn]
  constructor
  · intro hg
    exact ⟨.free, hg⟩
  · rintro ⟨z, hz⟩
    rw [hat hz] at hz
    exact hz

theorem Frames.length_unused (hn : n * 4096 = physTop) :
    n ≤ (Frames.unused I n).free.length + 1024 := by
  have hn' : n * 4096 = 0xE000000 := hn
  have hsplit : List.range n = List.range 1024 ++ List.range' 1024 (n - 1024) := by
    rw [range_eq_range', range_eq_range', range'_append_1,
      Nat.add_sub_cancel' (by omega)]
  have hall : (List.range' 1024 (n - 1024)).filter (fun f => I.owns f) =
      List.range' 1024 (n - 1024) := by
    apply filter_eq_self.2
    intro f hf
    obtain ⟨hlo, hhi⟩ := mem_range'_1.1 hf
    have hend := I.end_le
    exact decide_eq_true ⟨by omega, by show f * 4096 < 0xE000000; omega⟩
  show n ≤ ((List.range n).filter fun f => I.owns f).length + 1024
  rw [hsplit, filter_append, hall, length_append, length_range']
  omega

theorem exists_room (I : Image) (hxp : x ≠ p) :
    ∃ (D : Dirs H) (A : Spaces H) (m : Frames) (d : Nat), Rep I D (fun _ => none) ∅ A m ∧
      D x = none ∧ D p = some d ∧ A p = some Space.empty ∧
        Plenty (insert 0 kernelTables) Space.empty 3 m := by
  obtain ⟨n, hn⟩ : ∃ n, n * 4096 = physTop := ⟨57344, rfl⟩
  have hn' : n * 4096 = 0xE000000 := hn
  have hlen := Frames.length_unused (I := I) hn
  have hrep : Rep I (fun _ : H => none) (fun _ => none) ∅ (fun _ => none) (Frames.unused I n) :=
    Rep.unused hn
  cases hfree : (Frames.unused I n).free with
  | nil =>
    rw [hfree, length_nil] at hlen
    omega
  | cons f free =>
    have hroom : 3 + Space.empty.missing (insert 0 kernelTables) ≤ free.length := by
      have hmissing : Space.empty.missing (insert 0 kernelTables) ≤ kernelTables.card + 1 :=
        Nat.le_trans (Finset.card_filter_le ..) (Finset.card_insert_le ..)
      have hcard : kernelTables.card ≤ 64 := Finset.card_union_le ..
      rw [hfree, length_cons] at hlen
      omega
    obtain ⟨hf, htaken⟩ := hrep.take [] hfree
    exact ⟨_, _, _, f, htaken.new_dir hf (x := p) rfl (Bytes.word_zero ·),
      update_of_ne hxp .., update_self .., update_self .., rfl, hroom⟩

def Image.small : Image := ⟨0x108000, 0x115000, rfl, by decide, by decide, by decide⟩

end Xv6Signals.Vm
