import Xv6Signals.Vm.ExecRestores

namespace Xv6Signals.Vm
open Lib

/-- Bytes of the file go to a page that was free when the call began, which is then a page of the
user in the new image, and they end below the size of the image. -/
structure StoredInImage (s : ExecState) (st : FileRead) : Prop where
  fresh : st.frame ∈ s.vm.free
  page : ∃ e, st.before.pte st.dir (st.va / 4096) = some e ∧ userBit e = true ∧
    frameOf e = st.frame
  aligned : st.va % 4096 = 0
  length : st.count ≤ 4096
  below : st.va + st.count ≤ st.size
  size : st.size < kernBase

variable {H : Type} [DecidableEq H] {I : Image} {D : Dirs H} {K : Wholes H} {A : Spaces H}
  {x p : H} {s : ExecState} {f d : Nat} {st : FileRead} {argv : List (List Byte)}
  {log : List FileRead}

omit [DecidableEq H] in
theorem StoredInImage.of_proper {D' : Dirs (Option Nat)} (h : Rep I D K ∅ A s.vm)
    (hx : D x = none) (hst : st.Proper I D' (pins s.vm D K ∅ x) none) : StoredInImage s st := by
  obtain ⟨hdir, ⟨A', hrep⟩, ⟨e, he, huser, hframe⟩, haligned, hlength, hbelow, hsize⟩ := hst
  refine ⟨?_, ⟨e, he, huser, hframe⟩, haligned, hlength, hbelow, hsize⟩
  have hkb : st.size < 0x80000000 := hsize
  have hk : st.va / 4096 < 524288 := by omega
  have hat : At st.before D' (pins s.vm D K ∅ x) ∅ (.user none (st.va / 4096)) st.frame :=
    ⟨hk, st.dir, e, hdir, he, hframe⟩
  by_contra hfree
  have hpin : pins s.vm D K ∅ x (some st.frame) = some (st.frame, s.vm.page st.frame) :=
    pins_some.2 ⟨rfl, h.held hx (hrep.placed.mem hat) hfree, rfl⟩
  cases hrep.placed.one hat (show At st.before D' (pins s.vm D K ∅ x) ∅ (.page (some st.frame))
    st.frame from ⟨_, hpin⟩)

omit [DecidableEq H] in
theorem Loaded.stored {D' : Dirs (Option Nat)} {sz : Nat} (h : Rep I D K ∅ A s.vm)
    (hx : D x = none) (hlog : Loaded I D' (pins s.vm D K ∅ x) none sz log) :
    ∀ st ∈ log, StoredInImage s st :=
  fun st hst => .of_proper h hx (hlog st hst).1

/-- Where `exec` has stored bytes of the file, and how large the new image is if it commits. -/
def LoadsSafely (s : ExecState) (r : Int) (t : ExecState × List FileRead) : Prop :=
  (∀ st ∈ t.2, StoredInImage s st) ∧
    (r = 0 → t.1.proc.sz.toNat < kernBase ∧
      ∀ st ∈ t.2, st.va + st.count ≤ t.1.proc.sz.toNat)

theorem Logged.exec_spec (path : List Byte) (found : Bool) (h : Rep I D K ∅ A s.vm)
    (hx : D x = none) (hp : D p = some s.pgdir) (hs : s.locked = false)
    (hargv : ∀ arg ∈ argv, arg.length < physTop) :
    Wp (exec I path found argv) (s, []) (LoadsSafely s)
      fun e t => e = .nullPte ∧ ∀ st ∈ t.2, StoredInImage s st := by
  have hpx : p ≠ x := by
    rintro rfl
    rw [hx] at hp
    cases hp
  have hbuild : Wp (buildImage I found argv) (s, []) _ _ := buildImage_spec h hx hs hargv
  have hpinned : Wp (buildImage I found argv) (s, []) _ _ :=
    buildImage_spec (x := none) (h.isolate x) hx hs hargv
  apply wp_bind (hbuild.and hpinned)
  · rintro e t ⟨⟨⟨he, _⟩, _⟩, _, d, hlog⟩
    exact ⟨he, hlog.stored h hx⟩
  rintro r ⟨t, log⟩ ⟨⟨hb, _, _, hwithin⟩, _, ⟨d, hlog⟩, _, _⟩
  have hstored := hlog.stored h hx
  cases hb with
  | failed _ _ => exact wp_pure ⟨hstored, fun hr => by cases hr⟩
  | @built _ q n img hinner hrep hstack hsize =>
    have hpD : Function.update D x (some img.pgdir) p = some s.pgdir := by
      rw [Function.update_of_ne hpx, hp]
    have hn : n < 524288 := hstack.size
    have hsz : (BitVec.ofNat 32 img.sz : Word).toNat = img.sz := by
      rw [BitVec.toNat_ofNat, hsize]
      omega
    apply wp_ghost_get
    apply wp_modify_bind
    rw [show t.pgdir = s.pgdir from hinner.pgdir]
    have hfree : Wp (freevm I s.pgdir) (t.commit path img).vm _ fun _ _ => False :=
      freevm_spec hrep hpD
    apply wp_ghost_onVm hfree fun _ _ he => he.elim
    intro _ m _
    refine wp_pure ⟨hstored, fun _ => ?_⟩
    show (BitVec.ofNat 32 img.sz : Word).toNat < kernBase ∧
      ∀ st ∈ log, st.va + st.count ≤ (BitVec.ofNat 32 img.sz : Word).toNat
    rw [hsz]
    refine ⟨?_, fun st hst => Nat.le_trans (hstored st hst).below (hwithin img rfl st hst)⟩
    show img.sz < 0x80000000
    omega

/-- `exec` on an arbitrary file, whose bytes are whatever `readi` gives: no panic is reached, the
bytes of the file go to pages of the new image below its size, and the image ends below the
kernel. -/
theorem exec_loads_safely (I : Image) (D : Dirs Holder) (K : Wholes Holder) (A : Spaces Holder)
    (p : Fin 64) (s : ExecState) (path : List Byte) (found : Bool) (argv : List (List Byte))
    (h : Rep I D K ∅ A s.vm) (hx : D .fresh = none) (hp : D (.proc p) = some s.pgdir)
    (hs : s.locked = false) (hargv : ∀ arg ∈ argv, arg.length < physTop) :
    Erases (Logged.exec I path found argv) (exec I path found argv) ∧
      Wp (Logged.exec I path found argv) (s, []) (LoadsSafely s)
        fun e t => e = .nullPte ∧ ∀ st ∈ t.2, StoredInImage s st :=
  ⟨Logged.exec_erases I path found argv, Logged.exec_spec path found h hx hp hs hargv⟩

def smallSegment : List Byte :=
  wordsBytes [1, 84, 0, 0, 5, 4096, 7, 4096]

def oneSegmentElf : List Byte :=
  [0x7F, 0x45, 0x4C, 0x46] ++ List.replicate 24 0 ++ [52, 0, 0, 0] ++ List.replicate 12 0 ++
    [1, 0] ++ List.replicate 6 0

theorem exec_loads_small :
    ∃ (D : Dirs Holder) (A : Spaces Holder) (s : ExecState),
      Rep .small D (fun _ => none) ∅ A s.vm ∧ D .fresh = none ∧ D (.proc 0) = some s.pgdir ∧
        s.locked = false ∧
        s.reads = [fun _ _ => some oneSegmentElf, fun _ _ => some smallSegment,
          fun _ _ => some [1, 2, 3, 4, 5]] ∧
        Erases (Logged.exec .small [] true [[104, 105]]) (exec .small [] true [[104, 105]]) ∧
        Wp (Logged.exec .small [] true [[104, 105]]) (s, []) (LoadsSafely s)
          fun e t => e = .nullPte ∧ ∀ st ∈ t.2, StoredInImage s st := by
  have hne : Holder.fresh ≠ Holder.proc 0 := fun he => by cases he
  obtain ⟨D, A, m, d, hrep, hx, hp, _, _⟩ := exists_room .small hne
  refine ⟨D, A, ⟨m, Proc.empty, d, [], 0, 0, false, [fun _ _ => some oneSegmentElf,
    fun _ _ => some smallSegment, fun _ _ => some [1, 2, 3, 4, 5]]⟩, hrep, hx, hp, rfl, rfl, ?_⟩
  exact exec_loads_safely .small D _ A 0 _ [] true [[104, 105]] hrep hx hp rfl (by decide)

end Xv6Signals.Vm
