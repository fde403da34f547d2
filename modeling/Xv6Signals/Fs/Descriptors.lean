import Xv6Signals.Fs.FileRefs

namespace Xv6Signals
open Lib Function Option List

variable {sb : Superblock} {s t u : Sys} {fs : Fs} {ip jp : Slot} {I : Slot → Nat}
  {F : FileSlot → Nat} {L : Finset Slot} {f g : FileSlot} {p : ProcSlot} {x y : ProcFiles}
  {pg : Nat} {w : Bool} {M : FsInv} {A : Slot → SysCall → Fs → Prop} {E : FsPanic → Prop}
  {fd : Fin 16} {proc : ProcSlot → Option ProcFiles} {page : Option Nat} {n : Int}
  {path : List Byte} {src : List Byte}

def Accounted (M : FsInv) (s : Sys) : Prop := Tables M (fdCount s.proc) (cwdCount s.proc) ∅ s

theorem fdCount_update (proc : ProcSlot → Option ProcFiles) (p : ProcSlot) (o : Option ProcFiles)
    (f : FileSlot) :
    fdCount (update proc p o) f + ((proc p).map fun x => x.fdCount f).getD 0 =
      fdCount proc f + (o.map fun x => x.fdCount f).getD 0 := by
  have hfun : (fun q => ((update proc p o q).map fun x => x.fdCount f).getD 0) =
      update (fun q => ((proc q).map fun x => x.fdCount f).getD 0) p
        ((o.map fun x => x.fdCount f).getD 0) := by
    funext q
    by_cases hq : q = p
    · subst hq
      simp only [update_self]
    · simp only [update_of_ne hq]
  unfold fdCount
  rw [hfun]
  exact sum_update _ _ _

theorem cwdCount_update (proc : ProcSlot → Option ProcFiles) (p : ProcSlot) (o : Option ProcFiles)
    (ip : Slot) :
    cwdCount (update proc p o) ip + ((proc p).map fun x => if x.cwd = ip then 1 else 0).getD 0 =
      cwdCount proc ip + (o.map fun x => if x.cwd = ip then 1 else 0).getD 0 := by
  have hfun : (fun q => ((update proc p o q).map fun x => if x.cwd = ip then 1 else 0).getD 0)
      = update (fun q => ((proc q).map fun x => if x.cwd = ip then 1 else 0).getD 0) p
        ((o.map fun x => if x.cwd = ip then 1 else 0).getD 0) := by
    funext q
    by_cases hq : q = p
    · subst hq
      simp only [update_self]
    · simp only [update_of_ne hq]
  unfold cwdCount
  rw [hfun]
  exact sum_update _ _ _

theorem fdCount_setFd (x : ProcFiles) (fd : Fin 16) (o : Option FileSlot) (f : FileSlot) :
    (x.setFd fd o).fdCount f + (if x.ofile fd = some f then 1 else 0) =
      x.fdCount f + if o = some f then 1 else 0 := by
  have hfun : (fun d => if (x.setFd fd o).ofile d = some f then 1 else 0) =
      update (fun d => if x.ofile d = some f then 1 else 0) fd
        (if o = some f then 1 else 0) := by
    funext d
    unfold ProcFiles.setFd
    by_cases hd : d = fd
    · subst hd
      simp only [update_self]
    · simp only [update_of_ne hd]
  unfold ProcFiles.fdCount
  rw [hfun]
  exact sum_update _ _ _

theorem fdCount_give (hp : proc p = some x) (hfd : x.ofile fd = none) (f : FileSlot) :
    fdCount (update proc p (some (x.setFd fd (some f)))) = addFile (fdCount proc) f := by
  funext g
  have h := fdCount_update proc p (some (x.setFd fd (some f))) g
  have h' := fdCount_setFd x fd (some f) g
  simp only [hp, hfd, map_some, getD_some, reduceCtorEq, if_false, Nat.add_zero,
    Option.some.injEq] at h h'
  by_cases hg : g = f
  · subst hg
    rw [if_pos rfl] at h'
    rw [addFile_self]
    omega
  · rw [if_neg fun he => hg he.symm, Nat.add_zero] at h'
    rw [addFile_of_ne hg]
    omega

theorem fdCount_take (hp : proc p = some x) (hfd : x.ofile fd = some f) :
    fdCount proc = addFile (fdCount (update proc p (some (x.setFd fd none)))) f := by
  funext g
  have h := fdCount_update proc p (some (x.setFd fd none)) g
  have h' := fdCount_setFd x fd none g
  simp only [hp, hfd, map_some, getD_some, reduceCtorEq, if_false, Nat.add_zero,
    Option.some.injEq] at h h'
  by_cases hg : g = f
  · subst hg
    rw [if_pos rfl] at h'
    rw [addFile_self]
    omega
  · rw [if_neg fun he => hg he.symm, Nat.add_zero] at h'
    rw [addFile_of_ne hg]
    omega

theorem cwdCount_same (hp : proc p = some x) (hcwd : y.cwd = x.cwd) :
    cwdCount (update proc p (some y)) = cwdCount proc := by
  funext ip
  have h := cwdCount_update proc p (some y) ip
  simp only [hp, map_some, getD_some, hcwd] at h
  omega

theorem cwdCount_leave (hp : proc p = some x) :
    cwdCount proc = addRef (cwdCount (update proc p none)) x.cwd := by
  funext ip
  have h := cwdCount_update proc p none ip
  simp only [hp, map_some, getD_some, map_none, getD_none,
    Nat.add_zero] at h
  by_cases hip : ip = x.cwd
  · subst hip
    rw [if_pos rfl] at h
    rw [addRef_self]
    omega
  · rw [if_neg fun he => hip he.symm] at h
    rw [addRef_of_ne hip]
    omega

theorem cwdCount_enter (hp : proc p = none) :
    cwdCount (update proc p (some x)) = addRef (cwdCount proc) x.cwd := by
  funext ip
  have h := cwdCount_update proc p (some x) ip
  simp only [hp, map_some, getD_some, map_none, getD_none,
    Nat.add_zero] at h
  by_cases hip : ip = x.cwd
  · subst hip
    rw [if_pos rfl] at h
    rw [addRef_self]
    omega
  · rw [if_neg fun he => hip he.symm] at h
    rw [addRef_of_ne hip]
    omega

theorem cwdCount_pos (hp : proc p = some x) : 0 < cwdCount proc x.cwd := by
  rw [cwdCount_leave hp, addRef_self]
  omega

theorem Tables.setProc (h : Tables M F I L s) (p : ProcSlot) (o : Option ProcFiles) :
    Tables M F I L (s.setProc p o) :=
  ⟨h.ref, h.idle, h.inodes, h.opened, h.ends⟩

theorem Tables.openFile {e : File} (h : Tables M F (addRef I ip) L s) (hk : (s.file f).kind = .none)
    (hf : 0 < F f) (hek : e.kind = .inode) (hei : e.ip = ip) (her : e.ref = (s.file f).ref)
    (hopen : M.opened ip e.writable s.fs) : Tables M F I L (s.setFile f e) := by
  constructor
  · intro g
    by_cases hg : g = f
    · subst hg
      simp only [Sys.setFile, update_self, her, h.ref]
    · simp only [Sys.setFile, update_of_ne hg, h.ref]
  · intro g hz
    have hg : g ≠ f := by
      rintro rfl
      omega
    simp only [Sys.setFile, update_of_ne hg]
    exact h.idle g hz
  · have hcount : fileCount (update s.file f e) = addRef (fileCount s.file) ip := by
      funext jp
      have hu := fileCount_update s.file f e jp
      simp only [hk, hek, hei, reduceCtorEq, false_and, if_false, true_and, Nat.add_zero] at hu
      by_cases hj : jp = ip
      · subst hj
        rw [if_pos rfl] at hu
        rw [addRef_self, hu]
      · rw [if_neg fun he => hj he.symm, Nat.add_zero] at hu
        rw [addRef_of_ne hj, hu]
    have hin := h.inodes
    rw [addRef_add] at hin
    show M.inv (fun jp => I jp + fileCount (update s.file f e) jp) L s.fs
    rw [hcount]
    simp only [Nat.add_comm (I _)]
    rw [addRef_add]
    simpa only [Nat.add_comm _ (I _)] using hin
  · intro g hg
    by_cases hgf : g = f
    · subst hgf
      simp only [Sys.setFile, update_self, hei]
      exact hopen
    · simp only [Sys.setFile, update_of_ne hgf] at hg ⊢
      exact h.opened g hg
  · apply h.ends.congr
    apply hasEnd_of_ne
    · rw [hk]
      decide
    · rw [hek]
      decide

theorem fdalloc_ends (s : Sys) (p : ProcSlot) (x : ProcFiles) (f : FileSlot) :
    Ends E (fdalloc p x f) s fun r t =>
      match r with
      | none => t = s
      | some fd => x.ofile fd = none ∧ t = s.setProc p (some (x.setFd fd (some f))) := by
  unfold fdalloc
  split
  · rename_i fd hfd
    apply wp_modify_bind
    refine wp_pure ⟨?_, rfl⟩
    have h := find?_some hfd
    simpa using h
  · exact wp_pure rfl

theorem openFull_counted (hM : M.Kept sb A E)
    (h : Tables M (fdCount s.proc) (addRef (cwdCount s.proc) ip) {ip} s) :
    Ends E (openFull sb ip) s fun _ t => Accounted M t := by
  have hin := h.inodes
  rw [addRef_add] at hin
  apply ends_bind (ends_lift (hM.iunlockput hin))
  rintro _ _ ⟨fs, rfl, hm, hs⟩
  exact wp_pure (h.lift hm hs fun ip => Nat.le_add_left _ _)

theorem counted_give (h : Tables M (addFile (fdCount s.proc) f) (cwdCount s.proc) ∅ t)
    (hp : s.proc p = some x) (hfd : x.ofile fd = none)
    (ht : t.proc = update s.proc p (some (x.setFd fd (some f)))) : Accounted M t := by
  unfold Accounted
  rw [ht, fdCount_give hp hfd, cwdCount_same (y := x.setFd fd (some f)) hp rfl]
  exact h

theorem sysOpen_counted {omode : Word} (hM : M.Kept sb A E) (h : Accounted M s)
    (hp : s.proc p = some x) (hA : A x.cwd (.open path omode) s.fs) :
    Ends E (sysOpen sb p x path omode) s fun _ t => Accounted M t := by
  have hle (jp : Slot) : fileCount s.file jp ≤ cwdCount s.proc jp + fileCount s.file jp :=
    Nat.le_add_left _ _
  apply ends_bind (ends_lift (hM.openInode h.inodes (Nat.add_pos_left (cwdCount_pos hp) _) hA))
  rintro r _ ⟨fs₁, rfl, hs, hm⟩
  cases r with
  | none => exact wp_pure (h.lift hm hs hle)
  | some ip =>
    obtain ⟨hm, hopen⟩ : M.inv (addRef (fun jp => cwdCount s.proc jp + fileCount s.file jp) ip) {ip}
      fs₁ ∧ M.opened ip (opensForWrite omode) fs₁ := hm
    rw [← addRef_add] at hm
    have h₁ : Tables M (fdCount s.proc) (addRef (cwdCount s.proc) ip) {ip} { s with fs := fs₁ } :=
      h.lift hm hs hle
    apply ends_bind (filealloc_tables h₁)
    rintro r t₂ ⟨hr, hkinds, hproc₂, hfs₂, -⟩
    have hproc₂ : t₂.proc = s.proc := hproc₂
    cases r with
    | none =>
      subst hr
      exact openFull_counted hM h₁
    | some f =>
      obtain ⟨hkind, -, h₂⟩ := hr
      have hkind : (t₂.file f).kind = .none := (hkinds f).trans hkind
      rw [← hproc₂] at h₂ hp
      apply ends_bind (fdalloc_ends t₂ p x f)
      intro r t₃ hr
      cases r with
      | none =>
        subst hr
        apply ends_bind (fileclose_tables hM h₂)
        rintro _ t₄ ⟨h₄, hproc₄⟩
        apply openFull_counted hM
        rw [hproc₄]
        exact h₄
      | some fd =>
        obtain ⟨hfd, rfl⟩ := hr
        have h₃ := h₂.setProc p (some (x.setFd fd (some f)))
        apply ends_bind (ends_lift (hM.iunlock h₃.inodes))
        rintro _ _ ⟨fs₄, rfl, hm₄, hs₄⟩
        apply wp_modify_bind
        apply wp_pure
        have h₄ := h₃.lift hm₄ hs₄ fun jp => Nat.le_add_left _ _
        refine counted_give (h₄.openFile hkind ?_ rfl rfl rfl ?_) hp hfd rfl
        · rw [addFile_self]
          omega
        refine hs₄ ip _ ?_ ?_
        · show 0 < addRef (cwdCount t₂.proc) ip ip + _
          rw [addRef_self]
          omega
        · show M.opened ip _ t₂.fs
          rw [hfs₂]
          exact hopen

theorem argfd_some (h : x.argfd n = some (fd, f)) : x.ofile fd = some f := by
  unfold ProcFiles.argfd at h
  split at h
  · obtain ⟨g, hg, he⟩ := map_eq_some_iff.1 h
    cases he
    exact hg
  · cases h

theorem sysDup_counted (h : Accounted M s) (hp : s.proc p = some x) :
    Ends E (sysDup p x n) s fun _ t => Accounted M t := by
  unfold sysDup
  split
  · exact wp_pure h
  rename_i f _
  apply ends_bind (fdalloc_ends s p x f)
  intro r t hr
  cases r with
  | none =>
    subst hr
    exact wp_pure h
  | some fd =>
    obtain ⟨hfd, rfl⟩ := hr
    apply ends_bind (filedup_tables (h.setProc p (some (x.setFd fd (some f)))))
    rintro _ t ⟨ht, hproc⟩
    exact wp_pure (counted_give ht hp hfd hproc)

theorem sysClose_counted (hM : M.Kept sb A E) (h : Accounted M s) (hp : s.proc p = some x) :
    Ends E (sysClose sb p x n) s fun _ t => Accounted M t := by
  unfold sysClose
  split
  · exact wp_pure h
  rename_i fd f harg
  apply wp_modify_bind
  have h₁ := h.setProc p (some (x.setFd fd none))
  rw [fdCount_take hp (argfd_some harg)] at h₁
  apply ends_bind (fileclose_tables hM h₁)
  rintro _ t ⟨ht, hproc⟩
  refine wp_pure ?_
  unfold Accounted
  rw [hproc]
  show Tables M _ (cwdCount (update s.proc p (some (x.setFd fd none)))) ∅ t
  rw [cwdCount_same (y := x.setFd fd none) hp rfl]
  exact ht

theorem filewriteLoop_tables {fuel : Nat} (hM : M.Kept sb A E)
    (h : Tables M F I ∅ s) (hk : (s.file f).kind = .inode) (hw : (s.file f).writable = true) :
    Ends E (filewriteLoop sb f fuel src) s fun _ t => Tables M F I ∅ t ∧ t.proc = s.proc := by
  induction fuel generalizing s src with
  | zero => exact wp_pure ⟨h, rfl⟩
  | succ fuel ih =>
    apply wp_ite
    · exact fun _ => wp_pure ⟨h, rfl⟩
    intro _
    apply wp_get_bind
    have hopen := h.opened f hk
    rw [hw] at hopen
    refine ends_bind (ends_lift (hM.writeChunk h.inodes ?_ hopen ?_)) ?_
    · exact Nat.add_pos_right _ (fileCount_pos hk)
    · rw [length_take]
      omega
    rintro r _ ⟨fs, rfl, hm, hs⟩
    have h₁ := h.lift hm hs fun jp => Nat.le_add_left _ _
    apply wp_ite
    · exact fun _ => wp_pure ⟨h₁, rfl⟩
    intro _
    apply wp_modify_bind
    apply wp_ite
    · exact fun _ => ends_throw trivial
    intro _
    apply ih
    · exact h₁.setRef rfl rfl rfl rfl (h₁.ref f) (h₁.idle f) fun _ _ => rfl
    · simpa only [Sys.setFile, update_self] using hk
    · simpa only [Sys.setFile, update_self] using hw

theorem sysWrite_counted {piped : Int} (hM : M.Kept sb A E)
    (h : Accounted M s) : Ends E (sysWrite sb x n src piped) s fun _ t => Accounted M t := by
  unfold sysWrite
  split
  · exact wp_pure h
  apply wp_get_bind
  apply wp_ite
  · exact fun _ => wp_pure h
  intro hw
  split
  · exact wp_pure h
  · exact ends_throw trivial
  rename_i hk
  apply ends_bind (filewriteLoop_tables hM h hk (Bool.eq_true_of_not_eq_false hw))
  rintro _ t ⟨ht, hproc⟩
  refine wp_pure ?_
  unfold Accounted
  rw [hproc]
  exact ht

theorem sysCd_counted (hM : M.Kept sb A E) (h : Accounted M s)
    (hp : s.proc p = some x) (hA : A x.cwd (.chdir path) s.fs) :
    Ends E (sysCd sb p x path) s fun _ t => Accounted M t := by
  have hin := h.inodes
  rw [cwdCount_leave hp, addRef_add] at hin
  apply ends_bind (ends_lift (hM.sysChdir hin hA))
  rintro r _ ⟨fs, rfl, hs, hm⟩
  cases r with
  | none =>
    refine wp_pure (h.lift ?_ hs fun jp => Nat.le_add_left _ _)
    rw [cwdCount_leave hp, addRef_add]
    exact hm
  | some ip =>
    apply wp_modify_bind
    apply wp_pure
    have hm : M.inv (addRef (fun jp => cwdCount (update s.proc p none) jp +
      fileCount s.file jp) ip) ∅ fs := hm
    have hproc : update s.proc p (some { x with cwd := ip }) =
        update (update s.proc p none) p (some { x with cwd := ip }) :=
      (update_idem ..).symm
    have hfd : fdCount (update s.proc p (some { x with cwd := ip })) = fdCount s.proc := by
      funext f
      have hu := fdCount_update s.proc p (some { x with cwd := ip }) f
      simp only [hp, map_some, getD_some] at hu
      exact Nat.add_right_cancel hu
    show Tables M (fdCount (update s.proc p (some { x with cwd := ip })))
      (cwdCount (update s.proc p (some { x with cwd := ip }))) ∅ _
    rw [hfd, hproc, cwdCount_enter (x := { x with cwd := ip }) (update_self ..)]
    rw [← addRef_add] at hm
    exact (h.lift hm hs fun jp => Nat.le_add_left _ _).setProc p _

theorem Piped.create {file file' : FileSlot → File} {pipe : Nat → Option PipeEnds}
    (h : Piped file pipe) (hpg : pipe pg = none) (hne : f ≠ g)
    (hf : HasEnd file' f pg false) (hg : HasEnd file' g pg true)
    (hkf : (file f).kind = .none) (hkg : (file g).kind = .none)
    (hother : ∀ i, i ≠ f → i ≠ g → file' i = file i) :
    Piped file' (update pipe pg (some ⟨true, true⟩)) := by
  have hold (i : FileSlot) (pg' : Nat) (w : Bool) (hi : HasEnd file i pg' w) :
      i ≠ f ∧ i ≠ g ∧ pg' ≠ pg := by
    refine ⟨?_, ?_, ?_⟩
    · rintro rfl
      cases hkf.symm.trans hi.1
    · rintro rfl
      cases hkg.symm.trans hi.1
    · rintro rfl
      obtain ⟨e, he⟩ := h.alive i pg' w hi
      cases hpg.symm.trans he
  have hend (i : FileSlot) (pg' : Nat) (w : Bool) : HasEnd file' i pg' w ↔
      HasEnd file i pg' w ∨ pg' = pg ∧ i = if w then g else f := by
    constructor
    · intro hi
      by_cases hif : i = f
      · subst hif
        obtain rfl : pg = pg' := hf.2.1.symm.trans hi.2.1
        obtain rfl : false = w := hf.2.2.symm.trans hi.2.2
        exact .inr ⟨rfl, rfl⟩
      by_cases hig : i = g
      · subst hig
        obtain rfl : pg = pg' := hg.2.1.symm.trans hi.2.1
        obtain rfl : true = w := hg.2.2.symm.trans hi.2.2
        exact .inr ⟨rfl, rfl⟩
      · rw [HasEnd, hother i hif hig] at hi
        exact .inl hi
    · rintro (hi | ⟨rfl, rfl⟩)
      · obtain ⟨hif, hig, -⟩ := hold i pg' w hi
        rw [HasEnd, hother i hif hig]
        exact hi
      · cases w with
        | false => exact hf
        | true => exact hg
  constructor
  · intro pg' e he
    by_cases hp : pg' = pg
    · subst hp
      rw [update_self] at he
      cases he
      exact ⟨fun _ => ⟨f, hf⟩, fun _ => rfl⟩
    · rw [update_of_ne hp] at he
      simp only [hend, hp, false_and, or_false]
      exact h.reader pg' e he
  · intro pg' e he
    by_cases hp : pg' = pg
    · subst hp
      rw [update_self] at he
      cases he
      exact ⟨fun _ => ⟨g, hg⟩, fun _ => rfl⟩
    · rw [update_of_ne hp] at he
      simp only [hend, hp, false_and, or_false]
      exact h.writer pg' e he
  · intro i pg' w hi
    by_cases hp : pg' = pg
    · subst hp
      rw [update_self]
      exact ⟨_, rfl⟩
    · rw [update_of_ne hp]
      exact h.alive i pg' w (((hend i pg' w).1 hi).resolve_right fun he => hp he.1)
  · intro pg' e he
    by_cases hp : pg' = pg
    · subst hp
      rw [update_self] at he
      cases he
      exact .inl rfl
    · rw [update_of_ne hp] at he
      exact h.used pg' e he
  · intro i j pg' w hi hj
    rcases (hend i pg' w).1 hi with hi | ⟨hp, hi⟩ <;> rcases (hend j pg' w).1 hj with hj | ⟨hp', hj⟩
    · exact h.one i j pg' w hi hj
    · exact ((hold i pg' w hi).2.2 hp').elim
    · exact ((hold j pg' w hj).2.2 hp).elim
    · rw [hi, hj]

theorem Tables.newPipe {e₀ e₁ : File} (h : Tables M F I L s) (hpg : s.pipe pg = none) (hne : f ≠ g)
    (hkf : (s.file f).kind = .none) (hkg : (s.file g).kind = .none) (hf : 0 < F f) (hg : 0 < F g)
    (h₀ : e₀.kind = .pipe ∧ e₀.pipe = pg ∧ e₀.writable = false ∧ e₀.ref = (s.file f).ref)
    (h₁ : e₁.kind = .pipe ∧ e₁.pipe = pg ∧ e₁.writable = true ∧ e₁.ref = (s.file g).ref) :
    Tables M F I L (((s.setPipe pg (some ⟨true, true⟩)).setFile f e₀).setFile g e₁) := by
  have hfile (i : FileSlot) : (((s.setPipe pg (some ⟨true, true⟩)).setFile f e₀).setFile g e₁).file i =
      if i = g then e₁ else if i = f then e₀ else s.file i := by
    simp only [Sys.setFile, Sys.setPipe, update_apply]
  have hself : (((s.setPipe pg (some ⟨true, true⟩)).setFile f e₀).setFile g e₁).file f = e₀ := by
    rw [hfile, if_neg hne, if_pos rfl]
  have hself' : (((s.setPipe pg (some ⟨true, true⟩)).setFile f e₀).setFile g e₁).file g = e₁ := by
    rw [hfile, if_pos rfl]
  have hother (i : FileSlot) (hif : i ≠ f) (hig : i ≠ g) :
      (((s.setPipe pg (some ⟨true, true⟩)).setFile f e₀).setFile g e₁).file i = s.file i := by
    rw [hfile, if_neg hig, if_neg hif]
  constructor
  · intro i
    by_cases hif : i = f
    · rw [hif, hself, h₀.2.2.2, h.ref]
    · by_cases hig : i = g
      · rw [hig, hself', h₁.2.2.2, h.ref]
      · rw [hother i hif hig, h.ref]
  · intro i hz
    rw [hother i ?_ ?_]
    · exact h.idle i hz
    · rintro rfl
      omega
    · rintro rfl
      omega
  · have hcount : fileCount (update (update s.file f e₀) g e₁) = fileCount s.file := by
      rw [fileCount_of_ne, fileCount_of_ne]
      · rw [hkf]
        decide
      · rw [h₀.1]
        decide
      · rw [update_of_ne hne.symm, hkg]
        decide
      · rw [h₁.1]
        decide
    have hin := h.inodes
    rw [← hcount] at hin
    exact hin
  · intro i hk
    rw [hfile] at hk ⊢
    split at hk
    · cases h₁.1.symm.trans hk
    split at hk
    · cases h₀.1.symm.trans hk
    · rename_i hig hif
      rw [if_neg hig, if_neg hif]
      exact h.opened i hk
  · refine h.ends.create hpg hne ?_ ?_ hkf hkg hother
    · rw [HasEnd, hself]
      exact ⟨h₀.1, h₀.2.1, h₀.2.2.1⟩
    · rw [HasEnd, hself']
      exact ⟨h₁.1, h₁.2.1, h₁.2.2.1⟩

theorem addFile_comm (F : FileSlot → Nat) (f g : FileSlot) :
    addFile (addFile F f) g = addFile (addFile F g) f := by
  funext k
  unfold addFile
  by_cases hf : k = f
  · subst hf
    by_cases hg : k = g
    · subst hg
      rfl
    · simp [hg]
  · by_cases hg : k = g
    · subst hg
      simp [hf]
    · simp [hf, hg]

theorem pipealloc_tables (hM : M.Kept sb A E) (h : Tables M F I L s)
    (hpage : ∀ pg, page = some pg → s.pipe pg = none) :
    Ends E (pipealloc sb page) s fun r t =>
      (match r with
      | none => Tables M F I L t
      | some (f, g) => Tables M (addFile (addFile F f) g) I L t) ∧ t.proc = s.proc := by
  apply ends_bind (filealloc_tables h)
  rintro r t₁ ⟨hr, hkinds₁, hproc₁, -, hpipe₁⟩
  cases r with
  | none =>
    subst hr
    exact wp_pure ⟨h, rfl⟩
  | some f =>
    obtain ⟨hkf, -, h₁⟩ := hr
    apply ends_bind (filealloc_tables h₁)
    rintro r t₂ ⟨hr, hkinds₂, hproc₂, -, hpipe₂⟩
    cases r with
    | none =>
      subst hr
      apply ends_bind (fileclose_tables hM h₁)
      rintro _ t₃ ⟨h₃, hproc₃⟩
      exact wp_pure ⟨h₃, hproc₃.trans hproc₁⟩
    | some g =>
      obtain ⟨hkg, hg, h₂⟩ := hr
      have hne : f ≠ g := by
        rintro rfl
        rw [addFile_self] at hg
        omega
      cases page with
      | none =>
        have h₂' := h₂
        rw [addFile_comm] at h₂'
        apply ends_bind (fileclose_tables hM h₂')
        rintro _ t₃ ⟨h₃, hproc₃⟩
        apply ends_bind (fileclose_tables hM h₃)
        rintro _ t₄ ⟨h₄, hproc₄⟩
        exact wp_pure ⟨h₄, hproc₄.trans (hproc₃.trans (hproc₂.trans hproc₁))⟩
      | some pg =>
        apply wp_modify_bind
        apply wp_modify_bind
        apply wp_modify_bind
        apply wp_pure
        refine ⟨h₂.newPipe ?_ hne ?_ ?_ ?_ ?_ ⟨rfl, rfl, rfl, rfl⟩ ⟨rfl, rfl, rfl, ?_⟩,
          hproc₂.trans hproc₁⟩
        · rw [hpipe₂, hpipe₁]
          exact hpage pg rfl
        · rw [hkinds₂, hkinds₁, hkf]
        · rw [hkinds₂, hkg]
        · rw [addFile_of_ne hne, addFile_self]
          omega
        · rw [addFile_self]
          omega
        · simp only [Sys.setFile, Sys.setPipe, update_of_ne hne.symm]

theorem closeBoth_counted (hM : M.Kept sb A E)
    (h : Tables M (addFile (addFile (fdCount s.proc) f) g) (cwdCount s.proc) ∅ s) :
    Ends E (do fileclose sb f; fileclose sb g; pure (-1 : Int)) s fun _ t => Accounted M t := by
  rw [addFile_comm] at h
  apply ends_bind (fileclose_tables hM h)
  rintro _ t₁ ⟨h₁, hproc₁⟩
  apply ends_bind (fileclose_tables hM h₁)
  rintro _ t₂ ⟨h₂, hproc₂⟩
  refine wp_pure ?_
  unfold Accounted
  rw [hproc₂, hproc₁]
  exact h₂

theorem pipeFds_counted (hM : M.Kept sb A E)
    (h : Tables M (addFile (addFile (fdCount s.proc) f) g) (cwdCount s.proc) ∅ s)
    (hp : s.proc p = some x) : Ends E (pipeFds sb p x f g) s fun _ t => Accounted M t := by
  apply ends_bind (fdalloc_ends s p x f)
  intro r t hr
  cases r with
  | none =>
    subst hr
    exact closeBoth_counted hM h
  | some fd =>
    obtain ⟨hfd, rfl⟩ := hr
    apply ends_bind (fdalloc_ends _ p (x.setFd fd (some f)) g)
    intro r t hr
    cases r with
    | none =>
      subst hr
      apply wp_modify_bind
      apply closeBoth_counted hM
      -- the first descriptor is free again
      have hback : ((s.setProc p (some (x.setFd fd (some f)))).setProc p
          (some ((x.setFd fd (some f)).setFd fd none))).proc = s.proc := by
        have hx : (x.setFd fd (some f)).setFd fd none = x := by
          simp only [ProcFiles.setFd, update_idem]
          rw [← hfd, update_eq_self]
        simp only [Sys.setProc, update_idem, hx]
        rw [← hp, update_eq_self]
      rw [hback]
      exact (h.setProc p _).setProc p _
    | some fd' =>
      obtain ⟨hfd', rfl⟩ := hr
      refine wp_pure ?_
      have hp' : (s.setProc p (some (x.setFd fd (some f)))).proc p = some (x.setFd fd (some f)) :=
        update_self ..
      refine counted_give (s := s.setProc p (some (x.setFd fd (some f)))) ?_ hp' hfd' rfl
      show Tables M (addFile (fdCount (update s.proc p _)) g)
        (cwdCount (update s.proc p _)) ∅ _
      rw [fdCount_give hp hfd, cwdCount_same (y := x.setFd fd (some f)) hp rfl]
      exact (h.setProc p _).setProc p _

theorem sysPipe_counted (hM : M.Kept sb A E) (h : Accounted M s) (hp : s.proc p = some x) :
    Ends E (sysPipe sb p x page) s fun _ t => Accounted M t := by
  apply wp_get_bind
  refine ends_bind (pipealloc_tables hM h fun pg hpg => ?_) ?_
  · have hnone := (filter_eq_some_iff.1 hpg).2
    simpa using hnone
  rintro r t ⟨ht, hproc⟩
  cases r with
  | none =>
    refine wp_pure ?_
    unfold Accounted
    rw [hproc]
    exact ht
  | some r =>
    have ht : Tables M (addFile (addFile (fdCount s.proc) r.1) r.2) (cwdCount s.proc) ∅ t := ht
    rw [← hproc] at ht hp
    exact pipeFds_counted hM ht hp

def dupAll (x : ProcFiles) (F : FileSlot → Nat) : List (Fin 16) → FileSlot → Nat
  | [] => F
  | fd :: l =>
    match x.ofile fd with
    | some f => dupAll x (addFile F f) l
    | none => dupAll x F l

theorem dupAll_eq (x : ProcFiles) (F : FileSlot → Nat) (l : List (Fin 16)) (f : FileSlot) :
    dupAll x F l f = F f + (l.map fun fd => if x.ofile fd = some f then 1 else 0).sum := by
  induction l generalizing F with
  | nil => rfl
  | cons fd l ih =>
    rw [map_cons, sum_cons, dupAll]
    cases hfd : x.ofile fd with
    | none => simp [ih]
    | some g =>
      simp only [ih, Option.some.injEq]
      by_cases hg : f = g
      · subst hg
        rw [addFile_self, if_pos rfl]
        omega
      · rw [addFile_of_ne hg, if_neg fun he => hg he.symm]
        omega

theorem dupAll_finRange (x : ProcFiles) (F : FileSlot → Nat) :
    dupAll x F (List.finRange 16) = fun f => F f + x.fdCount f := by
  funext f
  rw [dupAll_eq, ProcFiles.fdCount, Fin.sum_univ_def]

theorem forkFiles_counted {child : ProcSlot} (hM : M.Kept sb A E) (h : Accounted M s)
    (hp : s.proc p = some x) :
    Ends E (forkFiles x child) s fun _ t => Accounted M t := by
  apply wp_get_bind
  apply wp_ite
  · exact fun _ => wp_pure h
  intro hchild
  have hchild : s.proc child = none := by simpa using hchild
  have hloop := wp_forM (g := fun fd : Fin 16 => (match x.ofile fd with
      | some f => filedup f
      | none => pure () : SysM PUnit)) (E := fun e _ => e.among E) (l := List.finRange 16) (s := s)
    (fun l t => t.proc = s.proc ∧ ∃ F, Tables M F (cwdCount s.proc) ∅ t ∧
      dupAll x F l = dupAll x (fdCount s.proc) (List.finRange 16)) ⟨rfl, _, h, rfl⟩ ?_
  · apply ends_bind hloop
    rintro _ t ⟨hproc, F, ht, hF⟩
    rw [dupAll_finRange] at hF
    have hF : F = fun f => fdCount s.proc f + x.fdCount f := hF
    have hcwd : 0 < cwdCount s.proc x.cwd + fileCount t.file x.cwd :=
      Nat.add_pos_left (cwdCount_pos hp) _
    apply ends_bind (ends_lift (hM.idup ht.inodes hcwd))
    rintro _ _ ⟨fs, rfl, hm, hs⟩
    apply wp_modify_bind
    apply wp_pure
    have hproc : t.proc = s.proc := hproc
    have hfd : fdCount (update t.proc child (some x)) = F := by
      rw [hF, hproc]
      funext f
      have hu := fdCount_update s.proc child (some x) f
      simp only [hchild, map_none, getD_none, map_some, getD_some,
        Nat.add_zero] at hu
      exact hu
    have hcwd : cwdCount (update t.proc child (some x)) = addRef (cwdCount s.proc) x.cwd := by
      rw [hproc, cwdCount_enter hchild]
    show Tables M (fdCount (update t.proc child (some x)))
      (cwdCount (update t.proc child (some x))) ∅ _
    rw [hfd, hcwd]
    rw [← addRef_add] at hm
    exact (ht.lift hm hs fun jp => Nat.le_add_left _ _).setProc child _
  · rintro fd l t ⟨hproc, F, ht, hF⟩
    rw [dupAll] at hF
    split
    · rename_i f hf
      simp only [hf] at hF
      apply (filedup_tables ht).post
      rintro _ u ⟨hu, hproc'⟩
      exact ⟨hproc'.trans hproc, _, hu, hF⟩
    · rename_i hf
      simp only [hf] at hF
      exact wp_pure ⟨hproc, F, ht, hF⟩

theorem sysExit_counted (hM : M.Kept sb A E) (h : Accounted M s) (hp : s.proc p = some x) :
    Ends E (sysExit sb p x) s fun _ t => Accounted M t := by
  apply wp_ite
  · exact fun _ => ends_throw trivial
  intro _
  -- the descriptors that the loop has passed are clear
  have hloop := wp_forM (g := exitFd sb p) (E := fun e _ => e.among E) (l := List.finRange 16)
    (s := s) (fun l t => Accounted M t ∧ ∃ y, t.proc p = some y ∧ y.cwd = x.cwd ∧
      ∀ fd, fd ∉ l → y.ofile fd = none)
    ⟨h, x, hp, rfl, fun fd hfd => (hfd (mem_finRange fd)).elim⟩ ?_
  · apply ends_bind hloop
    rintro _ t ⟨ht, y, hy, hcwd, hclear⟩
    have hin := ht.inodes
    rw [cwdCount_leave hy, hcwd, addRef_add] at hin
    apply ends_bind (ends_lift (hM.putInode hin))
    rintro _ _ ⟨fs, rfl, hm, hs⟩
    apply wp_modify_bind
    apply wp_pure
    have hfd : fdCount (update t.proc p none) = fdCount t.proc := by
      funext f
      have hu := fdCount_update t.proc p none f
      have hzero : y.fdCount f = 0 := by
        apply Finset.sum_eq_zero
        intro fd _
        rw [hclear fd (not_mem_nil), if_neg (some_ne_none f).symm]
      simp only [hy, hzero, map_none, getD_none, map_some, getD_some,
        Nat.add_zero] at hu
      exact hu
    show Tables M (fdCount (update t.proc p none)) (cwdCount (update t.proc p none))
      ∅ _
    rw [hfd]
    exact (ht.lift hm hs fun jp => Nat.le_add_left _ _).setProc p none
  · rintro fd l t ⟨ht, y, hy, hcwd, hclear⟩
    apply wp_get_bind
    split
    · rename_i hnone
      cases hnone.symm.trans hy
    rename_i z hz
    obtain rfl : z = y := Option.some.inj (hz.symm.trans hy)
    split
    · rename_i hfd
      refine wp_pure ⟨ht, z, hy, hcwd, fun fd' hfd' => ?_⟩
      by_cases he : fd' = fd
      · rw [he, hfd]
      · exact hclear fd' fun hm => (mem_cons.1 hm).elim he hfd'
    rename_i f hfd
    have h₁ := ht
    unfold Accounted at h₁
    rw [fdCount_take hy hfd] at h₁
    apply ends_bind (fileclose_tables hM h₁)
    rintro _ u ⟨hu, hproc⟩
    refine wp_modify ⟨?_, z.setFd fd none, ?_, hcwd, fun fd' hfd' => ?_⟩
    · show Tables M (fdCount (update u.proc p _)) (cwdCount (update u.proc p _)) ∅ _
      rw [hproc, cwdCount_same (y := z.setFd fd none) hy rfl]
      exact hu.setProc p _
    · exact update_self ..
    · by_cases he : fd' = fd
      · rw [he]
        exact update_self ..
      · exact (update_of_ne he ..).trans (hclear fd' fun hm => (mem_cons.1 hm).elim he hfd')

theorem liftFs_counted {y : FsM Int} (h : Accounted M s)
    (hy : Wp y s.fs (fun _ t => M.Back (fun ip => cwdCount s.proc ip + fileCount s.file ip) ∅ s.fs t)
      fun e _ => E e) : Ends E (liftFs y) s fun _ t => Accounted M t := by
  apply (ends_lift hy).post
  rintro _ _ ⟨fs, rfl, hm, hs⟩
  exact Tables.lift h hm hs fun jp => Nat.le_add_left _ _

/-- Every system call ends with the references counted and the invariant kept, or in a panic of the
kernel, and never with the use of a pipe that was freed. -/
theorem sysCall_counted (hM : M.Kept sb A E) (p : ProcSlot) (c : SysCall) (h : Accounted M s)
    (hA : ∀ x, s.proc p = some x → A x.cwd c s.fs) :
    Ends E (sysCall sb p c) s fun _ t => Accounted M t := by
  apply wp_get_bind
  split
  · exact wp_pure h
  rename_i x hp
  have hcwd : 0 < cwdCount s.proc x.cwd + fileCount s.file x.cwd :=
    Nat.add_pos_left (cwdCount_pos hp) _
  have hA := hA x hp
  cases c with
  | «open» path omode => exact sysOpen_counted hM h hp hA
  | close fd => exact sysClose_counted hM h hp
  | dup fd => exact sysDup_counted h hp
  | write fd src piped => exact sysWrite_counted hM h
  | link old new => exact liftFs_counted h (hM.sysLink h.inodes hcwd hA)
  | unlink path => exact liftFs_counted h (hM.sysUnlink h.inodes hcwd hA)
  | mkdir path => exact liftFs_counted h (hM.sysMkdir h.inodes hcwd hA)
  | mknod path major minor => exact liftFs_counted h (hM.sysMknod h.inodes hcwd hA)
  | chdir path => exact sysCd_counted hM h hp hA
  | exec path reads => exact liftFs_counted h (hM.execInode h.inodes hcwd hA)
  | pipe page => exact sysPipe_counted hM h hp
  | fork child => exact forkFiles_counted hM h hp
  | exit => exact sysExit_counted hM h hp

end Xv6Signals
