import Xv6Signals.Fs.Rules
import Mathlib.Algebra.BigOperators.Fin

namespace Xv6Signals
open Lib Function Finset

variable {sb : Superblock} {s t u : Sys} {fs : Fs} {ip jp : Slot} {I : Slot → Nat}
  {F : FileSlot → Nat} {L : Finset Slot} {f g : FileSlot} {p : ProcSlot} {x y : ProcFiles}
  {pg : Nat} {w : Bool} {M : FsInv} {A : Slot → SysCall → Fs → Prop} {E : FsPanic → Prop}
  {file : FileSlot → File} {pipe : Nat → Option PipeEnds} {e : PipeEnds}

theorem sum_update {ι : Type} [Fintype ι] [DecidableEq ι] (h : ι → Nat) (i : ι) (b : Nat) :
    ∑ j, update h i b j + h i = ∑ j, h j + b := by
  rw [sum_update_of_mem (mem_univ i), ← sum_sdiff (singleton_subset_iff.2
    (mem_univ i)) (f := h), sum_singleton]
  omega

def fileCount (file : FileSlot → File) (ip : Slot) : Nat :=
  ∑ f, if (file f).kind = .inode ∧ (file f).ip = ip then 1 else 0

def ProcFiles.fdCount (x : ProcFiles) (f : FileSlot) : Nat :=
  ∑ fd, if x.ofile fd = some f then 1 else 0

def fdCount (proc : ProcSlot → Option ProcFiles) (f : FileSlot) : Nat :=
  ∑ p, ((proc p).map fun x => x.fdCount f).getD 0

def cwdCount (proc : ProcSlot → Option ProcFiles) (ip : Slot) : Nat :=
  ∑ p, ((proc p).map fun x => if x.cwd = ip then 1 else 0).getD 0

def HasEnd (file : FileSlot → File) (f : FileSlot) (pg : Nat) (w : Bool) : Prop :=
  (file f).kind = .pipe ∧ (file f).pipe = pg ∧ (file f).writable = w

structure Piped (file : FileSlot → File) (pipe : Nat → Option PipeEnds) : Prop where
  reader : ∀ pg e, pipe pg = some e → (e.readopen = true ↔ ∃ f, HasEnd file f pg false)
  writer : ∀ pg e, pipe pg = some e → (e.writeopen = true ↔ ∃ f, HasEnd file f pg true)
  alive : ∀ f pg w, HasEnd file f pg w → ∃ e, pipe pg = some e
  used : ∀ pg e, pipe pg = some e → e.readopen = true ∨ e.writeopen = true
  one : ∀ f g pg w, HasEnd file f pg w → HasEnd file g pg w → f = g

/-- The file table with the references on its entries, and the file system with the references `I`
that do not come from the file table. -/
structure Tables (M : FsInv) (F : FileSlot → Nat) (I : Slot → Nat) (L : Finset Slot) (s : Sys) :
    Prop where
  ref : ∀ f, (s.file f).ref = F f
  idle : ∀ f, F f = 0 → (s.file f).kind = .none
  inodes : M.inv (fun ip => I ip + fileCount s.file ip) L s.fs
  opened : ∀ f, (s.file f).kind = .inode → M.opened (s.file f).ip (s.file f).writable s.fs
  ends : Piped s.file s.pipe

def addFile (F : FileSlot → Nat) (f : FileSlot) : FileSlot → Nat := update F f (F f + 1)

theorem addFile_self (F : FileSlot → Nat) (f : FileSlot) : addFile F f f = F f + 1 :=
  update_self ..

theorem addFile_of_ne (h : g ≠ f) : addFile F f g = F g := update_of_ne h ..

theorem addRef_add (I J : Slot → Nat) (ip : Slot) :
    (fun jp => addRef I ip jp + J jp) = addRef (fun jp => I jp + J jp) ip := by
  funext jp
  by_cases hj : jp = ip
  · subst hj
    rw [addRef_self, addRef_self]
    omega
  · rw [addRef_of_ne hj, addRef_of_ne hj]

theorem Piped.congr {file file' : FileSlot → File}
    (h : Piped file pipe) (he : ∀ f pg w, HasEnd file' f pg w ↔ HasEnd file f pg w) :
    Piped file' pipe := by
  constructor
  · intro pg e hp
    simp only [he]
    exact h.reader pg e hp
  · intro pg e hp
    simp only [he]
    exact h.writer pg e hp
  · intro f pg w hf
    exact h.alive f pg w ((he f pg w).1 hf)
  · exact h.used
  · intro f g pg w hf hg
    exact h.one f g pg w ((he f pg w).1 hf) ((he g pg w).1 hg)

theorem fileCount_congr {file file' : FileSlot → File}
    (h : ∀ f, (file' f).kind = (file f).kind ∧ (file' f).ip = (file f).ip) :
    fileCount file' = fileCount file := by
  funext ip
  unfold fileCount
  simp only [h]

theorem Tables.setRef {e : File} {F' : FileSlot → Nat} (h : Tables M F I L s)
    (hk : e.kind = (s.file f).kind) (hi : e.ip = (s.file f).ip) (hp : e.pipe = (s.file f).pipe)
    (hw : e.writable = (s.file f).writable) (hr : e.ref = F' f)
    (hidle : F' f = 0 → (s.file f).kind = .none) (hF : ∀ g, g ≠ f → F' g = F g) :
    Tables M F' I L (s.setFile f e) := by
  have hsame (g : FileSlot) : ((s.setFile f e).file g).kind = (s.file g).kind ∧
      ((s.setFile f e).file g).ip = (s.file g).ip ∧
      ((s.setFile f e).file g).pipe = (s.file g).pipe ∧
      ((s.setFile f e).file g).writable = (s.file g).writable := by
    by_cases hg : g = f
    · subst hg
      simp only [Sys.setFile, update_self]
      exact ⟨hk, hi, hp, hw⟩
    · simp only [Sys.setFile, update_of_ne hg, and_self]
  constructor
  · intro g
    by_cases hg : g = f
    · subst hg
      simp only [Sys.setFile, update_self, hr]
    · simp only [Sys.setFile, update_of_ne hg, hF g hg, h.ref]
  · intro g hz
    rw [(hsame g).1]
    by_cases hg : g = f
    · subst hg
      exact hidle hz
    · rw [hF g hg] at hz
      exact h.idle g hz
  · rw [fileCount_congr fun g => ⟨(hsame g).1, (hsame g).2.1⟩]
    exact h.inodes
  · intro g hg
    obtain ⟨hk, hi, -, hw⟩ := hsame g
    rw [hi, hw]
    exact h.opened g (hk ▸ hg)
  · refine h.ends.congr fun g pg w => ?_
    obtain ⟨hk, -, hp, hw⟩ := hsame g
    rw [HasEnd, HasEnd, hk, hp, hw]

theorem filealloc_tables (h : Tables M F I L s) : Ends E filealloc s fun r t =>
      (match r with
      | none => t = s
      | some f => (s.file f).kind = .none ∧ F f = 0 ∧ Tables M (addFile F f) I L t) ∧
        (∀ g, (t.file g).kind = (s.file g).kind) ∧ t.proc = s.proc ∧ t.fs = s.fs ∧
        t.pipe = s.pipe := by
  apply wp_get_bind
  split
  · rename_i f hf
    have hp := List.find?_some hf
    simp only [decide_eq_true_eq] at hp
    have hz : F f = 0 := by
      rw [h.ref] at hp
      omega
    apply wp_modify_bind
    refine wp_pure ⟨⟨h.idle f hz, hz, h.setRef rfl rfl rfl rfl ?_ ?_ fun g hg => addFile_of_ne hg⟩,
      fun g => ?_, rfl, rfl, rfl⟩
    · rw [addFile_self, hz]
      rfl
    · rw [addFile_self]
      omega
    · by_cases hg : g = f
      · subst hg
        simp only [Sys.setFile, update_self]
      · simp only [Sys.setFile, update_of_ne hg]
  · exact wp_pure ⟨rfl, fun _ => rfl, rfl, rfl, rfl⟩

theorem filedup_tables (h : Tables M F I L s) :
    Ends E (filedup f) s fun _ t => Tables M (addFile F f) I L t ∧ t.proc = s.proc := by
  apply wp_get_bind
  apply wp_ite
  · exact fun _ => ends_throw trivial
  intro _
  refine wp_modify ⟨h.setRef rfl rfl rfl rfl ?_ ?_ fun g hg => addFile_of_ne hg, rfl⟩
  · rw [addFile_self, h.ref]
    rfl
  · rw [addFile_self]
    omega

theorem PipeEnds.close_some {e e' : PipeEnds} (h : e.close w = some e') :
    (e'.readopen = true ↔ e.readopen = true ∧ false ≠ w) ∧
      (e'.writeopen = true ↔ e.writeopen = true ∧ true ≠ w) ∧
      (e'.readopen = true ∨ e'.writeopen = true) := by
  obtain ⟨r, o⟩ := e
  cases r <;> cases o <;> cases w <;> simp_all [PipeEnds.close] <;> subst h <;> simp

theorem PipeEnds.close_none (h : e.close w = none) :
    (e.readopen = true → false = w) ∧ (e.writeopen = true → true = w) := by
  obtain ⟨r, o⟩ := e
  cases r <;> cases o <;> cases w <;> simp_all [PipeEnds.close]

theorem Piped.close {ff : File} (h : Piped file pipe) (hf : HasEnd file f pg w)
    (hk : ff.kind = .none) (he : pipe pg = some e) :
    Piped (update file f ff) (update pipe pg (e.close w)) := by
  have hend (g : FileSlot) (pg' : Nat) (w' : Bool) : HasEnd (update file f ff) g pg' w' ↔
      HasEnd file g pg' w' ∧ (pg' = pg → w' ≠ w) := by
    by_cases hg : g = f
    · subst hg
      rw [HasEnd, update_self, hk]
      constructor
      · exact fun h => by cases h.1
      · rintro ⟨⟨-, hpg, hw⟩, hne⟩
        exact (hne (hpg.symm.trans hf.2.1) (hw.symm.trans hf.2.2)).elim
    · rw [HasEnd, update_of_ne hg]
      constructor
      · intro hh
        refine ⟨hh, ?_⟩
        rintro rfl rfl
        exact hg (h.one g f pg' w' hh hf)
      · exact fun hh => hh.1
  constructor
  · intro pg' e' hp
    simp only [hend]
    by_cases hpg : pg' = pg
    · subst hpg
      rw [update_self] at hp
      rw [(PipeEnds.close_some hp).1, h.reader pg' e he]
      simp
    · rw [update_of_ne hpg] at hp
      simpa [hpg] using h.reader pg' e' hp
  · intro pg' e' hp
    simp only [hend]
    by_cases hpg : pg' = pg
    · subst hpg
      rw [update_self] at hp
      rw [(PipeEnds.close_some hp).2.1, h.writer pg' e he]
      simp
    · rw [update_of_ne hpg] at hp
      simpa [hpg] using h.writer pg' e' hp
  · intro g pg' w' hg
    obtain ⟨hg, hne⟩ := (hend g pg' w').1 hg
    by_cases hpg : pg' = pg
    · subst hpg
      rw [update_self]
      cases hc : e.close w with
      | some e' => exact ⟨e', rfl⟩
      | none =>
        -- the other end would be open
        have hnone := PipeEnds.close_none hc
        cases w' with
        | false => exact (hne rfl (hnone.1 ((h.reader pg' e he).2 ⟨g, hg⟩))).elim
        | true => exact (hne rfl (hnone.2 ((h.writer pg' e he).2 ⟨g, hg⟩))).elim
    · rw [update_of_ne hpg]
      exact h.alive g pg' w' hg
  · intro pg' e' hp
    by_cases hpg : pg' = pg
    · subst hpg
      rw [update_self] at hp
      exact (PipeEnds.close_some hp).2.2
    · rw [update_of_ne hpg] at hp
      exact h.used pg' e' hp
  · intro g g' pg' w' hg hg'
    exact h.one g g' pg' w' ((hend g pg' w').1 hg).1 ((hend g' pg' w').1 hg').1

theorem fileCount_update (file : FileSlot → File) (f : FileSlot) (ff : File) (ip : Slot) :
    fileCount (update file f ff) ip + (if (file f).kind = .inode ∧ (file f).ip = ip then 1 else 0) =
      fileCount file ip + if ff.kind = .inode ∧ ff.ip = ip then 1 else 0 := by
  have hfun : (fun g => if (update file f ff g).kind = .inode ∧
      (update file f ff g).ip = ip then 1 else 0) =
      update (fun g => if (file g).kind = .inode ∧ (file g).ip = ip then 1 else 0) f
        (if ff.kind = .inode ∧ ff.ip = ip then 1 else 0) := by
    funext g
    by_cases hg : g = f
    · subst hg
      simp only [update_self]
    · simp only [update_of_ne hg]
  unfold fileCount
  rw [hfun]
  exact sum_update _ _ _

theorem fileCount_close (ff : File) (hk : (file f).kind = .inode) (hff : ff.kind = .none) :
    fileCount file = addRef (fileCount (update file f ff)) (file f).ip := by
  funext ip
  have h := fileCount_update file f ff ip
  have hnew : ¬ (ff.kind = .inode ∧ ff.ip = ip) := by
    rw [hff]
    exact fun he => by cases he.1
  by_cases hip : ip = (file f).ip
  · subst hip
    simp only [hk, true_and, if_true, if_neg hnew, Nat.add_zero] at h
    rw [addRef_self, h]
  · have hold : ¬ ((file f).kind = .inode ∧ (file f).ip = ip) := fun he => hip he.2.symm
    simp only [if_neg hold, if_neg hnew, Nat.add_zero] at h
    rw [addRef_of_ne hip]
    exact h.symm

theorem fileCount_of_ne (ff : File) (hk : (file f).kind ≠ .inode)
    (hff : ff.kind ≠ .inode) : fileCount (update file f ff) = fileCount file := by
  funext ip
  have h := fileCount_update file f ff ip
  simp only [hff, hk, false_and, if_false, Nat.add_zero] at h
  exact h

theorem hasEnd_of_ne {ff : File} (hk : (file f).kind ≠ .pipe)
    (hff : ff.kind ≠ .pipe) (g : FileSlot) (pg : Nat) (w : Bool) :
    HasEnd (update file f ff) g pg w ↔ HasEnd file g pg w := by
  by_cases hg : g = f
  · subst hg
    rw [HasEnd, HasEnd, update_self]
    exact ⟨fun h => (hff h.1).elim, fun h => (hk h.1).elim⟩
  · rw [HasEnd, HasEnd, update_of_ne hg]

theorem fileCount_pos (hk : (file f).kind = .inode) : 0 < fileCount file (file f).ip := by
  rw [fileCount_close { file f with kind := .none } hk rfl, addRef_self]
  omega

theorem Tables.lift {J : Slot → Nat} {K : Finset Slot} {R : Slot → Nat} (h : Tables M F I L s)
    (hfs : M.inv (fun ip => J ip + fileCount s.file ip) K fs) (hs : M.Stay R s.fs fs)
    (hR : ∀ ip, fileCount s.file ip ≤ R ip) : Tables M F J K { s with fs := fs } := by
  refine ⟨h.ref, h.idle, hfs, fun f hk => ?_, h.ends⟩
  exact hs _ _ ((fileCount_pos hk).trans_le (hR _)) (h.opened f hk)

theorem fileclose_tables (hM : M.Kept sb A E) (h : Tables M (addFile F f) I L s) :
    Ends E (fileclose sb f) s fun _ t => Tables M F I L t ∧ t.proc = s.proc := by
  have href := h.ref f
  rw [addFile_self] at href
  have hF : ∀ g, g ≠ f → F g = addFile F f g := fun g hg => (addFile_of_ne hg).symm
  apply wp_get_bind
  apply wp_ite
  · exact fun _ => ends_throw trivial
  intro _
  apply wp_ite
  · intro hpos
    refine wp_modify ⟨h.setRef rfl rfl rfl rfl ?_ ?_ hF, rfl⟩
    · rw [href]
      push_cast
      omega
    · intro hz
      omega
  intro hlast
  have hz : F f = 0 := by omega
  apply wp_modify_bind
  generalize hff : ({ s.file f with ref := 0, kind := .none } : File) = ff
  have hkind : ff.kind = .none := by rw [← hff]
  have hne : ff.kind ≠ .inode ∧ ff.kind ≠ .pipe := by
    rw [hkind]
    decide
  have hself : (s.setFile f ff).file f = ff := update_self ..
  have hother (g : FileSlot) (hg : g ≠ f) : (s.setFile f ff).file g = s.file g :=
    update_of_ne hg ..
  have href' (g : FileSlot) : ((s.setFile f ff).file g).ref = F g := by
    by_cases hg : g = f
    · rw [hg, hself, hz, ← hff]
      rfl
    · rw [hother g hg, h.ref, addFile_of_ne hg]
  have hidle (g : FileSlot) (hg0 : F g = 0) : ((s.setFile f ff).file g).kind = .none := by
    by_cases hg : g = f
    · rw [hg, hself, hkind]
    · rw [hother g hg]
      exact h.idle g (by rwa [addFile_of_ne hg])
  have hopened (g : FileSlot) (hk : ((s.setFile f ff).file g).kind = .inode) :
      M.opened ((s.setFile f ff).file g).ip ((s.setFile f ff).file g).writable s.fs := by
    have hg : g ≠ f := by
      rintro rfl
      rw [hself] at hk
      exact hne.1 hk
    rw [hother g hg] at hk ⊢
    exact h.opened g hk
  have hin := h.inodes
  unfold closeLast
  split
  · rename_i hk
    have hend : HasEnd s.file f (s.file f).pipe (s.file f).writable := ⟨hk, rfl, rfl⟩
    obtain ⟨e, he⟩ := h.ends.alive f _ _ hend
    apply wp_get_bind
    split
    · rename_i hnone
      cases hnone.symm.trans he
    rename_i e' he'
    cases he'.symm.trans he
    refine wp_modify ⟨⟨href', hidle, ?_, hopened, h.ends.close hend hkind he⟩, rfl⟩
    rw [← fileCount_of_ne ff (by rw [hk]; decide) hne.1] at hin
    exact hin
  · rename_i hk
    rw [fileCount_close ff hk hkind] at hin
    simp only [Nat.add_comm (I _)] at hin
    rw [addRef_add] at hin
    simp only [Nat.add_comm _ (I _)] at hin
    have h₁ : Tables M F (addRef I (s.file f).ip) L (s.setFile f ff) := by
      refine ⟨href', hidle, ?_, hopened, h.ends.congr (hasEnd_of_ne ?_ hne.2)⟩
      · rw [addRef_add]
        exact hin
      · rw [hk]
        decide
    apply (ends_lift (s := s.setFile f ff) (hM.putInode hin)).post
    rintro _ _ ⟨fs, rfl, hm, hs⟩
    exact ⟨h₁.lift hm hs fun ip => Nat.le_add_left _ _, rfl⟩
  · rename_i hk
    refine wp_pure ⟨⟨href', hidle, ?_, hopened, h.ends.congr (hasEnd_of_ne ?_ hne.2)⟩, rfl⟩
    · rw [← fileCount_of_ne ff (by rw [hk]; decide) hne.1] at hin
      exact hin
    · rw [hk]
      decide

end Xv6Signals
