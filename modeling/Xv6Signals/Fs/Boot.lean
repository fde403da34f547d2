import Xv6Signals.Fs.Cache
import Xv6Signals.Fs.Contents

namespace Xv6Signals
open Lib

variable {v : Vol} {files : List Mkfs.Input} {i k : Nat} {sb : Superblock}

section

variable (h : Mkfs.Image v files)
include h

theorem Mkfs.Image.live_cases (hi : v.live mkfsSb i) :
    i = rootIno ∨ ∃ k f, files[k]? = some f ∧ i = k + 2 := by
  have hlt : ¬ (files.length + 2 ≤ i ∨ i = 0) := fun hu => hi.2 (h.unused i hu)
  by_cases h1 : i = rootIno
  · exact .inl h1
  have hk : i - 2 < files.length := by
    unfold rootIno at h1
    omega
  refine .inr ⟨i - 2, files[i - 2], List.getElem?_eq_getElem hk, ?_⟩
  unfold rootIno at h1
  omega

theorem Mkfs.Image.nlink (hi : v.live mkfsSb i) : (v.inode i).nlink = 1 := by
  rcases h.live_cases hi with rfl | ⟨k, f, hf, rfl⟩
  · exact h.rootLinks
  · exact (h.file k f hf).nlink

theorem Mkfs.Image.dir_eq (hi : v.live mkfsSb i) (hd : (v.inode i).type = .dir) : i = rootIno := by
  rcases h.live_cases hi with rfl | ⟨k, f, hf, rfl⟩
  · rfl
  · cases (h.file k f hf).type.symm.trans hd

theorem Mkfs.Image.entry_cases
    (hk : 16 * k + 16 ≤ (v.inode rootIno).size) (hne : (v.entry rootIno k).inum ≠ 0) :
    k < 2 ∧ (v.entry rootIno k).inum = rootIno ∨
      ∃ j f, files[j]? = some f ∧ k = j + 2 ∧ (v.entry rootIno k).inum = j + 2 := by
  have he := h.entries k (by omega) hne
  rw [Mkfs.rootEntries] at he
  cases k with
  | zero => exact .inl ⟨by decide, (congrArg Dirent.inum (Option.some.inj he)).symm⟩
  | succ k =>
    cases k with
    | zero => exact .inl ⟨by decide, (congrArg Dirent.inum (Option.some.inj he)).symm⟩
    | succ j =>
      rw [List.getElem?_cons_succ, List.getElem?_cons_succ, List.getElem?_mapIdx] at he
      obtain ⟨f, hf, he⟩ := Option.map_eq_some_iff.1 he
      exact .inr ⟨j, f, hf, rfl, (congrArg Dirent.inum he).symm⟩

theorem Mkfs.Image.proper (hcount : files.length + 1 < 200) : Proper mkfsSb v := by
  refine ⟨h.owned, by decide, fun d k hl hd hk => ?_⟩
  obtain rfl := h.dir_eq hl hd
  by_cases hz : (v.entry rootIno k).inum = 0
  · rw [hz]
    decide
  rcases h.entry_cases hk hz with ⟨-, he⟩ | ⟨j, f, hf, -, he⟩
  · rw [he]
    decide
  · have hj := (List.getElem?_eq_some_iff.1 hf).1
    rw [he]
    show j + 2 < 200
    omega

end

def bootFs (v : Vol) : Fs :=
  ⟨v, fun ip => ⟨rootIno, if ip = slot0 then 1 else 0, false, false, freeInode⟩, []⟩

def bootRefs (ip : Slot) : Nat := if ip = slot0 then 1 else 0

theorem bootRefs_pos {ip : Slot} (hip : 0 < bootRefs ip) : ip = slot0 := by
  unfold bootRefs at hip
  by_contra hne
  rw [if_neg hne] at hip
  exact Nat.lt_irrefl 0 hip

theorem cached_sound (h : Proper sb v) {i : Nat} (hi : i < sb.ninodes) : Sound sb bootRefs ∅
    ⟨v, fun ip => ⟨i, if ip = slot0 then 1 else 0, false, false, freeInode⟩, []⟩ := by
  refine ⟨⟨fun ip => ?_, fun ip => ?_, fun ip jp hip hjp _ => ?_⟩, fun ip hip => ?_, fun ip _ hv => ?_,
    fun ip _ => hi, h⟩
  · show (if ip = slot0 then 1 else 0 : Int) = ((if ip = slot0 then 1 else 0 : Nat) : Int)
    split <;> rfl
  · exact ⟨fun he => Bool.noConfusion he, fun he => (Finset.notMem_empty ip he).elim⟩
  · rw [bootRefs_pos hip, bootRefs_pos hjp]
  · exact (Finset.notMem_empty ip hip).elim
  · exact Bool.noConfusion hv

theorem bootFs_sound (h : Proper sb v) : Sound sb bootRefs ∅ (bootFs v) :=
  cached_sound h h.root

end Xv6Signals
