import Xv6Signals.Fs.Boot
import Xv6Signals.Fs.Entries
import Xv6Signals.Lib.Machine

namespace Xv6Signals
open Lib Function

variable {sb : Superblock} {s t : Fs} {dp : Slot} {d k inum : Nat} {x name : List Byte}
  {R : Slot → Nat} {L : Finset Slot} {r : Int}

def Vol.dirMap (v : Vol) (d : Nat) : List Byte → Option Nat :=
  (v.slots d).get ((v.inode d).size / 16)

def foundInum (r : Option (Slot × Nat)) (t : Fs) : Option Nat :=
  r.map fun e => (t.icache e.1).inum

theorem Looked.foundInum {r : Option (Slot × Nat)} (h : Looked sb R L s d name r t) :
    foundInum r t = s.disk.dirMap d (cut 14 name) := by
  symm
  cases r with
  | none =>
    refine Slots.get_of_none (fun k i hk => h.2 k ?_) _
    exact names_iff_slots.2 ⟨i, hk⟩
  | some r =>
    obtain ⟨-, -, -, -, k, -, hk, hno, hinum⟩ := h
    obtain ⟨i, hi⟩ := names_iff_slots.1 hk
    have hr : (t.icache r.1).inum = i := hinum.trans (slots_eq_some_iff.1 hi).2.2.1
    show (s.disk.slots d).get _ _ = some (t.icache r.1).inum
    rw [hr]
    refine Slots.get_of_first hi ?_ fun j hj b hjb => hno j hj (names_iff_slots.2 ⟨b, hjb⟩)
    have := hk.1
    omega

/-- How `sys_unlink` clears the entry of a name, of a directory that stays locked. -/
def clearName (sb : Superblock) (dp : Slot) (name : List Byte) : FsM Unit := do
  let r ← dirlookup sb dp name
  match r with
  | none => pure ()
  | some (ip, off) => do
    let n ← writei sb dp off (List.replicate 16 0)
    if n ≠ 16 then throw .unlinkWritei else iput sb ip

/-- A locked directory of a consistent file system, in which no name is there twice. -/
structure OpenDir (sb : Superblock) (R : Slot → Nat) (L : Finset Slot) (dp : Slot) (s : Fs) :
    Prop where
  sound : Sound sb R L s
  locked : dp ∈ L
  dir : (s.icache dp).d.type = .dir
  size : (s.icache dp).d.size % 16 = 0
  distinct : (s.disk.slots (s.icache dp).inum).Distinct

inductive DirOp (sb : Superblock)
  | link (name : List Byte) (inum : Fin sb.ninodes)
  | clear (name : List Byte)

def DirOp.run (dp : Slot) : DirOp sb → FsM Unit
  | .link name inum => do let _ ← dirlink sb dp name inum
  | .clear name => clearName sb dp name

def dirMachine (sb : Superblock) (dp : Slot) : Machine Fs (DirOp sb) where
  init := fun s => ∃ R L, OpenDir sb R L dp s
  next := fun s op =>
    match op.run dp s with
    | .ok _ t => some t
    | .error _ _ => none

section
variable (h : OpenDir sb R L dp s)
include h

theorem OpenDir.get_eq_none_iff : s.disk.dirMap (s.icache dp).inum (cut 14 name) = none ↔
    ∀ k, ¬ s.disk.names (s.icache dp).inum k name := by
  rw [Vol.dirMap, Slots.get_eq_none_iff h.distinct (slots_below _ _)]
  simp only [names_iff_slots, not_exists, ne_eq]

theorem OpenDir.lookup (x : List Byte) : Wp (dirlookup sb dp x) s
      (fun r t => foundInum r t = s.disk.dirMap (s.icache dp).inum (cut 14 x))
      fun e _ => e = .igetNoInodes := by
  apply (dirlookup_sound h.sound h.locked x).mono
  · exact fun r t hr => hr.2.foundInum
  rintro e t ⟨he, -⟩
  rcases he with ⟨-, hd⟩ | ⟨-, hmod⟩ | he
  · exact (hd h.dir).elim
  · exact (hmod h.size).elim
  · exact he.1

theorem OpenDir.step (ht : Sound sb R L t) (hs : Stays R s t)
    (hsize : (t.disk.inode (s.icache dp).inum).size % 16 = 0)
    (hd : (t.disk.slots (s.icache dp).inum).Distinct) :
    (t.icache dp).inum = (s.icache dp).inum ∧ OpenDir sb R L dp t := by
  obtain ⟨hpos, hv⟩ := h.sound.held dp h.locked
  obtain ⟨hinum, hkeep⟩ := hs dp hpos
  refine ⟨hinum, ht, h.locked, (hkeep hv).2.trans h.dir, ?_, ?_⟩
  · rwa [← ht.inode_eq h.locked, hinum]
  · rwa [hinum]

theorem OpenDir.link (hinum : inum < sb.ninodes) : Wp (dirlink sb dp name inum) s
      (fun r t => ((t.icache dp).inum = (s.icache dp).inum ∧ OpenDir sb R L dp t) ∧
        (r = -1 ∧ s.disk.dirMap (s.icache dp).inum (cut 14 name) ≠ none ∧ t.disk = s.disk ∨
        r = 0 ∧ s.disk.dirMap (s.icache dp).inum (cut 14 name) = none ∧
          t.disk.dirMap (s.icache dp).inum = update (s.disk.dirMap (s.icache dp).inum)
            (cut 14 name) (if inum ≠ 0 then some inum else none)))
      fun _ _ => True := by
  have hsize : (s.disk.inode (s.icache dp).inum).size % 16 = 0 := by
    rw [h.sound.inode_eq h.locked]
    exact h.size
  apply (dirlink_sound (fun _ => True) h.sound h.locked hinum trivial fun _ _ => trivial).mono
  · rintro r t ⟨-, ht, hs, -, ⟨hr, hsame, k, hk⟩ | ⟨hr, hno, k, hadd⟩⟩
    · refine ⟨h.step ht hs ?_ ?_, .inl ⟨hr, fun hnone => ?_, hsame.1⟩⟩
      · rw [hsame.1]
        exact hsize
      · rw [hsame.1]
        exact h.distinct
      · exact h.get_eq_none_iff.1 hnone k hk
    · have hslots := hadd.slots (hinum.trans_le sb.ninodes_le)
      have hnone := h.get_eq_none_iff.2 hno
      have hbelow := slots_below t.disk (s.icache dp).inum
      have hsize' : (t.disk.inode (s.icache dp).inum).size % 16 = 0 := by
        have := hadd.written.size
        rw [length_entry] at this
        have := hadd.le
        omega
      by_cases hz : inum = 0
      · -- the slot stays free
        rw [if_neg (by simpa using hz), ← hadd.free_slot, update_eq_self] at hslots
        refine ⟨h.step ht hs hsize' (hslots ▸ h.distinct), .inr ⟨hr, hnone, ?_⟩⟩
        rw [if_neg (by simpa using hz), ← hnone, update_eq_self]
        funext x
        rw [hslots] at hbelow
        apply Option.ext
        intro i
        rw [Vol.dirMap, Vol.dirMap, hslots, Slots.get_eq_some_iff h.distinct hbelow,
          Slots.get_eq_some_iff h.distinct (slots_below _ _)]
      · rw [if_pos hz] at hslots ⊢
        have hx := (Slots.get_eq_none_iff h.distinct (slots_below _ _)).1 hnone
        rw [hslots] at hbelow
        refine ⟨h.step ht hs hsize' ?_, .inr ⟨hr, hnone, ?_⟩⟩
        · rw [hslots]
          exact h.distinct.put k hx
        · rw [Vol.dirMap, hslots]
          exact Slots.get_put h.distinct (slots_below _ _) hadd.free_slot hx hbelow
  · exact fun _ _ _ => trivial

theorem OpenDir.clear (name : List Byte) : Wp (clearName sb dp name) s
      (fun _ t => ((t.icache dp).inum = (s.icache dp).inum ∧ OpenDir sb R L dp t) ∧
        t.disk.dirMap (s.icache dp).inum =
          update (s.disk.dirMap (s.icache dp).inum) (cut 14 name) none)
      fun _ _ => True := by
  obtain ⟨hpos, hv⟩ := h.sound.held dp h.locked
  have hsize : (s.disk.inode (s.icache dp).inum).size % 16 = 0 := by
    rw [h.sound.inode_eq h.locked]
    exact h.size
  apply wp_bind (dirlookup_sound h.sound h.locked name) fun _ _ _ => trivial
  rintro r t ⟨-, hr⟩
  cases r with
  | none =>
    obtain ⟨rfl, hno⟩ := hr
    refine wp_pure ⟨h.step h.sound (.refl R t) hsize h.distinct, ?_⟩
    rw [← h.get_eq_none_iff.2 hno, update_eq_self]
  | some r =>
    obtain ⟨ip, off⟩ := r
    obtain ⟨ht, hs, hsame, -, k, rfl, hk, -, -⟩ := hr
    obtain ⟨hinum, hkeep⟩ := hs dp hpos
    have hzero : (Dirent.decode (List.replicate 16 0)).inum < sb.ninodes :=
      Nat.lt_of_le_of_lt (Nat.zero_le _) h.sound.proper.root
    have hksize := hk.1
    have hle : 16 * k ≤ (t.disk.inode (t.icache dp).inum).size := by
      rw [hinum, hsame.1]
      omega
    apply wp_bind (writeEntry_sound (fun _ => True) ht h.locked ((hkeep hv).2.trans h.dir) (by rfl)
      hzero hle trivial fun _ _ => trivial) fun _ _ _ => trivial
    rintro n u ⟨-, hn⟩
    apply wp_ite
    · exact fun _ => wp_throw trivial
    intro hok
    rcases hn with hn | ⟨-, hu, hs', hw⟩
    · exact (hok hn).elim
    rw [hinum, hsame.1] at hw
    apply (iput_sound hu).mono
    · rintro _ w ⟨hsw, hs'', hput⟩
      -- the directory is locked, so it is not the inode that is given back
      have huntouched : Untouched u.disk w.disk (s.icache dp).inum := by
        by_cases hlast : Last R ip u
        · apply (hput.last hlast).others
          intro he
          have hstay := hs.trans hs'.of_add
          rw [← (hstay dp hpos).1] at he
          obtain rfl := hu.refs.uniq dp ip (hpos.trans_le (le_addRef R ip dp)) (addRef_pos R ip) he
          have := hlast.1
          omega
        · rw [(hput.none hlast).1]
          exact .refl ..
      have hl := h.sound.live h.locked
      have hlu := (hw.live _).2 hl
      have hslots : w.disk.slots (s.icache dp).inum =
          update (s.disk.slots (s.icache dp).inum) k none := by
        rw [huntouched.slots hw.owned hlu, hw.slots_clear hksize]
      have hbelow := slots_below w.disk (s.icache dp).inum
      rw [hslots] at hbelow
      obtain ⟨i, hi⟩ := names_iff_slots.1 hk
      refine ⟨h.step hsw (hs.trans (hs'.of_add.trans hs'')) ?_ ?_, ?_⟩
      · have := hw.size
        rw [List.length_replicate] at this
        rw [huntouched.inode]
        omega
      · rw [hslots]
        exact h.distinct.clear k
      · rw [Vol.dirMap, hslots]
        exact Slots.get_clear h.distinct (slots_below _ _) hi hbelow
    · exact fun _ _ _ => trivial

end

theorem DirOp.run_open (op : DirOp sb) (h : OpenDir sb R L dp s) :
    Wp (op.run dp) s (fun _ t => OpenDir sb R L dp t) fun _ _ => True := by
  cases op with
  | link name inum =>
    apply wp_seq (h.link inum.isLt)
    exact fun _ _ ht => wp_pure ht.1.2
  | clear name => exact (h.clear name).post (fun _ _ ht => ht.1.2)

theorem openDir_of_reachable (h : (dirMachine sb dp).Reachable s) : ∃ R L, OpenDir sb R L dp s := by
  refine Machine.Reach.invariant (P := fun s => ∃ R L, OpenDir sb R L dp s) h (fun _ h => h)
    fun s op t _ hs _ hn => ?_
  obtain ⟨R, L, hs⟩ := hs
  have hn : (match op.run dp s with
    | .ok _ t => some t
    | .error _ _ => none) = some t := hn
  split at hn
  · rename_i u hr
    cases hn
    exact ⟨R, L, (op.run_open hs).ok hr⟩
  · cases hn

/-- A directory is a finite map from names, cut to 14 bytes: no two of its entries have the same
name, `dirlookup` gives the value of a name, `dirlink` puts a value for a name that has none and
changes nothing otherwise, and clearing the entry of a name takes its value away. -/
theorem directory_is_map (h : (dirMachine sb dp).Reachable s) :
    (∀ j k, (s.disk.slots (s.icache dp).inum j).isSome = true →
      (s.disk.slots (s.icache dp).inum k).isSome = true →
      namecmp (s.disk.entry (s.icache dp).inum j).name (s.disk.entry (s.icache dp).inum k).name = 0 →
      j = k) ∧
    (∀ x, Wp (dirlookup sb dp x) s
      (fun r t => foundInum r t = s.disk.dirMap (s.icache dp).inum (cut 14 x))
      fun e _ => e = .igetNoInodes) ∧
    (∀ name inum r t, inum < sb.ninodes → dirlink sb dp name inum s = .ok r t →
      (t.icache dp).inum = (s.icache dp).inum ∧
      (r = -1 ∧ s.disk.dirMap (s.icache dp).inum (cut 14 name) ≠ none ∧ t.disk = s.disk ∨
        r = 0 ∧ s.disk.dirMap (s.icache dp).inum (cut 14 name) = none ∧
          t.disk.dirMap (s.icache dp).inum = update (s.disk.dirMap (s.icache dp).inum)
            (cut 14 name) (if inum ≠ 0 then some inum else none))) ∧
    ∀ name t, clearName sb dp name s = .ok () t → (t.icache dp).inum = (s.icache dp).inum ∧
      t.disk.dirMap (s.icache dp).inum =
        update (s.disk.dirMap (s.icache dp).inum) (cut 14 name) none := by
  obtain ⟨R, L, ho⟩ := openDir_of_reachable h
  refine ⟨fun j k hj hk hcmp => ?_, ho.lookup, fun name inum r t hinum hr => ?_, fun name t hr => ?_⟩
  · obtain ⟨⟨x, i⟩, hj⟩ := Option.isSome_iff_exists.1 hj
    obtain ⟨⟨y, i'⟩, hk⟩ := Option.isSome_iff_exists.1 hk
    obtain rfl : x = y := by
      rw [← (slots_eq_some_iff.1 hj).2.2.2, ← (slots_eq_some_iff.1 hk).2.2.2]
      exact (namecmp_eq_zero_iff ..).1 hcmp
    exact ho.distinct j k x i i' hj hk
  · obtain ⟨⟨hd, -⟩, hres⟩ := (ho.link hinum).ok hr
    exact ⟨hd, hres⟩
  · obtain ⟨⟨hd, -⟩, hres⟩ := (ho.clear name).ok hr
    exact ⟨hd, hres⟩

def emptyDir : Fs :=
  ⟨⟨fun i => if i = rootIno then ⟨.dir, 0, 0, 1, 0, fun _ => 0⟩ else freeInode,
      fun b => decide (b < 59), fun _ _ => 0⟩,
    fun ip => if ip = slot0 then ⟨rootIno, 1, true, true, ⟨.dir, 0, 0, 1, 0, fun _ => 0⟩⟩
      else ⟨rootIno, 0, false, false, freeInode⟩, []⟩

theorem emptyDir_inode (i : Nat) : (emptyDir.disk.inode i).size = 0 ∧
    ∀ p, (emptyDir.disk.inode i).addrs p = 0 := by
  unfold emptyDir
  dsimp only
  split
  · exact ⟨rfl, fun _ => rfl⟩
  · exact ⟨rfl, fun _ => rfl⟩

theorem emptyDir_open : OpenDir mkfsSb bootRefs {slot0} slot0 emptyDir := by
  have hheld (i p b : Nat) : ¬ Holds mkfsSb emptyDir.disk i p b := by
    intro hh
    apply hh.ne
    rw [← hh.eq, Vol.held, (emptyDir_inode i).2 12, if_pos rfl, (emptyDir_inode i).2 p]
    split <;> rfl
  have hcache (ip : Slot) (hip : ip ≠ slot0) :
      emptyDir.icache ip = ⟨rootIno, 0, false, false, freeInode⟩ := if_neg hip
  refine ⟨⟨⟨fun ip => ?_, fun ip => ?_, fun ip jp hip hjp _ => ?_⟩, fun ip hip => ?_,
    fun ip hip _ => ?_, fun ip hip => ?_, ?_⟩, Finset.mem_singleton_self _, rfl, rfl, ?_⟩
  · by_cases hip : ip = slot0
    · rw [hip]
      rfl
    · rw [hcache ip hip, bootRefs, if_neg hip]
      rfl
  · rw [Finset.mem_singleton]
    by_cases hip : ip = slot0
    · rw [hip]
      exact ⟨fun _ => rfl, fun _ => rfl⟩
    · rw [hcache ip hip]
      exact ⟨fun he => Bool.noConfusion he, fun he => (hip he).elim⟩
  · rw [bootRefs_pos hip, bootRefs_pos hjp]
  · rw [Finset.mem_singleton.1 hip]
    exact ⟨by decide, rfl⟩
  · rw [bootRefs_pos hip]
    exact ⟨rfl, by decide⟩
  · rw [bootRefs_pos hip]
    decide
  · refine ⟨⟨fun i bn _ hlt => ?_, fun i p b hh => (hheld i p b hh).elim,
      fun i p b hh => (hheld i p b hh).elim, fun i p _ _ b hh => (hheld i p b hh).elim,
      fun b hb _ hu => ?_, fun b hb => decide_eq_true hb⟩, by decide, fun d k _ _ hk => ?_⟩
    · rw [(emptyDir_inode i).1] at hlt
      omega
    · have hu : b < 59 := of_decide_eq_true hu
      exact (Nat.not_lt.2 hb hu).elim
    · rw [(emptyDir_inode d).1] at hk
      omega
  · intro j k x a b hj
    have := (slots_eq_some_iff.1 hj).1
    rw [(emptyDir_inode _).1] at this
    omega

theorem directory_is_map_three : ∃ s,
    (s.disk.dirMap rootIno [98] = some 7 ∧ s.disk.dirMap rootIno [97] = none) ∧
    (s.icache slot0).inum = rootIno ∧
    ∀ x, Wp (dirlookup mkfsSb slot0 x) s
      (fun r t => foundInum r t = s.disk.dirMap (s.icache slot0).inum (cut 14 x))
      fun e _ => e = .igetNoInodes := by
  obtain ⟨s, hreach, hs⟩ := Machine.Reach.exists_run (M := dirMachine mkfsSb slot0)
    (P := fun s => (s.disk.dirMap rootIno [98] = some 7 ∧ s.disk.dirMap rootIno [97] = none) ∧
      (s.icache slot0).inum = rootIno)
    (l := [.link [97] ⟨5, by decide⟩, .link [98] ⟨7, by decide⟩, .link [98] ⟨9, by decide⟩,
      .clear [97]])
    (.init ⟨_, _, emptyDir_open⟩) (Machine.permits_true _ _) (by decide +kernel)
  exact ⟨s, hs.1, hs.2, (directory_is_map hreach).2.1⟩

end Xv6Signals
