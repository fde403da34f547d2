import Xv6Signals.Fs.Boot
import Xv6Signals.Fs.Contents
import Xv6Signals.Fs.Files
import Xv6Signals.Fs.OtherCalls
import Xv6Signals.Lib.Machine

namespace Xv6Signals
open Lib List

variable {sb : Superblock} {f : FileSlot} {v v' : Vol} {i off : Nat} {src bs : List Byte}

def filewriteRound (sb : Superblock) (f : FileSlot) (src : List Byte) : SysM Bool := do
  let s ← get
  let n := min src.length 1536
  let r ← liftFs (writeChunk sb (s.file f).ip (s.file f).off (src.take n))
  if r < 0 then pure false
  else do
    modify fun s => s.setFile f { s.file f with off := ((s.file f).off + r.toNat) % 2 ^ 32 }
    if r ≠ n then throw .shortFilewrite else pure true

theorem filewriteLoop_eq (sb : Superblock) (f : FileSlot) (fuel : Nat) (h : src ≠ []) :
    filewriteLoop sb f (fuel + 1) src = (do
      let more ← filewriteRound sb f src
      if more then filewriteLoop sb f fuel (src.drop 1536) else pure false) := by
  have hdrop : src.drop (min src.length 1536) = src.drop 1536 := by
    rw [drop_eq_drop_iff]
    omega
  rw [filewriteLoop, if_neg h]
  simp only [filewriteRound, bind_assoc, hdrop]
  congr 1
  funext s
  congr 1
  funext r
  split
  · rfl
  · simp only [bind_assoc]
    congr 1
    funext _
    split <;> rfl

/-- A call of `filewrite` in its loop: the bytes that are still to be written, and what the call has
returned. -/
structure Writer where
  buf : List Byte
  rest : List Byte
  ret : Option Int
  deriving DecidableEq

/-- Calls of `filewrite` on one open file, and the pieces that they have written, each with the
number of the call, in the order of the writes. -/
structure Shared where
  sys : Sys
  calls : List Writer
  chunks : List (Nat × List Byte)

inductive SharedLabel
  | call (buf : List Byte)
  | go (i : Nat)
  deriving DecidableEq

/-- Call `i` does one round, in which it holds the lock of the inode, or returns. There is no next
state when it panics. -/
def Shared.go (sb : Superblock) (f : FileSlot) (s : Shared) (i : Nat) (a : Writer) :
    Option Shared :=
  if a.rest = [] then
    some { s with calls := s.calls.set i { a with ret := some a.buf.length } }
  else
    match filewriteRound sb f a.rest s.sys with
    | .error _ _ => none
    | .ok more t =>
      if more then
        some ⟨t, s.calls.set i { a with rest := a.rest.drop 1536 },
          s.chunks ++ [(i, a.rest.take 1536)]⟩
      else some ⟨t, s.calls.set i { a with ret := some (-1) }, s.chunks⟩

def Shared.next (sb : Superblock) (f : FileSlot) (s : Shared) : SharedLabel → Option Shared
  | .call buf => some { s with calls := s.calls ++ [⟨buf, buf, none⟩] }
  | .go i =>
    match s.calls[i]? with
    | none => none
    | some a => if a.ret = none then s.go sb f i a else none

def Sys.fileInum (s : Sys) (f : FileSlot) : Nat := (s.fs.icache (s.file f).ip).inum

def Sys.fileInode (s : Sys) (f : FileSlot) : Dinode := s.fs.disk.inode (s.fileInum f)

def Sys.contents (s : Sys) (f : FileSlot) : List Byte :=
  (s.fs.disk.byte (s.fileInum f)).read 0 (s.fileInode f).size

structure AtEnd (sb : Superblock) (f : FileSlot) (s : Sys) : Prop where
  sound : ∃ R, Sound sb R ∅ s.fs ∧ 0 < R (s.file f).ip
  regular : (s.fileInode f).type = .file
  off : (s.file f).off = (s.fileInode f).size

structure SharedStart (sb : Superblock) (f : FileSlot) (s : Shared) : Prop where
  atEnd : AtEnd sb f s.sys
  kind : (s.sys.file f).kind = .inode
  writable : (s.sys.file f).writable = true
  calls : s.calls = []
  chunks : s.chunks = []

def sharedMachine (sb : Superblock) (f : FileSlot) : Machine Shared SharedLabel where
  init := SharedStart sb f
  next := Shared.next sb f

theorem Written.append (h : Written sb v v' i (v.inode i).size bs) :
    (v'.inode i).size = (v.inode i).size + bs.length ∧
    (v'.byte i).read 0 (v'.inode i).size = (v.byte i).read 0 (v.inode i).size ++ bs := by
  have hsize : (v'.inode i).size = (v.inode i).size + bs.length := by
    rw [h.size]
    omega
  refine ⟨hsize, ?_⟩
  rw [hsize, Bytes.read_add, Nat.zero_add]
  congr 1
  · apply Bytes.read_congr
    intro k hk
    rw [h.bytes _ (.inl (by omega)), Bytes.write_outside (.inl (by omega))]
  · rw [← Bytes.read_write (v.byte i) (v.inode i).size bs, Bytes.length_read]
    apply Bytes.read_congr
    intro k hk
    exact h.bytes _ (.inr ⟨by omega, by omega⟩)

variable {s t : Sys}

theorem filewriteRound_appends (h : AtEnd sb f s) (src : List Byte) :
    Leaves (filewriteRound sb f src) s fun more t => AtEnd sb f t ∧
      t.contents f = s.contents f ++ if more then src.take 1536 else [] := by
  obtain ⟨R, hsound, hip⟩ := h.sound
  have htake : src.take (min src.length 1536) = src.take 1536 := by
    rw [take_eq_take_iff]
    omega
  have hlen : (src.take 1536).length < 2 ^ 32 := by
    rw [length_take]
    omega
  have hdir : (s.fileInode f).type ≠ .dir := by
    rw [h.regular]
    decide
  apply wp_get_bind
  dsimp only
  rw [htake]
  apply wp_bind (P := fun r t => ∃ fs, t = { s with fs := fs } ∧ Sound sb R ∅ fs ∧
      Stays R s.fs fs ∧ ChunkDone sb (s.file f).ip (s.file f).off (src.take 1536) s.fs r fs)
    (F := fun _ _ => True)
  · have hrun := writeChunk_sound hsound hip hdir (s.file f).off (src.take 1536) hlen
    unfold Wp at hrun ⊢
    unfold liftFs
    split at hrun
    · rename_i r fs hx
      rw [hx]
      exact ⟨fs, rfl, hrun⟩
    · rename_i e fs hx
      rw [hx]
      trivial
  · exact fun _ _ he => he
  rintro r _ ⟨fs, rfl, hfs, hstays, hdone⟩
  have hinum : (fs.icache (s.file f).ip).inum = s.fileInum f := (hstays _ hip).1
  apply wp_ite
  · intro hneg
    rcases hdone with ⟨hsame, -⟩ | ⟨hr, -⟩
    · have hdisk : fs.disk = s.fs.disk := hsame.1
      have hi : Sys.fileInode { s with fs := fs } f = s.fileInode f := by
        rw [Sys.fileInode, Sys.fileInum, hinum, hdisk, Sys.fileInode]
      refine wp_pure ⟨⟨⟨R, hfs, hip⟩, hi ▸ h.regular, hi ▸ h.off⟩, ?_⟩
      rw [Sys.contents, hi, Sys.fileInum, hinum, hdisk]
      exact (append_nil _).symm
    · omega
  intro hpos
  apply wp_modify_bind
  apply wp_ite
  · exact fun _ => wp_throw trivial
  intro hr
  rcases hdone with ⟨-, hdev⟩ | ⟨hr', hw, -⟩
  · have := hdev (by rw [← Sys.fileInum, ← Sys.fileInode, h.regular]; decide)
    omega
  rw [← Sys.fileInum, h.off] at hw
  obtain ⟨hsize, hbytes⟩ := hw.append
  have hlive : s.fs.disk.live sb (s.fileInum f) := by
    refine ⟨hsound.range _ hip, ?_⟩
    rw [← Sys.fileInode, h.regular]
    decide
  have hle := hw.owned.size_le ((hw.live _).2 hlive)
  generalize hu : Sys.setFile _ _ _ = u
  have hfs' : u.fs = fs := by rw [← hu]; rfl
  have hfile : u.file f = { s.file f with
      off := ((s.file f).off + r.toNat) % 2 ^ 32 } := by
    rw [← hu]
    exact Function.update_self ..
  have hnum : u.fileInum f = s.fileInum f := by
    rw [Sys.fileInum, hfs', hfile]
    exact hinum
  have hi : u.fileInode f = fs.disk.inode (s.fileInum f) := by
    rw [Sys.fileInode, hnum, hfs']
  refine wp_pure ⟨⟨⟨R, ?_, ?_⟩, ?_, ?_⟩, ?_⟩
  · rw [hfs']
    exact hfs
  · rw [hfile]
    exact hip
  · rw [hi, hw.fields]
    exact h.regular
  · rw [hfile, hi, hsize]
    show ((s.file f).off + r.toNat) % 2 ^ 32 = _
    have hoff : (s.file f).off = (s.fs.disk.inode (s.fileInum f)).size := h.off
    omega
  · rw [Sys.contents, hi, hnum, hfs']
    exact hbytes

def chunksOf (l : List (Nat × List Byte)) (i : Nat) : List (List Byte) :=
  (l.filter (·.1 == i)).map Prod.snd

theorem chunksOf_append_self (l : List (Nat × List Byte)) (i : Nat) (bs : List Byte) :
    chunksOf (l ++ [(i, bs)]) i = chunksOf l i ++ [bs] := by
  have hself : [(i, bs)].filter (·.1 == i) = [(i, bs)] := by
    rw [filter_eq_self]
    intro c hc
    rw [mem_singleton.1 hc, beq_self_eq_true]
  rw [chunksOf, filter_append, map_append, hself]
  rfl

theorem chunksOf_append_of_ne (l : List (Nat × List Byte)) {i j : Nat} (h : i ≠ j)
    (bs : List Byte) : chunksOf (l ++ [(i, bs)]) j = chunksOf l j := by
  have hnone : [(i, bs)].filter (·.1 == j) = [] := by
    rw [filter_eq_nil_iff]
    intro c hc
    rw [mem_singleton.1 hc, beq_iff_eq]
    exact h
  rw [chunksOf, filter_append, hnone, append_nil, chunksOf]

structure Writer.Sound (a : Writer) (pieces : List (List Byte)) : Prop where
  bytes : pieces.flatten ++ a.rest = a.buf
  sizes : ∀ c ∈ pieces, 0 < c.length ∧ c.length ≤ 1536
  ret : a.ret = some (a.buf.length : Int) → a.rest = []

structure SharedInv (sb : Superblock) (f : FileSlot) (start s : Shared) : Prop where
  atEnd : AtEnd sb f s.sys
  contents : s.sys.contents f = start.sys.contents f ++ (s.chunks.map Prod.snd).flatten
  calls : ∀ i (a : Writer), s.calls[i]? = some a → a.Sound (chunksOf s.chunks i)
  known : ∀ c ∈ s.chunks, c.1 < s.calls.length

variable {start x y : Shared} {a a' : Writer}

theorem SharedStart.inv (h : SharedStart sb f x) : SharedInv sb f x x := by
  refine ⟨h.atEnd, ?_, ?_, ?_⟩
  · rw [h.chunks]
    exact (append_nil _).symm
  · intro i a ha
    rw [h.calls] at ha
    cases ha
  · intro c hc
    rw [h.chunks] at hc
    cases hc

section

variable (h : SharedInv sb f start x)
include h

theorem SharedInv.set_call (hend : AtEnd sb f t)
    (hcontents : t.contents f = x.sys.contents f) (ha' : a'.Sound (chunksOf x.chunks i)) :
    SharedInv sb f start ⟨t, x.calls.set i a', x.chunks⟩ := by
  refine ⟨hend, hcontents.trans h.contents, ?_, ?_⟩
  · intro j b hb
    rw [getElem?_set] at hb
    split at hb
    · rename_i hij
      subst hij
      split at hb
      · cases hb
        exact ha'
      · cases hb
    · exact h.calls j b hb
  · intro c hc
    rw [length_set]
    exact h.known c hc

theorem SharedInv.write_piece (ha : x.calls[i]? = some a)
    (hrest : a.rest ≠ []) (hend : AtEnd sb f t)
    (hcontents : t.contents f = x.sys.contents f ++ a.rest.take 1536) (hret : a.ret = none) :
    SharedInv sb f start ⟨t, x.calls.set i { a with rest := a.rest.drop 1536 },
      x.chunks ++ [(i, a.rest.take 1536)]⟩ := by
  have hlt : i < x.calls.length := (List.getElem?_eq_some_iff.1 ha).1
  have hsound := h.calls i a ha
  have hpos : 0 < a.rest.length := length_pos_iff.2 hrest
  refine ⟨hend, ?_, ?_, ?_⟩
  · rw [hcontents, h.contents, map_append, flatten_append, append_assoc,
      map_singleton, flatten_singleton]
  · intro j b hb
    by_cases hij : i = j
    · subst hij
      rw [getElem?_set_self hlt] at hb
      cases hb
      rw [chunksOf_append_self]
      refine ⟨?_, ?_, ?_⟩
      · rw [flatten_append, append_assoc]
        rw [flatten_singleton, take_append_drop]
        exact hsound.bytes
      · intro c hc
        rcases mem_append.1 hc with hc | hc
        · exact hsound.sizes c hc
        · rw [mem_singleton.1 hc, length_take]
          omega
      · intro hr
        rw [hret] at hr
        cases hr
    · rw [getElem?_set_ne hij] at hb
      rw [chunksOf_append_of_ne _ hij]
      exact h.calls j b hb
  · intro c hc
    rw [length_set]
    rcases mem_append.1 hc with hc | hc
    · exact h.known c hc
    · rw [mem_singleton.1 hc]
      exact hlt

theorem SharedInv.begin (buf : List Byte) :
    SharedInv sb f start { x with calls := x.calls ++ [⟨buf, buf, none⟩] } where
  atEnd := h.atEnd
  contents := h.contents
  calls := by
    intro i a ha
    rw [getElem?_append] at ha
    split at ha
    · exact h.calls i a ha
    rename_i hge
    have hnone : chunksOf x.chunks i = [] := by
      rw [chunksOf, map_eq_nil_iff, filter_eq_nil_iff]
      intro c hc
      have := h.known c hc
      rw [beq_iff_eq]
      omega
    cases mem_singleton.1 (mem_of_getElem? ha)
    rw [hnone]
    refine ⟨rfl, fun c hc => ?_, fun hr => ?_⟩
    · cases hc
    · cases hr
  known := by
    intro c hc
    rw [length_append]
    exact Nat.lt_add_right _ (h.known c hc)

theorem SharedInv.go (ha : x.calls[i]? = some a) (hret : a.ret = none)
    (hgo : x.go sb f i a = some y) : SharedInv sb f start y := by
  have hsound := h.calls i a ha
  unfold Shared.go at hgo
  split at hgo
  · rename_i hrest
    cases hgo
    exact h.set_call h.atEnd rfl ⟨hsound.bytes, hsound.sizes, fun _ => hrest⟩
  rename_i hrest
  have hround := filewriteRound_appends h.atEnd a.rest
  unfold Leaves Wp at hround
  split at hgo
  · cases hgo
  rename_i more t hrun
  rw [hrun] at hround
  obtain ⟨hend, hcontents⟩ := hround
  cases more with
  | true =>
    cases hgo
    exact h.write_piece ha hrest hend hcontents hret
  | false =>
    cases hgo
    refine h.set_call hend (hcontents.trans (append_nil _)) ?_
    refine ⟨hsound.bytes, hsound.sizes, fun hr => ?_⟩
    have hneg : (-1 : Int) = a.buf.length := Option.some.inj hr
    omega

theorem SharedInv.step {l : SharedLabel}
    (hs : x.next sb f l = some y) : SharedInv sb f start y := by
  cases l with
  | call buf =>
    cases hs
    exact h.begin buf
  | go i =>
    simp only [Shared.next] at hs
    split at hs
    · cases hs
    rename_i a ha
    split at hs
    · rename_i hret
      exact h.go ha hret hs
    · cases hs

end

/-- When all calls have returned the number of their bytes, the contents have grown by the pieces
in the order in which they were written, and the pieces of each call are its buffer. -/
theorem shared_writes_interleave (hstart : SharedStart sb f start)
    (hrun : (sharedMachine sb f).Path (fun _ _ => True) start x)
    (hdone : ∀ a ∈ x.calls, a.ret = some (a.buf.length : Int)) :
    x.sys.contents f = start.sys.contents f ++ (x.chunks.map Prod.snd).flatten ∧
    (∀ i (a : Writer), x.calls[i]? = some a → (chunksOf x.chunks i).flatten = a.buf ∧
      ∀ c ∈ chunksOf x.chunks i, 0 < c.length ∧ c.length ≤ 1536) ∧
    (∀ c ∈ x.chunks, c.1 < x.calls.length) ∧
    (x.sys.file f).off = (x.sys.fileInode f).size := by
  have h : SharedInv sb f start x := by
    refine hrun.invariant (P := SharedInv sb f start) hstart.inv ?_
    intro u l w hu _ hs
    exact hu.step hs
  refine ⟨h.contents, ?_, h.known, h.atEnd.off⟩
  intro i a ha
  have hsound := h.calls i a ha
  have hrest := hsound.ret (hdone a (mem_of_getElem? ha))
  refine ⟨?_, hsound.sizes⟩
  rw [← hsound.bytes, hrest, append_nil]

def file0 : FileSlot := ⟨0, by decide⟩

def sharedHello (v : Vol) : Shared :=
  ⟨⟨⟨v, fun ip => ⟨2, if ip = slot0 then 1 else 0, false, false, freeInode⟩, []⟩,
    fun _ => ⟨.inode, 2, false, true, 0, slot0, (v.inode 2).size⟩, fun _ => none, fun _ => none⟩,
    [], []⟩

theorem shared_writes_interleave_two :
    ∃ v x, (sharedMachine mkfsSb file0).Path (fun _ _ => True) (sharedHello v) x ∧
      x.chunks.map Prod.fst = [0, 1, 0] ∧
      x.sys.contents file0 =
        (sharedHello v).sys.contents file0 ++ (x.chunks.map Prod.snd).flatten := by
  obtain ⟨v, himage, htest⟩ := Mkfs.image_of_runs [helloFile]
    (fun v => ((sharedMachine mkfsSb file0).run (sharedHello v)
      [.call (List.replicate 1537 1), .call [2], .go 0, .go 1, .go 0, .go 0, .go 1]).any
        fun (x : Shared) => decide (x.chunks.map Prod.fst = [0, 1, 0] ∧
          ∀ a ∈ x.calls, a.ret = some (a.buf.length : Int)))
    (by decide +kernel) (by decide) (by decide) (by decide) (by decide)
  have hproper := himage.proper (by decide)
  have hstart : SharedStart mkfsSb file0 (sharedHello v) := by
    refine ⟨⟨⟨bootRefs, cached_sound hproper (by decide), Nat.one_pos⟩, ?_, rfl⟩, rfl, rfl, rfl, ?_⟩
    · exact (himage.file 0 helloFile rfl).type
    · rfl
  obtain ⟨x, hx, hchunks, hdone⟩ := Machine.Path.exists_run (Machine.permits_true _ _) htest
  exact ⟨v, x, hx, hchunks, (shared_writes_interleave hstart hx hdone).1⟩

end Xv6Signals
