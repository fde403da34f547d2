import Xv6Signals.Lib.Bytes
import Xv6Signals.Lib.Wp

namespace Xv6Signals
open Lib Function

/-- Where the parts of the disk lie: the inodes from `inodestart` on, the free bitmap from
`bmapstart` on, and `nblocks` data blocks at the end. Block numbers have 32 bits and inode numbers,
in directories, 16. -/
structure Superblock where
  size : Nat
  nblocks : Nat
  ninodes : Nat
  inodestart : Nat
  bmapstart : Nat
  size_le : size ≤ 2 ^ 32
  nblocks_lt : nblocks < size
  ninodes_le : ninodes ≤ 2 ^ 16

def mkfsSb : Superblock := ⟨1000, 941, 200, 32, 58, by decide, by decide, by decide⟩

def Superblock.iblock (sb : Superblock) (i : Nat) : Nat := i / 8 + sb.inodestart

def Superblock.bblock (sb : Superblock) (b : Nat) : Nat := b / 4096 + sb.bmapstart

def Superblock.nmeta (sb : Superblock) : Nat := sb.size - sb.nblocks

inductive FileType
  | free | dir | file | dev
  deriving DecidableEq

/-- An inode on the disk: `addrs` has the twelve direct blocks and, at 12, the indirect one. -/
structure Dinode where
  type : FileType
  major : Int
  minor : Int
  nlink : Int
  size : Nat
  addrs : Nat → Nat

/-- What the blocks hold, as the buffer cache shows them: the inodes, the free bitmap, and the
bytes of the other blocks. -/
structure Vol where
  inode : Nat → Dinode
  used : Nat → Bool
  data : Nat → Bytes

structure Inode where
  inum : Nat
  ref : Int
  locked : Bool
  valid : Bool
  d : Dinode

abbrev Slot := Fin 50

/-- The disk, the inode cache, and the blocks that were given to `log_write` since `begin_op`. -/
structure Fs where
  disk : Vol
  icache : Slot → Inode
  logged : List Nat

inductive FsPanic
  | outOfBlocks | freeingFreeBlock | outOfRange | noInodes | igetNoInodes | ilock | noType
  | iunlock | dirlookupNotDir | dirlookupRead | dirlinkRead | dirlink | isdirempty
  | unlinkNlink | unlinkWritei | createDots | createDirlink
  -- no panic: a process that waits for a lock of its own
  | deadlock
  deriving DecidableEq

abbrev FsM := EStateM FsPanic Fs

def Fs.setDisk (s : Fs) (v : Vol) : Fs := { s with disk := v }

def Fs.setInode (s : Fs) (ip : Slot) (e : Inode) : Fs :=
  { s with icache := update s.icache ip e }

theorem Fs.setInode_self (s : Fs) (ip : Slot) (e : Inode) : (s.setInode ip e).icache ip = e :=
  update_self ..

theorem Fs.setInode_of_ne {ip jp : Slot} (h : jp ≠ ip) (s : Fs) (e : Inode) :
    (s.setInode ip e).icache jp = s.icache jp :=
  update_of_ne h ..

theorem Fs.setInode_idem (s : Fs) (ip : Slot) (e e' : Inode) :
    (s.setInode ip e).setInode ip e' = s.setInode ip e' := by
  simp only [Fs.setInode, update_idem]

def Fs.setCopy (s : Fs) (ip : Slot) (d : Dinode) : Fs :=
  s.setInode ip { s.icache ip with d := d }

def Dinode.setAddr (d : Dinode) (k b : Nat) : Dinode :=
  { d with addrs := update d.addrs k b }

def Vol.setUsed (v : Vol) (b : Nat) (u : Bool) : Vol :=
  { v with used := update v.used b u }

def Vol.setData (v : Vol) (b : Nat) (m : Bytes) : Vol :=
  { v with data := update v.data b m }

def Vol.setInode (v : Vol) (i : Nat) (d : Dinode) : Vol :=
  { v with inode := update v.inode i d }

def logWrite (b : Nat) : FsM Unit := modify fun s => { s with logged := b :: s.logged }

def beginOp : FsM Unit := modify fun s => { s with logged := [] }

def bzero (b : Nat) : FsM Unit := do
  modify fun s => s.setDisk (s.disk.setData b fun _ => 0)
  logWrite b

variable (sb : Superblock)

def balloc : FsM Nat := do
  let s ← get
  match (List.range sb.size).find? fun b => !s.disk.used b with
  | some b => do
    modify fun s => s.setDisk (s.disk.setUsed b true)
    logWrite (sb.bblock b)
    bzero b
    pure b
  | none => throw .outOfBlocks

def bfree (b : Nat) : FsM Unit := do
  let s ← get
  if s.disk.used b = false then throw .freeingFreeBlock
  else do
    modify fun s => s.setDisk (s.disk.setUsed b false)
    logWrite (sb.bblock b)

/-- The entry of the inode cache that has the inode, or else the first one that is free. -/
def iget (inum : Nat) : FsM Slot := do
  let s ← get
  match (List.finRange 50).find? fun ip => 0 < (s.icache ip).ref ∧ (s.icache ip).inum = inum with
  | some ip => do
    modify fun s => s.setInode ip { s.icache ip with ref := (s.icache ip).ref + 1 }
    pure ip
  | none =>
    match (List.finRange 50).find? fun ip => (s.icache ip).ref = 0 with
    | some ip => do
      modify fun s => s.setInode ip { s.icache ip with inum := inum, ref := 1, valid := false }
      pure ip
    | none => throw .igetNoInodes

def ialloc (type : FileType) : FsM Slot := do
  let s ← get
  match (List.range' 1 (sb.ninodes - 1)).find? fun i => (s.disk.inode i).type = .free with
  | some i => do
    modify fun s => s.setDisk (s.disk.setInode i ⟨type, 0, 0, 0, 0, fun _ => 0⟩)
    logWrite (sb.iblock i)
    iget i
  | none => throw .noInodes

def iupdate (ip : Slot) : FsM Unit := do
  let s ← get
  modify fun s => s.setDisk (s.disk.setInode (s.icache ip).inum (s.icache ip).d)
  logWrite (sb.iblock (s.icache ip).inum)

def idup (ip : Slot) : FsM Slot := do
  modify fun s => s.setInode ip { s.icache ip with ref := (s.icache ip).ref + 1 }
  pure ip

/-- Nobody else runs, so a lock that is taken is one that the caller has. -/
def acquiresleep (ip : Slot) : FsM Unit := do
  let s ← get
  if (s.icache ip).locked then throw .deadlock
  else modify fun s => s.setInode ip { s.icache ip with locked := true }

def releasesleep (ip : Slot) : FsM Unit :=
  modify fun s => s.setInode ip { s.icache ip with locked := false }

def iload (ip : Slot) : FsM Unit := do
  modify fun s => s.setInode ip
    { s.icache ip with valid := true, d := s.disk.inode (s.icache ip).inum }
  let s ← get
  if (s.icache ip).d.type = .free then throw .noType else pure ()

def ilock (ip : Slot) : FsM Unit := do
  let s ← get
  if (s.icache ip).ref < 1 then throw .ilock
  else do
    acquiresleep ip
    if (s.icache ip).valid then pure () else iload ip

def iunlock (ip : Slot) : FsM Unit := do
  let s ← get
  if (s.icache ip).locked = false ∨ (s.icache ip).ref < 1 then throw .iunlock
  else releasesleep ip

def addrAt (ip : Slot) (k : Nat) : FsM Nat := do
  let s ← get
  if (s.icache ip).d.addrs k = 0 then do
    let b ← balloc sb
    modify fun s => s.setCopy ip ((s.icache ip).d.setAddr k b)
    pure b
  else pure ((s.icache ip).d.addrs k)

def entryAt (ind j : Nat) : FsM Nat := do
  let s ← get
  if (s.disk.data ind).word j = 0 then do
    let b ← balloc sb
    modify fun s => s.setDisk (s.disk.setData ind ((s.disk.data ind).setWord j b))
    logWrite ind
    pure b
  else pure ((s.disk.data ind).word j)

def bmap (ip : Slot) (bn : Nat) : FsM Nat :=
  if bn < 12 then addrAt sb ip bn
  else if bn - 12 < 128 then do
    let ind ← addrAt sb ip 12
    entryAt sb ind (bn - 12)
  else throw .outOfRange

def truncAddr (ip : Slot) (k : Nat) : FsM Unit := do
  let s ← get
  if (s.icache ip).d.addrs k = 0 then pure ()
  else do
    bfree sb ((s.icache ip).d.addrs k)
    modify fun s => s.setCopy ip ((s.icache ip).d.setAddr k 0)

def truncIndirect (ip : Slot) : FsM Unit := do
  let s ← get
  let ind := (s.icache ip).d.addrs 12
  if ind = 0 then pure ()
  else do
    (List.range 128).forM fun j =>
      if (s.disk.data ind).word j = 0 then pure () else bfree sb ((s.disk.data ind).word j)
    bfree sb ind
    modify fun s => s.setCopy ip ((s.icache ip).d.setAddr 12 0)

def itrunc (ip : Slot) : FsM Unit := do
  (List.range 12).forM (truncAddr sb ip)
  truncIndirect sb ip
  modify fun s => s.setCopy ip { (s.icache ip).d with size := 0 }
  iupdate sb ip

def ifree (ip : Slot) : FsM Unit := do
  itrunc sb ip
  modify fun s => s.setCopy ip { (s.icache ip).d with type := .free }
  iupdate sb ip
  modify fun s => s.setInode ip { s.icache ip with valid := false }

def ifreeLast (ip : Slot) : FsM Unit := do
  let s ← get
  if (s.icache ip).valid = true ∧ (s.icache ip).d.nlink = 0 ∧ (s.icache ip).ref = 1 then ifree sb ip
  else pure ()

def iput (ip : Slot) : FsM Unit := do
  acquiresleep ip
  ifreeLast sb ip
  releasesleep ip
  modify fun s => s.setInode ip { s.icache ip with ref := (s.icache ip).ref - 1 }

def iunlockput (ip : Slot) : FsM Unit := do
  iunlock ip
  iput sb ip

/-- The loop of `readi`; no more rounds are needed than there are bytes. -/
def readLoop (ip : Slot) : Nat → Nat → Nat → FsM (List Byte)
  | 0, _, _ => pure []
  | fuel + 1, off, n =>
    if n = 0 then pure []
    else do
      let b ← bmap sb ip (off / 512)
      let s ← get
      let m := min n (512 - off % 512)
      let rest ← readLoop ip fuel (off + m) (n - m)
      pure ((s.disk.data b).read (off % 512) m ++ rest)

def readi (ip : Slot) (off n : Nat) : FsM (Option (List Byte)) := do
  let s ← get
  let size := (s.icache ip).d.size
  if size < off ∨ (off + n) % 2 ^ 32 < off then pure none
  else do
    let n := if size < off + n then size - off else n
    let bytes ← readLoop sb ip n off n
    pure (some bytes)

def writeLoop (ip : Slot) : Nat → Nat → List Byte → FsM Unit
  | 0, _, _ => pure ()
  | fuel + 1, off, src =>
    if src = [] then pure ()
    else do
      let b ← bmap sb ip (off / 512)
      let m := min src.length (512 - off % 512)
      modify fun s => s.setDisk
        (s.disk.setData b ((s.disk.data b).write (off % 512) (src.take m)))
      logWrite b
      writeLoop ip fuel (off + m) (src.drop m)

def growTo (ip : Slot) (n off : Nat) : FsM Unit := do
  let s ← get
  if 0 < n ∧ (s.icache ip).d.size < off then do
    modify fun s => s.setCopy ip { (s.icache ip).d with size := off }
    iupdate sb ip
  else pure ()

def console : Int := 1

def writei (ip : Slot) (off : Nat) (src : List Byte) : FsM Int := do
  let s ← get
  let d := (s.icache ip).d
  let n := src.length
  if d.type = .dev then pure (if d.major = console then (n : Int) else -1)
  else if d.size < off ∨ (off + n) % 2 ^ 32 < off then pure (-1)
  else if 140 * 512 < (off + n) % 2 ^ 32 then pure (-1)
  else do
    writeLoop sb ip n off src
    growTo sb ip n (off + n)
    pure (n : Int)

end Xv6Signals
