import Xv6Signals.Fs.Inode
import Xv6Signals.Proc

namespace Xv6Signals
open Lib

def strncmp : Nat → List Byte → List Byte → Int
  | 0, _, _ => 0
  | n + 1, p, q =>
    if p.headD 0 ≠ 0 ∧ p.headD 0 = q.headD 0 then strncmp n p.tail q.tail
    else (p.headD 0).toNat - (q.headD 0).toNat

def strncpy : Nat → List Byte → List Byte
  | 0, _ => []
  | n + 1, t => if t.headD 0 = 0 then List.replicate (n + 1) 0 else t.headD 0 :: strncpy n t.tail

def namecmp (s t : List Byte) : Int := strncmp 14 s t

structure Dirent where
  inum : Nat
  name : List Byte

def Dirent.decode (bs : List Byte) : Dirent :=
  ⟨(bs.getD 0 0).toNat + 256 * (bs.getD 1 0).toNat, bs.drop 2⟩

def Dirent.encode (de : Dirent) : List Byte :=
  BitVec.ofNat 8 de.inum :: BitVec.ofNat 8 (de.inum / 256) :: de.name

variable (sb : Superblock)

/-- The loops over the entries of a directory: the first entry from `off` on that passes the test,
and where the loop has stopped. -/
def findEntry (dp : Slot) (msg : FsPanic) (test : Dirent → Bool) :
    Nat → Nat → FsM (Nat × Option Dirent)
  | 0, off => pure (off, none)
  | fuel + 1, off => do
    let s ← get
    if off < (s.icache dp).d.size then do
      let r ← readi sb dp off 16
      let bytes := r.getD []
      if bytes.length = 16 then
        if test (.decode bytes) then pure (off, some (.decode bytes))
        else findEntry dp msg test fuel (off + 16)
      else throw msg
    else pure (off, none)

def scanDir (dp : Slot) (msg : FsPanic) (test : Dirent → Bool) (off : Nat) :
    FsM (Nat × Option Dirent) := do
  let s ← get
  findEntry sb dp msg test ((s.icache dp).d.size / 16 + 1) off

def dirlookup (dp : Slot) (name : List Byte) : FsM (Option (Slot × Nat)) := do
  let s ← get
  if (s.icache dp).d.type ≠ .dir then throw .dirlookupNotDir
  else do
    let r ← scanDir sb dp .dirlookupRead (fun de => de.inum ≠ 0 ∧ namecmp name de.name = 0) 0
    match r.2 with
    | some de => do
      let ip ← iget de.inum
      pure (some (ip, r.1))
    | none => pure none

def addEntry (dp : Slot) (name : List Byte) (inum : Nat) : FsM Int := do
  let r ← scanDir sb dp .dirlinkRead (fun de => de.inum = 0) 0
  let n ← writei sb dp r.1 (Dirent.encode ⟨inum, strncpy 14 name⟩)
  if n ≠ 16 then throw .dirlink else pure 0

def dirlink (dp : Slot) (name : List Byte) (inum : Nat) : FsM Int := do
  let r ← dirlookup sb dp name
  match r with
  | some (ip, _) => do
    iput sb ip
    pure (-1)
  | none => addEntry sb dp name inum

def slash : Byte := 47

def skipelem (path : List Byte) : Option (List Byte × List Byte) :=
  let p := path.dropWhile (· = slash)
  if p = [] then none
  else some ((p.takeWhile (· ≠ slash)).take 14,
    (p.dropWhile (· ≠ slash)).dropWhile (· = slash))

def namexEnd (parent : Bool) (ip : Slot) : FsM (Option (Slot × List Byte)) :=
  if parent then do
    iput sb ip
    pure none
  else pure (some (ip, []))

/-- The loop of `namex`; no more rounds are needed than the path has bytes. -/
def namexLoop (parent : Bool) : Nat → Slot → List Byte → FsM (Option (Slot × List Byte))
  | 0, ip, _ => namexEnd sb parent ip
  | fuel + 1, ip, path =>
    match skipelem path with
    | none => namexEnd sb parent ip
    | some (name, rest) => do
      ilock ip
      let s ← get
      if (s.icache ip).d.type ≠ .dir then do
        iunlockput sb ip
        pure none
      else if parent = true ∧ rest = [] then do
        iunlock ip
        pure (some (ip, name))
      else do
        let r ← dirlookup sb ip name
        iunlockput sb ip
        match r with
        | none => pure none
        | some (next, _) => namexLoop parent fuel next rest

def rootIno : Nat := 1

def namexStart (cwd : Slot) (path : List Byte) : FsM Slot :=
  if path.head? = some slash then iget rootIno else idup cwd

def namex (parent : Bool) (cwd : Slot) (path : List Byte) : FsM (Option (Slot × List Byte)) := do
  let ip ← namexStart cwd (path.takeWhile (· ≠ 0))
  namexLoop sb parent path.length ip (path.takeWhile (· ≠ 0))

def namei (cwd : Slot) (path : List Byte) : FsM (Option Slot) := do
  let r ← namex sb false cwd path
  pure (r.map Prod.fst)

def nameiparent (cwd : Slot) (path : List Byte) : FsM (Option (Slot × List Byte)) :=
  namex sb true cwd path

def addLinks (ip : Slot) (n : Int) : FsM Unit := do
  modify fun s => s.setCopy ip { (s.icache ip).d with nlink := (s.icache ip).d.nlink + n }
  iupdate sb ip

def linkUndo (ip : Slot) : FsM Int := do
  ilock ip
  addLinks sb ip (-1)
  iunlockput sb ip
  pure (-1)

def linkNew (cwd ip : Slot) (new : List Byte) : FsM Int := do
  let r ← nameiparent sb cwd new
  match r with
  | none => linkUndo sb ip
  | some (dp, name) => do
    ilock dp
    let s ← get
    let n ← dirlink sb dp name (s.icache ip).inum
    iunlockput sb dp
    if n < 0 then linkUndo sb ip
    else do
      iput sb ip
      pure 0

def sysLink (cwd : Slot) (old new : List Byte) : FsM Int := do
  beginOp
  let r ← namei sb cwd old
  match r with
  | none => pure (-1)
  | some ip => do
    ilock ip
    let s ← get
    if (s.icache ip).d.type = .dir then do
      iunlockput sb ip
      pure (-1)
    else do
      addLinks sb ip 1
      iunlock ip
      linkNew sb cwd ip new

def isdirempty (dp : Slot) : FsM Bool := do
  let r ← scanDir sb dp .isdirempty (fun de => de.inum ≠ 0) 32
  pure r.2.isNone

def unlinkEntry (dp ip : Slot) (off : Nat) : FsM Int := do
  let n ← writei sb dp off (List.replicate 16 0)
  if n ≠ 16 then throw .unlinkWritei
  else do
    let s ← get
    (if (s.icache ip).d.type = .dir then addLinks sb dp (-1) else pure ())
    iunlockput sb dp
    addLinks sb ip (-1)
    iunlockput sb ip
    pure 0

def unlinkable (ip : Slot) : FsM Bool := do
  let s ← get
  if (s.icache ip).d.type = .dir then isdirempty sb ip else pure true

def unlinkFound (dp ip : Slot) (off : Nat) : FsM Int := do
  ilock ip
  let s ← get
  if (s.icache ip).d.nlink < 1 then throw .unlinkNlink
  else do
    let empty ← unlinkable sb ip
    if empty then unlinkEntry sb dp ip off
    else do
      iunlockput sb ip
      iunlockput sb dp
      pure (-1)

def dot : List Byte := [46]

def dotdot : List Byte := [46, 46]

def sysUnlink (cwd : Slot) (path : List Byte) : FsM Int := do
  beginOp
  let r ← nameiparent sb cwd path
  match r with
  | none => pure (-1)
  | some (dp, name) => do
    ilock dp
    if namecmp name dot = 0 ∨ namecmp name dotdot = 0 then do
      iunlockput sb dp
      pure (-1)
    else do
      let r ← dirlookup sb dp name
      match r with
      | none => do
        iunlockput sb dp
        pure (-1)
      | some (ip, off) => unlinkFound sb dp ip off

def createDots (dp ip : Slot) : FsM Unit := do
  addLinks sb dp 1
  let s ← get
  let n ← dirlink sb ip dot (s.icache ip).inum
  if n < 0 then throw .createDots
  else do
    let n ← dirlink sb ip dotdot (s.icache dp).inum
    if n < 0 then throw .createDots else pure ()

def createNew (dp : Slot) (name : List Byte) (type : FileType) (major minor : Int) :
    FsM (Option Slot) := do
  let ip ← ialloc sb type
  ilock ip
  modify fun s => s.setCopy ip { (s.icache ip).d with major := major, minor := minor, nlink := 1 }
  iupdate sb ip
  (if type = .dir then createDots sb dp ip else pure ())
  let s ← get
  let n ← dirlink sb dp name (s.icache ip).inum
  if n < 0 then throw .createDirlink
  else do
    iunlockput sb dp
    pure (some ip)

def createOld (dp ip : Slot) (type : FileType) : FsM (Option Slot) := do
  iunlockput sb dp
  ilock ip
  let s ← get
  if type = .file ∧ (s.icache ip).d.type = .file then pure (some ip)
  else do
    iunlockput sb ip
    pure none

def create (cwd : Slot) (path : List Byte) (type : FileType) (major minor : Int) :
    FsM (Option Slot) := do
  let r ← nameiparent sb cwd path
  match r with
  | none => pure none
  | some (dp, name) => do
    ilock dp
    let r ← dirlookup sb dp name
    match r with
    | some (ip, _) => createOld sb dp ip type
    | none => createNew sb dp name type major minor

def oWronly : Word := 0x001
def oRdwr : Word := 0x002
def oCreate : Word := 0x200

def openOld (cwd : Slot) (path : List Byte) (omode : Word) : FsM (Option Slot) := do
  let r ← namei sb cwd path
  match r with
  | none => pure none
  | some ip => do
    ilock ip
    let s ← get
    if (s.icache ip).d.type = .dir ∧ omode ≠ 0 then do
      iunlockput sb ip
      pure none
    else pure (some ip)

def openInode (cwd : Slot) (path : List Byte) (omode : Word) : FsM (Option Slot) := do
  beginOp
  if omode &&& oCreate ≠ 0 then create sb cwd path .file 0 0 else openOld sb cwd path omode

def mkInode (cwd : Slot) (path : List Byte) (type : FileType) (major minor : Int) : FsM Int := do
  beginOp
  let r ← create sb cwd path type major minor
  match r with
  | none => pure (-1)
  | some ip => do
    iunlockput sb ip
    pure 0

def sysMkdir (cwd : Slot) (path : List Byte) : FsM Int := mkInode sb cwd path .dir 0 0

def toShort (n : Word) : Int := (n.setWidth 16).toInt

def sysMknod (cwd : Slot) (path : List Byte) (major minor : Word) : FsM Int :=
  mkInode sb cwd path .dev (toShort major) (toShort minor)

def sysChdir (cwd : Slot) (path : List Byte) : FsM (Option Slot) := do
  beginOp
  let r ← namei sb cwd path
  match r with
  | none => pure none
  | some ip => do
    ilock ip
    let s ← get
    if (s.icache ip).d.type ≠ .dir then do
      iunlockput sb ip
      pure none
    else do
      iunlock ip
      iput sb cwd
      pure (some ip)

def putInode (ip : Slot) : FsM Unit := do
  beginOp
  iput sb ip

def writeChunk (ip : Slot) (off : Nat) (src : List Byte) : FsM Int := do
  beginOp
  ilock ip
  let r ← writei sb ip off src
  iunlock ip
  pure r

def readFile (ip : Slot) (off n : Nat) : FsM (Option (List Byte)) := do
  ilock ip
  let r ← readi sb ip off n
  iunlock ip
  pure r

/-- What `exec` does with the file system, for the parts of the file that it reads. -/
def execInode (cwd : Slot) (path : List Byte) (reads : List (Nat × Nat)) : FsM Int := do
  beginOp
  let r ← namei sb cwd path
  match r with
  | none => pure (-1)
  | some ip => do
    ilock ip
    reads.forM fun r => do
      let _ ← readi sb ip r.1 r.2
      pure ()
    iunlockput sb ip
    pure 0

end Xv6Signals
