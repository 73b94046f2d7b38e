import Yfs.Client.Call
import Yfs.Client.Splice

/-! The operations of `yfs_client` on directories and files, as programs over extent and lock
calls. A name is a `const char *` in the source: what is passed here for one has no zero byte, or is the
part of a string before it. -/
namespace Yfs.Client
open Yfs.Lib Yfs.Extent

inductive YfsStatus where
  | ok | rpcerr | noent | ioerr | exist
  deriving DecidableEq, Repr

def nlockIs (type : FileType) (inum : UInt64) : M Bool := do
  let (r, a) ← perform (.getattr inum)
  pure (decide (r = .ok) && decide (a.type = type.code))

def nlockIsfile (inum : UInt64) : M Bool := nlockIs .file inum

def nlockIsdir (inum : UInt64) : M Bool := nlockIs .dir inum

def nlockIslink (inum : UInt64) : M Bool := nlockIs .symlink inum

def findEntry (dirList name : Str) : Option (Str × Str) := (entries dirList).find? fun e => e.1 = name

/-- `found` and `inoOut` are passed by reference and come back with the status. -/
def nlockLookup (parent : UInt64) (name : Str) (found : Bool) (inoOut : UInt64) :
    M (YfsStatus × Bool × UInt64) := do
  if ← nlockIsdir parent then
    let (r, dirList) ← perform (.get parent)
    if r = .ok then
      match findEntry dirList name with
      | some e => pure (.ok, true, n2i e.2)
      | none => pure (.noent, false, inoOut)
    else pure (.ioerr, found, inoOut)
  else pure (.ok, false, inoOut)

/-- No lock is taken here. -/
def lookup (parent : UInt64) (name : Str) (found : Bool) (inoOut : UInt64) :
    M (YfsStatus × Bool × UInt64) := nlockLookup parent name found inoOut

structure Dirent where
  name : Str
  inum : UInt64
  deriving DecidableEq, Repr

/-- An inode that is no directory makes it give back a lock. -/
def nlockReaddir (dir : UInt64) : M (YfsStatus × List Dirent) := do
  if ← nlockIsdir dir then
    let (r, dirList) ← perform (.get dir)
    if r = .ok then pure (.ok, (entries dirList).map fun e => ⟨e.1, n2i e.2⟩)
    else pure (.ioerr, [])
  else
    let _ ← perform (.release dir)
    pure (.ok, [])

/-- `nlock_create` and the body of `mkdir`, which differ in the type only. -/
def nlockAdd (type : FileType) (parent : UInt64) (name : Str) (inoOut : UInt64) :
    M (YfsStatus × UInt64) := do
  let (_, found, ino) ← nlockLookup parent name false inoOut
  if found then pure (.exist, ino)
  else
    let (_, ino) ← perform (.create type.code)
    let (r, dirList) ← perform (.get parent)
    if r = .ok then
      let _ ← perform (.put parent (addEntry dirList (name, filename ino)))
      pure (.ok, ino)
    else pure (.ok, ino)

def nlockCreate (parent : UInt64) (name : Str) (inoOut : UInt64) : M (YfsStatus × UInt64) :=
  nlockAdd .file parent name inoOut

def locked {α : Type} (lid : UInt64) (p : M α) : M α := do
  let _ ← perform (.acquire lid)
  let a ← p
  let _ ← perform (.release lid)
  pure a

def create (parent : UInt64) (name : Str) (inoOut : UInt64) : M (YfsStatus × UInt64) :=
  locked parent (nlockCreate parent name inoOut)

def mkdir (parent : UInt64) (name : Str) (inoOut : UInt64) : M (YfsStatus × UInt64) :=
  locked parent (nlockAdd .dir parent name inoOut)

def resize (content : Str) (size : ℕ) : Str :=
  content.take size ++ List.replicate (size - content.length) 0

def nlockSetattr (ino : UInt64) (size : ℕ) : M YfsStatus := do
  let (r, content) ← perform (.get ino)
  if r = .ok then
    let _ ← perform (.put ino (resize content size))
    pure .ok
  else pure .ioerr

def setattr (ino : UInt64) (size : ℕ) : M YfsStatus := locked ino (nlockSetattr ino size)

/-- The content after `data` is written at `off`: the gap is filled with zeros, the rest is
replaced. -/
def writeAt (content : Str) (off : ℕ) (data : Str) : Str :=
  if content.length < off then content ++ List.replicate (off - content.length) 0 ++ data
  else content.take off ++ data ++ content.drop (off + data.length)

/-- `write` under the lock. `data` holds the `size` bytes of the request. The second result is
`bytes_written`. -/
def nlockWrite (ino : UInt64) (off : ℕ) (data : Str) : M (YfsStatus × ℕ) := do
  let (r, content) ← perform (.get ino)
  if r = .ok then
    let _ ← perform (.put ino (writeAt content off data))
    pure (.ok, (if content.length < off then off - content.length else 0) + data.length)
  else pure (.ioerr, 0)

def write (ino : UInt64) (off : ℕ) (data : Str) : M (YfsStatus × ℕ) := locked ino (nlockWrite ino off data)

def isfile (inum : UInt64) : M Bool := locked inum (nlockIsfile inum)

def isdir (inum : UInt64) : M Bool := locked inum (nlockIsdir inum)

def islink (inum : UInt64) : M Bool := locked inum (nlockIslink inum)

structure FileInfo where
  size : UInt64
  atime : UInt64
  mtime : UInt64
  ctime : UInt64
  deriving DecidableEq, Repr

structure DirInfo where
  atime : UInt64
  mtime : UInt64
  ctime : UInt64
  deriving DecidableEq, Repr

def getInfo {α : Type} (info : Attr → α) (inum : UInt64) : M (YfsStatus × Option α) := locked inum do
  let (r, a) ← perform (.getattr inum)
  if r = .ok then pure (.ok, some (info a)) else pure (.ioerr, none)

def fileInfo (a : Attr) : FileInfo :=
  ⟨a.size.toUInt64, a.atime.toUInt64, a.mtime.toUInt64, a.ctime.toUInt64⟩

def dirInfo (a : Attr) : DirInfo := ⟨a.atime.toUInt64, a.mtime.toUInt64, a.ctime.toUInt64⟩

def getfile (inum : UInt64) : M (YfsStatus × Option FileInfo) := getInfo fileInfo inum

def getdir (inum : UInt64) : M (YfsStatus × Option DirInfo) := getInfo dirInfo inum

def readdir (dir : UInt64) : M (YfsStatus × List Dirent) := locked dir (nlockReaddir dir)

/-- What `read` takes out of the content; `off` and the length are compared as `unsigned int`s.
`none` is the exception of `substr`. -/
def readAt (content : Str) (size : UInt64) (off : Int64) : Option Str :=
  if content.length % 2 ^ 32 ≤ off.toUInt64.toNat % 2 ^ 32 then some []
  else if off.toUInt64.toNat ≤ content.length then
    some ((content.drop off.toUInt64.toNat).take size.toNat)
  else none

/-- A program that may end in an exception, between `lc->acquire(lid)` and `lc->release(lid)`. The
exception leaves the lock as it is. -/
def guarded {α : Type} (lid : UInt64) (p : M (Option α)) : M (Option α) := do
  let _ ← perform (.acquire lid)
  match ← p with
  | none => pure none
  | some a =>
    let _ ← perform (.release lid)
    pure (some a)

def read (ino : UInt64) (size : UInt64) (off : Int64) : M (Option (YfsStatus × Str)) := guarded ino do
  let (r, content) ← perform (.get ino)
  if r = .ok then pure ((readAt content size off).map fun data => (.ok, data))
  else pure (some (.ioerr, []))

/-- `nlock_unlink` and the body of `unlink`, which differ in how the inode is removed. -/
def unlinkWith (remove : UInt64 → M Unit) (parent : UInt64) (name : Str) : M (Option YfsStatus) := do
  let (_, found, target) ← nlockLookup parent name false 0
  if found then
    let (r, dirList) ← perform (.get parent)
    if r = .ok then
      match unlinkText dirList name target with
      | none => pure none
      | some dirList =>
        let _ ← perform (.put parent dirList)
        remove target
        pure (some .ok)
    else pure (some .ioerr)
  else pure (some .noent)

def nlockUnlink (parent : UInt64) (name : Str) : M (Option YfsStatus) :=
  unlinkWith (fun target => do let _ ← perform (.remove target)) parent name

def unlink (parent : UInt64) (name : Str) : M (Option YfsStatus) :=
  guarded parent (unlinkWith (fun target => locked target do let _ ← perform (.remove target)) parent name)

/-- `createlink` under the lock. The name is looked up to its first zero byte and entered as a
whole. -/
def nlockCreatelink (parent : UInt64) (linkName targetName : Str) (inoOut : UInt64) :
    M (YfsStatus × UInt64) := do
  let (_, found, ino) ← nlockLookup parent (cStr linkName) false inoOut
  if found then pure (.exist, ino)
  else
    let (_, ino) ← perform (.create FileType.symlink.code)
    let (r, dirList) ← perform (.get parent)
    if r = .ok then
      let _ ← perform (.put parent (addEntry dirList (linkName, filename ino)))
      let _ ← perform (.put ino targetName)
      pure (.ok, ino)
    else
      let _ ← perform (.put ino targetName)
      pure (.ok, ino)

def createlink (parent : UInt64) (linkName targetName : Str) (inoOut : UInt64) : M (YfsStatus × UInt64) :=
  locked parent (nlockCreatelink parent linkName targetName inoOut)

def readlink (inum : UInt64) : M (YfsStatus × Str) := locked inum do
  let (r, linkName) ← perform (.get inum)
  if r = .ok then pure (.ok, linkName) else pure (.ioerr, [])

end Yfs.Client
