import Yfs.Client.YfsClient
import Yfs.Lib.Wire

/-! The handlers of `fuse.cc`: what each request of the kernel makes `yfs_client` do, and the answer that is
sent back. Each function of libfuse that sends an answer is a constructor of `Answer`. -/
namespace Yfs.Client.Fuse
open Yfs.Lib Yfs.Extent

inductive Errno where
  | enoent | eexist | enotdir | enotempty | enosys
  deriving DecidableEq, Repr

/-- The fields of `struct stat` that `getattr` sets. -/
structure Stat where
  ino : UInt64
  mode : UInt32 := 0
  nlink : ℕ := 0
  size : UInt64 := 0
  atime : UInt64 := 0
  mtime : UInt64 := 0
  ctime : UInt64 := 0
  deriving DecidableEq, Repr

def regularMode : UInt32 := 0x81b6

def directoryMode : UInt32 := 0x41ff

def linkMode : UInt32 := 0xa1ff

/-- The branches of `getattr` that ask `getfile`. They differ in the mode. -/
def fileStat (mode : UInt32) (inum : UInt64) : M (YfsStatus × Stat) := do
  match ← getfile inum with
  | (.ok, some info) => pure (.ok,
      { ino := inum, mode := mode, nlink := 1, size := info.size, atime := info.atime, mtime := info.mtime,
        ctime := info.ctime })
  | (r, _) => pure (r, { ino := inum })

def dirStat (inum : UInt64) : M (YfsStatus × Stat) := do
  match ← getdir inum with
  | (.ok, some info) => pure (.ok,
      { ino := inum, mode := directoryMode, nlink := 2, atime := info.atime, mtime := info.mtime,
        ctime := info.ctime })
  | (r, _) => pure (r, { ino := inum })

/-- The first call of `isfile` is for the printout. What is neither a file nor a directory is a link. -/
def getattr (inum : UInt64) : M (YfsStatus × Stat) := do
  let _ ← isfile inum
  if ← isfile inum then fileStat regularMode inum
  else if ← isdir inum then dirStat inum
  else fileStat linkMode inum

/-- `fuse_entry_param`; the timeouts and the generation are always 0. -/
structure EntryParam where
  ino : UInt64
  attr : Stat
  deriving DecidableEq, Repr

/-- `err none` is `fuse_reply_err(req, 0)`. -/
inductive Answer where
  | err (e : Option Errno)
  | attr (st : Stat)
  | entry (e : EntryParam)
  | create (e : EntryParam)
  | buf (data : Str)
  | write (count : ℕ)
  | readlink (link : Str)
  | opened
  | statfs (bsize namemax : ℕ)
  deriving DecidableEq, Repr

def fuseserverGetattr (ino : UInt64) : M Answer := do
  let (r, st) ← getattr ino
  if r = .ok then pure (.attr st) else pure (.err (some .enoent))

def setAttrSize : UInt32 := 8

def fuseserverSetattr (ino : UInt64) (size : ℕ) (toSet : UInt32) : M Answer := do
  if setAttrSize &&& toSet ≠ 0 then
    let _ ← setattr ino size
    let (_, st) ← getattr ino
    pure (.attr st)
  else pure (.err (some .enosys))

/-- `none` is the exception that `yfs_client::read` can end with. -/
def fuseserverRead (ino size : UInt64) (off : Int64) : M (Option Answer) := do
  match ← read ino size off with
  | none => pure none
  | some (.ok, data) => pure (some (.buf data))
  | some _ => pure (some (.err (some .enoent)))

/-- `size` is passed a second time, by reference, as `bytes_written`. -/
def fuseserverWrite (ino : UInt64) (data : Str) (off : ℕ) : M Answer := do
  let (r, size) ← write ino off data
  if r = .ok then pure (.write size) else pure (.err (some .enoent))

/-- `junk` is what the variable `inum` holds at first. -/
def fuseserverCreatehelper (parent : UInt64) (name : Str) (type : FileType) (junk : UInt64) :
    M (YfsStatus × EntryParam) := do
  let (r, inum) ← (if type = .file then create parent name junk else mkdir parent name junk : M _)
  if r = .ok then
    let (r, st) ← getattr inum
    pure (r, ⟨inum, st⟩)
  else pure (r, ⟨junk, { ino := junk }⟩)

/-- What `fuseserver_create`, `fuseserver_mknod` and `fuseserver_mkdir` have in common. -/
def replyCreated (reply : EntryParam → Answer) (parent : UInt64) (name : Str) (type : FileType)
    (junk : UInt64) : M Answer := do
  let (r, e) ← fuseserverCreatehelper parent name type junk
  if r = .ok then pure (reply e)
  else if r = .exist then pure (.err (some .eexist))
  else pure (.err (some .enoent))

def fuseserverCreate (parent : UInt64) (name : Str) (junk : UInt64) : M Answer :=
  replyCreated .create parent name .file junk

def fuseserverMknod (parent : UInt64) (name : Str) (junk : UInt64) : M Answer :=
  replyCreated .entry parent name .file junk

def fuseserverMkdir (parent : UInt64) (name : Str) (junk : UInt64) : M Answer :=
  replyCreated .entry parent name .dir junk

def fuseserverLookup (parent : UInt64) (name : Str) (junk : UInt64) : M Answer := do
  let (_, found, ino) ← lookup parent name false junk
  if found then
    let (_, st) ← getattr ino
    pure (.entry ⟨ino, st⟩)
  else pure (.err (some .enoent))

/-- How libfuse writes a directory entry: `fuse_dirent_size` by the length of the name, and
`fuse_add_dirent` by the name, the inum and the offset of the next entry. -/
structure DirentFormat where
  size : ℕ → ℕ
  dirent : Str → UInt64 → ℕ → Str
  length_dirent : ∀ name ino off, (dirent name ino off).length = size name.length

/-- The layout of `struct fuse_dirent`: inum, offset, length of the name and type, then the name, filled up
to a multiple of 8 bytes. -/
def direntLayout (name : Str) (ino : UInt64) (off : ℕ) : Str :=
  (bigEndian 8 ino.toNat).reverse ++ (bigEndian 8 off).reverse ++ (bigEndian 4 name.length).reverse ++
    (bigEndian 4 0).reverse ++ name ++ List.replicate (7 - (name.length + 7) % 8) 0

def libfuse : DirentFormat where
  size n := (n + 31) / 8 * 8
  dirent := direntLayout
  length_dirent name ino off := by
    simp only [direntLayout, List.length_append, List.length_reverse, length_bigEndian, List.length_replicate]
    omega

/-- The offset that is stored with an entry is the size of the buffer behind it. -/
def dirbufAdd (f : DirentFormat) (b : Str) (name : Str) (ino : UInt64) : Str :=
  b ++ f.dirent (cStr name) ino (b.length + f.size (cStr name).length)

def replyBufLimited (buf : Str) (off : Int64) (maxsize : ℕ) : Str :=
  if off.toUInt64.toNat < buf.length then
    (buf.drop off.toUInt64.toNat).take (min (buf.length - off.toUInt64.toNat) maxsize)
  else []

def fuseserverReaddir (f : DirentFormat) (ino : UInt64) (size : ℕ) (off : Int64) : M Answer := do
  if ← isdir ino then
    let (_, entries) ← readdir ino
    let b := entries.foldl (fun b e => dirbufAdd f b e.name e.inum) []
    pure (.buf (replyBufLimited b off size))
  else pure (.err (some .enotdir))

def fuseserverOpen : M Answer := pure .opened

/-- `none` is the exception that `yfs_client::unlink` can end with. -/
def fuseserverUnlink (parent : UInt64) (name : Str) : M (Option Answer) := do
  match ← unlink parent name with
  | none => pure none
  | some .ok => pure (some (.err none))
  | some .noent => pure (some (.err (some .enoent)))
  | some _ => pure (some (.err (some .enotempty)))

def fuseserverStatfs : M Answer := pure (.statfs 512 255)

def fuseserverCreatelink (targetName : Str) (parent : UInt64) (linkName : Str) (junk : UInt64) :
    M Answer := do
  let (r, inodeId) ← createlink parent linkName targetName junk
  if r = .ok then
    let (_, st) ← getattr inodeId
    pure (.entry ⟨inodeId, st⟩)
  else if r = .noent then pure (.err (some .enoent))
  else pure (.err (some .enotempty))

def fuseserverReadlink (ino : UInt64) : M Answer := do
  let (r, linkContent) ← readlink ino
  if r = .ok then pure (.readlink (cStr linkContent))
  else if r = .noent then pure (.err (some .enoent))
  else pure (.err (some .enotempty))

/-- The requests that `main` enters into `fuseserver_oper`. -/
inductive Request where
  | getattr (ino : UInt64)
  | statfs
  | readdir (ino : UInt64) (size : ℕ) (off : Int64)
  | lookup (parent : UInt64) (name : Str)
  | create (parent : UInt64) (name : Str)
  | mknod (parent : UInt64) (name : Str)
  | openFile (ino : UInt64)
  | read (ino size : UInt64) (off : Int64)
  | write (ino : UInt64) (data : Str) (off : ℕ)
  | setattr (ino : UInt64) (size : ℕ) (toSet : UInt32)
  | unlink (parent : UInt64) (name : Str)
  | mkdir (parent : UInt64) (name : Str)
  | symlink (targetName : Str) (parent : UInt64) (linkName : Str)
  | readlink (ino : UInt64)
  deriving DecidableEq

/-- The handler of a request; `none` if it ends in an exception. -/
def fuseserverOper (f : DirentFormat) (junk : UInt64) : Request → M (Option Answer)
  | .getattr ino => some <$> fuseserverGetattr ino
  | .statfs => some <$> fuseserverStatfs
  | .readdir ino size off => some <$> fuseserverReaddir f ino size off
  | .lookup parent name => some <$> fuseserverLookup parent name junk
  | .create parent name => some <$> fuseserverCreate parent name junk
  | .mknod parent name => some <$> fuseserverMknod parent name junk
  | .openFile _ => some <$> fuseserverOpen
  | .read ino size off => fuseserverRead ino size off
  | .write ino data off => some <$> fuseserverWrite ino data off
  | .setattr ino size toSet => some <$> fuseserverSetattr ino size toSet
  | .unlink parent name => fuseserverUnlink parent name
  | .mkdir parent name => some <$> fuseserverMkdir parent name junk
  | .symlink targetName parent linkName => some <$> fuseserverCreatelink targetName parent linkName junk
  | .readlink ino => some <$> fuseserverReadlink ino

end Yfs.Client.Fuse
