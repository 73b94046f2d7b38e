import Yfs.Hdfs.Nodes

/-! The requests of the namenode on the namespace: making, removing and renaming files and
directories by their paths. -/
namespace Yfs.Hdfs
open Yfs.Lib Yfs.Extent Yfs.Client

/-- The path up to its last component, `/` included. -/
def upToSlash (path : Str) : Str :=
  if slash ∈ path then (path.reverse.dropWhile fun c => c ≠ slash).reverse else path

def stripSlashes (path : Str) : Str := (path.reverse.dropWhile fun c => c = slash).reverse

def baseName (path : Str) : Str := (path.reverse.takeWhile fun c => c ≠ slash).reverse

/-- `HdfsFileStatusProto`, as far as it is filled in. -/
structure FileStatus where
  isDir : Bool
  path : String
  length : UInt64
  owner : String
  group : String
  blocksize : UInt64
  perm : UInt32
  modificationTime : UInt64
  accessTime : UInt64
  deriving DecidableEq, Repr

namespace NameNode
variable {D : Type} (nn : NameNode D)

/-- `RecursiveLookup` with the inum of the last but one component. -/
def walkLast (ino last : UInt64) : List Str → M (Option (UInt64 × UInt64))
  | [] => pure (some (ino, last))
  | component :: l => do
    let (r, found, ino') ← lookup ino (cStr component) false ino
    if r = .ok ∧ found = true then walkLast ino' ino l else pure none

def recursiveLookupLast (path : Str) : M (Option (UInt64 × UInt64)) :=
  if path.head? = some slash then walkLast 1 1 (components path) else pure none

def recursiveLookupParent (path : Str) : M (Option UInt64) := recursiveLookup (upToSlash (stripSlashes path))

def mkdir (parent : UInt64) (name : Str) (inoOut : UInt64) : M (Bool × UInt64) := do
  let (r, ino) ← Client.mkdir parent (cStr name) inoOut
  pure (r = .ok, ino)

/-- `Create` keeps the lock of the file. -/
def create (parent : UInt64) (name : Str) (inoOut : UInt64) : M (Bool × UInt64) := do
  let (r, ino) ← Client.create parent (cStr name) inoOut
  if r = .ok then
    let _ ← perform (.acquire ino)
    pure (true, ino)
  else pure (false, ino)

def isfile (ino : UInt64) : M Bool := nlockIsfile ino

def isdir (ino : UInt64) : M Bool := nlockIsdir ino

def getInfo {α : Type} (info : Attr → α) (ino : UInt64) : M (Option α) := do
  let (r, a) ← perform (.getattr ino)
  pure (if r = .ok then some (info a) else none)

def getfile (ino : UInt64) : M (Option FileInfo) := getInfo fileInfo ino

def getdir (ino : UInt64) : M (Option DirInfo) := getInfo dirInfo ino

def readdir (ino : UInt64) : M (Bool × List Dirent) := do
  let (r, dir) ← nlockReaddir ino
  pure (r = .ok, dir)

/-- `none` is an exception. -/
def unlink (parent : UInt64) (name : Str) : M (Option Bool) := do
  let r ← nlockUnlink parent (cStr name)
  pure (r.map fun r => r = .ok)

def pbGetFileInfoFromInum (ino : UInt64) : M (Option FileStatus) := do
  if ← isfile ino then
    match ← getfile ino with
    | none => pure none
    | some info => pure (some ⟨false, "", info.size, "cse", "supergroup", UInt64.ofNat blockSize, 0o666,
        info.mtime * 1000, info.atime * 1000⟩)
  else if ← isdir ino then
    match ← getdir ino with
    | none => pure none
    | some info => pure (some ⟨true, "", 0, "cse", "supergroup", UInt64.ofNat blockSize, 0o777,
        info.mtime * 1000, info.atime * 1000⟩)
  else pure none

def pbGetFileInfo (src : Str) : M (Option FileStatus) := do
  match ← recursiveLookup src with
  | none => pure none
  | some ino => pbGetFileInfoFromInum ino

/-- The loop of `PBCreate` and `PBMkdirs` over the components before the last one. -/
def descend (createParent : Bool) (ino : UInt64) : List Str → M (Except HdfsException UInt64)
  | [] => pure (.ok ino)
  | component :: l => do
    let (r, found, ino') ← lookup ino (cStr component) false ino
    if r ≠ .ok then pure (.error .traverseFailed)
    else if found then descend createParent ino' l
    else if createParent then
      let (made, child) ← mkdir ino' component ino'
      if made then descend createParent child l else pure (.error .createParentFailed)
    else pure (.error .parentNotExists)

def parents (path : Str) : List Str := (((path.drop 1).splitOn slash).dropLast).filter fun c => c ≠ []

def lastName (path : Str) : Str := ((path.drop 1).splitOn slash).getLast?.getD []

/-- `PBCreate`. The result is the status of the new file, if it could be had. -/
def pbCreate (src : Str) (createParent : Bool) :
    M (Except HdfsException (Option FileStatus) × NameNode D) := do
  if src.head? = some slash then
    match ← descend createParent 1 (parents src) with
    | .error e => pure (.error e, nn)
    | .ok parent =>
      if lastName src = [] then pure (.error .noFileNameGiven, nn)
      else
        let (made, ino) ← create parent (lastName src) parent
        if made then
          let info ← pbGetFileInfoFromInum ino
          pure (.ok info, { nn with
            pendingWrite := Function.update nn.pendingWrite ino (some ((nn.pendingWrite ino).getD 0)) })
        else pure (.error .createFileFailed, nn)
  else pure (.error .notAbsolutePath, nn)

def pbMkdirs (src : Str) (createParent : Bool) : M (Except HdfsException Bool) := do
  if src.head? = some slash then
    match ← descend createParent 1 (parents src) with
    | .error e => pure (.error e)
    | .ok parent =>
      if lastName src = [] then pure (.error .noFileNameGiven)
      else
        let (made, _) ← mkdir parent (lastName src) parent
        if made then pure (.ok true) else pure (.error .mkdirsFailed)
  else pure (.error .notAbsolutePath)

/-- What `PBCreate` and `PBMkdirs` have in common: the walk to the parent of `src`. -/
def inParent {α : Type} (src : Str) (createParent : Bool) (fail : HdfsException → α) (body : UInt64 → M α) :
    M α := do
  if src.head? = some slash then
    match ← descend createParent 1 (parents src) with
    | .error e => pure (fail e)
    | .ok parent => if lastName src = [] then pure (fail .noFileNameGiven) else body parent
  else pure (fail .notAbsolutePath)

theorem pbCreate_eq_inParent (src : Str) (createParent : Bool) :
    nn.pbCreate src createParent = inParent src createParent (fun e => (.error e, nn)) fun parent =>
      create parent (lastName src) parent >>= fun r =>
        if r.1 then pbGetFileInfoFromInum r.2 >>= fun info => pure (.ok info, { nn with
          pendingWrite := Function.update nn.pendingWrite r.2 (some ((nn.pendingWrite r.2).getD 0)) })
        else pure (.error .createFileFailed, nn) := rfl

theorem pbMkdirs_eq_inParent (src : Str) (createParent : Bool) :
    pbMkdirs src createParent = inParent src createParent .error fun parent =>
      mkdir parent (lastName src) parent >>= fun r =>
        if r.1 then pure (.ok true) else pure (.error .mkdirsFailed) := rfl

/-- The directory text that `Rename` adds the entry to, and whether it could be read. -/
def dstEntry (srcDir : UInt64) (srcEntry : Str) (dstDir : UInt64) : M (Bool × Str) := do
  if srcDir = dstDir then pure (true, srcEntry)
  else
    let (r, dirList) ← perform (.get dstDir)
    if r = .ok then pure (true, dirList) else pure (false, [])

/-- `Rename` takes no lock. `none` is the exception of `erase`. -/
def rename (srcDir : UInt64) (srcName : Str) (dstDir : UInt64) (dstName : Str) : M (Option Bool) := do
  let (_, found, _) ← nlockLookup srcDir (cStr srcName) false 0
  if found then
    let (_, list) ← nlockReaddir srcDir
    let (r, dirList) ← perform (.get srcDir)
    match list.find? fun e => e.name = srcName with
    | none => pure (some false)
    | some e =>
      match renameText (if r = .ok then dirList else []) srcName with
      | none => pure none
      | some srcEntry =>
        let _ ← perform (.put srcDir srcEntry)
        let (readOk, dirList) ← dstEntry srcDir srcEntry dstDir
        let _ ← perform (.put dstDir (addEntry dirList (dstName, filename e.inum)))
        pure (some readOk)
  else pure (some false)

def pbRename (src dst : Str) : M (Option Bool) := do
  match ← recursiveLookupParent src with
  | none => pure (some false)
  | some srcDir =>
    match ← recursiveLookupParent dst with
    | none => pure (some false)
    | some dstDir => rename srcDir (baseName src) dstDir (baseName dst)

def dualLock (a b : UInt64) : M Unit := do
  if a < b then
    let _ ← perform (.acquire a)
    let _ ← perform (.acquire b)
  else if b < a then
    let _ ← perform (.acquire b)
    let _ ← perform (.acquire a)
  else
    let _ ← perform (.acquire a)

def dualUnlock (a b : UInt64) : M Unit := do
  if a = b then
    let _ ← perform (.release a)
  else
    let _ ← perform (.release a)
    let _ ← perform (.release b)

/-- The loop of `RecursiveDelete` over the entries of directory `ino`. -/
def deleteEntries (delete : UInt64 → M (Option Bool)) (ino : UInt64) : List Dirent → M (Option Bool)
  | [] => pure (some true)
  | e :: l => do
    let _ ← perform (.acquire e.inum)
    match ← delete e.inum with
    | none => pure none
    | some false =>
      let _ ← perform (.release e.inum)
      pure (some false)
    | some true =>
      match ← unlink ino e.name with
      | none => pure none
      | some false =>
        let _ ← perform (.release e.inum)
        pure (some false)
      | some true =>
        let _ ← perform (.release e.inum)
        deleteEntries delete ino l

/-- `RecursiveDelete` with recursion to depth `n`; `none` is an exception or a deeper recursion. -/
def recursiveDelete : ℕ → UInt64 → M (Option Bool)
  | 0, _ => pure none
  | n + 1, ino => do
    if ← isdir ino then
      let (readOk, dir) ← readdir ino
      if readOk then deleteEntries (recursiveDelete n) ino dir else pure (some false)
    else pure (some true)

/-- `PBDelete` between its locks, behind the recursion: a directory has to be empty. -/
def deleteEmpty (src : Str) (ino parent : UInt64) : M (Option Bool) := do
  if ← isdir ino then
    let (readOk, dir) ← readdir ino
    if readOk ∧ dir = [] then unlink parent (baseName src) else pure (some false)
  else unlink parent (baseName src)

def deleteAll (n : ℕ) (src : Str) (recursive : Bool) (ino parent : UInt64) : M (Option Bool) := do
  if recursive then
    match ← recursiveDelete n ino with
    | some true => deleteEmpty src ino parent
    | r => pure r
  else deleteEmpty src ino parent

def pbDelete (n : ℕ) (src : Str) (recursive : Bool) : M (Option Bool) := do
  match ← recursiveLookupLast src with
  | none => pure (some false)
  | some (ino, parent) =>
    dualLock ino parent
    match ← deleteAll n src recursive ino parent with
    | none => pure none
    | some r =>
      dualUnlock ino parent
      pure (some r)

end NameNode
end Yfs.Hdfs
