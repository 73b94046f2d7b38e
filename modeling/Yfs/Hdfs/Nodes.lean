import Yfs.Client.YfsClient
import Mathlib.Data.Finset.Insert

/-! The HDFS front end: `DataNode` and the block and file requests of `NameNode`. Both talk to the
same extent server. -/
namespace Yfs.Hdfs
open Yfs.Lib Yfs.Extent Yfs.Client

namespace DataNode

/-- `ReadBlock`; `substr` stops at the end of the block. -/
def readBlock (bid : UInt32) (offset len : UInt64) : M Str := do
  let (_, block) ← perform (.readBlock bid)
  pure (if block.length < offset.toNat then [] else (block.drop offset.toNat).take len.toNat)

/-- `WriteBlock`. The block is read twice; `none` is the exception of the second `substr`. -/
def writeBlock (bid : UInt32) (offset len : UInt64) (buf : Str) : M (Option Bool) := do
  let _ ← perform (.readBlock bid)
  let (_, block) ← perform (.readBlock bid)
  if block.length < (offset + len).toNat then pure none
  else
    let _ ← perform (.writeBlock bid (block.take offset.toNat ++ buf ++ block.drop (offset + len).toNat))
    pure (some true)

end DataNode

structure LocatedBlock (D : Type) where
  blockId : UInt32
  offset : UInt64
  size : UInt64
  locs : List D
  deriving DecidableEq

/-- The state of a `NameNode`. `D` is the type of datanode ids; `datanode` is a map, listed in its
order. -/
structure NameNode (D : Type) where
  pendingWrite : UInt64 → Option UInt32
  hdfsBlock : Finset UInt32
  datanode : List (D × Int32)
  heartbeatCount : UInt64

/-- `HdfsException` with its texts. -/
inductive HdfsException where
  | fileNotLocked | noSuchPendingWrite | completeFailed
  | notAbsolutePath | traverseFailed | createParentFailed | parentNotExists
  | createFileFailed | mkdirsFailed | noFileNameGiven
  deriving DecidableEq, Repr

def HdfsException.what : HdfsException → String
  | .fileNotLocked => "File not locked"
  | .noSuchPendingWrite => "No such pending write"
  | .completeFailed => "Complete pending write failed"
  | .notAbsolutePath => "Not absolute path"
  | .traverseFailed => "Traverse failed"
  | .createParentFailed => "Create parent failed"
  | .parentNotExists => "Parent not exists"
  | .createFileFailed => "Create file failed"
  | .mkdirsFailed => "Mkdirs failed"
  | .noFileNameGiven => "No file name given"

def slash : UInt8 := 47

def NameNode.init (D : Type) : NameNode D := ⟨fun _ => none, ∅, [], 0⟩

/-- What the last block is shorter is taken off the size. -/
def newSize (size : UInt32) (last : Option UInt64) : UInt32 :=
  match last with
  | some n => size - UInt32.ofNat blockSize + n.toUInt32
  | none => size

namespace NameNode
variable {D : Type} (nn : NameNode D)

/-- The datanodes that were heard of in the last three beats, in unsigned arithmetic. -/
def getDatanodes : List D :=
  (nn.datanode.filter fun p => decide (nn.heartbeatCount - 3 ≤ p.2.toInt64.toUInt64)).map Prod.fst

/-- The loop of `GetBlockLocations`; `count` is the length of the whole list. -/
def locate (count : ℕ) (size : UInt32) (index : ℕ) (offset : UInt64) : List UInt32 → List (LocatedBlock D)
  | [] => []
  | id :: ids =>
    ⟨id, offset, if index < count - 1 then UInt64.ofNat blockSize else size.toUInt64 - offset,
      nn.getDatanodes⟩ :: locate count size (index + 1) (offset + UInt64.ofNat blockSize) ids

def getBlockLocations (ino : UInt64) : M (List (LocatedBlock D)) := do
  let (_, ids) ← perform (.getBlockIds ino)
  let (_, attr) ← perform (.getattr ino)
  pure (nn.locate ids.length attr.size 0 0 ids)

def complete (ino : UInt64) (newSize : UInt32) : M Bool := do
  let r ← perform (.complete ino newSize)
  if r = .ok then
    let _ ← perform (.release ino)
    pure true
  else pure false

def appendBlock (ino : UInt64) : M (LocatedBlock D × NameNode D) := do
  let (_, attr) ← perform (.getattr ino)
  let (_, bid) ← perform (.appendBlock ino)
  let size := if attr.size.toNat % blockSize = 0 then blockSize else attr.size.toNat % blockSize
  pure (⟨bid, attr.size.toUInt64, UInt64.ofNat size, nn.getDatanodes⟩,
    { nn with hdfsBlock := insert bid nn.hdfsBlock })

def walk (ino : UInt64) : List Str → M (Option UInt64)
  | [] => pure (some ino)
  | component :: l => do
    let (r, found, ino') ← lookup ino (cStr component) false ino
    if r = .ok ∧ found = true then walk ino' l else pure none

/-- The components of a path; empty ones are skipped. -/
def components (path : Str) : List Str := ((path.drop 1).splitOn slash).filter fun c => c ≠ []

/-- Only absolute paths are looked up, from the root. -/
def recursiveLookup (path : Str) : M (Option UInt64) :=
  if path.head? = some slash then walk 1 (components path) else pure none

/-- No block comes back if the path does not exist. -/
def pbAddBlock (src : Str) : M (Except HdfsException (Option (LocatedBlock D)) × NameNode D) := do
  match ← recursiveLookup src with
  | none => pure (.ok none, nn)
  | some ino =>
    match nn.pendingWrite ino with
    | none => pure (.error .fileNotLocked, nn)
    | some size =>
      let (block, nn) ← nn.appendBlock ino
      pure (.ok (some block), { nn with
        pendingWrite := Function.update nn.pendingWrite ino (some (size + UInt32.ofNat blockSize)) })

/-- `last` is the length of the last block, if the request has one. -/
def pbComplete (src : Str) (last : Option UInt64) : M (Except HdfsException Bool × NameNode D) := do
  match ← recursiveLookup src with
  | none => pure (.ok false, nn)
  | some ino =>
    match nn.pendingWrite ino with
    | none => pure (.error .noSuchPendingWrite, nn)
    | some size =>
      if ← complete ino (newSize size last) then
        pure (.ok true, { nn with pendingWrite := Function.update nn.pendingWrite ino none })
      else
        pure (.error .completeFailed,
          { nn with pendingWrite := Function.update nn.pendingWrite ino (some (newSize size last)) })

end NameNode
end Yfs.Hdfs
