import Yfs.Extent.Inode
import Yfs.Lib.Loop

/-! The file operations of `inode_manager`. A file has up to `nDirect` blocks in its inode and
the rest in a table of block ids, whose own block is `blocks[nDirect]`. -/
namespace Yfs.Extent
open Yfs.Lib

def toUnsigned (x : ℤ) : ℕ := (x % 2 ^ 32).toNat

/-- The number of blocks of a file with `n` bytes. -/
def blockCount (n : ℕ) : ℕ := if n % blockSize = 0 then n / blockSize else n / blockSize + 1

/-- The same for the signed argument of `write_file`, in the arithmetic of `int`. -/
def needBlocks (size : ℤ) : ℕ :=
  toUnsigned (if size.tmod blockSize = 0 then size.tdiv blockSize else size.tdiv blockSize + 1)

def zero : Buf := fun _ => 0

def readDirect (ino : Inode) (n : ℕ) (d : Disk) (out : Buf) : Buf :=
  forRange 0 n (fun i out => d.readBlock (ino.block i).toNat out (i * blockSize)) out

def readIndirect (table : Buf) (n : ℕ) (d : Disk) (out : Buf) : Buf :=
  forRange 0 n (fun i out => d.readBlock (table.word (4 * i)).toNat out ((nDirect + i) * blockSize)) out

/-- The buffer and the size that `read_file` returns; `none` if there is no such inode. -/
def readFile (rt : Runtime) (inum : UInt32) (d : Disk) : Option (Buf × ℤ) × Disk :=
  match getInode d inum with
  | none => (none, d)
  | some ino =>
    let n := blockCount ino.size.toNat
    let out :=
      if ino.size.toNat ≤ blockSize then d.readBlock (ino.block 0).toNat rt.out 0
      else if n ≤ nDirect then readDirect ino n d rt.out
      else readIndirect (d.readBlock (ino.block nDirect).toNat rt.table 0) (n - nDirect) d
        (readDirect ino nDirect d rt.out)
    (some (out, Int.bmod ino.size.toNat (2 ^ 32)), putInode rt inum { ino with atime := rt.now } d)

def allocDirect (lo hi : ℕ) (s : Inode × Disk) : Inode × Disk :=
  forRange lo hi (fun i s => (s.1.setBlock i s.2.allocBlock.1, s.2.allocBlock.2)) s

def allocTable (lo hi : ℕ) (s : Buf × Disk) : Buf × Disk :=
  forRange lo hi (fun i s => (s.1.setWord (4 * i) s.2.allocBlock.1, s.2.allocBlock.2)) s

def freeDirect (ino : Inode) (lo hi : ℕ) (d : Disk) : Disk :=
  forRange lo hi (fun i d => d.freeBlock (ino.block i)) d

def freeTable (table : Buf) (lo hi : ℕ) (d : Disk) : Disk :=
  forRange lo hi (fun i d => d.freeBlock (table.word (4 * i))) d

/-- Each block is cleared and written. -/
def writeDirect (buf : Buf) (ino : Inode) (n : ℕ) (d : Disk) : Disk :=
  forRange 0 n (fun i d =>
    (d.writeBlock (ino.block i).toNat zero).writeBlock (ino.block i).toNat
      (buf.shift (i * blockSize))) d

/-- The block that is cleared is `blocks[i]`, not the indirect block that is written. -/
def writeIndirect (rt : Runtime) (buf : Buf) (ino : Inode) (table : Buf) (n : ℕ) (d : Disk) : Disk :=
  forRange 0 n (fun i d =>
    (d.writeBlock (ino.peek rt i).toNat zero).writeBlock (table.word (4 * i)).toNat
      (buf.shift ((nDirect + i) * blockSize))) d

/-- All blocks of a file with indirect blocks, and the table last. -/
def writeLarge (rt : Runtime) (buf : Buf) (ino : Inode) (table : Buf) (need : ℕ) (d : Disk) : Disk :=
  (writeIndirect rt buf ino table (need - nDirect) (writeDirect buf ino nDirect d)).writeBlock
    (ino.block nDirect).toNat table

def Inode.written (ino : Inode) (rt : Runtime) (size : ℤ) : Inode :=
  { ino with size := UInt32.ofNat (toUnsigned size), ctime := rt.now, mtime := rt.now }

def writeFile (rt : Runtime) (inum : UInt32) (buf : Buf) (size : ℤ) (d : Disk) : Disk :=
  match getInode d inum with
  | none => d
  | some ino =>
    let need := needBlocks size
    let origin := blockCount ino.size.toNat
    if maxFile < need then d
    else if need ≤ nDirect then
      if origin < need then
        let (ino, d) := allocDirect origin need (ino, d)
        putInode rt inum (ino.written rt size) (writeDirect buf ino need d)
      else if origin = need then
        putInode rt inum (ino.written rt size) (writeDirect buf ino need d)
      else if origin ≤ nDirect then
        let d := freeDirect ino need origin d
        putInode rt inum (ino.written rt size) (writeDirect buf ino need d)
      else
        let table := d.readBlock (ino.block nDirect).toNat rt.table 0
        let d := freeTable table 0 (origin - nDirect) d
        let d := freeDirect ino need (nDirect + 1) d
        putInode rt inum (ino.written rt size) (writeDirect buf ino need d)
    else if origin < nDirect then
      let (ino, d) := allocDirect origin nDirect (ino, d)
      let ino := ino.setBlock nDirect d.allocBlock.1
      let (table, d) := allocTable 0 (need - nDirect) (rt.table, d.allocBlock.2)
      putInode rt inum (ino.written rt size) (writeLarge rt buf ino table need d)
    else
      let table := d.readBlock (ino.block nDirect).toNat rt.table 0
      if origin < need then
        let (table, d) := allocTable (origin - nDirect) (need - nDirect) (table, d)
        putInode rt inum (ino.written rt size) (writeLarge rt buf ino table need d)
      else if need = origin then
        putInode rt inum (ino.written rt size) (writeLarge rt buf ino table need d)
      else
        let d := freeTable table (need - nDirect) (origin - nDirect) d
        putInode rt inum (ino.written rt size) (writeLarge rt buf ino table need d)

structure Attr where
  type : UInt32
  atime : UInt32
  mtime : UInt32
  ctime : UInt32
  size : UInt32
  deriving DecidableEq, Repr

/-- `mtime` is filled from `atime`. The `short` type is sign-extended. -/
def getattr (d : Disk) (inum : UInt32) : Attr :=
  match getInode d inum with
  | none => ⟨0, 0, 0, 0, 0⟩
  | some ino => ⟨UInt32.ofNat (toUnsigned (Int.bmod ino.type.toNat (2 ^ 16))), ino.atime, ino.atime,
      ino.ctime, ino.size⟩

/-- The branches of the block count are the other way round than in `blockCount`. -/
def removeFile (rt : Runtime) (inum : UInt32) (d : Disk) : Disk :=
  match getInode d inum with
  | none => d
  | some ino =>
    let n := if ino.size.toNat % blockSize ≠ 0 then ino.size.toNat / blockSize
      else ino.size.toNat / blockSize + 1
    if n < nDirect then freeInode rt inum (freeDirect ino 0 n d)
    else
      let table := d.readBlock (ino.block nDirect).toNat rt.table 0
      freeInode rt inum (freeDirect ino 0 (nDirect + 1) (freeTable table 0 (n - nDirect) d))

/-- The id of the new block is `none` where `append_block` leaves its argument alone. -/
def appendBlock (rt : Runtime) (inum : UInt32) (d : Disk) : Option UInt32 × Disk :=
  match getInode d inum with
  | none => (none, d)
  | some ino =>
    let index := blockCount ino.size.toNat
    if maxFile < index then (none, d)
    else
      let (bid, d) := d.allocBlock
      if index < nDirect then
        (some bid, putInode rt inum
          { ino.setBlock index bid with size := ino.size + UInt32.ofNat blockSize } d)
      else
        let (ino, d) := if index = nDirect then (ino.setBlock nDirect d.allocBlock.1, d.allocBlock.2)
          else (ino, d)
        let table := (d.readBlock (ino.block nDirect).toNat rt.table 0).setWord
          (4 * (index - nDirect)) bid
        (some bid, putInode rt inum { ino with size := ino.size + UInt32.ofNat blockSize }
          (d.writeBlock (ino.block nDirect).toNat table))

/-- `none` is the use of a null pointer. -/
def getBlockIds (rt : Runtime) (inum : UInt32) (d : Disk) : Option (List UInt32) :=
  (getInode d inum).map fun ino =>
    let n := blockCount ino.size.toNat
    if n ≤ nDirect then (List.range n).map ino.block
    else
      let table := d.readBlock (ino.block nDirect).toNat rt.table 0
      (List.range nDirect).map ino.block ++ (List.range (n - nDirect)).map fun i => table.word (4 * i)

/-- `none` is the use of a null pointer. -/
def complete (rt : Runtime) (inum : UInt32) (size : UInt32) (d : Disk) : Option Disk :=
  (getInode d inum).map fun ino =>
    putInode rt inum { ino with size := size, atime := rt.now, mtime := rt.now, ctime := rt.now } d

end Yfs.Extent
