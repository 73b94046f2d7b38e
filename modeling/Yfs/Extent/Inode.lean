import Yfs.Extent.Disk

/-! The inode layer of `inode_manager`: inodes as C structures in the blocks of the inode
table. -/
namespace Yfs.Extent
open Yfs.Lib

def nDirect : ℕ := 100

def nIndirect : ℕ := blockSize / 4

def maxFile : ℕ := nDirect + nIndirect

theorem maxFile_eq : maxFile = 4196 := rfl

/-- What the C++ code leaves open while it serves one request: the time, and the contents of
memory that it reads without having written it. -/
structure Runtime where
  now : UInt32
  /-- Padding of a copied `struct inode`. -/
  pad : Buf
  /-- `blocks` of an inode fresh from `malloc`. -/
  fresh : Fin (nDirect + 1) → UInt32
  /-- The words behind an inode in memory, as `blocks[i]` with a large `i` shows them. -/
  beyond : ℕ → UInt32
  /-- A fresh table of block ids. -/
  table : Buf
  /-- A fresh buffer for file contents. -/
  out : Buf
  /-- The bytes behind the string that is to be written. -/
  tail : Buf
  /-- The result of a request handler before it is assigned. -/
  result : UInt32

structure Inode where
  type : UInt16
  size : UInt32
  atime : UInt32
  mtime : UInt32
  ctime : UInt32
  blocks : Fin (nDirect + 1) → UInt32

namespace Inode

def block (ino : Inode) (i : ℕ) : UInt32 := if h : i < nDirect + 1 then ino.blocks ⟨i, h⟩ else 0

def peek (ino : Inode) (rt : Runtime) (i : ℕ) : UInt32 :=
  if i ≤ nDirect then ino.block i else rt.beyond i

def setBlock (ino : Inode) (i : ℕ) (b : UInt32) : Inode :=
  { ino with blocks := fun j => if j.val = i then b else ino.blocks j }

def bytes : ℕ := 20 + 4 * (nDirect + 1)

/-- The words of the structure behind `type` and its padding. -/
def word (ino : Inode) : ℕ → UInt32
  | 0 => ino.size
  | 1 => ino.atime
  | 2 => ino.mtime
  | 3 => ino.ctime
  | k + 4 => ino.block k

def encode (ino : Inode) (pad : Buf) : Buf := fun i =>
  if i < 2 then Buf.byteOf ino.type.toNat i
  else if i < 4 then pad (i - 2)
  else Buf.byteOf (ino.word ((i - 4) / 4)).toNat ((i - 4) % 4)

def decode (b : Buf) : Inode where
  type := b.half 0
  size := b.word 4
  atime := b.word 8
  mtime := b.word 12
  ctime := b.word 16
  blocks k := b.word (20 + 4 * k.val)

theorem block_of_lt {ino : Inode} {i : ℕ} (h : i < nDirect + 1) : ino.block i = ino.blocks ⟨i, h⟩ :=
  dif_pos h

theorem block_setBlock (ino : Inode) (i j : ℕ) (b : UInt32) :
    (ino.setBlock i b).block j = if j = i ∧ i ≤ nDirect then b else ino.block j := by
  by_cases hj : j < nDirect + 1
  · have hji : j = i ∧ i ≤ nDirect ↔ j = i := ⟨And.left, fun h => ⟨h, by omega⟩⟩
    simp [block_of_lt hj, setBlock, hji]
  · have hji : ¬(j = i ∧ i ≤ nDirect) := by omega
    simp [block, hj, hji]

theorem decode_of_encode {ino : Inode} {pad b : Buf} (h : ∀ i < bytes, b i = ino.encode pad i) :
    decode b = ino := by
  have hbytes : bytes = 424 := rfl
  have hword : ∀ k < nDirect + 5, b.word (4 + 4 * k) = ino.word k := by
    intro k hk
    refine Buf.word_of_bytes fun i hi => ?_
    simp only [nDirect] at hk
    rw [h _ (by omega)]
    have hdiv : (4 + 4 * k + i - 4) / 4 = k := by omega
    have hmod : (4 + 4 * k + i - 4) % 4 = i := by omega
    have h₁ : ¬4 + 4 * k + i < 2 := by omega
    have h₂ : ¬4 + 4 * k + i < 4 := by omega
    rw [encode, if_neg h₁, if_neg h₂, hdiv, hmod]
  have htype : b.half 0 = ino.type := by
    refine Buf.half_of_bytes fun i hi => ?_
    have hi' : 0 + i < 2 := by omega
    rw [h _ (by omega), encode, if_pos hi', Nat.zero_add]
  obtain ⟨type, size, atime, mtime, ctime, blocks⟩ := ino
  simp only [decode, mk.injEq]
  refine ⟨htype, hword 0 (by decide), hword 1 (by decide), hword 2 (by decide), hword 3 (by decide), ?_⟩
  funext k
  have hk := hword (k.val + 4) (by omega)
  rw [show 4 + 4 * (k.val + 4) = 20 + 4 * k.val by omega] at hk
  rw [hk, word, block_of_lt k.isLt]

end Inode

def getInode (d : Disk) (inum : UInt32) : Option Inode :=
  if inodeNum ≤ inum.toNat then none
  else if (Inode.decode (d (iblock inum.toNat blockNum))).type = 0 then none
  else some (Inode.decode (d (iblock inum.toNat blockNum)))

/-- The block is read, the structure copied to its start and the block written back. -/
def putInode (rt : Runtime) (inum : UInt32) (ino : Inode) (d : Disk) : Disk :=
  d.writeBlock (iblock inum.toNat blockNum)
    ((d (iblock inum.toNat blockNum)).copy 0 Inode.bytes (ino.encode rt.pad))

def nextInode (d : Disk) : Option ℕ :=
  (List.range' 1 (inodeNum - 1)).find? fun i => (getInode d (UInt32.ofNat i)).isNone

/-- The first free inode becomes an empty file of the given type, its `blocks` as they come
from `malloc`. The result is 0 if there is none. -/
def allocInode (rt : Runtime) (type : UInt32) (d : Disk) : UInt32 × Disk :=
  match nextInode d with
  | some i => (UInt32.ofNat i, putInode rt (UInt32.ofNat i)
      ⟨type.toUInt16, 0, rt.now, rt.now, rt.now, rt.fresh⟩ d)
  | none => (0, d)

def freeInode (rt : Runtime) (inum : UInt32) (d : Disk) : Disk :=
  match getInode d inum with
  | some _ => putInode rt inum ⟨0, 0, 0, 0, 0, fun _ => 0⟩ d
  | none => d

theorem getInode_congr {d d' : Disk} {inum : UInt32}
    (h : inum.toNat < inodeNum → ∀ i < blockSize, d (inum.toNat + 3) i = d' (inum.toNat + 3) i) :
    getInode d inum = getInode d' inum := by
  by_cases hn : inodeNum ≤ inum.toNat
  · simp [getInode, hn]
  · have hdec : Inode.decode (d (inum.toNat + 3)) = Inode.decode (d' (inum.toNat + 3)) := by
      have h' := h (by omega)
      simp only [blockSize_eq] at h'
      simp only [Inode.decode, Inode.mk.injEq]
      refine ⟨Buf.half_congr fun k hk => h' _ (by omega), Buf.word_congr fun k hk => h' _ (by omega),
        Buf.word_congr fun k hk => h' _ (by omega), Buf.word_congr fun k hk => h' _ (by omega),
        Buf.word_congr fun k hk => h' _ (by omega), ?_⟩
      funext j
      have hj := j.isLt
      simp only [nDirect] at hj
      exact Buf.word_congr fun k hk => h' _ (by omega)
    simp [getInode, iblock_eq, hdec]

theorem getInode_lt {d : Disk} {inum : UInt32} {ino : Inode} (h : getInode d inum = some ino) :
    inum.toNat < inodeNum := by
  unfold getInode at h
  split_ifs at h with hn
  omega

theorem getInode_type {d : Disk} {inum : UInt32} {ino : Inode} (h : getInode d inum = some ino) :
    ino.type ≠ 0 := by
  unfold getInode at h
  split_ifs at h with hn ht
  cases h
  exact ht

theorem putInode_of_ne {rt : Runtime} {i : UInt32} {ino : Inode} {d : Disk} {b : ℕ}
    (hb : b ≠ i.toNat + 3) : putInode rt i ino d b = d b := by
  rw [putInode, iblock_eq]
  exact Disk.writeBlock_of_ne hb

theorem putInode_used {rt : Runtime} {i : UInt32} {ino : Inode} {d : Disk} {b : ℕ} :
    (putInode rt i ino d).used b = d.used b := by
  rw [Disk.used, putInode_of_ne (by omega), Disk.used]

theorem putInode_apply {rt : Runtime} {i : UInt32} (hi : i.toNat < inodeNum) (ino : Inode) (d : Disk)
    {k : ℕ} (hk : k < Inode.bytes) : putInode rt i ino d (i.toNat + 3) k = ino.encode rt.pad k := by
  have hsize : k < blockSize := hk.trans (by decide)
  have hnum : i.toNat + 3 < blockNum := by
    simp only [inodeNum] at hi
    rw [blockNum_eq]
    omega
  rw [putInode, iblock_eq, Disk.writeBlock_apply, if_pos ⟨rfl, hnum, hsize⟩, Buf.copy,
    if_pos ⟨Nat.zero_le k, by omega⟩, Nat.sub_zero]

theorem getInode_putInode {rt : Runtime} {i : UInt32} (hi : i.toNat < inodeNum) (ino : Inode)
    (d : Disk) (j : UInt32) : getInode (putInode rt i ino d) j =
      if j = i then if ino.type = 0 then none else some ino else getInode d j := by
  by_cases hji : j = i
  · subst hji
    have hdec : Inode.decode (putInode rt j ino d (j.toNat + 3)) = ino :=
      Inode.decode_of_encode fun k hk => putInode_apply hi ino d hk
    simp [getInode, iblock_eq, hdec, Nat.not_le.2 hi]
  · rw [if_neg hji]
    refine getInode_congr fun _ k _ => ?_
    rw [putInode_of_ne]
    intro h
    exact hji (UInt32.toNat_inj.1 (by omega))

end Yfs.Extent
