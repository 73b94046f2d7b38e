import Yfs.Extent.BlockList

/-! A fresh server: the root directory is its only file and the data region is free. -/
namespace Yfs.Extent
open Yfs.Lib

def newInode (rt : Runtime) (type : UInt32) : Inode :=
  ⟨type.toUInt16, 0, rt.now, rt.now, rt.now, rt.fresh⟩

theorem getInode_new (i : UInt32) : getInode Disk.new i = none := by
  have htype : (Inode.decode (Disk.new (iblock i.toNat blockNum))).type = 0 := rfl
  rw [getInode, if_pos htype, ite_self]

theorem init_eq (rt : Runtime) :
    Server.init rt = putInode rt 1 (newInode rt FileType.dir.code) Disk.new := by
  have hrange : List.range' 1 (inodeNum - 1) = 1 :: List.range' 2 (inodeNum - 2) := rfl
  have hnext : nextInode Disk.new = some 1 := by
    rw [nextInode, hrange, List.find?_cons_of_pos]
    rw [getInode_new, Option.isNone_none]
  rw [Server.init, allocInode, hnext]
  rfl

theorem getInode_init (rt : Runtime) (i : UInt32) :
    getInode (Server.init rt) i = if i = 1 then some (newInode rt FileType.dir.code) else none := by
  have htype : (newInode rt FileType.dir.code).type ≠ 0 :=
    (by decide : FileType.dir.code.toUInt16 ≠ 0)
  rw [init_eq, getInode_putInode (by decide), if_neg htype, getInode_new]

theorem used_init (rt : Runtime) (b : ℕ) : (Server.init rt).used b = false := by
  rw [init_eq, putInode_used, Disk.used_new]

theorem freeBlocks_init (rt : Runtime) :
    (Server.init rt).freeBlocks = List.range' Disk.firstData (blockNum - Disk.firstData) :=
  Disk.freeBlocks_of_unused (used_init rt)

theorem blockList_of_empty {d : Disk} {ino : Inode} (h : ino.size.toNat = 0) : blockList d ino = [] := by
  have hcount : blockCount ino.size.toNat = 0 := by
    rw [h]
    rfl
  simp [blockList, dataBlocks, tableBlocks, hcount]

theorem wellFormed_of_empty {d : Disk} {ino : Inode} (h : ino.size.toNat = 0) : WellFormed d ino := by
  constructor <;> simp [blockList_of_empty h]

theorem owned_init (rt : Runtime) : Owned (Server.init rt) := by
  have honly : ∀ i ino, getInode (Server.init rt) i = some ino → i = 1 ∧ ino.size.toNat = 0 := by
    intro i ino h
    rw [getInode_init] at h
    split_ifs at h with hi
    cases h
    exact ⟨hi, rfl⟩
  constructor
  · intro i ino h
    exact wellFormed_of_empty (honly i ino h).2
  · intro i j ino ino' hne h h'
    exact absurd ((honly i ino h).1.trans (honly j ino' h').1.symm) hne

end Yfs.Extent
