import Yfs.Hdfs.Nodes
import Yfs.Extent.Ownership

/-! Reading a file through HDFS: the located blocks of a file tile it, and the blocks read one
after the other are what `get` returns. -/
namespace Yfs.Hdfs
open Yfs.Lib Yfs.Extent Yfs.Client

/-- The located blocks tile `[0, size)`. -/
structure Tiles {D : Type} (locs : List (LocatedBlock D)) (size : ℕ) : Prop where
  offset : locs.map (fun b => b.offset.toNat) = (List.range locs.length).map fun j => j * blockSize
  pos : ∀ b ∈ locs, 0 < b.size.toNat ∧ b.size.toNat ≤ blockSize
  sum : (locs.map fun b => b.size.toNat).sum = size
  empty : size = 0 → locs = []

/-- A client of HDFS reads the located blocks one after the other. -/
def readAll {D : Type} : List (LocatedBlock D) → M Str
  | [] => pure []
  | b :: l => do
    let buf ← DataNode.readBlock b.blockId 0 b.size
    let rest ← readAll l
    pure (buf ++ rest)

def located {D : Type} (nn : NameNode D) (rt : Runtime) (d : Disk) (ino : Inode) (j : ℕ) :
    LocatedBlock D where
  blockId := fileBlock rt d ino j
  offset := UInt64.ofNat (j * blockSize)
  size := UInt64.ofNat (Buf.chunkLen blockSize ino.size.toNat j)
  locs := nn.getDatanodes

section
variable {D : Type} {d : Disk} {ino : Inode}

theorem size_eq_chunkLen {size : UInt32} {j : ℕ} (hj : j < blockCount size.toNat) :
    (if j < blockCount size.toNat - 1 then UInt64.ofNat blockSize
      else size.toUInt64 - UInt64.ofNat (j * blockSize)) =
      UInt64.ofNat (Buf.chunkLen blockSize size.toNat j) := by
  have hlow := lt_blockCount.1 hj
  have hlt := size.toNat_lt
  split_ifs with hlast
  · have hnext := lt_blockCount.1 (Nat.lt_sub_iff_add_lt.1 hlast)
    rw [Nat.succ_mul] at hnext
    rw [Buf.chunkLen, Nat.min_eq_left (by omega)]
  · have hnext := blockCount_le.1 (by omega : blockCount size.toNat ≤ j + 1)
    rw [Nat.succ_mul] at hnext
    have hsub : UInt64.ofNat (j * blockSize) ≤ size.toUInt64 := by
      rw [UInt64.le_iff_toNat_le, UInt64.toNat_ofNat', UInt32.toNat_toUInt64]
      exact (Nat.mod_le _ _).trans hlow.le
    rw [Buf.chunkLen, Nat.min_eq_right (by omega), ← UInt64.toNat_inj,
      UInt64.toNat_sub_of_le _ _ hsub, UInt64.toNat_ofNat', UInt64.toNat_ofNat', UInt32.toNat_toUInt64]
    omega

private theorem locate_eq (nn : NameNode D) (size : UInt32) (f : ℕ → UInt32) (i n : ℕ) :
    nn.locate (i + n) size i (UInt64.ofNat (i * blockSize)) ((List.range' i n).map f) =
      (List.range' i n).map fun j => ⟨f j, UInt64.ofNat (j * blockSize),
        if j < i + n - 1 then UInt64.ofNat blockSize else size.toUInt64 - UInt64.ofNat (j * blockSize),
        nn.getDatanodes⟩ := by
  induction n generalizing i with
  | zero => rfl
  | succ n ih =>
    have hnext := ih (i + 1)
    rw [Nat.succ_mul, UInt64.ofNat_add, show i + 1 + n = i + (n + 1) by omega] at hnext
    rw [List.range'_succ, List.map_cons, List.map_cons, NameNode.locate, hnext]

theorem run_getBlockLocations (nn : NameNode D) (s : Store) {id : UInt64}
    (hino : getInode s.disk (maskId id) = some ino) :
    (nn.getBlockLocations id).run Store.serve s =
      some ((List.range (blockCount ino.size.toNat)).map (located nn s.now s.disk ino),
        (s.next s.disk).next s.disk) := by
  have hids : Store.serve (.getBlockIds id) s = some
      ((.ok, (List.range (blockCount ino.size.toNat)).map (fileBlock s.now s.disk ino)),
        s.next s.disk) := by
    have heq := getBlockIds_eq s.now hino
    simp only [Store.serve, Server.getBlockIds, heq, Option.map_some]
  have hattr : (Server.getattr id s.disk).size = ino.size := by
    simp only [Server.getattr, Extent.getattr, hino]
  have hloc := locate_eq nn ino.size (fileBlock s.now s.disk ino) 0 (blockCount ino.size.toNat)
  rw [Nat.zero_add, Nat.zero_mul, ← List.range_eq_range'] at hloc
  have hmap : nn.locate (blockCount ino.size.toNat) ino.size 0 0
      ((List.range (blockCount ino.size.toNat)).map (fileBlock s.now s.disk ino)) =
        (List.range (blockCount ino.size.toNat)).map (located nn s.now s.disk ino) := by
    refine hloc.trans (List.map_congr_left fun j hj => ?_)
    rw [located, ← size_eq_chunkLen (List.mem_range.1 hj)]
  rw [NameNode.getBlockLocations, Prog.run_bind_some (by rw [Prog.run_perform, hids]),
    Prog.run_bind_some (by rw [Prog.run_perform, Store.serve]), Prog.run_pure, List.length_map,
    List.length_range, Store.disk_next, hattr, hmap]

theorem readBlock_eq (rt : Runtime) {d : Disk} {bid : UInt32} (hb : bid.toNat < blockNum) :
    Server.readBlock rt bid d = (d bid.toNat).toList blockSize := by
  refine List.map_congr_left fun i hi => ?_
  have hlt : i < 0 + blockSize := by
    rw [Nat.zero_add]
    exact List.mem_range.1 hi
  rw [Disk.readBlock_apply, if_pos ⟨hb, Nat.zero_le i, hlt⟩, Nat.sub_zero]

private theorem run_readBlock (s : Store) {bid : UInt32} (hb : bid.toNat < blockNum) (len : UInt64) :
    (DataNode.readBlock bid 0 len).run Store.serve s =
      some ((s.disk bid.toNat).toList (min len.toNat blockSize), s.next s.disk) := by
  rw [DataNode.readBlock, Prog.run_bind_some (by rw [Prog.run_perform, Store.serve]), Prog.run_pure,
    readBlock_eq s.now hb, Buf.length_toList, UInt64.toNat_zero, if_neg (Nat.not_lt_zero _),
    List.drop_zero, Buf.take_toList]

theorem run_readAll (l : List (LocatedBlock D)) (s : Store)
    (hl : ∀ b ∈ l, b.blockId.toNat < blockNum) :
    ∃ s', (readAll l).run Store.serve s = some
        (l.flatMap fun b => (s.disk b.blockId.toNat).toList (min b.size.toNat blockSize), s') ∧
      s'.disk = s.disk := by
  induction l generalizing s with
  | nil => exact ⟨s, rfl, rfl⟩
  | cons b l ih =>
    obtain ⟨s', hrun, hdisk⟩ := ih (s.next s.disk) fun b' hb' => hl b' (List.mem_cons_of_mem b hb')
    refine ⟨s', ?_, hdisk⟩
    rw [readAll, Prog.run_bind_some (run_readBlock s (hl b List.mem_cons_self) b.size),
      Prog.run_bind_some hrun, Prog.run_pure, List.flatMap_cons]
    rfl

theorem toNat_chunkLen (n j : ℕ) :
    (UInt64.ofNat (Buf.chunkLen blockSize n j)).toNat = Buf.chunkLen blockSize n j := by
  have hle : Buf.chunkLen blockSize n j ≤ blockSize := Nat.min_le_left _ _
  rw [blockSize_eq] at hle ⊢
  rw [UInt64.toNat_ofNat', Nat.mod_eq_of_lt (by omega)]

theorem tiles_located (nn : NameNode D) (rt : Runtime) (d : Disk) (ino : Inode) :
    Tiles ((List.range (blockCount ino.size.toNat)).map (located nn rt d ino)) ino.size.toNat := by
  constructor
  · rw [List.map_map, List.length_map, List.length_range]
    refine List.map_congr_left fun j hj => ?_
    have hlow := lt_blockCount.1 (List.mem_range.1 hj)
    have hlt := ino.size.toNat_lt
    rw [Function.comp_apply, located, UInt64.toNat_ofNat', Nat.mod_eq_of_lt (by omega)]
  · intro b hb
    obtain ⟨j, hj, rfl⟩ := List.mem_map.1 hb
    have hlow := lt_blockCount.1 (List.mem_range.1 hj)
    have hpos : 0 < blockSize := by decide
    rw [located, toNat_chunkLen, Buf.chunkLen]
    omega
  · have hsum := Buf.sum_chunkLen blockSize ino.size.toNat (blockCount ino.size.toNat)
    rw [Nat.min_eq_right (blockCount_le.1 le_rfl)] at hsum
    rw [List.map_map]
    exact (congrArg List.sum (List.map_congr_left fun j _ => toNat_chunkLen _ j)).trans hsum
  · intro hzero
    rw [hzero]
    rfl

/-- Reading through HDFS is reading through `get`. -/
theorem hdfs_read_eq_get (nn : NameNode D) (s : Store) {id : UInt64}
    (hino : getInode s.disk (maskId id) = some ino) (hin : InRange s.disk ino) :
    ∃ locs bytes s₁ s₂, (nn.getBlockLocations id).run Store.serve s = some (locs, s₁) ∧
      (readAll locs).run Store.serve s₁ = some (bytes, s₂) ∧
      (∀ rt, (Server.get rt id s.disk).1 = some bytes) ∧ Tiles locs ino.size.toNat := by
  have hrange : ∀ b ∈ (List.range (blockCount ino.size.toNat)).map (located nn s.now s.disk ino),
      b.blockId.toNat < blockNum := by
    intro b hb
    obtain ⟨j, hj, rfl⟩ := List.mem_map.1 hb
    have hlt := List.mem_range.1 hj
    rw [located, hin.fileBlock_eq s.now hlt]
    exact hin.block j hlt
  obtain ⟨s₂, hread, -⟩ := run_readAll _ ((s.next s.disk).next s.disk) hrange
  refine ⟨_, _, _, s₂, run_getBlockLocations nn s hino, hread, fun rt => ?_,
      tiles_located nn s.now s.disk ino⟩
  rw [Server.get_eq rt hino hin.size_lt, hin.content_eq, fileBytes_eq_chunks, List.flatMap_map]
  refine congrArg some (List.flatMap_congr fun j hj => ?_)
  have hle : Buf.chunkLen blockSize ino.size.toNat j ≤ blockSize := Nat.min_le_left _ _
  rw [located, hin.fileBlock_eq s.now (List.mem_range.1 hj), toNat_chunkLen, Nat.min_eq_left hle]
  rfl

end

theorem hdfs_read_eq_get_byte : ∃ locs bytes s₁ s₂,
    ((NameNode.init Unit).getBlockLocations 1).run Store.serve
      ⟨Server.put quiet 1 [7] (Server.init quiet), fun _ => quiet, fun _ => false⟩ = some (locs, s₁) ∧
    (readAll locs).run Store.serve s₁ = some (bytes, s₂) ∧
    (∀ rt, (Server.get rt 1 (Server.put quiet 1 [7] (Server.init quiet))).1 = some bytes) ∧
    Tiles locs 1 := by
  obtain ⟨ino, hino, hsize, -, -⟩ := inodes_put_byte
  obtain ⟨ha, hs⟩ := put_byte_init
  have hwf := ((owned_init quiet).put quiet ha hs).1.wellFormed 1 ino hino
  rw [← hsize]
  exact hdfs_read_eq_get (NameNode.init Unit)
    ⟨Server.put quiet 1 [7] (Server.init quiet), fun _ => quiet, fun _ => false⟩ hino hwf.inRange

end Yfs.Hdfs
