import Yfs.Extent.Read
import Mathlib.Data.List.Perm.Subperm

/-! The block list of a file, and the ownership of blocks: no block belongs to a file twice or
to two files. -/
namespace Yfs.Extent
open Yfs.Lib

/-- The block that holds byte `j * blockSize` of a file. -/
def blockId (d : Disk) (ino : Inode) (j : ℕ) : ℕ :=
  if j < nDirect then (ino.block j).toNat
  else ((d (ino.block nDirect).toNat).word (4 * (j - nDirect))).toNat

def dataBlocks (d : Disk) (ino : Inode) : List ℕ :=
  (List.range (blockCount ino.size.toNat)).map (blockId d ino)

def tableBlocks (ino : Inode) : List ℕ :=
  if nDirect < blockCount ino.size.toNat then [(ino.block nDirect).toNat] else []

def blockList (d : Disk) (ino : Inode) : List ℕ := dataBlocks d ino ++ tableBlocks ino

/-- The block list of a file is made of distinct, marked blocks of the data region. -/
structure WellFormed (d : Disk) (ino : Inode) : Prop where
  nodup : (blockList d ino).Nodup
  data : ∀ b ∈ blockList d ino, Disk.firstData ≤ b ∧ b < blockNum
  marked : ∀ b ∈ blockList d ino, d.used b = true

/-- Every file is well formed and no two files share a block. -/
structure Owned (d : Disk) : Prop where
  wellFormed : ∀ i ino, getInode d i = some ino → WellFormed d ino
  disjoint : ∀ i j ino ino', i ≠ j → getInode d i = some ino → getInode d j = some ino' →
    ∀ b ∈ blockList d ino, b ∉ blockList d ino'

section
variable {d d' : Disk} {ino : Inode}

theorem blockId_of_lt {j : ℕ} (h : j < nDirect) : blockId d ino j = (ino.block j).toNat := if_pos h

theorem blockId_add (k : ℕ) : blockId d ino (nDirect + k) =
    ((d (ino.block nDirect).toNat).word (4 * k)).toNat := by
  rw [blockId, if_neg (by omega), Nat.add_sub_cancel_left]

theorem mem_dataBlocks {j : ℕ} (h : j < blockCount ino.size.toNat) :
    blockId d ino j ∈ dataBlocks d ino :=
  List.mem_map_of_mem (List.mem_range.2 h)

theorem mem_blockList {j : ℕ} (h : j < blockCount ino.size.toNat) :
    blockId d ino j ∈ blockList d ino :=
  List.mem_append_left _ (mem_dataBlocks h)

theorem table_mem_blockList (h : nDirect < blockCount ino.size.toNat) :
    (ino.block nDirect).toNat ∈ blockList d ino := by
  simp [blockList, tableBlocks, h]

theorem blockId_putInode {rt : Runtime} {inum : UInt32} {ino' : Inode}
    (h : (ino.block nDirect).toNat ≠ inum.toNat + 3) (j : ℕ) :
    blockId (putInode rt inum ino' d) ino j = blockId d ino j := by
  rw [blockId, putInode_of_ne h, blockId]

theorem fileBlock_toNat (rt : Runtime) {j : ℕ} (ht : nDirect ≤ j → (ino.block nDirect).toNat < blockNum)
    (hj : j < maxFile) : (fileBlock rt d ino j).toNat = blockId d ino j := by
  by_cases hd : j < nDirect
  · rw [fileBlock_of_lt hd, blockId_of_lt hd]
  · have hin : 4 * (j - nDirect) + 4 ≤ blockSize := by
      rw [maxFile_eq] at hj
      simp only [nDirect, blockSize_eq]
      omega
    rw [fileBlock, if_neg hd, blockId, if_neg hd, word_readBlock (ht (Nat.not_lt.1 hd)) hin]

namespace WellFormed

theorem ne_of_lt (h : WellFormed d ino) {i j : ℕ} (hi : i < j) (hj : j < blockCount ino.size.toNat) :
    blockId d ino i ≠ blockId d ino j := by
  have hnd := (List.nodup_append.1 h.nodup).1
  intro heq
  exact hi.ne (List.inj_on_of_nodup_map hnd (List.mem_range.2 (hi.trans hj)) (List.mem_range.2 hj) heq)

theorem table_ne (h : WellFormed d ino) (hn : nDirect < blockCount ino.size.toNat) {j : ℕ}
    (hj : j < blockCount ino.size.toNat) : blockId d ino j ≠ (ino.block nDirect).toNat :=
  (List.nodup_append.1 h.nodup).2.2 _ (mem_dataBlocks hj) _ (by simp [tableBlocks, hn])

theorem block_lt (h : WellFormed d ino) {j : ℕ} (hj : j < blockCount ino.size.toNat) :
    Disk.firstData ≤ blockId d ino j ∧ blockId d ino j < blockNum :=
  h.data _ (mem_blockList hj)

theorem table_lt (h : WellFormed d ino) (hn : nDirect < blockCount ino.size.toNat) :
    Disk.firstData ≤ (ino.block nDirect).toNat ∧ (ino.block nDirect).toNat < blockNum :=
  h.data _ (table_mem_blockList hn)

theorem blockCount_le (h : WellFormed d ino) :
    blockCount ino.size.toNat ≤ blockNum - Disk.firstData := by
  have hsub : blockList d ino ⊆ List.range' Disk.firstData (blockNum - Disk.firstData) := by
    intro b hb
    rw [List.mem_range'_1, Nat.add_sub_cancel' (by decide)]
    exact h.data b hb
  have hlen := (List.subperm_of_subset h.nodup hsub).length_le
  rw [List.length_range'] at hlen
  simp only [blockList, dataBlocks, List.length_append, List.length_map, List.length_range] at hlen
  omega

end WellFormed

/-- The block list of a file is no longer than the code allows, and all of it is on the disk. -/
structure InRange (d : Disk) (ino : Inode) : Prop where
  count : blockCount ino.size.toNat ≤ maxFile
  table : nDirect < blockCount ino.size.toNat → (ino.block nDirect).toNat < blockNum
  block : ∀ j < blockCount ino.size.toNat, blockId d ino j < blockNum

theorem WellFormed.inRange (h : WellFormed d ino) : InRange d ino := by
  have hmax : blockNum - Disk.firstData ≤ maxFile := by decide
  exact ⟨h.blockCount_le.trans hmax, fun hn => (h.table_lt hn).2, fun j hj => (h.block_lt hj).2⟩

def fileBytes (d : Disk) (ino : Inode) : List UInt8 :=
  Buf.toList (fun i => d (blockId d ino (i / blockSize)) (i % blockSize)) ino.size.toNat

/-- The bytes of a file are those of its blocks, the last one cut at the end of the file. -/
theorem fileBytes_eq_chunks (d : Disk) (ino : Inode) :
    fileBytes d ino = (List.range (blockCount ino.size.toNat)).flatMap fun j =>
      (d (blockId d ino j)).toList (Buf.chunkLen blockSize ino.size.toNat j) := by
  have hsize : min (blockCount ino.size.toNat * blockSize) ino.size.toNat = ino.size.toNat :=
    Nat.min_eq_right (Extent.blockCount_le.1 le_rfl)
  rw [fileBytes, ← hsize, ← Buf.toList_chunks, hsize]
  refine List.flatMap_congr fun j _ => List.map_congr_left fun i hi => ?_
  have hlt : i < blockSize := (List.mem_range.1 hi).trans_le (Nat.min_le_left _ _)
  rw [Buf.shift, Nat.mul_comm, Nat.mul_add_div (by decide), Nat.div_eq_of_lt hlt, Nat.mul_add_mod,
    Nat.mod_eq_of_lt hlt, Nat.add_zero]

namespace InRange

theorem size_lt (h : InRange d ino) : ino.size.toNat < 2 ^ 31 := by
  have hle := Extent.blockCount_le.1 h.count
  rw [maxFile_eq, blockSize_eq] at hle
  omega

theorem fileBlock_eq (h : InRange d ino) (rt : Runtime) {j : ℕ}
    (hj : j < blockCount ino.size.toNat) : (fileBlock rt d ino j).toNat = blockId d ino j :=
  fileBlock_toNat rt (fun hd => h.table (hd.trans_lt hj)) (hj.trans_le h.count)

theorem content_eq (h : InRange d ino) (rt : Runtime) : content rt d ino = fileBytes d ino := by
  refine List.map_congr_left fun i hi => ?_
  have hj := div_lt_blockCount (List.mem_range.1 hi)
  rw [fileByte, h.fileBlock_eq rt hj, if_pos (h.block _ hj)]

end InRange

theorem WellFormed.size_lt (h : WellFormed d ino) : ino.size.toNat < 2 ^ 31 := h.inRange.size_lt

theorem WellFormed.fileBlock_eq (h : WellFormed d ino) (rt : Runtime) {j : ℕ}
    (hj : j < blockCount ino.size.toNat) : (fileBlock rt d ino j).toNat = blockId d ino j :=
  h.inRange.fileBlock_eq rt hj

theorem WellFormed.content_eq (h : WellFormed d ino) (rt : Runtime) :
    content rt d ino = fileBytes d ino := h.inRange.content_eq rt

theorem toNat_ofNat_of_lt {b : ℕ} (h : b < blockNum) : (UInt32.ofNat b).toNat = b := by
  rw [UInt32.toNat_ofNat', Nat.mod_eq_of_lt (h.trans (by decide))]

private theorem ofNat_blockId (rt : Runtime) {j : ℕ} (ht : nDirect ≤ j → (ino.block nDirect).toNat < blockNum)
    (hj : j < maxFile) : fileBlock rt d ino j = UInt32.ofNat (blockId d ino j) := by
  rw [← fileBlock_toNat rt ht hj, UInt32.ofNat_toNat]

theorem getBlockIds_eq_dataBlocks {i : UInt32} (hino : getInode d i = some ino)
    (hcount : blockCount ino.size.toNat ≤ maxFile)
    (ht : nDirect < blockCount ino.size.toNat → (ino.block nDirect).toNat < blockNum) (rt : Runtime) :
    getBlockIds rt i d = some ((dataBlocks d ino).map UInt32.ofNat) := by
  rw [getBlockIds_eq rt hino, dataBlocks, List.map_map]
  congr 1
  refine List.map_congr_left fun j hj => ?_
  have hlt := List.mem_range.1 hj
  exact ofNat_blockId rt (fun hge => ht (hge.trans_lt hlt)) (hlt.trans_le hcount)

theorem WellFormed.getBlockIds_eq {i : UInt32} (hwf : WellFormed d ino) (hino : getInode d i = some ino)
    (rt : Runtime) :
    getBlockIds rt i d = some ((dataBlocks d ino).map UInt32.ofNat) :=
  getBlockIds_eq_dataBlocks hino hwf.inRange.count hwf.inRange.table rt

def SameBlock (d d' : Disk) (b : ℕ) : Prop := ∀ i < blockSize, d' b i = d b i

theorem SameBlock.of_eq {b : ℕ} (h : d' b = d b) : SameBlock d d' b := fun i _ => by rw [h]

theorem WellFormed.blockId_congr (h : WellFormed d ino)
    (hsame : ∀ b ∈ blockList d ino, SameBlock d d' b) {j : ℕ} (hj : j < blockCount ino.size.toNat) :
    blockId d' ino j = blockId d ino j := by
  by_cases hd : j < nDirect
  · rw [blockId_of_lt hd, blockId_of_lt hd]
  · have hn : nDirect < blockCount ino.size.toNat := by omega
    have hmax := h.blockCount_le
    rw [blockNum_eq, Disk.firstData_eq] at hmax
    rw [blockId, if_neg hd, blockId, if_neg hd]
    congr 1
    refine Buf.word_congr fun k hk => hsame _ (table_mem_blockList hn) _ ?_
    rw [blockSize_eq]
    omega

theorem WellFormed.dataBlocks_congr (h : WellFormed d ino)
    (hsame : ∀ b ∈ blockList d ino, SameBlock d d' b) : dataBlocks d' ino = dataBlocks d ino :=
  List.map_congr_left fun _ hj => h.blockId_congr hsame (List.mem_range.1 hj)

theorem WellFormed.blockList_congr (h : WellFormed d ino)
    (hsame : ∀ b ∈ blockList d ino, SameBlock d d' b) : blockList d' ino = blockList d ino := by
  rw [blockList, h.dataBlocks_congr hsame, blockList]

theorem WellFormed.congr (h : WellFormed d ino) (hsame : ∀ b ∈ blockList d ino, SameBlock d d' b)
    (hmarked : ∀ b ∈ blockList d ino, d'.used b = true) : WellFormed d' ino := by
  have hlist := h.blockList_congr hsame
  constructor <;> rw [hlist]
  exacts [h.nodup, h.data, hmarked]

theorem WellFormed.fileBytes_congr (h : WellFormed d ino)
    (hsame : ∀ b ∈ blockList d ino, SameBlock d d' b) : fileBytes d' ino = fileBytes d ino := by
  refine List.map_congr_left fun i hi => ?_
  have hj := div_lt_blockCount (List.mem_range.1 hi)
  rw [h.blockId_congr hsame hj]
  exact hsame _ (mem_blockList hj) _ (Nat.mod_lt _ (by decide))

structure Spares (d d' : Disk) (i : UInt32) : Prop where
  inode : ∀ j, j ≠ i → getInode d' j = getInode d j
  same : ∀ j ino, j ≠ i → getInode d j = some ino → ∀ b ∈ blockList d ino, SameBlock d d' b
  marked : ∀ j ino, j ≠ i → getInode d j = some ino → ∀ b ∈ blockList d ino, d'.used b = true

/-- An operation on file `i` that spares the other files keeps the ownership if the new list of
`i` is made of its old blocks and of blocks that were free. -/
theorem Owned.step {i : UInt32} (h : Owned d) (hsp : Spares d d' i)
    (hnew : ∀ ino', getInode d' i = some ino' → WellFormed d' ino' ∧
      ∀ b ∈ blockList d' ino', (∃ ino, getInode d i = some ino ∧ b ∈ blockList d ino) ∨
        d.used b = false) : Owned d' := by
  have hlist : ∀ j ino, j ≠ i → getInode d' j = some ino →
      getInode d j = some ino ∧ blockList d' ino = blockList d ino := by
    intro j ino hj hino
    rw [hsp.inode j hj] at hino
    exact ⟨hino, (h.wellFormed j ino hino).blockList_congr (hsp.same j ino hj hino)⟩
  have hapart : ∀ j ino ino', j ≠ i → getInode d' i = some ino' → getInode d' j = some ino →
      ∀ b ∈ blockList d' ino', b ∉ blockList d' ino := by
    intro j ino ino' hj hino' hino b hb hb'
    obtain ⟨hold, hl⟩ := hlist j ino hj hino
    rw [hl] at hb'
    rcases (hnew ino' hino').2 b hb with ⟨ino₀, hino₀, hb₀⟩ | hfree
    · exact h.disjoint i j ino₀ ino hj.symm hino₀ hold b hb₀ hb'
    · rw [(h.wellFormed j ino hold).marked b hb'] at hfree
      cases hfree
  refine ⟨fun j ino hino => ?_, fun j k ino ino' hjk hj hk b hb hb' => ?_⟩
  · by_cases hj : j = i
    · subst hj
      exact (hnew ino hino).1
    · obtain ⟨hold, -⟩ := hlist j ino hj hino
      exact (h.wellFormed j ino hold).congr (hsp.same j ino hj hold) (hsp.marked j ino hj hold)
  · by_cases hji : j = i
    · subst hji
      exact hapart k ino' ino (Ne.symm hjk) hj hk b hb hb'
    · by_cases hki : k = i
      · subst hki
        exact hapart j ino ino' hji hk hj b hb' hb
      · obtain ⟨hold, hl⟩ := hlist j ino hji hj
        obtain ⟨hold', hl'⟩ := hlist k ino' hki hk
        rw [hl] at hb
        rw [hl'] at hb'
        exact h.disjoint j k ino ino' hjk hold hold' b hb hb'

end
end Yfs.Extent
