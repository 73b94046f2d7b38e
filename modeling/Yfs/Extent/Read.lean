import Yfs.Extent.Server

/-! What `read_file` and `get_block_ids` show of a file: one walk over its block list. -/
namespace Yfs.Extent
open Yfs.Lib

def fileBlock (rt : Runtime) (d : Disk) (ino : Inode) (j : ℕ) : UInt32 :=
  if j < nDirect then ino.block j
  else (d.readBlock (ino.block nDirect).toNat rt.table 0).word (4 * (j - nDirect))

/-- Byte `i` of a file. A block id behind the end of the disk shows the fresh buffer. -/
def fileByte (rt : Runtime) (d : Disk) (ino : Inode) (i : ℕ) : UInt8 :=
  if (fileBlock rt d ino (i / blockSize)).toNat < blockNum then
    d (fileBlock rt d ino (i / blockSize)).toNat (i % blockSize)
  else rt.out i

theorem fileBlock_of_lt {rt : Runtime} {d : Disk} {ino : Inode} {j : ℕ} (h : j < nDirect) :
    fileBlock rt d ino j = ino.block j := if_pos h

theorem fileBlock_add (rt : Runtime) (d : Disk) (ino : Inode) (k : ℕ) :
    fileBlock rt d ino (nDirect + k) =
      (d.readBlock (ino.block nDirect).toNat rt.table 0).word (4 * k) := by
  rw [fileBlock, if_neg (by omega), Nat.add_sub_cancel_left]

theorem lt_blockCount {n j : ℕ} : j < blockCount n ↔ j * blockSize < n := by
  unfold blockCount
  rw [blockSize_eq]
  split_ifs <;> omega

theorem blockCount_le {n k : ℕ} : blockCount n ≤ k ↔ n ≤ k * blockSize := by
  rw [← Nat.not_lt, lt_blockCount, Nat.not_lt]

theorem blockCount_mul (n : ℕ) : blockCount (n * blockSize) = n := by
  have hpos : 0 < blockSize := by decide
  rw [blockCount, Nat.mul_mod_left, if_pos rfl, Nat.mul_div_cancel n hpos]

theorem blockCount_mul_add {m n : ℕ} (hpos : 1 ≤ n) (hn : n ≤ blockSize) :
    blockCount (m * blockSize + n) = m + 1 := by
  have hle : blockCount (m * blockSize + n) ≤ m + 1 := blockCount_le.2 (by rw [Nat.succ_mul]; omega)
  have hlt : m < blockCount (m * blockSize + n) := lt_blockCount.2 (by omega)
  omega

theorem div_lt_blockCount {n i : ℕ} (h : i < n) : i / blockSize < blockCount n := by
  rw [lt_blockCount]
  exact (Nat.div_mul_le_self i blockSize).trans_lt h

theorem word_readBlock {d : Disk} {t k : ℕ} (ht : t < blockNum) (hk : 4 * k + 4 ≤ blockSize)
    (table : Buf) : (d.readBlock t table 0).word (4 * k) = (d t).word (4 * k) := by
  refine Buf.word_congr fun i hi => ?_
  rw [Disk.readBlock_of_lt ht, Buf.copy, if_pos ⟨Nat.zero_le _, by omega⟩, Nat.sub_zero]

theorem readLoop_apply (ids : ℕ → ℕ) (base n : ℕ) (d : Disk) (out : Buf) (i : ℕ) :
    forRange 0 n (fun k out => d.readBlock (ids k) out ((base + k) * blockSize)) out i =
      if base * blockSize ≤ i ∧ i < (base + n) * blockSize ∧ ids (i / blockSize - base) < blockNum then
        d (ids (i / blockSize - base)) (i % blockSize)
      else out i := by
  induction n with
  | zero =>
    rw [forRange_of_le le_rfl, Nat.add_zero, if_neg (by omega)]
  | succ n ih =>
    rw [forRange_succ n.zero_le, Disk.readBlock_apply, ih, ← Nat.add_assoc, Nat.succ_mul (base + n),
      blockSize_eq]
    by_cases hin : (base + n) * 16384 ≤ i ∧ i < (base + n) * 16384 + 16384
    · have hnew : base * 16384 ≤ i := by omega
      have hold : ¬i < (base + n) * 16384 := by omega
      have hmod : i - (base + n) * 16384 = i % 16384 := by omega
      have hdiv : i / 16384 - base = n := by omega
      simp only [hdiv, hmod, hin, hnew, hold, true_and, and_true, false_and, and_false, if_false]
    · have hiff : i < (base + n) * 16384 + 16384 ↔ i < (base + n) * 16384 := by omega
      rw [if_neg (fun h => hin h.2)]
      simp only [hiff]

private theorem readDirect_apply (ino : Inode) (n : ℕ) (d : Disk) (out : Buf) (i : ℕ) :
    readDirect ino n d out i =
      if i < n * blockSize ∧ (ino.block (i / blockSize)).toNat < blockNum then
        d (ino.block (i / blockSize)).toNat (i % blockSize)
      else out i := by
  have h := readLoop_apply (fun k => (ino.block k).toNat) 0 n d out i
  simpa only [readDirect, Nat.zero_add, Nat.zero_mul, Nat.zero_le, true_and, Nat.sub_zero] using h

private theorem readIndirect_apply (table : Buf) (n : ℕ) (d : Disk) (out : Buf) (i : ℕ) :
    readIndirect table n d out i =
      if nDirect * blockSize ≤ i ∧ i < (nDirect + n) * blockSize ∧
          (table.word (4 * (i / blockSize - nDirect))).toNat < blockNum then
        d (table.word (4 * (i / blockSize - nDirect))).toNat (i % blockSize)
      else out i :=
  readLoop_apply (fun k => (table.word (4 * k)).toNat) nDirect n d out i

theorem readFile_eq (rt : Runtime) {d : Disk} {inum : UInt32} {ino : Inode}
    (h : getInode d inum = some ino) :
    ∃ out : Buf, readFile rt inum d = (some (out, Int.bmod ino.size.toNat (2 ^ 32)),
        putInode rt inum { ino with atime := rt.now } d) ∧
      ∀ i < ino.size.toNat, out i = fileByte rt d ino i := by
  simp only [readFile, h]
  refine ⟨_, rfl, fun i hi => ?_⟩
  have hblock := div_lt_blockCount hi
  have hpos : 0 < blockSize := by decide
  split_ifs with hone hdir
  · have hlt : i < blockSize := hi.trans_le hone
    have hzero : fileBlock rt d ino (i / blockSize) = ino.block 0 := by
      rw [Nat.div_eq_of_lt hlt, fileBlock_of_lt (by decide)]
    rw [fileByte, hzero, Disk.readBlock_apply, Nat.mod_eq_of_lt hlt]
    simp [hlt]
  · have hn : i < blockCount ino.size.toNat * blockSize := (Nat.div_lt_iff_lt_mul hpos).1 hblock
    rw [fileByte, fileBlock_of_lt (hblock.trans_le hdir), readDirect_apply]
    simp [hn]
  · rw [readIndirect_apply, readDirect_apply, fileByte]
    rw [Nat.not_le] at hdir
    by_cases hj : i / blockSize < nDirect
    · have hlt : i < nDirect * blockSize := (Nat.div_lt_iff_lt_mul hpos).1 hj
      rw [if_neg (by omega), fileBlock_of_lt hj]
      simp [hlt]
    · have hle : nDirect * blockSize ≤ i := (Nat.le_div_iff_mul_le hpos).1 (Nat.not_lt.1 hj)
      have hn : i < (nDirect + (blockCount ino.size.toNat - nDirect)) * blockSize := by
        rw [Nat.add_sub_cancel' hdir.le]
        exact (Nat.div_lt_iff_lt_mul hpos).1 hblock
      have hnot : ¬i < nDirect * blockSize := Nat.not_lt.2 hle
      rw [fileBlock, if_neg hj]
      simp [hle, hn, hnot]

theorem getBlockIds_eq (rt : Runtime) {d : Disk} {inum : UInt32} {ino : Inode}
    (h : getInode d inum = some ino) :
    getBlockIds rt inum d = some ((List.range (blockCount ino.size.toNat)).map (fileBlock rt d ino)) := by
  simp only [getBlockIds, h, Option.map_some, Option.some.injEq]
  split_ifs with hn
  · refine List.map_congr_left fun j hj => ?_
    rw [fileBlock_of_lt ((List.mem_range.1 hj).trans_le hn)]
  · rw [← Nat.add_sub_cancel' (Nat.not_le.1 hn).le, List.range_add, List.map_append, List.map_map]
    refine congrArg₂ _ (List.map_congr_left fun j hj => ?_) ?_
    · rw [fileBlock_of_lt (List.mem_range.1 hj)]
    · rw [Nat.add_sub_cancel_left]
      refine List.map_congr_left fun k _ => ?_
      rw [Function.comp_apply, fileBlock_add]

def content (rt : Runtime) (d : Disk) (ino : Inode) : List UInt8 :=
  Buf.toList (fileByte rt d ino) ino.size.toNat

/-- `get` returns the bytes of the file, unless their number is negative as an `int`. -/
theorem Server.get_eq (rt : Runtime) {d : Disk} {id : UInt64} {ino : Inode}
    (h : getInode d (maskId id) = some ino) (hsize : ino.size.toNat < 2 ^ 31) :
    Server.get rt id d =
      (some (content rt d ino), putInode rt (maskId id) { ino with atime := rt.now } d) := by
  obtain ⟨out, hread, hout⟩ := readFile_eq rt h
  have hbmod : Int.bmod ino.size.toNat (2 ^ 32) = ino.size.toNat :=
    Int.bmod_eq_of_le (by omega) (by omega)
  have hneg : ¬((ino.size.toNat : ℤ) < 0) := by omega
  have hlist : out.toList ino.size.toNat = content rt d ino :=
    List.map_congr_left fun i hi => hout i (List.mem_range.1 hi)
  simp only [Server.get, hread, hbmod, if_neg hneg, Int.toNat_natCast, hlist]

end Yfs.Extent
