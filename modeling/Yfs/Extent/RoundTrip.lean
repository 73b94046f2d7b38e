import Yfs.Extent.Fresh
import Yfs.Extent.Stored

/-! What `get` returns after `put`. -/
namespace Yfs.Extent
open Yfs.Lib

theorem toUnsigned_bmod_eq (n : ℕ) : toUnsigned (Int.bmod n (2 ^ 32)) = n % 2 ^ 32 := by
  have hmod : Int.bmod n (2 ^ 32) % 2 ^ 32 = (n : ℤ) % 2 ^ 32 := Int.bmod_emod
  rw [toUnsigned, hmod]
  omega

theorem toUnsigned_bmod {n : ℕ} (h : n < 2 ^ 31) : toUnsigned (Int.bmod n (2 ^ 32)) = n := by
  rw [toUnsigned_bmod_eq, Nat.mod_eq_of_lt (by omega)]

theorem needBlocks_bmod {n : ℕ} (h : n < 2 ^ 31) :
    needBlocks (Int.bmod n (2 ^ 32)) = blockCount n := by
  rw [Int.bmod_eq_of_le (by omega) (by omega), needBlocks, blockCount, toUnsigned]
  have hmod : Int.tmod n blockSize = ((n % blockSize : ℕ) : ℤ) := rfl
  have hdiv : Int.tdiv n blockSize = ((n / blockSize : ℕ) : ℤ) := rfl
  rw [hmod, hdiv, blockSize_eq]
  split_ifs <;> omega

section
variable {d d' : Disk} {ino ino' : Inode} {table : Buf} {need : ℕ} {inum : UInt32}

def tableByte (d : Disk) (ino : Inode) (need i : ℕ) : UInt8 :=
  if i < 4 * (need - nDirect) then Buf.byteOf (newBlock d ino (nDirect + i / 4)) (i % 4)
  else d (newTable d ino) i

theorem Laid.table_apply (hl : Laid d ino need ino' table d') (hn : nDirect < need)
    (ho : nDirect ≤ blockCount ino.size.toNat) (ht : newTable d ino < blockNum) {i : ℕ}
    (hi : i < blockSize) : table i = tableByte d ino need i := by
  unfold tableByte
  split_ifs with hlt
  · rw [← hl.entry (i / 4) (by omega), Buf.byteOf_word table _ (Nat.mod_lt i (by omega)),
      Nat.div_add_mod]
  · exact hl.tail hn ho ht i (Nat.not_lt.1 hlt) hi

end

theorem Inode.toNat_size_written (ino : Inode) (rt : Runtime) {n : ℕ} (h : n < 2 ^ 31) :
    (ino.written rt (Int.bmod n (2 ^ 32))).size.toNat = n := by
  change (UInt32.ofNat (toUnsigned _)).toNat = _
  rw [toUnsigned_bmod h, UInt32.toNat_ofNat', Nat.mod_eq_of_lt (by omega)]

/-- A file of more than `nDirect` blocks can be read back only if its table is a block of the
disk that the inode does not overwrite. -/
def TableKept (d : Disk) (ino : Inode) (inum : UInt32) (need : ℕ) : Prop :=
  nDirect < need → newTable d ino < blockNum ∧ newTable d ino ≠ inum.toNat + 3

section
variable {d : Disk} {ino : Inode} {id : UInt64} {buf : List UInt8}

theorem put_get_iff (rt rt' : Runtime) (hino : getInode d (maskId id) = some ino)
    (hwf : WellFormed d ino) (hlen : buf.length ≤ maxFile * blockSize)
    (he : Enough d ino (blockCount buf.length)) :
    ∃ ino' table d', Laid d ino (blockCount buf.length) ino' table d' ∧
      ((Server.get rt' id (Server.put rt id buf d)).1 = some buf ↔
        ∀ i (h : i < buf.length), fileByte rt'
          (putInode rt (maskId id) (ino'.written rt (Int.bmod buf.length (2 ^ 32)))
            (writeData rt (Buf.ofList (buf ++ [0]) rt.tail) ino' table (blockCount buf.length) d'))
          (ino'.written rt (Int.bmod buf.length (2 ^ 32))) i = buf[i]) := by
  have hsize : buf.length < 2 ^ 31 := by
    rw [maxFile_eq, blockSize_eq] at hlen
    omega
  have hmax : blockCount buf.length ≤ maxFile := blockCount_le.2 hlen
  obtain ⟨ino', table, d', hl, hput⟩ := writeFile_eq rt (Buf.ofList (buf ++ [0]) rt.tail) hino hwf
    (needBlocks_bmod hsize) hmax he
  have hnat := ino'.toNat_size_written rt hsize
  refine ⟨ino', table, d', hl, ?_⟩
  rw [Server.put, hput, Server.get_eq rt' (hl.getInode_put hino rt _ _) (hnat.trans_lt hsize), content,
    hnat, Option.some.injEq, Buf.toList_eq_iff zero]
  constructor
  · rintro ⟨-, h⟩ i hi
    rw [h i hi, Buf.ofList, dif_pos hi]
  · intro h
    refine ⟨rfl, fun i hi => ?_⟩
    rw [h i hi, Buf.ofList, dif_pos hi]

/-- When a string is read back whatever the runtime leaves in fresh memory. A file with indirect
blocks needs a table of its own and zero bytes in all blocks that are cleared after they are
written. A data block that is also the table holds the table. -/
def RoundTrips (d : Disk) (ino : Inode) (inum : UInt32) (buf : List UInt8) : Prop :=
  blockCount buf.length ≤ nDirect ∨
    (newTable d ino < blockNum ∧ newTable d ino ≠ inum.toNat + 3 ∧
      ∀ i (h : i < buf.length),
        if newBlock d ino (i / blockSize) = newTable d ino then
          buf[i] = tableByte d ino (blockCount buf.length) (i % blockSize)
        else Cleared (blockCount buf.length) (i / blockSize) → buf[i] = 0)

theorem RoundTrips.tableKept {inum : UInt32} (h : RoundTrips d ino inum buf) :
    TableKept d ino inum (blockCount buf.length) := by
  intro hn
  rcases h with hle | ⟨hlt, hne, -⟩
  · omega
  · exact ⟨hlt, hne⟩

theorem ofList_append (tail : Buf) {i : ℕ} (h : i < buf.length) :
    Buf.ofList (buf ++ [0]) tail i = buf[i] := by
  rw [Buf.ofList, dif_pos (by simp; omega), List.getElem_append_left h]

/-- With the table in place every byte is read from the block that was laid out for it. -/
theorem Laid.fileByte_put {d' : Disk} {ino' : Inode} {table : Buf} {inum : UInt32}
    (hl : Laid d ino (blockCount buf.length) ino' table d') (hwf : WellFormed d ino)
    (he : Enough d ino (blockCount buf.length)) (hlen : buf.length ≤ maxFile * blockSize)
    (hi : inum.toNat < inodeNum) (hkept : TableKept d ino inum (blockCount buf.length))
    (rt rt' : Runtime) (b : Buf) (size : ℤ) {i : ℕ} (h : i < buf.length) :
    fileByte rt' (putInode rt inum (ino'.written rt size)
        (writeData rt b ino' table (blockCount buf.length) d')) (ino'.written rt size) i =
      writeData rt b ino' table (blockCount buf.length) d' (newBlock d ino (i / blockSize))
        (i % blockSize) := by
  have hj := div_lt_blockCount h
  have hb := newBlock_lt hwf he hj
  have hne : newBlock d ino (i / blockSize) ≠ inum.toNat + 3 := by
    simp only [Disk.firstData_eq, inodeNum] at hb hi
    omega
  have hmax := blockCount_le.2 hlen
  have hid : (fileBlock rt' (putInode rt inum (ino'.written rt size)
      (writeData rt b ino' table (blockCount buf.length) d')) (ino'.written rt size)
      (i / blockSize)).toNat = newBlock d ino (i / blockSize) := by
    rcases Nat.lt_or_ge (i / blockSize) nDirect with hd | hge
    · rw [fileBlock_of_lt hd, Inode.block_written, hl.direct _ hj hd]
    · have hn := hge.trans_lt hj
      obtain ⟨hlt, hne'⟩ := hkept hn
      rw [← hl.slot hn, ← Inode.block_written ino' rt size] at hlt hne'
      rw [fileBlock_toNat rt' (fun _ => hlt) (hj.trans_le hmax), blockId_putInode hne',
        hl.blockId_writeData hmax (fun hn => (hkept hn).1) rt b size hj]
  rw [fileByte, hid, if_pos hb.2, putInode_of_ne hne]

theorem RoundTrips.get_put (h : RoundTrips d ino (maskId id) buf)
    (hino : getInode d (maskId id) = some ino) (hwf : WellFormed d ino)
    (hlen : buf.length ≤ maxFile * blockSize) (he : Enough d ino (blockCount buf.length))
    (rt rt' : Runtime) : (Server.get rt' id (Server.put rt id buf d)).1 = some buf := by
  obtain ⟨ino', table, d', hl, hiff⟩ := put_get_iff rt rt' hino hwf hlen he
  refine hiff.2 fun i hi => ?_
  have hj := div_lt_blockCount hi
  have hmod : i % blockSize < blockSize := Nat.mod_lt i (by decide)
  have hbyte : Buf.ofList (buf ++ [0]) rt.tail (i / blockSize * blockSize + i % blockSize) = buf[i] := by
    rw [Nat.div_add_mod', ofList_append rt.tail hi]
  rw [hl.fileByte_put hwf he hlen (getInode_lt hino) h.tableKept rt rt' _ _ hi, writeData]
  split_ifs with hn
  · rw [hl.writeDirect_apply hwf he _ hn le_rfl hj hmod, hbyte]
  · rw [Nat.not_le] at hn
    rcases h with hle | ⟨hlt, -, hall⟩
    · omega
    · have hcond := hall i hi
      split_ifs at hcond with heq
      · have ho : blockCount ino.size.toNat = nDirect := by
          by_contra hne
          exact newBlock_ne_newTable hwf he hn hne hj heq
        rw [heq, hl.writeLarge_table hn rt _ hlt hmod, hl.table_apply hn ho.ge hlt hmod, hcond]
      · rw [hl.writeLarge_apply hwf he hn rt _ hj heq hmod fun hc => by rw [hbyte, hcond hc], hbyte]

/-- A runtime in which fresh memory holds no block id. -/
def quiet : Runtime where
  now := 0
  pad _ := 0xff
  fresh _ := 0
  beyond _ := 0
  table _ := 0xff
  out _ := 0
  tail _ := 0
  result := 0

private theorem blockNum_le_word {b : Buf} {off : ℕ} (h : b (off + 3) = 0xff) :
    blockNum ≤ (b.word off).toNat := by
  have hbyte := Buf.byteOf_word b off (by omega : 3 < 4)
  rw [h, ← UInt8.toNat_inj, Buf.byteOf_toNat] at hbyte
  have hff : (0xff : UInt8).toNat = 255 := rfl
  rw [hff] at hbyte
  rw [blockNum_eq]
  omega

/-- Without a table in place the first indirect block is not found. -/
theorem tableKept_of_get_put (hino : getInode d (maskId id) = some ino) (hwf : WellFormed d ino)
    (hlen : buf.length ≤ maxFile * blockSize) (he : Enough d ino (blockCount buf.length))
    (h : ∀ rt rt', (Server.get rt' id (Server.put rt id buf d)).1 = some buf) :
    TableKept d ino (maskId id) (blockCount buf.length) := by
  intro hn
  by_contra hbad
  obtain ⟨i, hi, hdiv⟩ : ∃ i, i < buf.length ∧ i / blockSize = nDirect :=
    ⟨nDirect * blockSize, lt_blockCount.1 hn, Nat.mul_div_cancel _ (by decide)⟩
  -- the buffer of `read_file` differs from the string in every byte
  obtain ⟨rt', hout, htable⟩ : ∃ rt' : Runtime, rt'.out = (fun i => Buf.ofList buf zero i + 1) ∧
      rt'.table = fun _ => 0xff := ⟨{ quiet with out := fun i => Buf.ofList buf zero i + 1 }, rfl, rfl⟩
  obtain ⟨ino', table, d', hl, hiff⟩ := put_get_iff quiet rt' hino hwf hlen he
  have hbyte := hiff.1 (h quiet rt') i hi
  generalize hd : writeData quiet _ ino' table _ d' = d'' at hbyte
  generalize hino' : ino'.written quiet _ = ino'' at hbyte
  have hslot : (ino''.block nDirect).toNat = newTable d ino := by
    rw [← hino', Inode.block_written, hl.slot hn]
  have hid : blockNum ≤ (fileBlock rt' (putInode quiet (maskId id) ino'' d'') ino'' nDirect).toNat := by
    rw [← Nat.add_zero nDirect, fileBlock_add, hslot]
    refine blockNum_le_word ?_
    rcases Nat.lt_or_ge (newTable d ino) blockNum with hlt | hge
    · have htab : newTable d ino = (maskId id).toNat + 3 := by
        by_contra hne
        exact hbad ⟨hlt, hne⟩
      rw [Disk.readBlock_of_lt hlt, Buf.copy, if_pos ⟨Nat.zero_le _, by decide⟩, htab,
        putInode_apply (getInode_lt hino) _ _ (by decide)]
      rfl
    · rw [Disk.readBlock_of_le hge, htable]
  rw [fileByte, hdiv, if_neg (Nat.not_lt.2 hid), hout] at hbyte
  change Buf.ofList buf zero i + 1 = buf[i] at hbyte
  rw [Buf.ofList, dif_pos hi] at hbyte
  exact absurd hbyte (by simp)

/-- A byte of the first direct blocks is lost when an indirect block of the same index is written. -/
theorem eq_zero_of_get_put (hino : getInode d (maskId id) = some ino) (hwf : WellFormed d ino)
    (hlen : buf.length ≤ maxFile * blockSize) (he : Enough d ino (blockCount buf.length))
    (hmax : blockCount buf.length ≤ 2 * nDirect + 1)
    (hkept : TableKept d ino (maskId id) (blockCount buf.length)) {i : ℕ} (hi : i < buf.length)
    (hd : i / blockSize < nDirect) (hneed : nDirect + i / blockSize < blockCount buf.length)
    (hne : newBlock d ino (i / blockSize) ≠ newTable d ino) (rt rt' : Runtime)
    (h : (Server.get rt' id (Server.put rt id buf d)).1 = some buf) : buf[i] = 0 := by
  have hn : nDirect < blockCount buf.length := (Nat.le_add_right _ _).trans_lt hneed
  obtain ⟨ino', table, d', hl, hiff⟩ := put_get_iff rt rt' hino hwf hlen he
  have hbyte := hiff.1 h i hi
  rw [hl.fileByte_put hwf he hlen (getInode_lt hino) hkept rt rt' _ _ hi, writeData,
    if_neg (Nat.not_le.2 hn), hl.writeLarge_cleared hwf he hn hmax _ _ hd hneed hne
      (Nat.mod_lt i (by decide))] at hbyte
  exact hbyte.symm

theorem roundTrips_of_get_put (hino : getInode d (maskId id) = some ino) (hwf : WellFormed d ino)
    (hlen : buf.length ≤ maxFile * blockSize) (he : Enough d ino (blockCount buf.length))
    (h : ∀ rt rt', (Server.get rt' id (Server.put rt id buf d)).1 = some buf) :
    RoundTrips d ino (maskId id) buf := by
  rcases Nat.lt_or_ge nDirect (blockCount buf.length) with hn | hle
  · have hkept := tableKept_of_get_put hino hwf hlen he h
    obtain ⟨hlt, hne⟩ := hkept hn
    refine .inr ⟨hlt, hne, fun i hi => ?_⟩
    have hj := div_lt_blockCount hi
    have hmod : i % blockSize < blockSize := Nat.mod_lt i (by decide)
    -- in every runtime the byte is read from the block that was laid out for it
    have hread : ∀ rt, ∃ ino' table d', Laid d ino (blockCount buf.length) ino' table d' ∧
        writeLarge rt (Buf.ofList (buf ++ [0]) rt.tail) ino' table (blockCount buf.length) d'
          (newBlock d ino (i / blockSize)) (i % blockSize) = buf[i] := by
      intro rt
      obtain ⟨ino', table, d', hl, hiff⟩ := put_get_iff rt quiet hino hwf hlen he
      have hbyte := hiff.1 (h _ _) i hi
      rw [hl.fileByte_put hwf he hlen (getInode_lt hino) hkept rt quiet _ _ hi, writeData,
        if_neg (Nat.not_le.2 hn)] at hbyte
      exact ⟨ino', table, d', hl, hbyte⟩
    split_ifs with heq
    · have ho : blockCount ino.size.toNat = nDirect := by
        by_contra hne'
        exact newBlock_ne_newTable hwf he hn hne' hj heq
      obtain ⟨ino', table, d', hl, hbyte⟩ := hread quiet
      rw [heq, hl.writeLarge_table hn _ _ hlt hmod, hl.table_apply hn ho.ge hlt hmod] at hbyte
      exact hbyte.symm
    · intro hc
      rcases Nat.lt_or_ge (2 * nDirect + 1) (blockCount buf.length) with hbig | hsmall
      · obtain ⟨ino', table, d', hl, hbyte⟩ :=
          hread { quiet with beyond := fun _ => UInt32.ofNat (newBlock d ino (i / blockSize)) }
        have hlast : i / blockSize + 1 < blockCount buf.length := by
          rcases hc with hc | hc <;> omega
        have hid : (UInt32.ofNat (newBlock d ino (i / blockSize))).toNat =
            newBlock d ino (i / blockSize) := by
          have hb := (newBlock_lt hwf he hj).2
          rw [blockNum_eq] at hb
          rw [UInt32.toNat_ofNat', Nat.mod_eq_of_lt (by omega)]
        rw [hl.writeLarge_beyond hwf he hbig _ _ hlast heq hid hmod] at hbyte
        exact hbyte.symm
      · rcases hc with ⟨hd, hc⟩ | ⟨hc, -⟩
        · exact eq_zero_of_get_put hino hwf hlen he hsmall hkept hi hd hc heq quiet quiet (h _ _)
        · omega
  · exact .inl hle

/-- `put` and `get` round trip exactly under `RoundTrips`. -/
theorem Server.get_put_iff (hino : getInode d (maskId id) = some ino) (hwf : WellFormed d ino)
    (hlen : buf.length ≤ maxFile * blockSize) (he : Enough d ino (blockCount buf.length)) :
    (∀ rt rt', (Server.get rt' id (Server.put rt id buf d)).1 = some buf) ↔
      RoundTrips d ino (maskId id) buf :=
  ⟨roundTrips_of_get_put hino hwf hlen he, fun h => h.get_put hino hwf hlen he⟩

end

theorem enough_init (rt : Runtime) {need : ℕ} (h : blocksFor need ≤ blockNum - Disk.firstData) :
    Enough (Server.init rt) (newInode rt FileType.dir.code) need := by
  rw [Enough, freeBlocks_init, List.length_range']
  omega

theorem getInode_root (rt : Runtime) :
    getInode (Server.init rt) (maskId 1) = some (newInode rt FileType.dir.code) := by
  rw [getInode_init, if_pos (by decide)]

theorem newTable_root : newTable (Server.init quiet) (newInode quiet FileType.dir.code) = 1128 := by
  have horigin : blockCount (newInode quiet FileType.dir.code).size.toNat = 0 := rfl
  rw [newTable, horigin, freeBlocks_init]
  rfl

/-- A string of 101 blocks, with zeros in the one that is cleared. -/
theorem Server.get_put_iff_table : ∃ buf : List UInt8,
    buf = List.replicate blockSize 0 ++ List.replicate (100 * blockSize) 1 ∧
    Enough (Server.init quiet) (newInode quiet FileType.dir.code) (blockCount buf.length) ∧
    ∀ rt rt', (Server.get rt' 1 (Server.put rt 1 buf (Server.init quiet))).1 = some buf := by
  obtain ⟨buf, hbuf⟩ : ∃ buf : List UInt8,
      buf = List.replicate blockSize 0 ++ List.replicate (100 * blockSize) 1 := ⟨_, rfl⟩
  have hlen : buf.length = 101 * blockSize := by
    rw [hbuf, List.length_append, List.length_replicate, List.length_replicate]
    omega
  have hcount : blockCount buf.length = 101 := by rw [hlen]; decide
  have hle : buf.length ≤ maxFile * blockSize := by
    rw [hlen]
    exact Nat.mul_le_mul_right _ (by decide)
  have hwf : WellFormed (Server.init quiet) (newInode quiet FileType.dir.code) := wellFormed_of_empty rfl
  have he := enough_init quiet (by rw [hcount]; decide : blocksFor (blockCount buf.length) ≤ _)
  refine ⟨buf, hbuf, he, (Server.get_put_iff (getInode_root quiet) hwf hle he).2 (.inr ?_)⟩
  refine ⟨by rw [newTable_root]; decide, by rw [newTable_root]; decide, fun i hi => ?_⟩
  rw [if_neg (newBlock_ne_newTable hwf he (by rw [hcount]; decide) (by decide) (div_lt_blockCount hi))]
  intro hcleared
  have hfirst : i < (List.replicate blockSize (0 : UInt8)).length := by
    simp only [Cleared, hcount, nDirect, blockSize] at hcleared
    rw [List.length_replicate, blockSize]
    omega
  subst hbuf
  rw [List.getElem_append_left hfirst, List.getElem_replicate]

/-- The first block of a string of 101 blocks comes back cleared. -/
theorem Server.get_put_lost : ∃ buf : List UInt8, buf = List.replicate (101 * blockSize) 1 ∧
    buf.length ≤ maxFile * blockSize ∧
    getInode (Server.init quiet) (maskId 1) = some (newInode quiet FileType.dir.code) ∧
    WellFormed (Server.init quiet) (newInode quiet FileType.dir.code) ∧
    Enough (Server.init quiet) (newInode quiet FileType.dir.code) (blockCount buf.length) ∧
    ∀ rt rt', (Server.get rt' 1 (Server.put rt 1 buf (Server.init quiet))).1 ≠ some buf := by
  obtain ⟨buf, hbuf⟩ : ∃ buf : List UInt8, buf = List.replicate (101 * blockSize) 1 := ⟨_, rfl⟩
  have hlen : buf.length = 101 * blockSize := by rw [hbuf, List.length_replicate]
  have hcount : blockCount buf.length = 101 := by rw [hlen]; decide
  have hle : buf.length ≤ maxFile * blockSize := by
    rw [hlen]
    exact Nat.mul_le_mul_right _ (by decide)
  have hwf : WellFormed (Server.init quiet) (newInode quiet FileType.dir.code) := wellFormed_of_empty rfl
  have he := enough_init quiet (by rw [hcount]; decide : blocksFor (blockCount buf.length) ≤ _)
  have horigin : blockCount (newInode quiet FileType.dir.code).size.toNat = 0 := rfl
  have hblock : newBlock (Server.init quiet) (newInode quiet FileType.dir.code) 0 = 1028 := by
    rw [newBlock, horigin, freeBlocks_init]
    rfl
  refine ⟨buf, hbuf, hle, getInode_root quiet, hwf, he, fun rt rt' h => ?_⟩
  have hpos : 0 < buf.length := by
    rw [hlen]
    decide
  have hkept : TableKept (Server.init quiet) (newInode quiet FileType.dir.code) (maskId 1)
      (blockCount buf.length) := by
    intro _
    rw [newTable_root]
    decide
  have hzero := eq_zero_of_get_put (getInode_root quiet) hwf hle he (by rw [hcount]; decide) hkept hpos
    (by decide) (by rw [hcount]; decide) (by rw [Nat.zero_div, hblock, newTable_root]; decide) rt rt' h
  simp [hbuf] at hzero

end Yfs.Extent
