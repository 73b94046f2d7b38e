import Yfs.Extent.Append
import Yfs.Extent.Exhaust
import Yfs.Extent.RoundTrip

/-! What `append_block` does to the file and to the others, with whatever number of free blocks. -/
namespace Yfs.Extent
open Yfs.Lib

/-- The block is at the end of the list of file `i` and was nobody's, and no other file has changed. -/
structure AppendedTo (d : Disk) (i : UInt32) (bid : UInt32) (d' : Disk) : Prop where
  ids : ∀ rt rt', ∃ l, getBlockIds rt i d = some l ∧ getBlockIds rt' i d' = some (l ++ [bid])
  fresh : ∀ j rt l, getBlockIds rt j d = some l → bid ∉ l
  size : (getattr d' i).size.toNat = (getattr d i).size.toNat + blockSize
  lists : ∀ j, j ≠ i → ∀ rt rt', getBlockIds rt j d' = getBlockIds rt' j d
  contents : ∀ id, maskId id ≠ i → ∀ rt rt', (Server.get rt id d').1 = (Server.get rt' id d).1

/-- `append_block` appends, whatever memory holds where it reads without having written. -/
def Appends (d : Disk) (i : UInt32) : Prop :=
  ∀ rt, ∃ bid d', appendBlock rt i d = (some bid, d') ∧ AppendedTo d i bid d'

section
variable {d d' : Disk} {i : UInt32} {ino ino' : Inode}

theorem Local.getBlockIds_eq (hl : Local d d' i) (hown : Owned d) {j : UInt32} (hj : j ≠ i)
    (rt rt' : Runtime) : getBlockIds rt j d' = getBlockIds rt' j d := by
  have hsp := hl.spares hown
  cases hino : getInode d j with
  | none => rw [getBlockIds, getBlockIds, hsp.inode j hj, hino, Option.map_none, Option.map_none]
  | some ino =>
    have hwf := hown.wellFormed j ino hino
    have hsame := hsp.same j ino hj hino
    have hwf' := hwf.congr hsame (hsp.marked j ino hj hino)
    rw [hwf.getBlockIds_eq hino, hwf'.getBlockIds_eq ((hsp.inode j hj).trans hino),
      hwf.dataBlocks_congr hsame]

theorem not_mem_getBlockIds (hown : Owned d) {b : ℕ} (hb : b ∈ d.freeBlocks) (j : UInt32) (rt : Runtime)
    {l : List UInt32} (h : getBlockIds rt j d = some l) : UInt32.ofNat b ∉ l := by
  cases hino : getInode d j with
  | none =>
    rw [getBlockIds, hino] at h
    cases h
  | some ino =>
    have hwf := hown.wellFormed j ino hino
    rw [hwf.getBlockIds_eq hino, Option.some.injEq] at h
    subst h
    intro hmem
    obtain ⟨c, hc, heq⟩ := List.mem_map.1 hmem
    have hc' := hwf.data c (List.mem_append_left _ hc)
    have hb' := Disk.mem_freeBlocks.1 hb
    have hnat := congrArg UInt32.toNat heq
    rw [toNat_ofNat_of_lt hc'.2, toNat_ofNat_of_lt hb'.2.1] at hnat
    subst hnat
    exact hwf.not_mem_freeBlocks (List.mem_append_left _ hc) hb

structure Extended (d : Disk) (i : UInt32) (ino ino' : Inode) (d' : Disk) : Prop where
  type : ino'.type = ino.type
  size : ino'.size.toNat = ino.size.toNat + blockSize
  data : dataBlocks d' ino' = dataBlocks d ino ++ [d.freeBlocks.getD 0 0]
  table : nDirect ≤ blockCount ino.size.toNat → (ino'.block nDirect).toNat < blockNum
  apart : nDirect ≤ blockCount ino.size.toNat → (ino'.block nDirect).toNat ≠ i.toNat + 3
  isLocal : Local d d' i

theorem Extended.dataBlocks_putInode (h : Extended d i ino ino' d') (rt : Runtime) :
    dataBlocks (putInode rt i ino' d') ino' = dataBlocks d' ino' := by
  refine List.map_congr_left fun j hj => ?_
  rw [List.mem_range, h.size, blockCount_add] at hj
  rcases Nat.lt_or_ge j nDirect with hd | hge
  · rw [blockId_of_lt hd, blockId_of_lt hd]
  · exact blockId_putInode (h.apart (by omega)) j

theorem Extended.appendedTo (h : Extended d i ino ino' d') (hown : Owned d) (hino : getInode d i = some ino)
    (hfree : 0 < d.freeBlocks.length) (rt : Runtime) :
    AppendedTo d i (UInt32.ofNat (d.freeBlocks.getD 0 0)) (putInode rt i ino' d') := by
  have hlt := getInode_lt hino
  have hwf := hown.wellFormed i ino hino
  have hmem := getD_mem_freeBlocks hfree
  have hloc := h.isLocal.putInode hlt rt ino'
  have hino' : getInode (putInode rt i ino' d') i = some ino' := by
    rw [getInode_putInode hlt, if_pos rfl, if_neg (by rw [h.type]; exact getInode_type hino)]
  have hcount : blockCount ino'.size.toNat = blockCount ino.size.toNat + 1 := by
    rw [h.size, blockCount_add]
  have hmax : blockCount ino'.size.toNat ≤ maxFile := by
    have hle := hwf.blockCount_le
    rw [hcount, maxFile_eq]
    rw [blockNum_eq, Disk.firstData_eq] at hle
    omega
  constructor
  · intro rt₁ rt₂
    refine ⟨_, hwf.getBlockIds_eq hino rt₁, ?_⟩
    rw [getBlockIds_eq_dataBlocks hino' hmax (fun hn => h.table (by omega)), h.dataBlocks_putInode, h.data,
      List.map_append, List.map_singleton]
  · intro j rt' l hl
    exact not_mem_getBlockIds hown hmem j rt' hl
  · rw [getattr, getattr, hino', hino]
    exact h.size
  · intro j hj rt₁ rt₂
    exact hloc.getBlockIds_eq hown hj rt₁ rt₂
  · intro id hid rt₁ rt₂
    exact hloc.get_eq hown hid rt₁ rt₂

theorem Appended.extended (h : Appended d ino ino' d') (hino : getInode d i = some ino)
    (hwf : WellFormed d ino)
    (hfree : appendNeeds (blockCount ino.size.toNat) ≤ d.freeBlocks.length) : Extended d i ino ino' d' := by
  have htable : nDirect ≤ blockCount ino.size.toNat →
      Disk.firstData ≤ (ino'.block nDirect).toNat ∧ (ino'.block nDirect).toNat < blockNum := fun hge =>
    h.data_lt hwf hfree (h.slot_mem hwf hge)
  have hlow := inodeBlock_lt (getInode_lt hino)
  refine ⟨h.type, h.toNat_size hwf, h.dataBlocks_eq hwf, fun hge => (htable hge).2, fun hge => ?_,
    h.isLocal hino hwf hfree⟩
  have hlo := (htable hge).1
  omega

/-- The second allocation of `append_block`, when the first one took the last free block. -/
theorem appendBlock_last (rt : Runtime) (hino : getInode d i = some ino)
    (hcount : blockCount ino.size.toNat = nDirect) (hone : d.freeBlocks.length = 1) :
    ∃ τ d₂, (d.mark (d.freeBlocks.take 1)).allocBlock = (τ, d₂) ∧ appendBlock rt i d =
      (some (UInt32.ofNat (d.freeBlocks.getD 0 0)), putInode rt i (ino.setBlock nDirect τ).grown
        (d₂.writeBlock τ.toNat ((d₂.readBlock τ.toNat rt.table 0).setWord (4 * 0)
          (UInt32.ofNat (d.freeBlocks.getD 0 0))))) := by
  refine ⟨_, _, rfl, ?_⟩
  have hmax : ¬maxFile < nDirect := by decide
  simp only [appendBlock, hino, hcount, if_neg hmax, allocBlock_first (by omega : 0 < d.freeBlocks.length),
    lt_irrefl, if_false, if_true, Inode.block_setBlock, true_and, le_refl, Nat.sub_self]
  rfl

theorem nextBit_mark_last (hone : d.freeBlocks.length = 1) :
    ((d.mark (d.freeBlocks.take 1)).nextBit = none ↔ ∀ b, blockNum ≤ b → b < bpb → d.used b = true) ∧
      ∀ b, (d.mark (d.freeBlocks.take 1)).nextBit = some b → blockNum ≤ b ∧ b < bpb := by
  have hpos : 0 < d.freeBlocks.length := by omega
  have hfirst := (Disk.mem_freeBlocks.1 (getD_mem_freeBlocks hpos)).2.1
  -- a data block that was not the last free one was marked before
  have hdata : ∀ b, Disk.firstData ≤ b → b < blockNum → b = d.freeBlocks.getD 0 0 ∨ d.used b = true := by
    intro b hlo hhi
    by_contra hnot
    obtain ⟨hne, hu⟩ := not_or.1 hnot
    have hmem := Disk.mem_freeBlocks.2 ⟨hlo, hhi, Bool.eq_false_iff.2 hu⟩
    obtain ⟨x, hx⟩ := List.length_eq_one_iff.1 hone
    rw [hx] at hmem hne
    exact hne (List.mem_singleton.1 hmem)
  have hused : ∀ b, b < bpb → ((d.mark (d.freeBlocks.take 1)).used b = true ↔
      d.used b = true ∨ b = d.freeBlocks.getD 0 0) := fun b hb => used_mark_take_one hpos hb
  constructor
  · rw [Disk.nextBit_eq_none]
    constructor
    · intro h b hlo hhi
      refine ((hused b hhi).1 (h b ((by decide : Disk.firstData ≤ blockNum).trans hlo) hhi)).resolve_right ?_
      omega
    · intro h b hlo hhi
      rw [hused b hhi]
      rcases Nat.lt_or_ge b blockNum with hlt | hge
      · exact (hdata b hlo hlt).symm
      · exact .inl (h b hge hhi)
  · intro b hb
    obtain ⟨hlo, hhi, hfree, -⟩ := Disk.nextBit_eq_some hb
    refine ⟨?_, hhi⟩
    by_contra hlt
    have hu := (hused b hhi).2 (hdata b hlo (Nat.not_le.1 hlt)).symm
    rw [hfree] at hu
    cases hu

theorem Inode.type_setBlock (ino : Inode) (j : ℕ) (id : UInt32) : (ino.setBlock j id).type = ino.type := by
  simp only [setBlock]

theorem toNat_size_grown (hwf : WellFormed d ino) (j : ℕ) (id : UInt32) :
    (ino.setBlock j id).grown.size.toNat = ino.size.toNat + blockSize := by
  have hlt := hwf.size_lt
  have heq : (ino.setBlock j id).size = ino.size := by simp only [Inode.setBlock]
  rw [Inode.size_grown, heq, UInt32.toNat_add, UInt32.toNat_ofNat', blockSize_eq]
  omega

/-- The table in block 0, which `alloc_block` returns when it finds no bit. -/
theorem extended_zero (hwf : WellFormed d ino) (hcount : blockCount ino.size.toNat = nDirect)
    (hone : 0 < d.freeBlocks.length) (table : Buf) :
    Extended d i ino (ino.setBlock nDirect 0).grown
      ((d.mark (d.freeBlocks.take 1)).writeBlock 0
        (((d.mark (d.freeBlocks.take 1)).readBlock 0 table 0).setWord (4 * 0)
          (UInt32.ofNat (d.freeBlocks.getD 0 0)))) := by
  have hslot : ((ino.setBlock nDirect 0).grown.block nDirect).toNat = 0 := by
    rw [Inode.block_grown, Inode.block_setBlock, if_pos ⟨rfl, le_rfl⟩, UInt32.toNat_zero]
  have hsize := toNat_size_grown hwf nDirect 0
  have hnew : blockId ((d.mark (d.freeBlocks.take 1)).writeBlock 0
      (((d.mark (d.freeBlocks.take 1)).readBlock 0 table 0).setWord (4 * 0)
        (UInt32.ofNat (d.freeBlocks.getD 0 0)))) (ino.setBlock nDirect 0).grown nDirect =
        d.freeBlocks.getD 0 0 := by
    have hadd := @blockId_add ((d.mark (d.freeBlocks.take 1)).writeBlock 0
      (((d.mark (d.freeBlocks.take 1)).readBlock 0 table 0).setWord (4 * 0)
        (UInt32.ofNat (d.freeBlocks.getD 0 0)))) (ino.setBlock nDirect 0).grown 0
    rw [Nat.add_zero] at hadd
    rw [hadd, hslot, word_writeBlock (by decide) (by decide), if_pos rfl, toNat_getD_freeBlocks]
  constructor
  · rw [Inode.type_grown, Inode.type_setBlock]
  · exact hsize
  · rw [dataBlocks, hsize, blockCount_add, hcount, List.range_succ, List.map_append, List.map_singleton,
      dataBlocks, hcount, hnew]
    refine congrArg (· ++ _) (List.map_congr_left fun j hj => ?_)
    have hd := List.mem_range.1 hj
    rw [blockId_of_lt hd, blockId_of_lt hd, Inode.block_grown, Inode.block_setBlock, if_neg (by omega)]
  · intro _
    rw [hslot]
    decide
  · intro _
    omega
  · constructor
    · intro j _ hj
      rw [Disk.writeBlock_of_ne (by omega), Disk.mark_of_ne (by omega)]
    · intro b hlo hhi hu _
      have hb := hhi.trans (by decide : blockNum < bpb)
      rw [Disk.firstData_eq] at hlo
      rw [Disk.writeBlock_of_ne (by omega), Disk.mark_of_ne (by omega), Disk.used_writeBlock hb,
        if_neg (by decide),
        used_mark_take_one hone hb]
      exact ⟨rfl, .inl hu⟩

theorem not_appendedTo_of_le {τ bid : UInt32} (hτ : blockNum ≤ τ.toNat) (hwf : WellFormed d ino)
    (hcount : blockCount ino.size.toNat = nDirect)
    (hino' : getInode d' i = some (ino.setBlock nDirect τ).grown) : ¬AppendedTo d i bid d' := by
  intro h
  have hsize : blockCount (ino.setBlock nDirect τ).grown.size.toNat = nDirect + 1 := by
    rw [toNat_size_grown hwf, blockCount_add, hcount]
  have hlast : ∀ rt, fileBlock rt d' (ino.setBlock nDirect τ).grown nDirect = rt.table.word 0 := by
    intro rt
    rw [fileBlock, if_neg (lt_irrefl _), Inode.block_grown, Inode.block_setBlock, if_pos ⟨rfl, le_rfl⟩,
      Disk.readBlock_of_le hτ, Nat.sub_self]
  -- the same call on two contents of memory
  have hids : ∀ rt, ∃ l, getBlockIds quiet i d = some l ∧
      getBlockIds rt i d' = some (l ++ [bid]) := h.ids quiet
  have hword : ∀ rt : Runtime, rt.table.word 0 = bid := by
    intro rt
    obtain ⟨l, -, hl⟩ := hids rt
    rw [getBlockIds_eq rt hino', hsize, List.range_succ, List.map_append, List.map_singleton,
      Option.some.injEq] at hl
    have hend := (List.append_inj' hl rfl).2
    rw [← hlast rt]
    exact List.head_eq_of_cons_eq hend
  have hone := (hword { quiet with table := fun _ => 1 }).trans (hword quiet).symm
  exact absurd hone (by decide)

/-- The last free block goes to a file that has just filled its direct blocks, and the table goes to
the block of a bit behind the end of the disk. -/
theorem not_appends_of_le (hwf : WellFormed d ino) (hino : getInode d i = some ino)
    (hcount : blockCount ino.size.toNat = nDirect) (hone : d.freeBlocks.length = 1) {b : ℕ}
    (hnext : (d.mark (d.freeBlocks.take 1)).nextBit = some b) (hb : blockNum ≤ b) : ¬Appends d i := by
  intro h
  obtain ⟨bid, d', happend, happended⟩ := h quiet
  obtain ⟨τ, d₂, halloc, hlast⟩ := appendBlock_last quiet hino hcount hone
  have hτ : blockNum ≤ τ.toNat := by
    have hnat := Disk.toNat_allocBlock hnext
    rw [halloc] at hnat
    rw [hnat]
    exact hb
  rw [happend, Prod.mk.injEq] at hlast
  refine not_appendedTo_of_le hτ hwf hcount ?_ happended
  rw [hlast.2, getInode_putInode (getInode_lt hino), if_pos rfl, if_neg]
  rw [Inode.type_grown, Inode.type_setBlock]
  exact getInode_type hino

/-- `append_block` appends exactly if the file has not just filled its direct blocks, or there is a
free block for the table too, or `alloc_block` finds no bit at all and the table goes to block 0. -/
theorem appends_iff (hown : Owned d) (hfree : d.freeBlocks ≠ []) (hino : getInode d i = some ino) :
    Appends d i ↔ (blockCount ino.size.toNat = nDirect → d.freeBlocks.length = 1 →
      ∀ b, blockNum ≤ b → b < bpb → d.used b = true) := by
  have hpos : 0 < d.freeBlocks.length := List.length_pos_of_ne_nil hfree
  have hwf := hown.wellFormed i ino hino
  by_cases hlast : blockCount ino.size.toNat = nDirect ∧ d.freeBlocks.length = 1
  · obtain ⟨hcount, hone⟩ := hlast
    obtain ⟨hnone, hsome⟩ := nextBit_mark_last hone
    rw [← hnone]
    cases hnext : (d.mark (d.freeBlocks.take 1)).nextBit with
    | none =>
      refine iff_of_true (fun rt => ?_) fun _ _ => rfl
      obtain ⟨τ, d₂, halloc, happend⟩ := appendBlock_last rt hino hcount hone
      rw [Disk.allocBlock_eq, hnext] at halloc
      cases halloc
      exact ⟨_, _, happend, (extended_zero hwf hcount hpos rt.table).appendedTo hown hino hpos rt⟩
    | some b =>
      refine iff_of_false ?_ fun h => Option.some_ne_none b (h hcount hone)
      exact not_appends_of_le hwf hino hcount hone hnext (hsome b hnext).1
  · have hneeds : appendNeeds (blockCount ino.size.toNat) ≤ d.freeBlocks.length := by
      rw [appendNeeds]
      split_ifs with hcount
      · have hne : d.freeBlocks.length ≠ 1 := fun hone => hlast ⟨hcount, hone⟩
        exact Nat.lt_of_le_of_ne hpos hne.symm
      · exact hpos
    refine iff_of_true (fun rt => ?_) fun hcount hone => absurd ⟨hcount, hone⟩ hlast
    obtain ⟨ino', d', happ, heq⟩ := appendBlock_eq rt hino hwf hneeds
    exact ⟨_, _, heq, (happ.extended hino hwf hneeds).appendedTo hown hino hpos rt⟩

end

/-- The root of a fresh server takes a block. -/
theorem appends_iff_root : (Server.init quiet).freeBlocks ≠ [] ∧ Appends (Server.init quiet) 1 := by
  have hfree : (Server.init quiet).freeBlocks ≠ [] := by
    rw [freeBlocks_init]
    exact List.cons_ne_nil _ _
  refine ⟨hfree, (appends_iff (owned_init quiet) hfree (getInode_root quiet)).2 fun hcount _ => ?_⟩
  exact absurd hcount (by decide : blockCount 0 ≠ nDirect)

/-- A file that has filled its direct blocks with the first blocks of the data region. -/
def fullRow : Inode :=
  ⟨FileType.file.code.toUInt16, UInt32.ofNat (nDirect * blockSize), 0, 0, 0,
    fun k => if k < nDirect then UInt32.ofNat (Disk.firstData + k) else 0⟩

/-- A disk with that file only, and with `n` blocks marked. -/
def rowDisk (n : ℕ) : Disk :=
  putInode quiet 1 fullRow ((Server.init quiet).mark (List.range' Disk.firstData n))

theorem blockCount_fullRow : blockCount fullRow.size.toNat = nDirect := by decide

theorem getInode_rowDisk (n : ℕ) (j : UInt32) :
    getInode (rowDisk n) j = if j = 1 then some fullRow else none := by
  rw [rowDisk, getInode_putInode (by decide), if_neg (by decide : fullRow.type ≠ 0)]
  split_ifs with hj
  · rfl
  · have hsame : getInode ((Server.init quiet).mark (List.range' Disk.firstData n)) j =
        getInode (Server.init quiet) j :=
      getInode_congr fun _ k _ => by rw [Disk.mark_of_ne (by omega)]
    rw [hsame, getInode_init, if_neg hj]

theorem used_rowDisk (n : ℕ) {b : ℕ} (hb : b < bpb) :
    (rowDisk n).used b = true ↔ Disk.firstData ≤ b ∧ b < Disk.firstData + n := by
  rw [rowDisk, putInode_used, Disk.used_mark hb, used_init, Bool.false_or, decide_eq_true_iff,
    List.mem_range'_1]

theorem freeBlocks_rowDisk {n : ℕ} (hn : n ≤ blockNum - Disk.firstData) :
    (rowDisk n).freeBlocks = List.range' (Disk.firstData + n) (blockNum - Disk.firstData - n) := by
  have hput : (rowDisk n).freeBlocks = ((Server.init quiet).mark (List.range' Disk.firstData n)).freeBlocks :=
    List.filter_congr fun b _ => by rw [rowDisk, putInode_used]
  rw [hput]
  apply Disk.freeBlocks_mark
  rw [freeBlocks_init, List.range'_append_1, Nat.add_sub_cancel' hn]

theorem blockId_fullRow (d : Disk) {j : ℕ} (hj : j < nDirect) : blockId d fullRow j = Disk.firstData + j := by
  have hlt : Disk.firstData + j < blockNum := by
    rw [Disk.firstData_eq, blockNum_eq]
    simp only [nDirect] at hj
    omega
  have hblock : fullRow.block j = UInt32.ofNat (Disk.firstData + j) := by
    rw [Inode.block_of_lt (by omega)]
    exact if_pos hj
  rw [blockId_of_lt hj, hblock, toNat_ofNat_of_lt hlt]

private theorem blockList_fullRow (d : Disk) : blockList d fullRow = List.range' Disk.firstData nDirect := by
  rw [blockList, tableBlocks, blockCount_fullRow, if_neg (lt_irrefl _), List.append_nil, dataBlocks,
    blockCount_fullRow, List.range'_eq_map_range]
  exact List.map_congr_left fun j hj => blockId_fullRow d (List.mem_range.1 hj)

theorem owned_rowDisk {n : ℕ} (hn : nDirect ≤ n) : Owned (rowDisk n) := by
  have honly : ∀ j ino, getInode (rowDisk n) j = some ino → j = 1 ∧ ino = fullRow := by
    intro j ino h
    rw [getInode_rowDisk] at h
    split_ifs at h with hj
    cases h
    exact ⟨hj, rfl⟩
  constructor
  · intro j ino h
    rw [(honly j ino h).2]
    constructor <;> rw [blockList_fullRow]
    · exact List.nodup_range'
    · intro b hb
      rw [List.mem_range'_1] at hb
      rw [blockNum_eq]
      rw [Disk.firstData_eq] at hb ⊢
      simp only [nDirect] at hb
      omega
    · intro b hb
      rw [List.mem_range'_1] at hb
      have hlt : b < bpb := by
        rw [Disk.firstData_eq] at hb
        simp only [nDirect] at hb
        rw [bpb_eq]
        omega
      rw [used_rowDisk n hlt]
      omega
  · intro j k ino ino' hjk hj hk
    exact absurd ((honly j ino hj).1.trans (honly k ino' hk).1.symm) hjk

/-- The table of the file comes to lie behind the end of the disk, so its last block is not found again. -/
theorem append_last_lost : Owned (rowDisk 1019) ∧ (rowDisk 1019).freeBlocks = [2047] ∧
    getInode (rowDisk 1019) 1 = some fullRow ∧ blockCount fullRow.size.toNat = nDirect ∧
    ¬Appends (rowDisk 1019) 1 := by
  have hino : getInode (rowDisk 1019) 1 = some fullRow := by rw [getInode_rowDisk, if_pos rfl]
  have hfree : (rowDisk 1019).freeBlocks = [2047] := freeBlocks_rowDisk (by decide)
  have hown : Owned (rowDisk 1019) := owned_rowDisk (by decide)
  have hone : (rowDisk 1019).freeBlocks.length = 1 := by rw [hfree, List.length_singleton]
  obtain ⟨hnone, hsome⟩ := nextBit_mark_last hone
  refine ⟨hown, hfree, hino, blockCount_fullRow, ?_⟩
  cases hnext : ((rowDisk 1019).mark ((rowDisk 1019).freeBlocks.take 1)).nextBit with
  | none =>
    have hused := hnone.1 hnext blockNum le_rfl (by decide)
    exact absurd ((used_rowDisk 1019 (by decide)).1 hused).2 (by decide)
  | some b =>
    exact not_appends_of_le (hown.wellFormed 1 fullRow hino) hino blockCount_fullRow hone hnext
      (hsome b hnext).1

end Yfs.Extent
