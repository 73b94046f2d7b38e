import Yfs.Extent.PutLocal

/-! `append_block`: one more block at the end of the list, one more block size in the inode. -/
namespace Yfs.Extent
open Yfs.Lib

def appendNeeds (index : ℕ) : ℕ := if index = nDirect then 2 else 1

structure Appended (d : Disk) (ino ino' : Inode) (d' : Disk) : Prop where
  type : ino'.type = ino.type
  size : ino'.size = ino.size + UInt32.ofNat blockSize
  old : ∀ j < blockCount ino.size.toNat, blockId d' ino' j = blockId d ino j
  new : blockId d' ino' (blockCount ino.size.toNat) = d.freeBlocks.getD 0 0
  table : nDirect ≤ blockCount ino.size.toNat → (ino'.block nDirect).toNat =
    if blockCount ino.size.toNat = nDirect then d.freeBlocks.getD 1 0 else (ino.block nDirect).toNat
  same : ∀ b, b ≠ 2 → (nDirect ≤ blockCount ino.size.toNat → b ≠ (ino'.block nDirect).toNat) →
    d' b = d b
  used : ∀ c < bpb, d'.used c = true ↔ d.used c = true ∨ c = d.freeBlocks.getD 0 0 ∨
    (blockCount ino.size.toNat = nDirect ∧ c = d.freeBlocks.getD 1 0)

section
variable {d : Disk} {ino : Inode}

theorem allocBlock_first (h : 0 < d.freeBlocks.length) :
    d.allocBlock = (UInt32.ofNat (d.freeBlocks.getD 0 0), d.mark (d.freeBlocks.take 1)) := by
  have heq := allocBlock_mark_take h
  rwa [List.take_zero, Disk.mark_nil] at heq

theorem used_mark_take_one (h : 0 < d.freeBlocks.length) {c : ℕ} (hc : c < bpb) :
    (d.mark (d.freeBlocks.take 1)).used c = true ↔ d.used c = true ∨ c = d.freeBlocks.getD 0 0 := by
  rw [Disk.used_mark hc, Bool.or_eq_true, decide_eq_true_eq, mem_take_freeBlocks]
  refine or_congr_right ⟨?_, fun heq => ⟨0, by omega, h, heq.symm⟩⟩
  rintro ⟨m, hm, -, rfl⟩
  rw [Nat.lt_one_iff.1 hm]

theorem used_mark_take_two (h : 1 < d.freeBlocks.length) {c : ℕ} (hc : c < bpb) :
    (d.mark (d.freeBlocks.take 2)).used c = true ↔
      d.used c = true ∨ c = d.freeBlocks.getD 0 0 ∨ c = d.freeBlocks.getD 1 0 := by
  rw [Disk.used_mark hc, Bool.or_eq_true, decide_eq_true_eq, mem_take_freeBlocks]
  refine or_congr_right ⟨?_, ?_⟩
  · rintro ⟨m, hm, -, rfl⟩
    rcases Nat.lt_or_ge m 1 with hz | hone
    · exact .inl (by rw [Nat.lt_one_iff.1 hz])
    · exact .inr (by rw [Nat.le_antisymm (Nat.lt_succ_iff.1 hm) hone])
  · rintro (heq | heq)
    · exact ⟨0, by omega, by omega, heq.symm⟩
    · exact ⟨1, by omega, h, heq.symm⟩

theorem word_writeBlock {t k j : ℕ} (ht : t < blockNum) (hj : 4 * j + 4 ≤ blockSize) (table : Buf)
    (id : UInt32) :
    (d.writeBlock t ((d.readBlock t table 0).setWord (4 * k) id) t).word (4 * j) =
      if j = k then id else (d t).word (4 * j) := by
  have hbytes : (d.writeBlock t ((d.readBlock t table 0).setWord (4 * k) id) t).word (4 * j) =
      ((d.readBlock t table 0).setWord (4 * k) id).word (4 * j) := by
    refine Buf.word_congr fun r hr => ?_
    rw [Disk.writeBlock_apply, if_pos ⟨rfl, ht, by omega⟩]
  rw [hbytes, Buf.word_setWord, word_readBlock ht hj]

def Inode.grown (ino : Inode) : Inode := { ino with size := ino.size + UInt32.ofNat blockSize }

theorem Inode.type_grown (ino : Inode) : ino.grown.type = ino.type := by
  simp only [grown]

theorem Inode.size_grown (ino : Inode) : ino.grown.size = ino.size + UInt32.ofNat blockSize := by
  simp only [grown]

theorem Inode.block_grown (ino : Inode) (j : ℕ) : ino.grown.block j = ino.block j := by
  simp only [block, grown]

theorem appended_direct (hlt : blockCount ino.size.toNat < nDirect) (hfree : 0 < d.freeBlocks.length) :
    Appended d ino
      (ino.setBlock (blockCount ino.size.toNat) (UInt32.ofNat (d.freeBlocks.getD 0 0))).grown
      (d.mark (d.freeBlocks.take 1)) := by
  refine ⟨Inode.type_grown _, Inode.size_grown _, fun j hj => ?_, ?_, by omega, fun b hb _ =>
      Disk.mark_of_ne hb _, fun c hc => ?_⟩
  · rw [blockId_of_lt (hj.trans hlt), blockId_of_lt (hj.trans hlt), Inode.block_grown,
      Inode.block_setBlock, if_neg (by omega)]
  · rw [blockId_of_lt hlt, Inode.block_grown, Inode.block_setBlock, if_pos ⟨rfl, hlt.le⟩,
      toNat_getD_freeBlocks]
  · rw [used_mark_take_one hfree hc]
    simp [hlt.ne]

theorem appended_newTable (heq : blockCount ino.size.toNat = nDirect) (hfree : 1 < d.freeBlocks.length)
    (table : Buf) :
    Appended d ino (ino.setBlock nDirect (UInt32.ofNat (d.freeBlocks.getD 1 0))).grown
      ((d.mark (d.freeBlocks.take 2)).writeBlock (d.freeBlocks.getD 1 0)
        (((d.mark (d.freeBlocks.take 2)).readBlock (d.freeBlocks.getD 1 0) table 0).setWord (4 * 0)
          (UInt32.ofNat (d.freeBlocks.getD 0 0)))) := by
  have hmem := Disk.mem_freeBlocks.1 (getD_mem_freeBlocks hfree)
  have hslot : ((ino.setBlock nDirect (UInt32.ofNat (d.freeBlocks.getD 1 0))).grown.block
      nDirect).toNat = d.freeBlocks.getD 1 0 := by
    rw [Inode.block_grown, Inode.block_setBlock, if_pos ⟨rfl, le_rfl⟩, toNat_getD_freeBlocks]
  refine ⟨Inode.type_grown _, Inode.size_grown _, fun j hj => ?_, ?_, fun _ => ?_, fun b hb ht => ?_,
      fun c hc => ?_⟩
  · have hd : j < nDirect := by omega
    rw [blockId_of_lt hd, blockId_of_lt hd, Inode.block_grown, Inode.block_setBlock, if_neg (by omega)]
  · rw [heq]
    have hadd := @blockId_add
      ((d.mark (d.freeBlocks.take 2)).writeBlock (d.freeBlocks.getD 1 0)
        (((d.mark (d.freeBlocks.take 2)).readBlock (d.freeBlocks.getD 1 0) table 0).setWord (4 * 0)
          (UInt32.ofNat (d.freeBlocks.getD 0 0))))
      (ino.setBlock nDirect (UInt32.ofNat (d.freeBlocks.getD 1 0))).grown 0
    rw [Nat.add_zero] at hadd
    rw [hadd, hslot, word_writeBlock hmem.2.1 (by decide), if_pos rfl, toNat_getD_freeBlocks]
  · rw [hslot, if_pos heq]
  · rw [hslot] at ht
    rw [Disk.writeBlock_of_ne (ht heq.ge), Disk.mark_of_ne hb]
  · have hne : d.freeBlocks.getD 1 0 ≠ 2 := by
      have hlo := hmem.1
      rw [Disk.firstData_eq] at hlo
      omega
    rw [Disk.used_writeBlock hc, if_neg hne, used_mark_take_two hfree hc]
    simp [heq]

theorem appended_table (hgt : nDirect < blockCount ino.size.toNat) (hwf : WellFormed d ino)
    (hfree : 0 < d.freeBlocks.length) (table : Buf) :
    Appended d ino ino.grown
      ((d.mark (d.freeBlocks.take 1)).writeBlock (ino.block nDirect).toNat
        (((d.mark (d.freeBlocks.take 1)).readBlock (ino.block nDirect).toNat table 0).setWord
          (4 * (blockCount ino.size.toNat - nDirect)) (UInt32.ofNat (d.freeBlocks.getD 0 0)))) := by
  have ht := hwf.table_lt hgt
  have hne : (ino.block nDirect).toNat ≠ 2 := by
    have hlo := ht.1
    rw [Disk.firstData_eq] at hlo
    omega
  have hmax := hwf.blockCount_le
  have hword : ∀ k, nDirect + k ≤ blockCount ino.size.toNat → 4 * k + 4 ≤ blockSize := by
    intro k hk
    rw [blockNum_eq, Disk.firstData_eq] at hmax
    rw [blockSize_eq]
    simp only [nDirect] at hk
    omega
  refine ⟨Inode.type_grown _, Inode.size_grown _, fun j hj => ?_, ?_, fun _ => ?_, fun b hb hbt => ?_,
      fun c hc => ?_⟩
  · rcases Nat.lt_or_ge j nDirect with hd | hge
    · rw [blockId_of_lt hd, blockId_of_lt hd, Inode.block_grown]
    · obtain ⟨k, rfl⟩ := Nat.exists_eq_add_of_le hge
      rw [blockId_add, blockId_add, Inode.block_grown, word_writeBlock ht.2 (hword k hj.le),
        if_neg (by omega), Disk.mark_of_ne hne]
  · obtain ⟨k, hk⟩ := Nat.exists_eq_add_of_le hgt.le
    rw [hk, blockId_add, Inode.block_grown, Nat.add_sub_cancel_left,
      word_writeBlock ht.2 (hword k hk.ge), if_pos rfl, toNat_getD_freeBlocks]
  · rw [Inode.block_grown, if_neg hgt.ne']
  · rw [Inode.block_grown] at hbt
    rw [Disk.writeBlock_of_ne (hbt hgt.le), Disk.mark_of_ne hb]
  · rw [Disk.used_writeBlock hc, if_neg hne, used_mark_take_one hfree hc]
    simp [hgt.ne']

theorem appendBlock_eq (rt : Runtime) {inum : UInt32} (hino : getInode d inum = some ino)
    (hwf : WellFormed d ino)
    (hfree : appendNeeds (blockCount ino.size.toNat) ≤ d.freeBlocks.length) :
    ∃ ino' d', Appended d ino ino' d' ∧ appendBlock rt inum d =
      (some (UInt32.ofNat (d.freeBlocks.getD 0 0)), putInode rt inum ino' d') := by
  have hone : 0 < d.freeBlocks.length := by
    unfold appendNeeds at hfree
    split_ifs at hfree <;> omega
  have hmax : ¬maxFile < blockCount ino.size.toNat := by
    have hle := hwf.blockCount_le
    rw [blockNum_eq, Disk.firstData_eq] at hle
    rw [maxFile_eq]
    omega
  simp only [appendBlock, hino, if_neg hmax, allocBlock_first hone]
  rcases Nat.lt_trichotomy (blockCount ino.size.toNat) nDirect with hlt | heq | hgt
  · simp only [if_pos hlt]
    exact ⟨_, _, appended_direct hlt hone, rfl⟩
  · have htwo : 1 < d.freeBlocks.length := by
      rwa [appendNeeds, if_pos heq] at hfree
    have happ := appended_newTable heq htwo rt.table
    rw [← Nat.sub_self nDirect] at happ
    simp only [heq, lt_irrefl, if_false, if_true, allocBlock_mark_take htwo, Inode.block_setBlock,
      true_and, le_refl, toNat_getD_freeBlocks]
    exact ⟨_, _, happ, rfl⟩
  · simp only [if_neg (Nat.not_lt.2 hgt.le), if_neg hgt.ne']
    exact ⟨_, _, appended_table hgt hwf hone rt.table, rfl⟩

theorem blocksFor_succ (n : ℕ) : blocksFor (n + 1) = blocksFor n + appendNeeds n := by
  unfold blocksFor appendNeeds
  split_ifs <;> omega

theorem blockCount_add (n : ℕ) : blockCount (n + blockSize) = blockCount n + 1 := by
  unfold blockCount
  rw [blockSize_eq]
  split_ifs <;> omega

end

namespace Appended
variable {d d' : Disk} {ino ino' : Inode} {i : UInt32}

theorem toNat_size (h : Appended d ino ino' d') (hwf : WellFormed d ino) :
    ino'.size.toNat = ino.size.toNat + blockSize := by
  have hlt := hwf.size_lt
  rw [h.size, UInt32.toNat_add, UInt32.toNat_ofNat', blockSize_eq]
  omega

theorem dataBlocks_eq (h : Appended d ino ino' d') (hwf : WellFormed d ino) :
    dataBlocks d' ino' = dataBlocks d ino ++ [d.freeBlocks.getD 0 0] := by
  rw [dataBlocks, h.toNat_size hwf, blockCount_add, List.range_succ, List.map_append, List.map_singleton,
    h.new]
  congr 1
  exact List.map_congr_left fun j hj => h.old j (List.mem_range.1 hj)

theorem tableBlocks_eq (h : Appended d ino ino' d') (hwf : WellFormed d ino) :
    tableBlocks ino' = if blockCount ino.size.toNat = nDirect then [d.freeBlocks.getD 1 0]
      else tableBlocks ino := by
  rw [tableBlocks, h.toNat_size hwf, blockCount_add, tableBlocks]
  rcases Nat.lt_or_ge (blockCount ino.size.toNat) nDirect with hlt | hge
  · rw [if_neg (by omega), if_neg hlt.ne, if_neg (by omega)]
  · rw [if_pos (by omega), h.table hge]
    split_ifs with heq hgt
    · rfl
    · rfl
    · omega

theorem mem_blockList (h : Appended d ino ino' d') (hwf : WellFormed d ino)
    (hfree : appendNeeds (blockCount ino.size.toNat) ≤ d.freeBlocks.length) {b : ℕ}
    (hb : b ∈ blockList d' ino') : b ∈ blockList d ino ∨ b ∈ d.freeBlocks := by
  unfold appendNeeds at hfree
  rw [blockList, h.dataBlocks_eq hwf, h.tableBlocks_eq hwf, List.mem_append, List.mem_append] at hb
  rcases hb with (hb | hb) | hb
  · exact .inl (List.mem_append_left _ hb)
  · rw [List.mem_singleton.1 hb]
    exact .inr (getD_mem_freeBlocks (by split_ifs at hfree <;> omega))
  · split_ifs at hb hfree with heq
    · rw [List.mem_singleton.1 hb]
      exact .inr (getD_mem_freeBlocks hfree)
    · exact .inl (List.mem_append_right _ hb)

theorem slot_mem (h : Appended d ino ino' d') (hwf : WellFormed d ino)
    (hge : nDirect ≤ blockCount ino.size.toNat) : (ino'.block nDirect).toNat ∈ blockList d' ino' := by
  refine table_mem_blockList ?_
  rw [h.toNat_size hwf, blockCount_add]
  omega

theorem data_lt (h : Appended d ino ino' d') (hwf : WellFormed d ino)
    (hfree : appendNeeds (blockCount ino.size.toNat) ≤ d.freeBlocks.length) {b : ℕ}
    (hb : b ∈ blockList d' ino') : Disk.firstData ≤ b ∧ b < blockNum := by
  rcases h.mem_blockList hwf hfree hb with hb | hb
  · exact hwf.data b hb
  · exact ⟨(Disk.mem_freeBlocks.1 hb).1, (Disk.mem_freeBlocks.1 hb).2.1⟩

theorem old_or_free (h : Appended d ino ino' d') (hino : getInode d i = some ino)
    (hwf : WellFormed d ino) (hfree : appendNeeds (blockCount ino.size.toNat) ≤ d.freeBlocks.length)
    {b : ℕ} (hb : b ∈ blockList d' ino') : OwnBlock d i b ∨ d.used b = false := by
  rcases h.mem_blockList hwf hfree hb with hb | hb
  · exact .inl ⟨ino, hino, hb⟩
  · exact .inr (Disk.mem_freeBlocks.1 hb).2.2

theorem isLocal (h : Appended d ino ino' d') (hino : getInode d i = some ino) (hwf : WellFormed d ino)
    (hfree : appendNeeds (blockCount ino.size.toNat) ≤ d.freeBlocks.length) : Local d d' i := by
  constructor
  · intro j _ hj
    have hlt := inodeBlock_lt hj
    refine h.same _ (by omega) fun hge heq => ?_
    have hdata := (h.data_lt hwf hfree (h.slot_mem hwf hge)).1
    omega
  · intro b hlo hhi hu hown
    have hne : b ≠ 2 := by
      rw [Disk.firstData_eq] at hlo
      omega
    refine ⟨h.same b hne fun hge heq => ?_, (h.used b (hhi.trans (by decide))).2 (.inl hu)⟩
    rcases h.old_or_free hino hwf hfree (h.slot_mem hwf hge) with hb | hb
    · exact hown (heq ▸ hb)
    · rw [← heq, hu] at hb
      cases hb

theorem wellFormed (h : Appended d ino ino' d') (hwf : WellFormed d ino)
    (hfree : appendNeeds (blockCount ino.size.toNat) ≤ d.freeBlocks.length) : WellFormed d' ino' := by
  have hfirst : 0 < d.freeBlocks.length := by
    unfold appendNeeds at hfree
    split_ifs at hfree <;> omega
  have hnotOld : ∀ b ∈ d.freeBlocks, b ∉ blockList d ino := fun b hb hb' =>
    hwf.not_mem_freeBlocks hb' hb
  have hnd := List.nodup_append.1 hwf.nodup
  refine ⟨?_, fun b hb => h.data_lt hwf hfree hb, fun b hb => ?_⟩
  · rw [blockList, h.dataBlocks_eq hwf, h.tableBlocks_eq hwf, List.nodup_append]
    have hzero := getD_mem_freeBlocks hfirst
    have hdata : (dataBlocks d ino ++ [d.freeBlocks.getD 0 0]).Nodup := by
      rw [List.nodup_append]
      refine ⟨hnd.1, List.nodup_singleton _, fun x hx y hy heq => ?_⟩
      rw [List.mem_singleton.1 hy] at heq
      exact hnotOld _ hzero (heq ▸ List.mem_append_left _ hx)
    refine ⟨hdata, ?_, fun x hx y hy heq => ?_⟩
    · split_ifs
      · exact List.nodup_singleton _
      · exact hnd.2.1
    · subst heq
      unfold appendNeeds at hfree
      split_ifs at hy hfree with hdir
      · have hone := getD_mem_freeBlocks hfree
        rw [List.mem_singleton.1 hy] at hx
        rcases List.mem_append.1 hx with hx | hx
        · exact hnotOld _ hone (List.mem_append_left _ hx)
        · exact absurd (getD_freeBlocks_inj hfree hfirst (List.mem_singleton.1 hx)) (by omega)
      · rcases List.mem_append.1 hx with hx | hx
        · exact hnd.2.2 x hx x hy rfl
        · rw [List.mem_singleton.1 hx] at hy
          exact hnotOld _ hzero (List.mem_append_right _ hy)
  · have hbpb : b < bpb := (h.data_lt hwf hfree hb).2.trans (by decide)
    refine (h.used b hbpb).2 ?_
    rw [blockList, h.dataBlocks_eq hwf, h.tableBlocks_eq hwf, List.mem_append, List.mem_append] at hb
    rcases hb with (hb | hb) | hb
    · exact .inl (hwf.marked b (List.mem_append_left _ hb))
    · exact .inr (.inl (List.mem_singleton.1 hb))
    · split_ifs at hb with hdir
      · exact .inr (.inr ⟨hdir, List.mem_singleton.1 hb⟩)
      · exact .inl (hwf.marked b (List.mem_append_right _ hb))

theorem length_freeBlocks (h : Appended d ino ino' d') :
    d.freeBlocks.length ≤ d'.freeBlocks.length + appendNeeds (blockCount ino.size.toNat) := by
  have hkeep : ∀ c ∈ d.freeBlocks, c ≠ d.freeBlocks.getD 0 0 →
      (blockCount ino.size.toNat = nDirect → c ≠ d.freeBlocks.getD 1 0) → c ∈ d'.freeBlocks := by
    intro c hc hzero hone
    obtain ⟨hlo, hhi, hu⟩ := Disk.mem_freeBlocks.1 hc
    refine Disk.mem_freeBlocks.2 ⟨hlo, hhi, Bool.eq_false_iff.2 fun hu' => ?_⟩
    rcases (h.used c (hhi.trans (by decide))).1 hu' with hused | heq | ⟨hn, heq⟩
    · rw [hu] at hused
      cases hused
    · exact hzero heq
    · exact hone hn heq
  have hsub : d.freeBlocks ⊆ d'.freeBlocks ++ (d.freeBlocks.getD 0 0 ::
      if blockCount ino.size.toNat = nDirect then [d.freeBlocks.getD 1 0] else []) := by
    intro c hc
    by_cases hzero : c = d.freeBlocks.getD 0 0
    · simp [hzero]
    · by_cases hone : blockCount ino.size.toNat = nDirect ∧ c = d.freeBlocks.getD 1 0
      · simp [hone.1, hone.2]
      · exact List.mem_append_left _ (hkeep c hc hzero fun hn heq => hone ⟨hn, heq⟩)
  have hlen := (List.subperm_of_subset d.nodup_freeBlocks hsub).length_le
  rw [List.length_append, List.length_cons] at hlen
  unfold appendNeeds
  split_ifs at hlen ⊢ <;> simp at hlen ⊢ <;> omega

end Appended
end Yfs.Extent
