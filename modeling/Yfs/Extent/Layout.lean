import Yfs.Extent.Alloc
import Yfs.Extent.BlockList
import Yfs.Extent.Write

/-! Where `write_file` puts a file: the blocks that its eight cases keep, allocate and free. -/
namespace Yfs.Extent
open Yfs.Lib

/-- Block `j` of a file after it has grown beyond `j`: an old block, or a free one in the order of
allocation. The table is allocated after the direct blocks. -/
def newBlock (d : Disk) (ino : Inode) (j : ℕ) : ℕ :=
  let origin := blockCount ino.size.toNat
  if j < origin then blockId d ino j
  else d.freeBlocks.getD (j - origin + if origin < nDirect ∧ nDirect ≤ j then 1 else 0) 0

/-- The table of a file that has grown beyond its direct blocks. A file of exactly `nDirect`
blocks has none, but `write_file` takes `blocks[nDirect]` for it. -/
def newTable (d : Disk) (ino : Inode) : ℕ :=
  let origin := blockCount ino.size.toNat
  if origin < nDirect then d.freeBlocks.getD (nDirect - origin) 0 else (ino.block nDirect).toNat

def blocksFor (n : ℕ) : ℕ := if nDirect < n then n + 1 else n

/-- The free blocks suffice for a file to get `need` data blocks. -/
def Enough (d : Disk) (ino : Inode) (need : ℕ) : Prop :=
  blocksFor need ≤ blocksFor (blockCount ino.size.toNat) + d.freeBlocks.length

structure Laid (d : Disk) (ino : Inode) (need : ℕ) (ino' : Inode) (table : Buf) (d' : Disk) :
    Prop where
  type : ino'.type = ino.type
  direct : ∀ j < need, j < nDirect → (ino'.block j).toNat = newBlock d ino j
  slot : nDirect < need → (ino'.block nDirect).toNat = newTable d ino
  entry : ∀ k, nDirect + k < need → (table.word (4 * k)).toNat = newBlock d ino (nDirect + k)
  tail : nDirect < need → nDirect ≤ blockCount ino.size.toNat → newTable d ino < blockNum →
    ∀ i, 4 * (need - nDirect) ≤ i → i < blockSize → table i = d (newTable d ino) i
  same : ∀ b, b ≠ 2 → d' b = d b
  used : ∀ c < bpb, d'.used c = true ↔ (∃ j < need, c = newBlock d ino j) ∨
    (nDirect < need ∧ blockCount ino.size.toNat ≠ nDirect ∧ c = newTable d ino) ∨
    (d.used c = true ∧ c ∉ blockList d ino)

section
variable {d : Disk} {ino : Inode} {need : ℕ}

theorem newBlock_of_lt {j : ℕ} (h : j < blockCount ino.size.toNat) :
    newBlock d ino j = blockId d ino j := if_pos h

theorem newBlock_of_le {j : ℕ} (h : blockCount ino.size.toNat ≤ j) :
    newBlock d ino j = d.freeBlocks.getD (j - blockCount ino.size.toNat +
      if blockCount ino.size.toNat < nDirect ∧ nDirect ≤ j then 1 else 0) 0 :=
  if_neg (Nat.not_lt.2 h)

theorem Enough.lt_length (h : Enough d ino need) {j : ℕ} (hj : j < need)
    (hle : blockCount ino.size.toNat ≤ j) :
    j - blockCount ino.size.toNat +
      (if blockCount ino.size.toNat < nDirect ∧ nDirect ≤ j then 1 else 0) < d.freeBlocks.length := by
  unfold Enough blocksFor at h
  split_ifs at h ⊢ <;> omega

theorem Enough.table_lt_length (h : Enough d ino need) (hn : nDirect < need)
    (ho : blockCount ino.size.toNat < nDirect) :
    nDirect - blockCount ino.size.toNat < d.freeBlocks.length := by
  unfold Enough blocksFor at h
  split_ifs at h <;> omega

theorem getD_mem_freeBlocks {k : ℕ} (h : k < d.freeBlocks.length) :
    d.freeBlocks.getD k 0 ∈ d.freeBlocks := by
  rw [List.getD_eq_getElem _ _ h]
  exact List.getElem_mem h

theorem getD_freeBlocks_inj {j k : ℕ} (hj : j < d.freeBlocks.length) (hk : k < d.freeBlocks.length)
    (h : d.freeBlocks.getD j 0 = d.freeBlocks.getD k 0) : j = k := by
  rw [List.getD_eq_getElem _ _ hj, List.getD_eq_getElem _ _ hk] at h
  exact (d.nodup_freeBlocks.getElem_inj_iff).1 h

theorem newBlock_mem (h : Enough d ino need) {j : ℕ} (hj : j < need) :
    (j < blockCount ino.size.toNat ∧ newBlock d ino j ∈ dataBlocks d ino) ∨
      (blockCount ino.size.toNat ≤ j ∧ newBlock d ino j ∈ d.freeBlocks) := by
  rcases Nat.lt_or_ge j (blockCount ino.size.toNat) with hlt | hle
  · exact .inl ⟨hlt, newBlock_of_lt (d := d) hlt ▸ mem_dataBlocks hlt⟩
  · exact .inr ⟨hle, newBlock_of_le (d := d) hle ▸ getD_mem_freeBlocks (h.lt_length hj hle)⟩

theorem WellFormed.not_mem_freeBlocks (hwf : WellFormed d ino) {b : ℕ} (hb : b ∈ blockList d ino) :
    b ∉ d.freeBlocks := by
  intro hf
  have hu := (Disk.mem_freeBlocks.1 hf).2.2
  rw [hwf.marked b hb] at hu
  cases hu

theorem newBlock_lt (hwf : WellFormed d ino) (h : Enough d ino need) {j : ℕ} (hj : j < need) :
    Disk.firstData ≤ newBlock d ino j ∧ newBlock d ino j < blockNum := by
  rcases newBlock_mem h hj with ⟨-, hm⟩ | ⟨-, hm⟩
  · exact hwf.data _ (List.mem_append_left _ hm)
  · exact ⟨(Disk.mem_freeBlocks.1 hm).1, (Disk.mem_freeBlocks.1 hm).2.1⟩

theorem newBlock_inj (hwf : WellFormed d ino) (h : Enough d ino need) {i j : ℕ} (hi : i < need)
    (hj : j < need) (heq : newBlock d ino i = newBlock d ino j) : i = j := by
  rcases newBlock_mem h hi with ⟨hil, hm⟩ | ⟨hil, hm⟩ <;>
    rcases newBlock_mem h hj with ⟨hjl, hm'⟩ | ⟨hjl, hm'⟩
  · rw [newBlock_of_lt hil, newBlock_of_lt hjl] at heq
    by_contra hne
    rcases Nat.lt_or_gt_of_ne hne with hlt | hlt
    · exact hwf.ne_of_lt hlt hjl heq
    · exact hwf.ne_of_lt hlt hil heq.symm
  · exact absurd (heq ▸ hm') (hwf.not_mem_freeBlocks (List.mem_append_left _ hm))
  · exact absurd (heq ▸ hm) (hwf.not_mem_freeBlocks (List.mem_append_left _ hm'))
  · rw [newBlock_of_le hil, newBlock_of_le hjl] at heq
    have hidx := getD_freeBlocks_inj (h.lt_length hi hil) (h.lt_length hj hjl) heq
    split_ifs at hidx <;> omega

/-- Unless the file had exactly `nDirect` blocks, its table is a block of its own. -/
theorem newTable_mem (h : Enough d ino need) (hn : nDirect < need)
    (ho : blockCount ino.size.toNat ≠ nDirect) :
    (nDirect < blockCount ino.size.toNat ∧ newTable d ino ∈ tableBlocks ino) ∨
      (blockCount ino.size.toNat < nDirect ∧ newTable d ino ∈ d.freeBlocks) := by
  unfold newTable tableBlocks
  rcases Nat.lt_or_gt_of_ne ho with hlt | hgt
  · simp only [hlt, if_true, true_and]
    exact .inr (getD_mem_freeBlocks (h.table_lt_length hn hlt))
  · simp [hgt, Nat.not_lt.2 hgt.le]

theorem newBlock_ne_newTable (hwf : WellFormed d ino) (h : Enough d ino need) (hn : nDirect < need)
    (ho : blockCount ino.size.toNat ≠ nDirect) {j : ℕ} (hj : j < need) :
    newBlock d ino j ≠ newTable d ino := by
  intro heq
  rcases newBlock_mem h hj with ⟨hl, hm⟩ | ⟨hl, hm⟩ <;>
    rcases newTable_mem h hn ho with ⟨hgt, hm'⟩ | ⟨hlt, hm'⟩
  · exact (List.nodup_append.1 hwf.nodup).2.2 _ hm _ hm' heq
  · exact hwf.not_mem_freeBlocks (List.mem_append_left _ hm) (heq ▸ hm')
  · exact hwf.not_mem_freeBlocks (List.mem_append_right _ hm') (heq ▸ hm)
  · rw [newBlock_of_le hl, newTable, if_pos hlt] at heq
    have hidx := getD_freeBlocks_inj (h.lt_length hj hl) (h.table_lt_length hn hlt) heq
    split_ifs at hidx <;> omega

theorem mem_take_freeBlocks {c k : ℕ} : c ∈ d.freeBlocks.take k ↔
    ∃ m < k, m < d.freeBlocks.length ∧ d.freeBlocks.getD m 0 = c := by
  rw [List.mem_take_iff_getElem]
  constructor
  · rintro ⟨m, hm, rfl⟩
    have hlen : m < d.freeBlocks.length := hm.trans_le (min_le_right _ _)
    exact ⟨m, hm.trans_le (min_le_left _ _), hlen, List.getD_eq_getElem _ _ hlen⟩
  · rintro ⟨m, hm, hlen, rfl⟩
    exact ⟨m, lt_min hm hlen, (List.getD_eq_getElem _ _ hlen).symm⟩

theorem mem_blockList_iff {c : ℕ} : c ∈ blockList d ino ↔
    (∃ j < blockCount ino.size.toNat, c = blockId d ino j) ∨
      (nDirect < blockCount ino.size.toNat ∧ c = (ino.block nDirect).toNat) := by
  unfold blockList dataBlocks tableBlocks
  rw [List.mem_append, List.mem_map]
  refine or_congr (exists_congr fun j => ?_) ?_
  · rw [List.mem_range, eq_comm]
  · split_ifs with h <;> simp [h]

def grownBy (ino : Inode) (need : ℕ) : ℕ :=
  need - blockCount ino.size.toNat +
    if blockCount ino.size.toNat < nDirect ∧ nDirect < need then 1 else 0

theorem used_mark_grown (hwf : WellFormed d ino) (he : Enough d ino need)
    (ho : blockCount ino.size.toNat ≤ need) {c : ℕ} (hc : c < bpb) :
    (d.mark (d.freeBlocks.take (grownBy ino need))).used c = true ↔
      (∃ j < need, c = newBlock d ino j) ∨
      (nDirect < need ∧ blockCount ino.size.toNat ≠ nDirect ∧ c = newTable d ino) ∨
      (d.used c = true ∧ c ∉ blockList d ino) := by
  rw [Disk.used_mark hc, Bool.or_eq_true, decide_eq_true_eq]
  constructor
  · rintro (hu | hm)
    · by_cases hb : c ∈ blockList d ino
      · rcases mem_blockList_iff.1 hb with ⟨j, hj, rfl⟩ | ⟨hn, rfl⟩
        · exact .inl ⟨j, hj.trans_le ho, (newBlock_of_lt hj).symm⟩
        · exact .inr (.inl ⟨by omega, by omega, by rw [newTable, if_neg (by omega)]⟩)
      · exact .inr (.inr ⟨hu, hb⟩)
    · obtain ⟨m, hlen, -, rfl⟩ := mem_take_freeBlocks.1 hm
      unfold grownBy at hlen
      -- the table comes between the direct blocks and the blocks of the table
      by_cases htab : blockCount ino.size.toNat < nDirect ∧ nDirect < need
      · rw [if_pos htab] at hlen
        rcases Nat.lt_trichotomy (blockCount ino.size.toNat + m) nDirect with hlt | heq | hgt
        · refine .inl ⟨blockCount ino.size.toNat + m, by omega, ?_⟩
          rw [newBlock_of_le (Nat.le_add_right _ _), if_neg (by omega), Nat.add_sub_cancel_left,
            Nat.add_zero]
        · refine .inr (.inl ⟨htab.2, htab.1.ne, ?_⟩)
          rw [newTable, if_pos htab.1, ← heq, Nat.add_sub_cancel_left]
        · refine .inl ⟨blockCount ino.size.toNat + m - 1, by omega, ?_⟩
          rw [newBlock_of_le (by omega), if_pos ⟨htab.1, by omega⟩]
          congr 1
          omega
      · rw [if_neg htab] at hlen
        refine .inl ⟨blockCount ino.size.toNat + m, by omega, ?_⟩
        have hdir : ¬(blockCount ino.size.toNat < nDirect ∧ nDirect ≤ blockCount ino.size.toNat + m) := by
          omega
        rw [newBlock_of_le (Nat.le_add_right _ _), if_neg hdir, Nat.add_sub_cancel_left, Nat.add_zero]
  · rintro (⟨j, hj, rfl⟩ | ⟨hn, hne, rfl⟩ | ⟨hu, -⟩)
    · rcases newBlock_mem he hj with ⟨hlt, hm⟩ | ⟨hle, -⟩
      · exact .inl (hwf.marked _ (List.mem_append_left _ hm))
      · refine .inr (mem_take_freeBlocks.2 ⟨_, ?_, he.lt_length hj hle, (newBlock_of_le hle).symm⟩)
        unfold grownBy
        split_ifs <;> omega
    · rcases newTable_mem he hn hne with ⟨-, hm⟩ | ⟨hlt, -⟩
      · exact .inl (hwf.marked _ (List.mem_append_right _ hm))
      · refine .inr (mem_take_freeBlocks.2 ⟨_, ?_, he.table_lt_length hn hlt, ?_⟩)
        · unfold grownBy
          split_ifs <;> omega
        · rw [newTable, if_pos hlt]
    · exact .inl hu

def Shrunk (d : Disk) (ino : Inode) (need : ℕ) (l : List UInt32) : Prop :=
  ∀ c, c ∈ l.map UInt32.toNat ↔
    (∃ j < blockCount ino.size.toNat, need ≤ j ∧ c = blockId d ino j) ∨
    (need ≤ nDirect ∧ nDirect < blockCount ino.size.toNat ∧ c = (ino.block nDirect).toNat)

theorem Shrunk.lt_bpb (hwf : WellFormed d ino) {l : List UInt32} (hl : Shrunk d ino need l) :
    ∀ id ∈ l, id.toNat < bpb := by
  intro id hid
  have hlt : id.toNat < blockNum := by
    rcases (hl id.toNat).1 (List.mem_map_of_mem hid) with ⟨j, hj, -, heq⟩ | ⟨-, hgt, heq⟩
    · exact heq ▸ (hwf.block_lt hj).2
    · exact heq ▸ (hwf.table_lt hgt).2
  exact hlt.trans (by decide)

theorem Shrunk.used_unmark (hwf : WellFormed d ino) (ho : need ≤ blockCount ino.size.toNat)
    {l : List UInt32} (hl : Shrunk d ino need l) {c : ℕ} (hc : c < bpb) :
    (d.unmark l).used c = true ↔
      (∃ j < need, c = newBlock d ino j) ∨
      (nDirect < need ∧ blockCount ino.size.toNat ≠ nDirect ∧ c = newTable d ino) ∨
      (d.used c = true ∧ c ∉ blockList d ino) := by
  rw [Disk.used_unmark hc (hl.lt_bpb hwf), Bool.and_eq_true, Bool.not_eq_true',
    decide_eq_false_iff_not, hl]
  constructor
  · rintro ⟨hu, hnot⟩
    by_cases hb : c ∈ blockList d ino
    · rcases mem_blockList_iff.1 hb with ⟨j, hj, rfl⟩ | ⟨hn, rfl⟩
      · refine .inl ⟨j, ?_, (newBlock_of_lt hj).symm⟩
        by_contra hle
        exact hnot (.inl ⟨j, hj, Nat.not_lt.1 hle, rfl⟩)
      · refine .inr (.inl ⟨?_, hn.ne', by rw [newTable, if_neg (by omega)]⟩)
        by_contra hle
        exact hnot (.inr ⟨Nat.not_lt.1 hle, hn, rfl⟩)
    · exact .inr (.inr ⟨hu, hb⟩)
  · rintro (⟨j, hj, rfl⟩ | ⟨hn, hne, rfl⟩ | ⟨hu, hb⟩)
    · have hlt := hj.trans_le ho
      rw [newBlock_of_lt hlt]
      refine ⟨hwf.marked _ (mem_blockList hlt), ?_⟩
      rintro (⟨k, hk, hle, heq⟩ | ⟨-, hn, heq⟩)
      · exact hwf.ne_of_lt (hj.trans_le hle) hk heq
      · exact hwf.table_ne hn hlt heq
    · have hgt : nDirect < blockCount ino.size.toNat := hn.trans_le ho
      rw [newTable, if_neg (by omega)]
      refine ⟨hwf.marked _ (table_mem_blockList hgt), ?_⟩
      rintro (⟨k, hk, -, heq⟩ | ⟨hle, -, -⟩)
      · exact hwf.table_ne hgt hk heq.symm
      · omega
    · refine ⟨hu, ?_⟩
      rintro (⟨k, hk, -, rfl⟩ | ⟨-, hn, rfl⟩)
      · exact hb (mem_blockList hk)
      · exact hb (table_mem_blockList hn)

theorem toNat_getD_freeBlocks (m : ℕ) :
    (UInt32.ofNat (d.freeBlocks.getD m 0)).toNat = d.freeBlocks.getD m 0 := by
  rw [UInt32.toNat_ofNat']
  refine Nat.mod_eq_of_lt ?_
  rcases Nat.lt_or_ge m d.freeBlocks.length with hlt | hge
  · have hb := (Disk.mem_freeBlocks.1 (getD_mem_freeBlocks hlt)).2.1
    rw [blockNum_eq] at hb
    omega
  · rw [List.getD_eq_default _ _ hge]
    omega

theorem laid_growDirect (hwf : WellFormed d ino) (he : Enough d ino need)
    (ho : blockCount ino.size.toNat < need) (hn : need ≤ nDirect) (table : Buf) :
    Laid d ino need (allocDirect (blockCount ino.size.toNat) need (ino, d)).1 table
      (allocDirect (blockCount ino.size.toNat) need (ino, d)).2 := by
  have hgrown : grownBy ino need = need - blockCount ino.size.toNat := by
    rw [grownBy, if_neg (by omega), Nat.add_zero]
  have hfree : need - blockCount ino.size.toNat ≤ d.freeBlocks.length := by
    have hlast := he.lt_length (Nat.sub_one_lt_of_lt ho) (by omega)
    split_ifs at hlast <;> omega
  have halloc := allocDirect_eq ino 0 ho.le (by rwa [Nat.zero_add] : _ ≤ d.freeBlocks.length)
  simp only [Nat.zero_add, List.take_zero, Disk.mark_nil] at halloc
  rw [halloc]
  obtain ⟨blocks, hblocks⟩ := setBlocks_eq ino
    (fun i => UInt32.ofNat (d.freeBlocks.getD (i - blockCount ino.size.toNat) 0)) ho.le
  refine ⟨by rw [hblocks], fun j hj hd => ?_, by omega, by omega, by omega,
    fun b hb => Disk.mark_of_ne hb _, fun c hc => ?_⟩
  · rw [block_setBlocks ino _ ho.le (by omega)]
    split_ifs with hin
    · rw [toNat_getD_freeBlocks, newBlock_of_le hin.1, if_neg (by omega), Nat.add_zero]
    · rw [newBlock_of_lt (by omega), blockId_of_lt hd]
  · rw [← hgrown]
    exact used_mark_grown hwf he ho.le hc

theorem laid_shrinkDirect (hwf : WellFormed d ino) (ho : need ≤ blockCount ino.size.toNat)
    (hn : need ≤ nDirect) {l : List UInt32} (hl : Shrunk d ino need l) (table : Buf) :
    Laid d ino need ino table (d.unmark l) := by
  refine ⟨rfl, fun j hj hd => ?_, by omega, by omega, by omega,
    fun b hb => Disk.unmark_of_ne hb (hl.lt_bpb hwf), fun c hc => hl.used_unmark hwf ho hc⟩
  rw [newBlock_of_lt (hj.trans_le ho), blockId_of_lt hd]

theorem laid_newTable (hwf : WellFormed d ino) (he : Enough d ino need)
    (ho : blockCount ino.size.toNat < nDirect) (hn : nDirect < need) (table : Buf) :
    ∃ ino₁ d₁ table₂ d₂,
      allocDirect (blockCount ino.size.toNat) nDirect (ino, d) = (ino₁, d₁) ∧
      allocTable 0 (need - nDirect) (table, d₁.allocBlock.2) = (table₂, d₂) ∧
      Laid d ino need (ino₁.setBlock nDirect d₁.allocBlock.1) table₂ d₂ := by
  have hlen : nDirect - blockCount ino.size.toNat + 1 + (need - nDirect) ≤ d.freeBlocks.length := by
    have hlast := he.lt_length (Nat.sub_one_lt_of_lt hn) (by omega)
    split_ifs at hlast <;> omega
  have hgrown : grownBy ino need = nDirect - blockCount ino.size.toNat + 1 + (need - nDirect) := by
    rw [grownBy, if_pos ⟨ho, hn⟩]
    omega
  have hdir := allocDirect_eq ino 0 ho.le (by omega : _ ≤ d.freeBlocks.length)
  have htab := allocTable_eq table (nDirect - blockCount ino.size.toNat + 1) (need - nDirect).zero_le
    (by omega : _ ≤ d.freeBlocks.length)
  simp only [Nat.zero_add, Nat.sub_zero, List.take_zero, Disk.mark_nil] at hdir htab
  have hblock := allocBlock_mark_take (by omega :
    nDirect - blockCount ino.size.toNat < d.freeBlocks.length)
  have htab' := (congrArg (fun p => allocTable 0 (need - nDirect) (table, p.2)) hblock).trans htab
  refine ⟨_, _, _, _, hdir, htab', ?_⟩
  obtain ⟨blocks, hblocks⟩ := setBlocks_eq ino
    (fun i => UInt32.ofNat (d.freeBlocks.getD (i - blockCount ino.size.toNat) 0)) ho.le
  rw [hblock]
  refine ⟨by rw [hblocks]; rfl, fun j hj hd => ?_, fun _ => ?_, fun k hk => ?_, by omega,
    fun b hb => Disk.mark_of_ne hb _, fun c hc => ?_⟩
  · rw [Inode.block_setBlock, if_neg (by omega), block_setBlocks ino _ ho.le (by omega)]
    split_ifs with hin
    · rw [toNat_getD_freeBlocks, newBlock_of_le hin.1, if_neg (by omega), Nat.add_zero]
    · rw [newBlock_of_lt (by omega), blockId_of_lt hd]
  · rw [Inode.block_setBlock, if_pos ⟨rfl, le_rfl⟩, toNat_getD_freeBlocks, newTable, if_pos ho]
  · rw [word_setWords table _ (Nat.zero_le _), if_pos ⟨Nat.zero_le _, by omega⟩,
      toNat_getD_freeBlocks, newBlock_of_le (by omega), if_pos ⟨ho, by omega⟩]
    congr 1
    omega
  · rw [← hgrown]
    exact used_mark_grown hwf he (ho.trans hn).le hc

theorem entry_of_old (hwf : WellFormed d ino) (table : Buf) {k : ℕ}
    (hk : nDirect + k < blockCount ino.size.toNat) :
    ((d.readBlock (ino.block nDirect).toNat table 0).word (4 * k)).toNat =
      newBlock d ino (nDirect + k) := by
  have hmax := hwf.blockCount_le
  rw [blockNum_eq, Disk.firstData_eq] at hmax
  have hin : 4 * k + 4 ≤ blockSize := by
    rw [blockSize_eq]
    omega
  rw [newBlock_of_lt hk, blockId_add, word_readBlock (hwf.table_lt (by omega)).2 hin]

theorem newTable_of_le (ho : nDirect ≤ blockCount ino.size.toNat) :
    newTable d ino = (ino.block nDirect).toNat := if_neg (Nat.not_lt.2 ho)

theorem laid_growTable (hwf : WellFormed d ino) (he : Enough d ino need)
    (ho : nDirect ≤ blockCount ino.size.toNat) (hn : blockCount ino.size.toNat < need)
    (table : Buf) :
    ∃ table₁ d₁, allocTable (blockCount ino.size.toNat - nDirect) (need - nDirect)
        (d.readBlock (ino.block nDirect).toNat table 0, d) = (table₁, d₁) ∧
      Laid d ino need ino table₁ d₁ := by
  have hgrown : grownBy ino need = need - blockCount ino.size.toNat := by
    rw [grownBy, if_neg (by omega), Nat.add_zero]
  have hlen : need - blockCount ino.size.toNat ≤ d.freeBlocks.length := by
    have hlast := he.lt_length (Nat.sub_one_lt_of_lt hn) (by omega)
    split_ifs at hlast <;> omega
  have hle : blockCount ino.size.toNat - nDirect ≤ need - nDirect := by omega
  have hsub : need - nDirect - (blockCount ino.size.toNat - nDirect) =
      need - blockCount ino.size.toNat := by omega
  have htab := allocTable_eq (d.readBlock (ino.block nDirect).toNat table 0) 0 hle
    (by omega : _ ≤ d.freeBlocks.length)
  simp only [Nat.zero_add, hsub, List.take_zero, Disk.mark_nil] at htab
  refine ⟨_, _, htab, rfl, fun j hj hd => ?_, fun _ => (newTable_of_le ho).symm, fun k hk => ?_,
    fun _ _ ht i hi hlt => ?_, fun b hb => Disk.mark_of_ne hb _, fun c hc => ?_⟩
  · rw [newBlock_of_lt (by omega), blockId_of_lt hd]
  · rw [word_setWords _ _ hle]
    split_ifs with hin
    · rw [toNat_getD_freeBlocks, newBlock_of_le (by omega), if_neg (by omega)]
      congr 1
      omega
    · exact entry_of_old hwf table (by omega)
  · rw [newTable_of_le ho] at ht ⊢
    rw [setWords_of_le _ _ hle hi, Disk.readBlock_apply, if_pos ⟨ht, Nat.zero_le _, by omega⟩,
      Nat.sub_zero]
  · rw [← hgrown]
    exact used_mark_grown hwf he hn.le hc

theorem laid_shrinkTable (hwf : WellFormed d ino) (ho : need ≤ blockCount ino.size.toNat)
    (hn : nDirect < need) {l : List UInt32} (hl : Shrunk d ino need l) (table : Buf) :
    Laid d ino need ino (d.readBlock (ino.block nDirect).toNat table 0) (d.unmark l) := by
  have hle : nDirect ≤ blockCount ino.size.toNat := hn.le.trans ho
  refine ⟨rfl, fun j hj hd => ?_, fun _ => (newTable_of_le hle).symm,
    fun k hk => entry_of_old hwf table (hk.trans_le ho), fun _ _ ht i _ hlt => ?_,
    fun b hb => Disk.unmark_of_ne hb (hl.lt_bpb hwf), fun c hc => hl.used_unmark hwf ho hc⟩
  · rw [newBlock_of_lt (hj.trans_le ho), blockId_of_lt hd]
  · rw [newTable_of_le hle] at ht ⊢
    rw [Disk.readBlock_apply, if_pos ⟨ht, Nat.zero_le _, by omega⟩, Nat.sub_zero]

end
end Yfs.Extent
