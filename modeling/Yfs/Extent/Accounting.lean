import Yfs.Extent.AppendEffect
import Yfs.Extent.Ownership

/-! The blocks that `write_file` allocates and frees, by the bitmap before and after it. -/
namespace Yfs.Extent
open Yfs.Lib

/-- The bitmap of `d'` against that of `d`, for a file whose list was `l` with the table `t` and has
become `l'` with the table `t'`. -/
structure Accounts (d d' : Disk) (l l' : List UInt32) (t t' : UInt32) : Prop where
  nodup : l'.Nodup
  kept : l'.take (min l.length l'.length) = l.take (min l.length l'.length)
  fresh : ∀ id ∈ l'.drop l.length, id.toNat ∈ d.freeBlocks
  freshTable : l.length ≤ nDirect → nDirect < l'.length → t'.toNat ∈ d.freeBlocks
  marked : ∀ b < bpb, d.used b = false ∧ d'.used b = true ↔ b ∈ (l'.drop l.length).map UInt32.toNat ∨
    (l.length ≤ nDirect ∧ nDirect < l'.length ∧ b = t'.toNat)
  freed : ∀ b < bpb, d.used b = true ∧ d'.used b = false ↔ b ∈ (l.drop l'.length).map UInt32.toNat ∨
    (l'.length ≤ nDirect ∧ nDirect < l.length ∧ b = t.toNat)

/-- File `i` has got `need` blocks, and the bitmap accounts for it. -/
def Accounted (d : Disk) (i : UInt32) (need : ℕ) (d' : Disk) : Prop :=
  ∀ rt rt', ∃ ino ino' l l', getInode d i = some ino ∧ getInode d' i = some ino' ∧
    getBlockIds rt i d = some l ∧ getBlockIds rt' i d' = some l' ∧ l'.length = need ∧
    Accounts d d' l l' (ino.block nDirect) (ino'.block nDirect)

/-- A file that gets indirect blocks stays within the inode's array, and if it has just filled its
direct blocks then its `blocks[nDirect]` is one of the blocks that will be allocated. -/
def AccountsFor (d : Disk) (ino : Inode) (need : ℕ) : Prop :=
  nDirect < need → need ≤ 2 * nDirect + 1 ∧ (blockCount ino.size.toNat = nDirect →
    (ino.block nDirect).toNat ∈ d.freeBlocks.take (need - nDirect))

section
variable {d d' : Disk} {i : UInt32} {ino ino' : Inode} {table : Buf} {need : ℕ}

theorem mem_drop_map_range {α : Type} (f : ℕ → α) (m n : ℕ) (x : α) :
    x ∈ ((List.range n).map f).drop m ↔ ∃ j, m ≤ j ∧ j < n ∧ x = f j := by
  rw [← List.map_drop, List.range_eq_range', List.drop_range', List.mem_map]
  refine exists_congr fun j => ?_
  rw [List.mem_range'_1]
  constructor
  · rintro ⟨⟨hlo, hhi⟩, rfl⟩
    exact ⟨by omega, by omega, rfl⟩
  · rintro ⟨hlo, hhi, rfl⟩
    exact ⟨⟨by omega, by omega⟩, rfl⟩

theorem mem_toNat_drop {f : ℕ → ℕ} {m n : ℕ} (hf : ∀ j < n, f j < blockNum) (b : ℕ) :
    b ∈ (((List.range n).map fun j => UInt32.ofNat (f j)).drop m).map UInt32.toNat ↔
      ∃ j, m ≤ j ∧ j < n ∧ b = f j := by
  have hnat : ((List.range n).map fun j => UInt32.ofNat (f j)).map UInt32.toNat = (List.range n).map f := by
    rw [List.map_map]
    exact List.map_congr_left fun j hj => toNat_ofNat_of_lt (hf j (List.mem_range.1 hj))
  rw [List.map_drop, hnat, mem_drop_map_range]

theorem newBlock_mem_freeBlocks (he : Enough d ino need) {j : ℕ} (hlo : blockCount ino.size.toNat ≤ j)
    (hj : j < need) : newBlock d ino j ∈ d.freeBlocks := by
  rcases newBlock_mem he hj with ⟨hlt, -⟩ | ⟨-, hmem⟩
  · omega
  · exact hmem

theorem Laid.marked_iff (hl : Laid d ino need ino' table d') (hwf : WellFormed d ino) (he : Enough d ino need)
    (hgood : AccountsFor d ino need) {b : ℕ} (hb : b < bpb) : d.used b = false ∧ d'.used b = true ↔
      (∃ j, blockCount ino.size.toNat ≤ j ∧ j < need ∧ b = newBlock d ino j) ∨
        (blockCount ino.size.toNat ≤ nDirect ∧ nDirect < need ∧ b = newTable d ino) := by
  rw [hl.used b hb]
  constructor
  · intro h
    obtain ⟨hfree, hnew⟩ := h
    have hnot : b ∉ blockList d ino := by
      intro hmem
      rw [hwf.marked b hmem] at hfree
      cases hfree
    rcases hnew with ⟨j, hj, rfl⟩ | ⟨hn, ho, rfl⟩ | ⟨hu, -⟩
    · rcases Nat.lt_or_ge j (blockCount ino.size.toNat) with hlt | hge
      · rw [newBlock_of_lt hlt] at hnot
        exact absurd (mem_blockList hlt) hnot
      · exact .inl ⟨j, hge, hj, rfl⟩
    · rcases newTable_mem he hn ho with ⟨hgt, hm⟩ | ⟨hlt, -⟩
      · exact absurd (List.mem_append_right _ hm) hnot
      · exact .inr ⟨hlt.le, hn, rfl⟩
    · rw [hu] at hfree
      cases hfree
  · intro h
    rcases h with ⟨j, hlo, hj, rfl⟩ | ⟨ho, hn, rfl⟩
    · have hfree := (Disk.mem_freeBlocks.1 (newBlock_mem_freeBlocks he hlo hj)).2.2
      exact ⟨hfree, .inl ⟨j, hj, rfl⟩⟩
    · rcases Nat.lt_or_eq_of_le ho with hlt | heq
      · obtain ⟨hgt, -⟩ | ⟨-, hm⟩ := newTable_mem he hn hlt.ne
        · omega
        · exact ⟨(Disk.mem_freeBlocks.1 hm).2.2, .inr (.inl ⟨hn, hlt.ne, rfl⟩)⟩
      · -- the stale slot is one of the blocks that are allocated for the data
        have hslot := (hgood hn).2 heq
        rw [← newTable_of_le heq.ge] at hslot
        have hfree := (Disk.mem_freeBlocks.1 (List.mem_of_mem_take hslot)).2.2
        obtain ⟨m, hm, -, hget⟩ := mem_take_freeBlocks.1 hslot
        refine ⟨hfree, .inl ⟨nDirect + m, by omega, ?_⟩⟩
        rw [newBlock_of_le (by omega), if_neg (by omega), ← hget, heq, Nat.add_sub_cancel_left, Nat.add_zero]

theorem Laid.freed_iff (hl : Laid d ino need ino' table d') (hwf : WellFormed d ino) {b : ℕ} (hb : b < bpb) :
    d.used b = true ∧ d'.used b = false ↔
      (∃ j, need ≤ j ∧ j < blockCount ino.size.toNat ∧ b = blockId d ino j) ∨
        (need ≤ nDirect ∧ nDirect < blockCount ino.size.toNat ∧ b = (ino.block nDirect).toNat) := by
  rw [← Bool.not_eq_true (d'.used b), hl.used b hb]
  constructor
  · intro h
    obtain ⟨hu, hnot⟩ := h
    obtain ⟨hdata, htable, hother⟩ := not_or.1 hnot |>.imp_right not_or.1
    have hmem : b ∈ blockList d ino := not_not.1 fun hb' => hother ⟨hu, hb'⟩
    rcases mem_blockList_iff.1 hmem with ⟨j, hj, rfl⟩ | ⟨hn, rfl⟩
    · refine .inl ⟨j, ?_, hj, rfl⟩
      by_contra hlt
      exact hdata ⟨j, by omega, (newBlock_of_lt hj).symm⟩
    · refine .inr ⟨?_, hn, rfl⟩
      by_contra hlt
      exact htable ⟨by omega, hn.ne', (newTable_of_le hn.le).symm⟩
  · intro h
    have hmem : b ∈ blockList d ino := by
      rw [mem_blockList_iff]
      exact h.imp (fun ⟨j, _, hj, hb'⟩ => ⟨j, hj, hb'⟩) fun h' => h'.2
    refine ⟨hwf.marked b hmem, ?_⟩
    rintro (⟨k, hk, hbk⟩ | ⟨hn, ho, hbt⟩ | ⟨-, hnot⟩)
    · rcases h with ⟨j, hj, hlt, rfl⟩ | ⟨hle, hgt, rfl⟩
      · rw [newBlock_of_lt (by omega)] at hbk
        exact hwf.ne_of_lt (by omega) hlt hbk.symm
      · rw [newBlock_of_lt (by omega)] at hbk
        exact hwf.table_ne hgt (by omega) hbk.symm
    · rcases h with ⟨j, hj, hlt, rfl⟩ | ⟨hle, -, -⟩
      · rw [newTable_of_le (by omega)] at hbt
        exact hwf.table_ne (by omega) hlt hbt
      · omega
    · exact hnot hmem

theorem Laid.getBlockIds_put (hl : Laid d ino need ino' table d') (hino : getInode d i = some ino)
    (hmax : need ≤ maxFile) (ht : nDirect < need → Disk.firstData ≤ newTable d ino ∧
      newTable d ino < blockNum)
    (rt rt' : Runtime) (buf : Buf) {size : ℤ} (hsize : blockCount (ino'.written rt size).size.toNat = need) :
    getBlockIds rt' i (putInode rt i (ino'.written rt size) (writeData rt buf ino' table need d')) =
      some ((List.range need).map fun j => UInt32.ofNat (newBlock d ino j)) := by
  have hslot : nDirect < need → ((ino'.written rt size).block nDirect).toNat = newTable d ino := by
    intro hn
    rw [Inode.block_written, hl.slot hn]
  rw [getBlockIds_eq_dataBlocks (hl.getInode_put hino rt size _) (hsize.trans_le hmax), dataBlocks, hsize,
    List.map_map]
  · congr 1
    refine List.map_congr_left fun j hj => ?_
    have hlt := List.mem_range.1 hj
    rw [Function.comp_apply]
    congr 1
    rw [← hl.blockId_writeData hmax (fun hn => (ht hn).2) rt buf size hlt]
    rcases Nat.lt_or_ge j nDirect with hd | hge
    · rw [blockId_of_lt hd, blockId_of_lt hd]
    · refine blockId_putInode ?_ j
      have hlo := (ht (by omega)).1
      have hi := inodeBlock_lt (getInode_lt hino)
      rw [hslot (by omega)]
      omega
  · intro hn
    rw [hsize] at hn
    rw [hslot hn]
    exact (ht hn).2

theorem AccountsFor.table_lt (h : AccountsFor d ino need) (hwf : WellFormed d ino) (he : Enough d ino need)
    (hn : nDirect < need) : Disk.firstData ≤ newTable d ino ∧ newTable d ino < blockNum := by
  by_cases ho : blockCount ino.size.toNat = nDirect
  · have hmem := Disk.mem_freeBlocks.1 (List.mem_of_mem_take ((h hn).2 ho))
    rw [newTable_of_le ho.ge]
    exact ⟨hmem.1, hmem.2.1⟩
  · exact newTable_lt hwf he hn ho

theorem length_dataBlocks : ((dataBlocks d ino).map UInt32.ofNat).length = blockCount ino.size.toNat := by
  rw [List.length_map, dataBlocks, List.length_map, List.length_range]

theorem map_dataBlocks : (dataBlocks d ino).map UInt32.ofNat =
    (List.range (blockCount ino.size.toNat)).map fun j => UInt32.ofNat (blockId d ino j) := by
  rw [dataBlocks, List.map_map]
  rfl

theorem nodup_newBlocks (hwf : WellFormed d ino) (he : Enough d ino need) :
    ((List.range need).map fun j => UInt32.ofNat (newBlock d ino j)).Nodup := by
  refine List.Nodup.map_on ?_ List.nodup_range
  intro j hj k hk heq
  rw [List.mem_range] at hj hk
  have hnat := congrArg UInt32.toNat heq
  rw [toNat_ofNat_of_lt (newBlock_lt hwf he hj).2, toNat_ofNat_of_lt (newBlock_lt hwf he hk).2] at hnat
  exact newBlock_inj hwf he hj hk hnat

theorem take_newBlocks (d : Disk) (ino : Inode) (need : ℕ) :
    ((List.range need).map fun j => UInt32.ofNat (newBlock d ino j)).take
        (min (blockCount ino.size.toNat) need) =
      ((dataBlocks d ino).map UInt32.ofNat).take (min (blockCount ino.size.toNat) need) := by
  have hnew : min (min (blockCount ino.size.toNat) need) need = min (blockCount ino.size.toNat) need := by
    omega
  have hold : min (min (blockCount ino.size.toNat) need) (blockCount ino.size.toNat) =
      min (blockCount ino.size.toNat) need := by omega
  rw [map_dataBlocks, ← List.map_take, ← List.map_take, List.take_range, List.take_range, hnew, hold]
  refine List.map_congr_left fun j hj => ?_
  rw [newBlock_of_lt ((List.mem_range.1 hj).trans_le (Nat.min_le_left _ _))]

theorem AccountsFor.table_mem_freeBlocks (h : AccountsFor d ino need) (he : Enough d ino need)
    (ho : blockCount ino.size.toNat ≤ nDirect) (hn : nDirect < need) : newTable d ino ∈ d.freeBlocks := by
  rcases Nat.lt_or_eq_of_le ho with hlt | heq
  · obtain ⟨hgt, -⟩ | ⟨-, hmem⟩ := newTable_mem he hn hlt.ne
    · omega
    · exact hmem
  · rw [newTable_of_le heq.ge]
    exact List.mem_of_mem_take ((h hn).2 heq)

theorem Laid.used_put (hl : Laid d ino need ino' table d') (hwf : WellFormed d ino) (he : Enough d ino need)
    (hgood : AccountsFor d ino need) (rt : Runtime) (buf : Buf) (size : ℤ) (c : ℕ) :
    (putInode rt i (ino'.written rt size) (writeData rt buf ino' table need d')).used c = d'.used c := by
  rw [putInode_used, hl.used_writeData_of hwf he _ rt buf]
  intro hn
  refine ⟨(hgood hn).1, ?_⟩
  have hlo := (hgood.table_lt hwf he hn).1
  rw [Disk.firstData_eq] at hlo
  omega

/-- The lists and the bitmap of a `write_file` that stays within the inode's array. -/
theorem Laid.accounts (hl : Laid d ino need ino' table d') (hwf : WellFormed d ino) (he : Enough d ino need)
    (hgood : AccountsFor d ino need) (rt : Runtime) (buf : Buf) (size : ℤ) :
    Accounts d (putInode rt i (ino'.written rt size) (writeData rt buf ino' table need d'))
      ((dataBlocks d ino).map UInt32.ofNat) ((List.range need).map fun j => UInt32.ofNat (newBlock d ino j))
      (ino.block nDirect) ((ino'.written rt size).block nDirect) := by
  have hlen : ((List.range need).map fun j => UInt32.ofNat (newBlock d ino j)).length = need := by
    rw [List.length_map, List.length_range]
  constructor
  · exact nodup_newBlocks hwf he
  · rw [length_dataBlocks, hlen]
    exact take_newBlocks d ino need
  · rw [length_dataBlocks]
    intro id hid
    obtain ⟨j, hlo, hj, rfl⟩ := (mem_drop_map_range _ _ _ _).1 hid
    rw [toNat_ofNat_of_lt (newBlock_lt hwf he hj).2]
    exact newBlock_mem_freeBlocks he hlo hj
  · rw [length_dataBlocks, hlen, Inode.block_written]
    intro ho hn
    rw [hl.slot hn]
    exact hgood.table_mem_freeBlocks he ho hn
  · intro b hb
    rw [hl.used_put hwf he hgood, hl.marked_iff hwf he hgood hb, length_dataBlocks, hlen,
      mem_toNat_drop fun j hj => (newBlock_lt hwf he hj).2, Inode.block_written]
    refine or_congr_right (and_congr_right fun _ => and_congr_right fun hn => ?_)
    rw [hl.slot hn]
  · intro b hb
    rw [hl.used_put hwf he hgood, hl.freed_iff hwf hb, length_dataBlocks, hlen, map_dataBlocks,
      mem_toNat_drop fun j hj => (hwf.block_lt hj).2]

/-- Behind the end of the inode's array lies an id that makes `write_file` clear the bitmap. -/
theorem Laid.used_writeData_beyond (hl : Laid d ino need ino' table d') (hwf : WellFormed d ino)
    (he : Enough d ino need) (hmax : 2 * nDirect + 1 < need) (ht : newTable d ino ≠ 2) {rt : Runtime}
    (hrt : ∀ k, rt.beyond k = 2) (buf : Buf) {c : ℕ} (hc : c < bpb) :
    (writeData rt buf ino' table need d').used c = false := by
  have hbyte : c / 8 < blockSize := by
    rw [bpb_eq] at hc
    rw [blockSize_eq]
    omega
  have hpeek : 2 = (ino'.peek rt (need - nDirect - 1)).toNat := by
    rw [Inode.peek, if_neg (by omega), hrt]
    rfl
  have hentry : 2 ≠ (table.word (4 * (need - nDirect - 1))).toNat := by
    have hlo := (newBlock_lt hwf he (by omega : nDirect + (need - nDirect - 1) < need)).1
    rw [Disk.firstData_eq] at hlo
    rw [hl.entry _ (by omega)]
    omega
  have hzero : writeData rt buf ino' table need d' 2 (c / 8) = 0 := by
    rw [writeData, if_neg (by omega), hl.writeLarge_of_ne (by omega) rt buf ht.symm, writeIndirect_eq]
    refine (writeLoop_first (k := need - nDirect - 1) (by omega) ?_ ?_ ?_ (by decide) hbyte).trans rfl
    · exact hpeek
    · exact hentry
    · intro k h₁ h₂
      omega
  rw [Disk.used, Buf.bit, hzero]
  exact Nat.zero_testBit _

theorem writeFile_natCast {size : ℕ} (rt : Runtime) (buf : Buf) (hino : getInode d i = some ino)
    (hwf : WellFormed d ino) (hmax : blockCount size ≤ maxFile) (he : Enough d ino (blockCount size)) :
    ∃ ino' table d', Laid d ino (blockCount size) ino' table d' ∧
      writeFile rt i buf size d =
        putInode rt i (ino'.written rt size) (writeData rt buf ino' table (blockCount size) d') ∧
      blockCount (ino'.written rt size).size.toNat = blockCount size := by
  have hlt : size < 2 ^ 31 := by
    have hle := blockCount_le.1 hmax
    rw [maxFile_eq, blockSize_eq] at hle
    omega
  have hbmod : Int.bmod size (2 ^ 32) = size := Int.bmod_eq_of_le (by omega) (by omega)
  have hneed := needBlocks_bmod hlt
  rw [hbmod] at hneed
  obtain ⟨ino', table, d', hl, heq⟩ := writeFile_eq rt buf hino hwf hneed hmax he
  refine ⟨ino', table, d', hl, heq, ?_⟩
  have hsize := ino'.toNat_size_written rt hlt
  rw [hbmod] at hsize
  rw [hsize]

theorem Accounted.accounts (h : Accounted d i need d') (hino : getInode d i = some ino)
    (hwf : WellFormed d ino) (hino' : getInode d' i = some ino') : ∃ l', l'.length = need ∧
      Accounts d d' ((dataBlocks d ino).map UInt32.ofNat) l' (ino.block nDirect) (ino'.block nDirect) := by
  obtain ⟨ino₁, ino₂, l, l', h₁, h₂, hl, -, hlen, hacc⟩ := h quiet quiet
  rw [hino] at h₁
  cases h₁
  rw [hino'] at h₂
  cases h₂
  rw [hwf.getBlockIds_eq hino] at hl
  cases hl
  exact ⟨l', hlen, hacc⟩

theorem Accounts.exists_used {l' : List UInt32} {t t' : UInt32}
    (h : Accounts d d' ((dataBlocks d ino).map UInt32.ofNat) l' t t') (hwf : WellFormed d ino)
    (hn : nDirect < l'.length) : ∃ c < bpb, d'.used c = true := by
  rcases Nat.lt_or_ge (blockCount ino.size.toNat) l'.length with hgrow | hshrink
  · have hne : l'.drop ((dataBlocks d ino).map UInt32.ofNat).length ≠ [] := by
      rw [length_dataBlocks, Ne, List.drop_eq_nil_iff]
      omega
    obtain ⟨id, hid⟩ := List.exists_mem_of_ne_nil _ hne
    have hlt := (Disk.mem_freeBlocks.1 (h.fresh id hid)).2.1.trans (by decide : blockNum < bpb)
    exact ⟨id.toNat, hlt, ((h.marked _ hlt).2 (.inl (List.mem_map_of_mem hid))).2⟩
  · have hzero : 0 < blockCount ino.size.toNat := by omega
    have hlt := (hwf.block_lt hzero).2.trans (by decide : blockNum < bpb)
    refine ⟨blockId d ino 0, hlt, ?_⟩
    by_contra hfree
    rw [Bool.not_eq_true] at hfree
    rcases (h.freed _ hlt).1 ⟨hwf.marked _ (mem_blockList hzero), hfree⟩ with hmem | ⟨hle, -, -⟩
    · rw [dataBlocks, List.map_map] at hmem
      obtain ⟨j, hlo, hj, heq⟩ := (mem_toNat_drop (fun j hj => (hwf.block_lt hj).2) _).1 hmem
      exact hwf.ne_of_lt (by omega) hj heq
    · omega

/-- A free block that comes to be marked as the table of a full row of direct blocks is one of those
allocated for the data. -/
theorem Laid.slot_mem_take (hl : Laid d ino need ino' table d') (hwf : WellFormed d ino)
    (he : Enough d ino need) (ho : blockCount ino.size.toNat = nDirect)
    (hfree : newTable d ino ∈ d.freeBlocks)
    (hused : d'.used (newTable d ino) = true) : newTable d ino ∈ d.freeBlocks.take (need - nDirect) := by
  obtain ⟨-, hlt, hu⟩ := Disk.mem_freeBlocks.1 hfree
  rcases (hl.used _ (hlt.trans (by decide))).1 hused with ⟨j, hj, heq⟩ | ⟨-, hne, -⟩ | ⟨hu', -⟩
  · have hge : nDirect ≤ j := by
      by_contra hlt'
      rw [newBlock_of_lt (by omega)] at heq
      rw [heq] at hfree
      exact hwf.not_mem_freeBlocks (mem_blockList (by omega)) hfree
    have hlen := he.lt_length hj (by omega)
    rw [newBlock_of_le (by omega), if_neg (by omega), ho, Nat.add_zero] at heq
    rw [if_neg (by omega), ho, Nat.add_zero] at hlen
    rw [mem_take_freeBlocks]
    exact ⟨j - nDirect, by omega, hlen, heq.symm⟩
  · exact absurd ho hne
  · rw [hu] at hu'
    cases hu'

theorem accountsFor_of_accounted {size : ℕ} (hino : getInode d i = some ino) (hwf : WellFormed d ino)
    (hmax : blockCount size ≤ maxFile) (he : Enough d ino (blockCount size)) (buf : Buf)
    (h : ∀ rt, Accounted d i (blockCount size) (writeFile rt i buf size d)) :
    AccountsFor d ino (blockCount size) := by
  intro hn
  have hrun : ∀ rt, ∃ ino' table d' l', Laid d ino (blockCount size) ino' table d' ∧
      l'.length = blockCount size ∧ Accounts d
        (putInode rt i (ino'.written rt size) (writeData rt buf ino' table (blockCount size) d'))
        ((dataBlocks d ino).map UInt32.ofNat) l' (ino.block nDirect) (ino'.block nDirect) := by
    intro rt
    obtain ⟨ino', table, d', hl, heq, -⟩ := writeFile_natCast rt buf hino hwf hmax he
    have hacc := h rt
    rw [heq] at hacc
    obtain ⟨l', hlen, hacc'⟩ := hacc.accounts hino hwf (hl.getInode_put hino rt size _)
    exact ⟨ino', table, d', l', hl, hlen, hacc'⟩
  -- the table is a block of the data region, or else it would not have been free
  have htable : blockCount ino.size.toNat ≤ nDirect → newTable d ino ∈ d.freeBlocks := by
    intro ho
    obtain ⟨ino', table, d', l', hl, hlen, hacc⟩ := hrun quiet
    rw [← hl.slot hn]
    exact hacc.freshTable (by rwa [length_dataBlocks]) (by rwa [hlen])
  have hne : newTable d ino ≠ 2 := by
    intro heq
    have hlo : Disk.firstData ≤ newTable d ino := by
      rcases Nat.lt_or_ge nDirect (blockCount ino.size.toNat) with hgt | hle
      · rw [newTable_of_le hgt.le]
        exact (hwf.table_lt hgt).1
      · exact (Disk.mem_freeBlocks.1 (htable hle)).1
    rw [Disk.firstData_eq] at hlo
    omega
  have hsmall : blockCount size ≤ 2 * nDirect + 1 := by
    by_contra hbig
    obtain ⟨ino', table, d', l', hl, hlen, hacc⟩ := hrun { quiet with beyond := fun _ => 2 }
    have hclear : ∀ c < bpb, (putInode { quiet with beyond := fun _ => 2 } i
        (ino'.written { quiet with beyond := fun _ => 2 } size)
        (writeData { quiet with beyond := fun _ => 2 } buf ino' table (blockCount size) d')).used c =
        false := by
      intro c hc
      rw [putInode_used]
      exact hl.used_writeData_beyond hwf he (by omega) hne (fun _ => rfl) buf hc
    obtain ⟨c, hc, hused⟩ := hacc.exists_used hwf (by rwa [hlen])
    rw [hclear c hc] at hused
    cases hused
  refine ⟨hsmall, fun ho => ?_⟩
  obtain ⟨ino', table, d', l', hl, hlen, hacc⟩ := hrun quiet
  have hlt := (Disk.mem_freeBlocks.1 (htable ho.le)).2.1.trans (by decide : blockNum < bpb)
  have hused := ((hacc.marked _ hlt).2 (.inr ⟨by rw [length_dataBlocks, ho], by rwa [hlen],
      (hl.slot hn).symm⟩)).2
  rw [putInode_used, hl.used_writeData_of hwf he (fun _ => ⟨hsmall, hne⟩)] at hused
  rw [← newTable_of_le ho.ge]
  exact hl.slot_mem_take hwf he ho (htable ho.le) hused

/-- The bitmap accounts for a `write_file` exactly under `AccountsFor`. -/
theorem accounted_iff {size : ℕ} (hino : getInode d i = some ino) (hwf : WellFormed d ino)
    (hmax : blockCount size ≤ maxFile) (he : Enough d ino (blockCount size)) (buf : Buf) :
    (∀ rt, Accounted d i (blockCount size) (writeFile rt i buf size d)) ↔
      AccountsFor d ino (blockCount size) := by
  constructor
  · intro h
    exact accountsFor_of_accounted hino hwf hmax he buf h
  · intro hgood rt rt₁ rt₂
    obtain ⟨ino', table, d', hl, heq, hsize⟩ := writeFile_natCast rt buf hino hwf hmax he
    rw [heq]
    refine ⟨_, _, _, _, hino, hl.getInode_put hino rt size _, hwf.getBlockIds_eq hino rt₁,
      hl.getBlockIds_put hino hmax (fun hn => hgood.table_lt hwf he hn) rt rt₂ buf hsize, ?_,
      hl.accounts hwf he hgood rt buf size⟩
    rw [List.length_map, List.length_range]

end

/-- One byte is written to the root of a fresh server. -/
theorem accounted_iff_byte : Enough (Server.init quiet) (newInode quiet FileType.dir.code) (blockCount 1) ∧
    ∀ rt, Accounted (Server.init quiet) 1 (blockCount 1)
    (writeFile rt 1 zero (1 : ℕ) (Server.init quiet)) := by
  have he := enough_init quiet (by decide : blocksFor (blockCount 1) ≤ _)
  constructor
  · exact he
  · apply (accounted_iff (getInode_root quiet) (wellFormed_of_empty rfl) (by decide) he zero).2
    intro hn
    exact absurd hn (by decide)

/-- A file of 100 blocks grows by one. Its table is `blocks[100]`, which was never allocated. -/
theorem table_not_accounted : WellFormed (rowDisk nDirect) fullRow ∧
    getInode (rowDisk nDirect) 1 = some fullRow ∧ Enough (rowDisk nDirect) fullRow 101 ∧
    blockCount (101 * blockSize) = 101 ∧
    ¬∀ rt, Accounted (rowDisk nDirect) 1 101
    (writeFile rt 1 zero (101 * blockSize : ℕ) (rowDisk nDirect)) := by
  have hino : getInode (rowDisk nDirect) 1 = some fullRow := by rw [getInode_rowDisk, if_pos rfl]
  have hwf := (owned_rowDisk le_rfl).wellFormed 1 fullRow hino
  have hcount : blockCount (101 * blockSize) = 101 := by decide
  have hfree := freeBlocks_rowDisk (by decide : nDirect ≤ blockNum - Disk.firstData)
  have he : Enough (rowDisk nDirect) fullRow 101 := by
    rw [Enough, blockCount_fullRow, hfree, List.length_range']
    decide
  refine ⟨hwf, hino, he, hcount, fun h => ?_⟩
  rw [← hcount] at h he
  have hgood := accountsFor_of_accounted hino hwf (by decide) he zero h
  have hmem := (hgood (by decide)).2 blockCount_fullRow
  have hlo := (Disk.mem_freeBlocks.1 (List.mem_of_mem_take hmem)).1
  exact absurd hlo (by decide)

end Yfs.Extent
