import Yfs.Extent.Layout

/-! `write_file` as one operation: its blocks are laid out, the data is written and the inode is
stored. -/
namespace Yfs.Extent
open Yfs.Lib

section
variable {d : Disk} {ino : Inode} {need : ℕ}

theorem shrunk_direct (hn : blockCount ino.size.toNat ≤ nDirect) :
    Shrunk d ino need ((List.range' need (blockCount ino.size.toNat - need)).map ino.block) := by
  intro c
  simp only [List.map_map, List.mem_map, List.mem_range'_1, Function.comp_apply]
  constructor
  · rintro ⟨j, ⟨hle, hlt⟩, rfl⟩
    exact .inl ⟨j, by omega, hle, (blockId_of_lt (by omega)).symm⟩
  · rintro (⟨j, hj, hle, rfl⟩ | ⟨-, hgt, -⟩)
    · exact ⟨j, by omega, (blockId_of_lt (by omega)).symm⟩
    · omega

theorem mem_tableIds (hwf : WellFormed d ino) (ho : nDirect < blockCount ino.size.toNat) (table : Buf)
    {lo c : ℕ} :
    c ∈ ((List.range' lo (blockCount ino.size.toNat - nDirect - lo)).map fun i =>
        (d.readBlock (ino.block nDirect).toNat table 0).word (4 * i)).map UInt32.toNat ↔
      ∃ j < blockCount ino.size.toNat, nDirect + lo ≤ j ∧ c = blockId d ino j := by
  have hentry : ∀ k, nDirect + k < blockCount ino.size.toNat →
      ((d.readBlock (ino.block nDirect).toNat table 0).word (4 * k)).toNat =
        blockId d ino (nDirect + k) := by
    intro k hk
    rw [entry_of_old hwf table hk, newBlock_of_lt hk]
  simp only [List.map_map, List.mem_map, List.mem_range'_1, Function.comp_apply]
  constructor
  · rintro ⟨k, ⟨hle, hlt⟩, rfl⟩
    exact ⟨nDirect + k, by omega, by omega, hentry k (by omega)⟩
  · rintro ⟨j, hj, hle, rfl⟩
    refine ⟨j - nDirect, by omega, ?_⟩
    rw [hentry _ (by omega), Nat.add_sub_cancel' (by omega)]

theorem shrunk_table (hwf : WellFormed d ino) (hn : nDirect < need)
    (ho : nDirect < blockCount ino.size.toNat) (table : Buf) :
    Shrunk d ino need ((List.range' (need - nDirect)
      (blockCount ino.size.toNat - nDirect - (need - nDirect))).map fun i =>
        (d.readBlock (ino.block nDirect).toNat table 0).word (4 * i)) := by
  intro c
  rw [mem_tableIds hwf ho table, Nat.add_sub_cancel' hn.le]
  exact ⟨.inl, fun h => h.resolve_right fun h' => by omega⟩

theorem shrunk_all (hwf : WellFormed d ino) (hn : need ≤ nDirect)
    (ho : nDirect < blockCount ino.size.toNat) (table : Buf) :
    Shrunk d ino need (((List.range' 0 (blockCount ino.size.toNat - nDirect - 0)).map fun i =>
        (d.readBlock (ino.block nDirect).toNat table 0).word (4 * i)) ++
      (List.range' need (nDirect + 1 - need)).map ino.block) := by
  intro c
  rw [List.map_append, List.mem_append, mem_tableIds hwf ho table]
  simp only [List.map_map, List.mem_map, List.mem_range'_1, Function.comp_apply]
  constructor
  · rintro (⟨j, hj, hle, rfl⟩ | ⟨j, ⟨hle, hlt⟩, rfl⟩)
    · exact .inl ⟨j, hj, by omega, rfl⟩
    · rcases Nat.lt_or_ge j nDirect with hd | hge
      · exact .inl ⟨j, by omega, hle, (blockId_of_lt hd).symm⟩
      · have hj : j = nDirect := by omega
        exact .inr ⟨hn, ho, by rw [hj]⟩
  · rintro (⟨j, hj, hle, rfl⟩ | ⟨-, -, rfl⟩)
    · rcases Nat.lt_or_ge j nDirect with hd | hge
      · exact .inr ⟨j, by omega, (blockId_of_lt hd).symm⟩
      · exact .inl ⟨j, hj, by omega, rfl⟩
    · exact .inr ⟨nDirect, by omega, rfl⟩

/-- The disk of a file that has given back its blocks behind `need`, in each of the three ways in
which `write_file` does it. -/
theorem laid_freeDirect (hwf : WellFormed d ino) (ho : need ≤ blockCount ino.size.toNat)
    (hn : blockCount ino.size.toNat ≤ nDirect) (table : Buf) :
    Laid d ino need ino table (freeDirect ino need (blockCount ino.size.toNat) d) := by
  rw [freeDirect_eq]
  exact laid_shrinkDirect hwf ho (ho.trans hn) (shrunk_direct hn) table

private theorem laid_freeAll (hwf : WellFormed d ino) (hn : need ≤ nDirect)
    (ho : nDirect < blockCount ino.size.toNat) (table table' : Buf) :
    Laid d ino need ino table' (freeDirect ino need (nDirect + 1)
      (freeTable (d.readBlock (ino.block nDirect).toNat table 0) 0
        (blockCount ino.size.toNat - nDirect) d)) := by
  rw [freeDirect_eq, freeTable_eq, Disk.unmark, Disk.unmark, ← List.foldl_append]
  exact laid_shrinkDirect hwf (by omega) hn (shrunk_all hwf hn ho table) table'

private theorem laid_freeTable (hwf : WellFormed d ino) (hn : nDirect < need)
    (ho : need ≤ blockCount ino.size.toNat) (table : Buf) :
    Laid d ino need ino (d.readBlock (ino.block nDirect).toNat table 0)
      (freeTable (d.readBlock (ino.block nDirect).toNat table 0) (need - nDirect)
        (blockCount ino.size.toNat - nDirect) d) := by
  rw [freeTable_eq]
  exact laid_shrinkTable hwf ho hn (shrunk_table hwf hn (hn.trans_le ho) table) table

/-- All cases of `write_file`, for a file with its blocks in order and enough free blocks. -/
theorem writeFile_eq (rt : Runtime) {inum : UInt32} (buf : Buf) {size : ℤ}
    (hino : getInode d inum = some ino) (hwf : WellFormed d ino) (hneed : needBlocks size = need)
    (hmax : need ≤ maxFile) (he : Enough d ino need) :
    ∃ ino' table d', Laid d ino need ino' table d' ∧
      writeFile rt inum buf size d =
        putInode rt inum (ino'.written rt size) (writeData rt buf ino' table need d') := by
  simp only [writeFile, writeData, hino, hneed, if_neg (Nat.not_lt.2 hmax)]
  by_cases hn : need ≤ nDirect
  · simp only [if_pos hn]
    by_cases hlt : blockCount ino.size.toNat < need
    · rw [if_pos hlt]
      exact ⟨_, zero, _, laid_growDirect hwf he hlt hn zero, rfl⟩
    · rw [if_neg hlt]
      by_cases heq : blockCount ino.size.toNat = need
      · rw [if_pos heq]
        have hl := laid_freeDirect hwf heq.ge (heq ▸ hn) zero
        rw [freeDirect, forRange_of_le heq.le] at hl
        exact ⟨ino, zero, d, hl, rfl⟩
      · rw [if_neg heq]
        by_cases hle : blockCount ino.size.toNat ≤ nDirect
        · rw [if_pos hle]
          exact ⟨ino, zero, _, laid_freeDirect hwf (Nat.not_lt.1 hlt) hle zero, rfl⟩
        · rw [if_neg hle]
          exact ⟨ino, zero, _, laid_freeAll hwf hn (Nat.not_le.1 hle) rt.table zero, rfl⟩
  · simp only [if_neg hn]
    rw [Nat.not_le] at hn
    by_cases hdir : blockCount ino.size.toNat < nDirect
    · rw [if_pos hdir]
      obtain ⟨ino₁, d₁, table, d₂, hd, ht, hl⟩ := laid_newTable hwf he hdir hn rt.table
      simp only [hd, ht]
      exact ⟨_, table, d₂, hl, rfl⟩
    · rw [if_neg hdir]
      by_cases hlt : blockCount ino.size.toNat < need
      · obtain ⟨table, d₁, ht, hl⟩ := laid_growTable hwf he (Nat.not_lt.1 hdir) hlt rt.table
        simp only [if_pos hlt, ht]
        exact ⟨ino, table, d₁, hl, rfl⟩
      · simp only [if_neg hlt]
        have hl := laid_freeTable hwf hn (Nat.not_lt.1 hlt) rt.table
        by_cases heq : need = blockCount ino.size.toNat
        · rw [if_pos heq]
          rw [freeTable, forRange_of_le (by omega)] at hl
          exact ⟨ino, _, d, hl, rfl⟩
        · rw [if_neg heq]
          exact ⟨ino, _, _, hl, rfl⟩

theorem writeFile_of_lt (rt : Runtime) {inum : UInt32} (buf : Buf) {size : ℤ}
    (hino : getInode d inum = some ino) (hmax : maxFile < needBlocks size) :
    writeFile rt inum buf size d = d := by
  unfold writeFile
  rw [hino]
  exact if_pos hmax

end
end Yfs.Extent
