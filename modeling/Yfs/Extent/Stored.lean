import Yfs.Extent.Put

/-! The blocks of the disk after the data of a file is written. -/
namespace Yfs.Extent
open Yfs.Lib

theorem Inode.block_written (ino : Inode) (rt : Runtime) (size : ℤ) (k : ℕ) :
    (ino.written rt size).block k = ino.block k := rfl

theorem Inode.type_written (ino : Inode) (rt : Runtime) (size : ℤ) :
    (ino.written rt size).type = ino.type := by
  rw [written]

section
variable {d d' : Disk} {ino ino' : Inode} {table : Buf} {need : ℕ} {inum : UInt32}

theorem Laid.writeDirect_apply (hl : Laid d ino need ino' table d') (hwf : WellFormed d ino)
    (he : Enough d ino need) (buf : Buf) {n j i : ℕ} (hn : n ≤ nDirect) (hle : n ≤ need) (hj : j < n)
    (hi : i < blockSize) :
    writeDirect buf ino' n d' (newBlock d ino j) i = buf (j * blockSize + i) := by
  have hblock : ∀ k < n, (ino'.block k).toNat = newBlock d ino k := fun k hk =>
    hl.direct k (hk.trans_le hle) (hk.trans_le hn)
  rw [writeDirect_eq, writeLoop_second hj (hblock j hj).symm _ _ hi]
  · rfl
  · intro k hjk hk
    have hne : newBlock d ino j ≠ (ino'.block k).toNat := by
      rw [hblock k hk]
      exact fun h => hjk.ne (newBlock_inj hwf he (hj.trans_le hle) (hk.trans_le hle) h)
    exact ⟨hne, hne⟩
  · exact (newBlock_lt hwf he (hj.trans_le hle)).2

theorem Laid.writeDirect_of_ne (hl : Laid d ino need ino' table d') (buf : Buf) {n x : ℕ}
    (hn : n ≤ nDirect) (hle : n ≤ need) (hx : ∀ j < n, x ≠ newBlock d ino j) :
    writeDirect buf ino' n d' x = d' x := by
  rw [writeDirect_eq, writeLoop_of_ne]
  intro k hk
  rw [hl.direct k (hk.trans_le hle) (hk.trans_le hn)]
  exact ⟨hx k hk, hx k hk⟩

theorem Laid.peek_eq (hl : Laid d ino need ino' table d') (hn : nDirect < need) (rt : Runtime) {k : ℕ}
    (hk : k ≤ nDirect) :
    (ino'.peek rt k).toNat = if k < nDirect then newBlock d ino k else newTable d ino := by
  rw [Inode.peek, if_pos hk]
  split_ifs with hlt
  · exact hl.direct k (by omega) hlt
  · rw [Nat.le_antisymm hk (Nat.not_lt.1 hlt), hl.slot hn]

/-- Block `j` may be cleared after it was written: a direct block when the indirect block of the
same index is written, any block but the last when the index leaves the inode. -/
def Cleared (need j : ℕ) : Prop :=
  (j < nDirect ∧ nDirect + j < need) ∨ (2 * nDirect + 1 < need ∧ j + 1 < need)

theorem Laid.writeLarge_table (hl : Laid d ino need ino' table d') (hn : nDirect < need)
    (rt : Runtime) (buf : Buf) {i : ℕ} (ht : newTable d ino < blockNum) (hi : i < blockSize) :
    writeLarge rt buf ino' table need d' (newTable d ino) i = table i := by
  rw [writeLarge, hl.slot hn, Disk.writeBlock_apply, if_pos ⟨rfl, ht, hi⟩]

theorem Laid.writeLarge_of_ne (hl : Laid d ino need ino' table d') (hn : nDirect < need)
    (rt : Runtime) (buf : Buf) {x : ℕ} (ht : x ≠ newTable d ino) :
    writeLarge rt buf ino' table need d' x =
      writeIndirect rt buf ino' table (need - nDirect) (writeDirect buf ino' nDirect d') x := by
  rw [writeLarge, hl.slot hn, Disk.writeBlock_of_ne ht]

/-- A block of a large file holds its data unless it may have been cleared. -/
theorem Laid.writeLarge_apply (hl : Laid d ino need ino' table d') (hwf : WellFormed d ino)
    (he : Enough d ino need) (hn : nDirect < need) (rt : Runtime) (buf : Buf) {j i : ℕ} (hj : j < need)
    (ht : newBlock d ino j ≠ newTable d ino) (hi : i < blockSize)
    (hzero : Cleared need j → buf (j * blockSize + i) = 0) :
    writeLarge rt buf ino' table need d' (newBlock d ino j) i = buf (j * blockSize + i) := by
  have hlt := (newBlock_lt hwf he hj).2
  rw [hl.writeLarge_of_ne hn rt buf ht, writeIndirect_eq]
  -- from its own write on, the block is only touched by turns that clear it
  have hclear : ∀ k, j - nDirect ≤ k → (j < nDirect ∨ j - nDirect < k) → k < need - nDirect →
      newBlock d ino j = (ino'.peek rt k).toNat → zero i = buf (j * blockSize + i) := by
    intro k hle hlate hk heq
    refine (hzero ?_).symm
    rcases Nat.lt_or_ge nDirect k with hgt | hkd
    · exact .inr ⟨by omega, by omega⟩
    · rw [hl.peek_eq hn rt hkd] at heq
      split_ifs at heq with hkn
      · have hkj := newBlock_inj hwf he hj (by omega) heq
        exact .inl ⟨by omega, by omega⟩
      · exact absurd heq ht
  have hwrite : ∀ k, k < need - nDirect → newBlock d ino j = (table.word (4 * k)).toNat →
      buf.shift ((nDirect + k) * blockSize) i = buf (j * blockSize + i) := by
    intro k hk heq
    rw [hl.entry k (by omega)] at heq
    rw [newBlock_inj hwf he hj (by omega) heq, Buf.shift]
  rcases Nat.lt_or_ge j nDirect with hd | hge
  · refine writeLoop_induction (P := (· = buf (j * blockSize + i))) (k := 0) (Nat.zero_le _) ?_
      (fun k _ hk heq => hclear k (by omega) (.inl hd) hk heq) fun k _ hk heq => hwrite k hk heq
    rw [writeLoop_zero]
    exact hl.writeDirect_apply hwf he buf le_rfl hn.le hd hi
  · have hentry : newBlock d ino j = (table.word (4 * (j - nDirect))).toNat := by
      rw [hl.entry _ (by omega), Nat.add_sub_cancel' hge]
    refine writeLoop_induction (P := (· = buf (j * blockSize + i))) (k := j - nDirect + 1) (by omega)
      ?_ (fun k hle hk heq => hclear k (by omega) (.inr (by omega)) hk heq)
      fun k _ hk heq => hwrite k hk heq
    rw [writeLoop_second (Nat.lt_succ_self _) hentry (fun _ h₁ h₂ => by omega) hlt hi]
    exact hwrite _ (by omega) hentry

/-- In a file that does not leave the inode's array, the first direct blocks end up cleared. -/
theorem Laid.writeLarge_cleared (hl : Laid d ino need ino' table d') (hwf : WellFormed d ino)
    (he : Enough d ino need) (hn : nDirect < need) (hmax : need ≤ 2 * nDirect + 1) (rt : Runtime)
    (buf : Buf) {j i : ℕ} (hj : j < nDirect) (hneed : nDirect + j < need)
    (ht : newBlock d ino j ≠ newTable d ino) (hi : i < blockSize) :
    writeLarge rt buf ino' table need d' (newBlock d ino j) i = 0 := by
  have hentry : ∀ k < need - nDirect, newBlock d ino j ≠ (table.word (4 * k)).toNat := by
    intro k hk heq
    rw [hl.entry k (by omega)] at heq
    have := newBlock_inj hwf he (by omega) (by omega) heq
    omega
  have hpeek : newBlock d ino j = (ino'.peek rt j).toNat := by
    rw [hl.peek_eq hn rt hj.le, if_pos hj]
  rw [hl.writeLarge_of_ne hn rt buf ht, writeIndirect_eq,
    writeLoop_first (by omega : j < need - nDirect) hpeek (hentry j (by omega)) _
      (newBlock_lt hwf he (by omega)).2 hi]
  · rfl
  · intro k hjk hk
    refine ⟨fun heq => ?_, hentry k hk⟩
    rw [hl.peek_eq hn rt (by omega)] at heq
    split_ifs at heq with hkn
    · exact hjk.ne (newBlock_inj hwf he (by omega) (by omega) heq)
    · exact ht heq

/-- In a larger file any block but the last is lost if the memory behind the inode holds its id. -/
theorem Laid.writeLarge_beyond (hl : Laid d ino need ino' table d') (hwf : WellFormed d ino)
    (he : Enough d ino need) (hmax : 2 * nDirect + 1 < need) (rt : Runtime) (buf : Buf) {j i : ℕ}
    (hj : j + 1 < need) (ht : newBlock d ino j ≠ newTable d ino)
    (hrt : (rt.beyond (need - nDirect - 1)).toNat = newBlock d ino j) (hi : i < blockSize) :
    writeLarge rt buf ino' table need d' (newBlock d ino j) i = 0 := by
  have hentry : newBlock d ino j ≠ (table.word (4 * (need - nDirect - 1))).toNat := by
    intro heq
    rw [hl.entry _ (by omega)] at heq
    have := newBlock_inj hwf he (by omega) (by omega) heq
    omega
  have hpeek : newBlock d ino j = (ino'.peek rt (need - nDirect - 1)).toNat := by
    rw [Inode.peek, if_neg (by omega), hrt]
  rw [hl.writeLarge_of_ne (by omega) rt buf ht, writeIndirect_eq,
    writeLoop_first (by omega : need - nDirect - 1 < need - nDirect) hpeek hentry
      (fun k h₁ h₂ => by omega) (newBlock_lt hwf he (by omega)).2 hi]
  rfl

/-- A file that does not leave the inode's array changes no block but its own. -/
theorem Laid.writeLarge_frame (hl : Laid d ino need ino' table d') (hn : nDirect < need)
    (hmax : need ≤ 2 * nDirect + 1) (rt : Runtime) (buf : Buf) {x : ℕ}
    (hx : ∀ j < need, x ≠ newBlock d ino j) (ht : x ≠ newTable d ino) :
    writeLarge rt buf ino' table need d' x = d' x := by
  rw [hl.writeLarge_of_ne hn rt buf ht, writeIndirect_eq, writeLoop_of_ne,
    hl.writeDirect_of_ne buf le_rfl hn.le fun j hj => hx j (by omega)]
  intro k hk
  rw [hl.entry k (by omega), hl.peek_eq hn rt (by omega)]
  refine ⟨?_, hx _ (by omega)⟩
  split_ifs with hkn
  · exact hx k (by omega)
  · exact ht

theorem Laid.blockId_writeData (hl : Laid d ino need ino' table d') (hmax : need ≤ maxFile)
    (ht : nDirect < need → newTable d ino < blockNum) (rt : Runtime) (buf : Buf) (size : ℤ) {j : ℕ}
    (hj : j < need) :
    blockId (writeData rt buf ino' table need d') (ino'.written rt size) j = newBlock d ino j := by
  rcases Nat.lt_or_ge j nDirect with hd | hge
  · rw [blockId_of_lt hd, Inode.block_written, hl.direct j hj hd]
  · obtain ⟨k, rfl⟩ := Nat.exists_eq_add_of_le hge
    have hn : nDirect < need := by omega
    have hin : 4 * k + 4 ≤ blockSize := by
      rw [maxFile_eq] at hmax
      rw [blockSize_eq]
      simp only [nDirect] at hj
      omega
    rw [blockId_add, Inode.block_written, hl.slot hn, ← hl.entry k hj]
    congr 1
    refine Buf.word_congr fun r hr => ?_
    rw [writeData, if_neg (Nat.not_le.2 hn), hl.writeLarge_table hn rt buf (ht hn) (by omega)]

theorem Laid.getInode_put (hl : Laid d ino need ino' table d') (hino : getInode d inum = some ino)
    (rt : Runtime) (size : ℤ) (d'' : Disk) :
    getInode (putInode rt inum (ino'.written rt size) d'') inum = some (ino'.written rt size) := by
  have htype : (ino'.written rt size).type ≠ 0 := by
    change ino'.type ≠ 0
    rw [hl.type]
    exact getInode_type hino
  rw [getInode_putInode (getInode_lt hino), if_pos rfl, if_neg htype]

end
end Yfs.Extent
