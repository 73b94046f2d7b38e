import Yfs.Extent.Local

/-! `write_file` as an operation on one file. -/
namespace Yfs.Extent
open Yfs.Lib

/-- A `put` that neither reads a table that is not there nor leaves the inode's array. -/
def Tame (ino : Inode) (need : ℕ) : Prop :=
  nDirect < need → blockCount ino.size.toNat ≠ nDirect ∧ need ≤ 2 * nDirect + 1

section
variable {d d' : Disk} {i : UInt32} {ino ino' : Inode} {table : Buf} {need : ℕ}

theorem newTable_lt (hwf : WellFormed d ino) (he : Enough d ino need) (hn : nDirect < need)
    (ho : blockCount ino.size.toNat ≠ nDirect) :
    Disk.firstData ≤ newTable d ino ∧ newTable d ino < blockNum := by
  rcases newTable_mem he hn ho with ⟨-, hm⟩ | ⟨-, hm⟩
  · exact hwf.data _ (List.mem_append_right _ hm)
  · exact ⟨(Disk.mem_freeBlocks.1 hm).1, (Disk.mem_freeBlocks.1 hm).2.1⟩

def NewList (d : Disk) (ino : Inode) (need b : ℕ) : Prop :=
  (∃ j < need, b = newBlock d ino j) ∨ (nDirect < need ∧ b = newTable d ino)

theorem NewList.old_or_free (hino : getInode d i = some ino) (he : Enough d ino need)
    (ht : Tame ino need) {b : ℕ} (h : NewList d ino need b) : OwnBlock d i b ∨ d.used b = false := by
  rcases h with ⟨j, hj, rfl⟩ | ⟨hn, rfl⟩
  · rcases newBlock_mem he hj with ⟨-, hm⟩ | ⟨-, hm⟩
    · exact .inl ⟨ino, hino, List.mem_append_left _ hm⟩
    · exact .inr (Disk.mem_freeBlocks.1 hm).2.2
  · rcases newTable_mem he hn (ht hn).1 with ⟨-, hm⟩ | ⟨-, hm⟩
    · exact .inl ⟨ino, hino, List.mem_append_right _ hm⟩
    · exact .inr (Disk.mem_freeBlocks.1 hm).2.2

theorem NewList.lt (hwf : WellFormed d ino) (he : Enough d ino need) (ht : Tame ino need) {b : ℕ}
    (h : NewList d ino need b) : Disk.firstData ≤ b ∧ b < blockNum := by
  rcases h with ⟨j, hj, rfl⟩ | ⟨hn, rfl⟩
  · exact newBlock_lt hwf he hj
  · exact newTable_lt hwf he hn (ht hn).1

theorem Laid.writeData_of_not (hl : Laid d ino need ino' table d') (ht : Tame ino need) (rt : Runtime)
    (buf : Buf) {x : ℕ} (hx : ¬NewList d ino need x) : writeData rt buf ino' table need d' x = d' x := by
  have hdata : ∀ j < need, x ≠ newBlock d ino j := fun j hj heq => hx (.inl ⟨j, hj, heq⟩)
  unfold writeData
  split_ifs with hn
  · exact hl.writeDirect_of_ne buf hn le_rfl hdata
  · rw [Nat.not_le] at hn
    exact hl.writeLarge_frame hn (ht hn).2 rt buf hdata fun heq => hx (.inr ⟨hn, heq⟩)

/-- The bitmap is not written if no table lies on it and no block behind the inode's array is cleared. -/
theorem Laid.used_writeData_of (hl : Laid d ino need ino' table d') (hwf : WellFormed d ino)
    (he : Enough d ino need) (h : nDirect < need → need ≤ 2 * nDirect + 1 ∧ newTable d ino ≠ 2) (rt : Runtime)
    (buf : Buf) (c : ℕ) : (writeData rt buf ino' table need d').used c = d'.used c := by
  have hdata : ∀ j < need, 2 ≠ newBlock d ino j := by
    intro j hj heq
    have hlo := (newBlock_lt hwf he hj).1
    rw [Disk.firstData_eq] at hlo
    omega
  have hsame : writeData rt buf ino' table need d' 2 = d' 2 := by
    unfold writeData
    split_ifs with hn
    · exact hl.writeDirect_of_ne buf hn le_rfl hdata
    · rw [Nat.not_le] at hn
      exact hl.writeLarge_frame hn (h hn).1 rt buf hdata (h hn).2.symm
  rw [Disk.used, hsame, Disk.used]

theorem Laid.used_writeData (hl : Laid d ino need ino' table d') (hwf : WellFormed d ino)
    (he : Enough d ino need) (ht : Tame ino need) (rt : Runtime) (buf : Buf) (c : ℕ) :
    (writeData rt buf ino' table need d').used c = d'.used c := by
  apply hl.used_writeData_of hwf he
  intro hn
  have hlo := (newTable_lt hwf he hn (ht hn).1).1
  rw [Disk.firstData_eq] at hlo
  exact ⟨(ht hn).2, by omega⟩

theorem Laid.isLocal (hl : Laid d ino need ino' table d') (hino : getInode d i = some ino)
    (hwf : WellFormed d ino) (he : Enough d ino need) (ht : Tame ino need) (rt : Runtime) (buf : Buf) :
    Local d (writeData rt buf ino' table need d') i := by
  constructor
  · intro j _ hj
    have hlt := inodeBlock_lt hj
    have hnot : ¬NewList d ino need (j.toNat + 3) := fun h => by
      have := (h.lt hwf he ht).1
      omega
    rw [hl.writeData_of_not ht rt buf hnot, hl.same _ (by omega)]
  · intro b hlo hhi hu hown
    have hnot : ¬NewList d ino need b := by
      intro h
      rcases h.old_or_free hino he ht with hb | hb
      · exact hown hb
      · rw [hu] at hb
        cases hb
    have hne : b ≠ 2 := by
      rw [Disk.firstData_eq] at hlo
      omega
    have hbpb : b < bpb := hhi.trans (by decide)
    rw [hl.writeData_of_not ht rt buf hnot, hl.same b hne, hl.used_writeData hwf he ht]
    exact ⟨rfl, (hl.used b hbpb).2 (.inr (.inr ⟨hu, fun hb => hown ⟨ino, hino, hb⟩⟩))⟩

theorem Laid.blockList_written (hl : Laid d ino need ino' table d') (hwf : WellFormed d ino)
    (he : Enough d ino need) (ht : Tame ino need) (hmax : need ≤ maxFile) (rt : Runtime) (buf : Buf)
    {size : ℤ} (hsize : blockCount (ino'.written rt size).size.toNat = need) :
    blockList (writeData rt buf ino' table need d') (ino'.written rt size) =
      (List.range need).map (newBlock d ino) ++ if nDirect < need then [newTable d ino] else [] := by
  have htable : nDirect < need → newTable d ino < blockNum := fun hn =>
    (newTable_lt hwf he hn (ht hn).1).2
  rw [blockList, dataBlocks, tableBlocks, hsize]
  refine congrArg₂ _ (List.map_congr_left fun j hj => ?_) ?_
  · exact hl.blockId_writeData hmax htable rt buf size (List.mem_range.1 hj)
  · split_ifs with hn
    · rw [Inode.block_written, hl.slot hn]
    · rfl

theorem Laid.wellFormed_written (hl : Laid d ino need ino' table d') (hwf : WellFormed d ino)
    (he : Enough d ino need) (ht : Tame ino need) (hmax : need ≤ maxFile) (rt : Runtime) (buf : Buf)
    {size : ℤ} (hsize : blockCount (ino'.written rt size).size.toNat = need) :
    WellFormed (writeData rt buf ino' table need d') (ino'.written rt size) ∧
      ∀ b ∈ blockList (writeData rt buf ino' table need d') (ino'.written rt size),
        NewList d ino need b := by
  have hlist := hl.blockList_written hwf he ht hmax rt buf hsize
  have hmem : ∀ b ∈ blockList (writeData rt buf ino' table need d') (ino'.written rt size),
      NewList d ino need b := by
    intro b hb
    rw [hlist, List.mem_append, List.mem_map] at hb
    rcases hb with ⟨j, hj, rfl⟩ | hb
    · exact .inl ⟨j, List.mem_range.1 hj, rfl⟩
    · split_ifs at hb with hn
      · exact .inr ⟨hn, List.mem_singleton.1 hb⟩
      · cases hb
  refine ⟨⟨?_, fun b hb => (hmem b hb).lt hwf he ht, fun b hb => ?_⟩, hmem⟩
  · rw [hlist, List.nodup_append]
    refine ⟨List.nodup_range.map_on fun j hj k hk heq =>
      newBlock_inj hwf he (List.mem_range.1 hj) (List.mem_range.1 hk) heq, ?_, ?_⟩
    · split_ifs
      · exact List.nodup_singleton _
      · exact List.nodup_nil
    · intro x hx y hy heq
      obtain ⟨j, hj, rfl⟩ := List.mem_map.1 hx
      split_ifs at hy with hn
      · rw [List.mem_singleton.1 hy] at heq
        exact newBlock_ne_newTable hwf he hn (ht hn).1 (List.mem_range.1 hj) heq
      · cases hy
  · have hnew := hmem b hb
    have hbpb : b < bpb := (hnew.lt hwf he ht).2.trans (by decide)
    rw [hl.used_writeData hwf he ht]
    rcases hnew with hj | ⟨hn, heq⟩
    · exact (hl.used b hbpb).2 (.inl hj)
    · exact (hl.used b hbpb).2 (.inr (.inl ⟨hn, (ht hn).1, heq⟩))

end
end Yfs.Extent
