import Yfs.Extent.Layout
import Mathlib.Logic.Relation

/-! `alloc_block` when the data region is full. The scan goes on to the end of the bitmap block, far
behind the end of the disk. -/
namespace Yfs.Extent
open Yfs.Lib

namespace Disk
variable {d : Disk}

def nextBit (d : Disk) : Option ℕ := (List.range' firstData (bpb - firstData)).find? fun b => !d.used b

theorem allocBlock_eq (d : Disk) : d.allocBlock =
    match d.nextBit with
    | some b => (UInt32.ofNat b, d.writeBlock 2 ((d 2).setBit b))
    | none => (0, d) := by
  have hlist : List.range' (bblock firstData) (bblock blockNum + 1 - bblock firstData) = [2] := rfl
  have hstart : firstData % bpb = firstData := rfl
  rw [allocBlock, hlist, hstart, allocScan, nextBit]
  simp only [used]
  cases (List.range' firstData (bpb - firstData)).find? fun i => !(d 2).bit i with
  | none => rfl
  | some b => simp

theorem nextBit_eq_none : d.nextBit = none ↔ ∀ b, firstData ≤ b → b < bpb → d.used b = true := by
  rw [nextBit, List.find?_eq_none]
  simp only [List.mem_range'_1, Nat.add_sub_cancel' (by decide : firstData ≤ bpb), Bool.not_eq_true',
    Bool.not_eq_false]
  exact ⟨fun h b hlo hhi => h b ⟨hlo, hhi⟩, fun h b hb => h b hb.1 hb.2⟩

theorem nextBit_eq_some {b : ℕ} (h : d.nextBit = some b) :
    firstData ≤ b ∧ b < bpb ∧ d.used b = false ∧ ∀ c, firstData ≤ c → c < b → d.used c = true := by
  obtain ⟨hfree, hmem, hbefore⟩ := List.find?_range'_eq_some.1 h
  rw [List.mem_range'_1, Nat.add_sub_cancel' (by decide : firstData ≤ bpb)] at hmem
  refine ⟨hmem.1, hmem.2, by simpa using hfree, fun c hlo hlt => ?_⟩
  simpa using hbefore c hlo hlt

/-- The id that is returned lies on the disk, or it is 0 because the data region is full. -/
structure AllocOnDisk (d : Disk) : Prop where
  data : d.allocBlock.1 = 0 ∨
    iblock inodeNum blockNum < d.allocBlock.1.toNat ∧ d.allocBlock.1.toNat < blockNum
  full : d.allocBlock.1 = 0 ↔ ∀ b, iblock inodeNum blockNum < b → b < blockNum → d.used b = true
  same : d.allocBlock.1 = 0 → d.allocBlock.2 = d

theorem toNat_allocBlock {b : ℕ} (h : d.nextBit = some b) : d.allocBlock.1.toNat = b := by
  have hlt := (nextBit_eq_some h).2.1
  rw [allocBlock_eq, h]
  exact UInt32.toNat_ofNat_of_lt (hlt.trans (by decide))

theorem allocBlock_ne_zero {b : ℕ} (h : d.nextBit = some b) : d.allocBlock.1 ≠ 0 := by
  intro hzero
  have hnat := toNat_allocBlock h
  have hlo := (nextBit_eq_some h).1
  rw [hzero, UInt32.toNat_zero] at hnat
  rw [firstData_eq] at hlo
  omega

/-- `alloc_block` stays on the disk exactly while a data block is free, and again when every bit of
the bitmap block behind the inode table is marked. -/
theorem allocOnDisk_iff (d : Disk) : AllocOnDisk d ↔
    (∃ b, iblock inodeNum blockNum < b ∧ b < blockNum ∧ d.used b = false) ∨
      ∀ b, iblock inodeNum blockNum < b → b < bpb → d.used b = true := by
  have hfirst : ∀ b, iblock inodeNum blockNum < b ↔ firstData ≤ b := fun b => Iff.rfl
  have hnum : blockNum < bpb := by decide
  simp only [hfirst]
  cases hnext : d.nextBit with
  | none =>
    have hall := nextBit_eq_none.1 hnext
    have hzero : d.allocBlock = (0, d) := by rw [allocBlock_eq, hnext]
    refine iff_of_true ⟨.inl (by rw [hzero]), ?_, fun _ => by rw [hzero]⟩ (.inr hall)
    exact iff_of_true (by rw [hzero]) fun b hlo hhi => hall b hlo (hhi.trans hnum)
  | some b =>
    obtain ⟨hlo, hhi, hfree, hbefore⟩ := nextBit_eq_some hnext
    have hne := allocBlock_ne_zero hnext
    have hnat := toNat_allocBlock hnext
    constructor
    · intro h
      obtain ⟨-, hlt⟩ := h.data.resolve_left hne
      exact .inl ⟨b, hlo, hnat ▸ hlt, hfree⟩
    · rintro (⟨c, hclo, hchi, hcfree⟩ | hall)
      · have hle : b ≤ c := by
          by_contra hlt
          rw [hbefore c hclo (Nat.not_le.1 hlt)] at hcfree
          cases hcfree
        refine ⟨.inr ⟨by rw [hnat]; exact hlo, by rw [hnat]; omega⟩, ?_, fun hzero => absurd hzero hne⟩
        refine iff_of_false hne fun hall => ?_
        rw [hall c hclo hchi] at hcfree
        cases hcfree
      · rw [hall b hlo hhi] at hfree
        cases hfree

/-- A step of the bitmap: `alloc_block`, or `free_block` of any id. -/
def BitmapStep (d d' : Disk) : Prop := d' = d.allocBlock.2 ∨ ∃ id, d' = d.freeBlock id

private theorem reach_mark_take (d : Disk) {k : ℕ} (hk : k ≤ d.freeBlocks.length) :
    Relation.ReflTransGen BitmapStep d (d.mark (d.freeBlocks.take k)) := by
  induction k with
  | zero => exact .refl
  | succ k ih => exact (ih (by omega)).tail (.inl (by rw [allocBlock_mark_take (by omega)]))

/-- After 1020 allocations `alloc_block` returns the id of a block that is not on the disk. -/
theorem alloc_off_disk : ∃ d, Relation.ReflTransGen BitmapStep new d ∧ d.allocBlock.1 = 2048 ∧
    ¬AllocOnDisk d := by
  have hused : ∀ b < bpb, (new.mark new.freeBlocks).used b = decide (b ∈ new.freeBlocks) := by
    intro b hb
    rw [used_mark hb, used_new, Bool.false_or]
  have hmem : ∀ b, b ∈ new.freeBlocks ↔ firstData ≤ b ∧ b < blockNum := by
    intro b
    rw [freeBlocks_of_unused used_new, List.mem_range'_1,
      Nat.add_sub_cancel' (by decide : firstData ≤ blockNum)]
  have hnext : (new.mark new.freeBlocks).nextBit = some 2048 := by
    refine List.find?_range'_eq_some.2 ⟨?_, ?_, fun b hlo hlt => ?_⟩
    · rw [hused _ (by decide), Bool.not_eq_true', decide_eq_false_iff_not, hmem]
      exact fun h => absurd h.2 (by decide)
    · rw [List.mem_range'_1]
      exact ⟨by decide, by decide⟩
    · rw [hused b (hlt.trans (by decide)), Bool.not_not, decide_eq_true_iff, hmem]
      exact ⟨hlo, hlt⟩
  have hid : (new.mark new.freeBlocks).allocBlock.1 = 2048 := by rw [allocBlock_eq, hnext]; rfl
  refine ⟨new.mark new.freeBlocks, ?_, hid, fun h => ?_⟩
  · have hreach := reach_mark_take new le_rfl
    rwa [List.take_length] at hreach
  · rcases h.data with hzero | hlt
    · rw [hid] at hzero
      exact absurd hzero (by decide)
    · rw [hid] at hlt
      exact absurd hlt.2 (by decide)

end Disk
end Yfs.Extent
