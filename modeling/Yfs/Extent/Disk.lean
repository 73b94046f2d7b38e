import Yfs.Lib.Bytes
import Mathlib.Data.List.Nodup

/-! The `disk` and `block_manager` classes: an array of blocks, a bitmap of used blocks in
block 2 and first-fit allocation in the data region. -/
namespace Yfs.Extent
open Yfs.Lib

def diskSize : ℕ := 1024 * 1024 * 32

def blockSize : ℕ := 1024 * 16

def blockNum : ℕ := diskSize / blockSize

def inodeNum : ℕ := 1024

def ipb : ℕ := 1

def bpb : ℕ := blockSize * 8

def iblock (i nblocks : ℕ) : ℕ := nblocks / bpb + i / ipb + 3

def bblock (b : ℕ) : ℕ := b / bpb + 2

theorem blockSize_eq : blockSize = 16384 := rfl

theorem blockNum_eq : blockNum = 2048 := rfl

theorem bpb_eq : bpb = 131072 := rfl

theorem iblock_eq (i : ℕ) : iblock i blockNum = i + 3 := by
  simp [iblock, blockNum_eq, bpb_eq, ipb]

theorem bblock_eq {b : ℕ} (h : b < bpb) : bblock b = 2 := by
  simp [bblock, Nat.div_eq_of_lt h]

/-- `blocks[id][i]`; the array has `blockNum` rows of `blockSize` bytes. -/
abbrev Disk := ℕ → Buf

namespace Disk

def new : Disk := fun _ _ => 0

/-- `read_block(id, buf + off)`. -/
def readBlock (d : Disk) (id : ℕ) (buf : Buf) (off : ℕ) : Buf :=
  if blockNum ≤ id then buf else buf.copy off blockSize (d id)

def writeBlock (d : Disk) (id : ℕ) (buf : Buf) : Disk :=
  if blockNum ≤ id then d else Function.update d id ((d id).copy 0 blockSize buf)

theorem writeBlock_apply (d : Disk) (id : ℕ) (buf : Buf) (b i : ℕ) :
    d.writeBlock id buf b i =
      if b = id ∧ id < blockNum ∧ i < blockSize then buf i else d b i := by
  by_cases hid : blockNum ≤ id
  · simp [writeBlock, hid, Nat.not_lt.2 hid]
  · rw [writeBlock, if_neg hid]
    rw [Nat.not_le] at hid
    by_cases hb : b = id
    · subst hb
      simp [Buf.copy, hid]
    · simp [hb]

theorem writeBlock_of_ne {d : Disk} {id b : ℕ} {buf : Buf} (h : b ≠ id) :
    d.writeBlock id buf b = d b := by
  funext i
  simp [writeBlock_apply, h]

theorem readBlock_of_le {d : Disk} {id : ℕ} (h : blockNum ≤ id) (buf : Buf) (off : ℕ) :
    d.readBlock id buf off = buf := if_pos h

theorem readBlock_of_lt {d : Disk} {id : ℕ} (h : id < blockNum) (buf : Buf) (off : ℕ) :
    d.readBlock id buf off = buf.copy off blockSize (d id) := if_neg (Nat.not_le.2 h)

theorem readBlock_apply (d : Disk) (id : ℕ) (buf : Buf) (off i : ℕ) :
    d.readBlock id buf off i =
      if id < blockNum ∧ off ≤ i ∧ i < off + blockSize then d id (i - off) else buf i := by
  by_cases h : id < blockNum
  · simp [readBlock_of_lt h, Buf.copy, h]
  · simp [readBlock_of_le (Nat.not_lt.1 h), h]

def firstData : ℕ := iblock inodeNum blockNum + 1

theorem firstData_eq : firstData = 1028 := rfl

/-- The bitmap blocks `l` one after the other, the first of them from bit `start` on. -/
def allocScan (d : Disk) : List ℕ → ℕ → UInt32 × Disk
  | [], _ => (0, d)
  | b :: l, start =>
    match (List.range' start (bpb - start)).find? (fun i => !(d b).bit i) with
    | some i => (UInt32.ofNat ((b - 2) * bpb + i), d.writeBlock b ((d b).setBit i))
    | none => allocScan d l 0

def allocBlock (d : Disk) : UInt32 × Disk :=
  d.allocScan (List.range' (bblock firstData) (bblock blockNum + 1 - bblock firstData))
    (firstData % bpb)

/-- The bit is in the block that holds it, wherever that is on the disk. -/
def freeBlock (d : Disk) (id : UInt32) : Disk :=
  d.writeBlock (bblock id.toNat) ((d (bblock id.toNat)).clearBit (id.toNat % bpb))

def used (d : Disk) (b : ℕ) : Bool := (d 2).bit b

/-- The free blocks of the data region in the order in which they are allocated. -/
def freeBlocks (d : Disk) : List ℕ :=
  (List.range' firstData (blockNum - firstData)).filter fun b => !d.used b

theorem used_new (b : ℕ) : new.used b = false := Nat.zero_testBit _

theorem freeBlocks_of_unused {d : Disk} (h : ∀ b, d.used b = false) :
    d.freeBlocks = List.range' firstData (blockNum - firstData) := by
  rw [freeBlocks, List.filter_eq_self]
  intro b _
  rw [h, Bool.not_false]

theorem used_writeBlock {d : Disk} {b c : ℕ} {buf : Buf} (hc : c < bpb) :
    (d.writeBlock b buf).used c = if b = 2 then buf.bit c else d.used c := by
  have hlt : c / 8 < blockSize := by
    rw [blockSize_eq]
    rw [bpb_eq] at hc
    omega
  split_ifs with h
  · subst h
    simp [used, Buf.bit, writeBlock_apply, blockNum_eq, hlt]
  · rw [used, writeBlock_of_ne (Ne.symm h), used]

theorem allocBlock_of_cons {d : Disk} {b : ℕ} {l : List ℕ} (h : d.freeBlocks = b :: l) :
    d.allocBlock = (UInt32.ofNat b, d.writeBlock 2 ((d 2).setBit b)) := by
  have hfind : (List.range' firstData (bpb - firstData)).find? (fun i => !(d 2).bit i) = some b := by
    have hsplit : List.range' firstData (bpb - firstData) =
        List.range' firstData (blockNum - firstData) ++ List.range' blockNum (bpb - blockNum) := by
      have happ := @List.range'_append_1 firstData (blockNum - firstData) (bpb - blockNum)
      rw [Nat.add_sub_cancel' (by decide : firstData ≤ blockNum)] at happ
      exact happ.symm
    rw [hsplit, List.find?_append, ← List.head?_filter]
    have hhead : ((List.range' firstData (blockNum - firstData)).filter fun i => !(d 2).bit i) =
        b :: l := h
    rw [hhead]
    rfl
  have hlist : List.range' (bblock firstData) (bblock blockNum + 1 - bblock firstData) = [2] := rfl
  have hstart : firstData % bpb = firstData := rfl
  rw [allocBlock, hlist, hstart, allocScan, hfind]
  simp

theorem mem_freeBlocks {d : Disk} {b : ℕ} :
    b ∈ d.freeBlocks ↔ firstData ≤ b ∧ b < blockNum ∧ d.used b = false := by
  simp only [freeBlocks, List.mem_filter, List.mem_range'_1, Bool.not_eq_true']
  rw [Nat.add_sub_cancel' (by decide : firstData ≤ blockNum), and_assoc]

theorem nodup_freeBlocks (d : Disk) : d.freeBlocks.Nodup :=
  List.Pairwise.filter _ List.nodup_range'

theorem freeBlocks_setBit {d : Disk} {b : ℕ} {l : List ℕ} (h : d.freeBlocks = b :: l) :
    (d.writeBlock 2 ((d 2).setBit b)).freeBlocks = l := by
  have hfilter : (d.writeBlock 2 ((d 2).setBit b)).freeBlocks = d.freeBlocks.filter (fun c => c ≠ b) := by
    rw [freeBlocks, freeBlocks, List.filter_filter]
    refine List.filter_congr fun c hc => ?_
    rw [List.mem_range'_1] at hc
    have hlt : c < bpb := by
      have : firstData + (blockNum - firstData) ≤ bpb := by decide
      omega
    rw [used_writeBlock hlt, if_pos rfl, Buf.bit_setBit]
    simp [used, Bool.and_comm]
  have hnd := d.nodup_freeBlocks
  rw [h, List.nodup_cons] at hnd
  rw [hfilter, h, List.filter_cons_of_neg (by simp)]
  refine List.filter_eq_self.2 fun c hc => ?_
  have hcb : c ≠ b := fun hcb => hnd.1 (hcb ▸ hc)
  simpa using hcb

end Disk
end Yfs.Extent
