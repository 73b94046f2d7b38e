import Yfs.Extent.Exhaust
import Yfs.Lib.FirstFit
import Mathlib.Order.Interval.Finset.Nat

/-! The bitmap as a finite set of block ids: `alloc_block` takes the smallest id that is not in it,
`free_block` takes an id out. -/
namespace Yfs.Extent
open Yfs.Lib FirstFit

/-- The ids that `alloc_block` scans. -/
def dataIds : Finset ℕ := Finset.Ioo (iblock inodeNum blockNum) (bpb * (bblock blockNum - 1))

inductive BlockOp
  | alloc
  | free (id : UInt32)

namespace BlockOp

def step (d : Disk) : BlockOp → UInt32 × Disk
  | .alloc => d.allocBlock
  | .free id => (0, d.freeBlock id)

def Valid : BlockOp → Prop
  | .alloc => True
  | .free id => id.toNat ∈ dataIds

def toSet : BlockOp → SetOp ℕ
  | .alloc => .alloc
  | .free id => .free id.toNat

end BlockOp

def handedOut (id : UInt32) : Option ℕ := if id = 0 then none else some id.toNat

theorem mem_dataIds {b : ℕ} : b ∈ dataIds ↔ Disk.firstData ≤ b ∧ b < bpb := Finset.mem_Ioo

namespace Disk
variable {d : Disk} {b i : ℕ}

def blockSet (d : Disk) : Finset ℕ := dataIds.filter fun b => (d (bblock b)).bit (b % bpb)

def after (d : Disk) (ops : List BlockOp) : Disk := (runOps BlockOp.step d ops).2

theorem mem_blockSet : b ∈ d.blockSet ↔ b ∈ dataIds ∧ d.used b = true := by
  rw [blockSet, Finset.mem_filter]
  refine and_congr_right fun hb => ?_
  have hlt := (mem_dataIds.1 hb).2
  rw [bblock_eq hlt, Nat.mod_eq_of_lt hlt, used]

theorem bit_writeBlock {buf : Buf} {c : ℕ} : (d.writeBlock c buf b).bit i =
    if b = c ∧ c < blockNum ∧ i < bpb then buf.bit i else (d b).bit i := by
  have hbyte : i / 8 < blockSize ↔ i < bpb := by
    rw [blockSize_eq, bpb_eq]
    omega
  split_ifs with h
  · apply Buf.bit_congr
    rw [writeBlock_apply, if_pos ⟨h.1, h.2.1, hbyte.2 h.2.2⟩]
  · apply Buf.bit_congr
    rw [writeBlock_apply, if_neg fun h' => h ⟨h'.1, h'.2.1, hbyte.1 h'.2.2⟩]

def OtherBit (b i : ℕ) : Prop := ∀ c ∈ dataIds, b = bblock c → i ≠ c % bpb

theorem least_blockSet (d : Disk) : least dataIds d.blockSet = d.nextBit := by
  refine least_eq_scan (fun b => mem_dataIds) fun b hb => ?_
  simp [mem_blockSet, hb]

private theorem blockSet_setBit (hb : b ∈ dataIds) :
    (d.writeBlock 2 ((d 2).setBit b)).blockSet = insert b d.blockSet := by
  ext c
  rw [Finset.mem_insert, mem_blockSet, mem_blockSet]
  by_cases hc : c ∈ dataIds
  · rw [used_writeBlock (mem_dataIds.1 hc).2, if_pos rfl, Buf.bit_setBit, ← used]
    simp [hc, or_comm]
  · have hne : c ≠ b := fun h => hc (h ▸ hb)
    simp [hc, hne]

theorem blockSet_freeBlock {id : UInt32} (hid : id.toNat ∈ dataIds) :
    (d.freeBlock id).blockSet = d.blockSet.erase id.toNat := by
  have hlt := (mem_dataIds.1 hid).2
  ext c
  rw [Finset.mem_erase, mem_blockSet, mem_blockSet]
  by_cases hc : c ∈ dataIds
  · rw [freeBlock, bblock_eq hlt, Nat.mod_eq_of_lt hlt, used_writeBlock (mem_dataIds.1 hc).2, if_pos rfl,
      Buf.bit_clearBit, ← used]
    simp [hc, and_comm]
  · simp [hc]

theorem setStep_blockSet (d : Disk) {op : BlockOp} (hop : op.Valid) :
    setStep dataIds d.blockSet op.toSet =
      (handedOut (op.step d).1, (op.step d).2.blockSet) := by
  cases op with
  | alloc =>
    have hleast := least_blockSet d
    cases hnext : d.nextBit with
    | none =>
      have halloc : d.allocBlock = (0, d) := by rw [allocBlock_eq, hnext]
      rw [hnext] at hleast
      simp only [BlockOp.step, BlockOp.toSet, halloc, setStep_alloc_of_none hleast, handedOut,
        if_pos]
    | some b =>
      obtain ⟨hlo, hhi, -⟩ := nextBit_eq_some hnext
      have hset : d.allocBlock.2.blockSet = insert b d.blockSet := by
        rw [allocBlock_eq, hnext]
        exact blockSet_setBit (mem_dataIds.2 ⟨hlo, hhi⟩)
      rw [hnext] at hleast
      rw [BlockOp.step, BlockOp.toSet, setStep_alloc_of_some hleast, hset, handedOut,
        if_neg (allocBlock_ne_zero hnext), toNat_allocBlock hnext]
  | free id =>
    rw [BlockOp.step, BlockOp.toSet, blockSet_freeBlock hop]
    rfl

theorem bit_step {op : BlockOp} (hop : op.Valid) (hi : OtherBit b i) :
    ((op.step d).2 b).bit i = (d b).bit i := by
  cases op with
  | alloc =>
    rw [BlockOp.step, allocBlock_eq]
    cases hnext : d.nextBit with
    | none => rfl
    | some c =>
      obtain ⟨hlo, hhi, -⟩ := nextBit_eq_some hnext
      have hne := hi c (mem_dataIds.2 ⟨hlo, hhi⟩)
      rw [bblock_eq hhi, Nat.mod_eq_of_lt hhi] at hne
      rw [bit_writeBlock]
      split_ifs with h
      · rw [Buf.bit_setBit, decide_eq_false (hne h.1), Bool.or_false, h.1]
      · rfl
  | free id =>
    rw [BlockOp.step, freeBlock, bit_writeBlock]
    split_ifs with h
    · rw [Buf.bit_clearBit, decide_eq_false (hi _ hop h.1), Bool.not_false, Bool.and_true, h.1]
    · rfl

variable {ops : List BlockOp}

theorem bit_after (hops : ∀ op ∈ ops, op.Valid) (hi : OtherBit b i) :
    (d.after ops b).bit i = (d b).bit i := by
  refine runOps_invariant (P := fun d' : Disk => (d' b).bit i = (d b).bit i) (fun d' op hop h => ?_) rfl
  rw [bit_step (hops op hop) hi, h]

theorem after_of_ne (hops : ∀ op ∈ ops, op.Valid) (hb : ∀ c ∈ dataIds, b ≠ bblock c) :
    d.after ops b = d b := by
  funext k
  exact Buf.eq_of_bit fun i _ => bit_after hops fun c hc h => absurd h (hb c hc)

theorem runOps_blockSet (d : Disk) (hops : ∀ op ∈ ops, op.Valid) :
    runOps (setStep dataIds) d.blockSet (ops.map BlockOp.toSet) =
      ((runOps BlockOp.step d ops).1.map handedOut, (d.after ops).blockSet) :=
  runOps_refines (fun d' op hop => setStep_blockSet d' (hops op hop)) d

theorem mem_blockSet_after {id : UInt32} (hops : ∀ op ∈ ops, op.Valid) (hfree : .free id ∉ ops)
    (hid : id.toNat ∈ d.blockSet) : id.toNat ∈ (d.after ops).blockSet := by
  have hnot : .free id.toNat ∉ ops.map BlockOp.toSet := by
    intro hmem
    obtain ⟨op, hop, heq⟩ := List.mem_map.1 hmem
    cases op with
    | alloc => cases heq
    | free id' =>
      rw [BlockOp.toSet, SetOp.free.injEq, UInt32.toNat_inj] at heq
      exact hfree (heq ▸ hop)
  have hmem : id.toNat ∈ (runOps (setStep dataIds) d.blockSet (ops.map BlockOp.toSet)).2 :=
    mem_runOps_setStep hnot hid
  rwa [runOps_blockSet d hops] at hmem

/-- What the bitmap owes its callers, as a set. -/
structure ActsAsSet (d : Disk) : Prop where
  alloc : IsLeast (↑(dataIds \ d.blockSet) : Set ℕ) d.allocBlock.1.toNat ∧
      d.allocBlock.2.blockSet = insert d.allocBlock.1.toNat d.blockSet ∨
    d.blockSet = dataIds ∧ d.allocBlock = (0, d)
  free : ∀ id : UInt32, id.toNat ∈ dataIds → (d.freeBlock id).blockSet = d.blockSet.erase id.toNat
  /-- An id is not handed out again unless it has been freed since. -/
  once : ∀ ops : List BlockOp, (∀ op ∈ ops, op.Valid) → d.allocBlock.1 ≠ 0 →
    (d.allocBlock.2.after ops).allocBlock.1 = d.allocBlock.1 → .free d.allocBlock.1 ∈ ops

private theorem allocBlock_cases (d : Disk) : IsLeast (↑(dataIds \ d.blockSet) : Set ℕ) d.allocBlock.1.toNat ∧
      d.allocBlock.2.blockSet = insert d.allocBlock.1.toNat d.blockSet ∨
    d.blockSet = dataIds ∧ d.allocBlock = (0, d) := by
  have hleast := least_blockSet d
  have hstep := setStep_blockSet d (show BlockOp.alloc.Valid from trivial)
  cases hnext : d.nextBit with
  | none =>
    rw [hnext, least_eq_none] at hleast
    right
    exact ⟨(Finset.filter_subset _ _).antisymm hleast, by rw [allocBlock_eq, hnext]⟩
  | some b =>
    rw [hnext] at hleast
    left
    rw [toNat_allocBlock hnext]
    refine ⟨least_eq_some.1 hleast, ?_⟩
    rw [BlockOp.toSet, setStep_alloc_of_some hleast] at hstep
    exact (congrArg Prod.snd hstep).symm

private theorem actsAsSet (d : Disk) : d.ActsAsSet := by
  refine ⟨d.allocBlock_cases, fun id hid => blockSet_freeBlock hid, fun ops hops hne heq => ?_⟩
  by_contra hfree
  rcases d.allocBlock_cases with ⟨-, hset⟩ | ⟨-, hzero⟩
  · have htaken : d.allocBlock.1.toNat ∈ d.allocBlock.2.blockSet := by
      rw [hset]
      exact Finset.mem_insert_self _ _
    have hstill := mem_blockSet_after hops hfree htaken
    rcases (d.allocBlock.2.after ops).allocBlock_cases with ⟨hleast, -⟩ | ⟨-, hzero⟩
    · rw [heq] at hleast
      exact (Finset.mem_sdiff.1 hleast.1).2 hstill
    · rw [hzero] at heq
      exact hne heq.symm
  · exact hne (by rw [hzero])

/-- Every list of calls acts on the bitmap as on a finite set of ids, whatever the bitmap was, and
leaves every other bit of the disk alone. -/
theorem bitmap_refines_set (d : Disk) (ops : List BlockOp) (hops : ∀ op ∈ ops, op.Valid) :
    runOps (setStep dataIds) d.blockSet (ops.map BlockOp.toSet) =
        ((runOps BlockOp.step d ops).1.map handedOut, (d.after ops).blockSet) ∧
      (d.after ops).ActsAsSet ∧
      (∀ b, (∀ c ∈ dataIds, b ≠ bblock c) → d.after ops b = d b) ∧
      ∀ b i, OtherBit b i → (d.after ops b).bit i = (d b).bit i :=
  ⟨runOps_blockSet d hops, actsAsSet _, fun _ hb => after_of_ne hops hb, fun _ _ hi => bit_after hops hi⟩

/-- A block taken on an empty disk and freed again. -/
theorem bitmap_refines_set_new : (∀ op ∈ [.alloc, .free 1028], BlockOp.Valid op) ∧
    runOps (setStep dataIds) new.blockSet [.alloc, .free 1028] =
      ((runOps BlockOp.step new [.alloc, .free 1028]).1.map handedOut,
        (new.after [.alloc, .free 1028]).blockSet) ∧
    (new.after [.alloc, .free 1028]).ActsAsSet := by
  have hops : ∀ op ∈ [.alloc, .free 1028], BlockOp.Valid op := by
    intro op hop
    rw [List.mem_pair] at hop
    rcases hop with rfl | rfl
    · trivial
    · exact mem_dataIds.2 ⟨by decide, by decide⟩
  obtain ⟨hrun, hacts, -⟩ := bitmap_refines_set new _ hops
  exact ⟨hops, hrun, hacts⟩

end Disk
end Yfs.Extent
