import Yfs.Extent.BitmapSet
import Yfs.Extent.RoundTrip

/-! The inode table as a partial map from inode numbers to inodes: `get_inode` looks up,
`alloc_inode` binds the smallest number that is not live, `free_inode` and `put_inode` change the
number they are given. -/
namespace Yfs.Extent
open Yfs.Lib FirstFit

def inodeIds : Finset ℕ := Finset.Ico 1 inodeNum

inductive InodeOp
  | alloc (rt : Runtime) (type : UInt32)
  | free (rt : Runtime) (inum : UInt32)
  | put (rt : Runtime) (inum : UInt32) (ino : Inode)

namespace InodeOp

def step (d : Disk) : InodeOp → UInt32 × Disk
  | .alloc rt type => allocInode rt type d
  | .free rt inum => (0, freeInode rt inum d)
  | .put rt inum ino => (0, putInode rt inum ino d)

def Valid : InodeOp → Prop
  | .alloc _ type => 1 ≤ type.toNat ∧ type.toNat ≤ 3
  | .free _ _ => True
  | .put _ inum ino => inum.toNat ∈ inodeIds ∧ ino.type ≠ 0

def toTable : InodeOp → TableOp ℕ Inode
  | .alloc rt type => .alloc ⟨type.toUInt16, 0, rt.now, rt.now, rt.now, rt.fresh⟩
  | .free _ inum => .free inum.toNat
  | .put _ inum ino => .put inum.toNat ino

end InodeOp

theorem mem_inodeIds {i : ℕ} : i ∈ inodeIds ↔ 1 ≤ i ∧ i < inodeNum := Finset.mem_Ico

theorem toNat_ofNat_inum {i : ℕ} (hi : i < inodeNum) : (UInt32.ofNat i).toNat = i :=
  UInt32.toNat_ofNat_of_lt (hi.trans (by decide))

namespace Disk
variable {d : Disk} {rt : Runtime} {inum : UInt32} {b i : ℕ}

def inodes (d : Disk) (i : ℕ) : Option Inode :=
  if i < inodeNum then getInode d (UInt32.ofNat i) else none

def afterInodes (d : Disk) (ops : List InodeOp) : Disk := (runOps InodeOp.step d ops).2

theorem inodes_toNat (d : Disk) (inum : UInt32) : d.inodes inum.toNat = getInode d inum := by
  rw [inodes, UInt32.ofNat_toNat]
  split_ifs with h
  · rfl
  · rw [getInode, if_pos (Nat.not_lt.1 h)]

structure SetsInode (d d' : Disk) (inum : UInt32) (x : Option Inode) : Prop where
  get : ∀ j, getInode d' j = if j = inum then x else getInode d j
  same : ∀ b, b ≠ iblock inum.toNat blockNum → d' b = d b

theorem setsInode_putInode (d : Disk) (rt : Runtime) (hi : inum.toNat < inodeNum) (ino : Inode) :
    SetsInode d (putInode rt inum ino d) inum (if ino.type = 0 then none else some ino) := by
  refine ⟨getInode_putInode hi ino d, fun b hb => ?_⟩
  rw [iblock_eq] at hb
  exact putInode_of_ne hb

theorem setsInode_freeInode (d : Disk) (rt : Runtime) (inum : UInt32) :
    SetsInode d (freeInode rt inum d) inum none := by
  unfold freeInode
  cases hget : getInode d inum with
  | some ino => exact setsInode_putInode d rt (getInode_lt hget) _
  | none =>
    refine ⟨fun j => ?_, fun b _ => rfl⟩
    split_ifs with hj
    · rw [hj, hget]
    · rfl

theorem SetsInode.inodes_eq {d' : Disk} {x : Option Inode} (h : SetsInode d d' inum x) :
    d'.inodes = Function.update d.inodes inum.toNat x := by
  funext j
  by_cases hj : j < inodeNum
  · have hkey : UInt32.ofNat j = inum ↔ j = inum.toNat := by
      rw [← UInt32.toNat_inj, toNat_ofNat_inum hj]
    rw [Function.update_apply, inodes, inodes, if_pos hj, if_pos hj, h.get]
    simp only [hkey]
  · rw [Function.update_apply, inodes, if_neg hj]
    split_ifs with hkey
    · -- there is no inode behind the table, so `x` is none
      have hself := h.get inum
      rw [if_pos rfl, ← inodes_toNat, ← hkey, inodes, if_neg hj] at hself
      exact hself
    · rw [inodes, if_neg hj]

theorem mem_free_iff : i ∈ inodeIds \ bound inodeIds d.inodes ↔
    1 ≤ i ∧ i < inodeNum ∧ getInode d (UInt32.ofNat i) = none := by
  rw [Finset.mem_sdiff, ← and_assoc, ← mem_inodeIds]
  refine and_congr_right fun hi => ?_
  simp [mem_bound, inodes, hi, (mem_inodeIds.1 hi).2]

theorem least_inodes (d : Disk) : least inodeIds (bound inodeIds d.inodes) = nextInode d := by
  refine least_eq_scan (fun i => mem_inodeIds) fun i hi => ?_
  simp [mem_bound, inodes, hi, (mem_inodeIds.1 hi).2]

theorem isLeast_of_nextInode (h : nextInode d = some i) :
    IsLeast {i | 1 ≤ i ∧ i < inodeNum ∧ getInode d (UInt32.ofNat i) = none} i := by
  rw [← least_inodes, least_eq_some] at h
  exact ⟨mem_free_iff.1 h.1, fun j hj => h.2 (mem_free_iff.2 hj)⟩

theorem live_of_nextInode (h : nextInode d = none) (hlo : 1 ≤ i) (hhi : i < inodeNum) :
    getInode d (UInt32.ofNat i) ≠ none := by
  intro hnone
  rw [← least_inodes, least_eq_none] at h
  obtain ⟨hin, hfree⟩ := Finset.mem_sdiff.1 (mem_free_iff.2 ⟨hlo, hhi, hnone⟩)
  exact hfree (h hin)

theorem allocInode_of_none (rt : Runtime) (type : UInt32) (h : nextInode d = none) :
    allocInode rt type d = (0, d) := by
  rw [allocInode, h]

theorem toNat_allocInode (rt : Runtime) (type : UInt32) (h : nextInode d = some i) :
    (allocInode rt type d).1.toNat = i := by
  rw [allocInode, h]
  exact toNat_ofNat_inum (isLeast_of_nextInode h).1.2.1

theorem toNat_type {type : UInt32} (h : type.toNat ≤ 3) : type.toUInt16.toNat = type.toNat := by
  rw [UInt32.toNat_toUInt16]
  omega

theorem setsInode_allocInode (rt : Runtime) {type : UInt32} (hlo : 1 ≤ type.toNat) (hhi : type.toNat ≤ 3)
    (h : nextInode d = some i) : SetsInode d (allocInode rt type d).2 (allocInode rt type d).1
      (some ⟨type.toUInt16, 0, rt.now, rt.now, rt.now, rt.fresh⟩) := by
  have htype : type.toUInt16 ≠ 0 := by
    intro hzero
    have hnat := toNat_type hhi
    rw [hzero, UInt16.toNat_zero] at hnat
    omega
  have hlt : (UInt32.ofNat i).toNat < inodeNum := by
    have hi := (isLeast_of_nextInode h).1.2.1
    rwa [toNat_ofNat_inum hi]
  have hput := setsInode_putInode d rt hlt ⟨type.toUInt16, 0, rt.now, rt.now, rt.now, rt.fresh⟩
  rw [if_neg htype] at hput
  rw [allocInode, h]
  exact hput

theorem tableStep_inodes (d : Disk) {op : InodeOp} (hop : op.Valid) :
    tableStep inodeIds d.inodes op.toTable =
      (handedOut (op.step d).1, (op.step d).2.inodes) := by
  cases op with
  | alloc rt type =>
    have hleast := least_inodes d
    cases hnext : nextInode d with
    | none =>
      rw [hnext] at hleast
      rw [InodeOp.toTable, InodeOp.step, allocInode_of_none rt type hnext, tableStep, hleast]
      rfl
    | some i =>
      have hnat := toNat_allocInode rt type hnext
      have hne : (allocInode rt type d).1 ≠ 0 := by
        intro hzero
        have hlo := (isLeast_of_nextInode hnext).1.1
        rw [hzero, UInt32.toNat_zero] at hnat
        omega
      rw [hnext] at hleast
      rw [InodeOp.toTable, InodeOp.step, (setsInode_allocInode rt hop.1 hop.2 hnext).inodes_eq, handedOut,
        if_neg hne, hnat, tableStep, hleast]
  | free rt inum =>
    rw [InodeOp.toTable, InodeOp.step, (setsInode_freeInode d rt inum).inodes_eq]
    rfl
  | put rt inum ino =>
    have hput := setsInode_putInode d rt (mem_inodeIds.1 hop.1).2 ino
    rw [if_neg hop.2] at hput
    rw [InodeOp.toTable, InodeOp.step, hput.inodes_eq]
    rfl

theorem step_of_ne {op : InodeOp} (hop : op.Valid) (hb : ∀ i < inodeNum, b ≠ iblock i blockNum) :
    (op.step d).2 b = d b := by
  cases op with
  | alloc rt type =>
    rw [InodeOp.step]
    cases hnext : nextInode d with
    | none => rw [allocInode_of_none rt type hnext]
    | some i =>
      apply (setsInode_allocInode rt hop.1 hop.2 hnext).same
      rw [toNat_allocInode rt type hnext]
      exact hb i (isLeast_of_nextInode hnext).1.2.1
  | free rt inum =>
    rw [InodeOp.step, freeInode]
    cases hget : getInode d inum with
    | none => rfl
    | some ino => exact (setsInode_putInode d rt (getInode_lt hget) _).same b (hb _ (getInode_lt hget))
  | put rt inum ino =>
    have hlt := (mem_inodeIds.1 hop.1).2
    exact (setsInode_putInode d rt hlt ino).same b (hb _ hlt)

variable {ops : List InodeOp}

theorem afterInodes_of_ne (hops : ∀ op ∈ ops, op.Valid)
    (hb : ∀ i < inodeNum, b ≠ iblock i blockNum) : d.afterInodes ops b = d b := by
  refine runOps_invariant (P := fun d' : Disk => d' b = d b) (fun d' op hop h => ?_) rfl
  rw [step_of_ne (hops op hop) hb, h]

theorem runOps_inodes (d : Disk) (hops : ∀ op ∈ ops, op.Valid) :
    runOps (tableStep inodeIds) d.inodes (ops.map InodeOp.toTable) =
      ((runOps InodeOp.step d ops).1.map handedOut, (d.afterInodes ops).inodes) :=
  runOps_refines (fun d' op hop => tableStep_inodes d' (hops op hop)) d

/-- What the inode table owes its callers, as a map. -/
structure ActsAsMap (d : Disk) : Prop where
  alloc : ∀ (rt : Runtime) (type : UInt32), 1 ≤ type.toNat → type.toNat ≤ 3 →
    (IsLeast {i | 1 ≤ i ∧ i < inodeNum ∧ getInode d (UInt32.ofNat i) = none}
        (allocInode rt type d).1.toNat ∧
      ∃ ino : Inode, ino.type.toNat = type.toNat ∧ ino.size = 0 ∧
        SetsInode d (allocInode rt type d).2 (allocInode rt type d).1 (some ino)) ∨
    (∀ i, 1 ≤ i → i < inodeNum → getInode d (UInt32.ofNat i) ≠ none) ∧
      allocInode rt type d = (0, d)
  free : ∀ (rt : Runtime) (inum : UInt32), SetsInode d (freeInode rt inum d) inum none
  put : ∀ (rt : Runtime) (inum : UInt32) (ino : Inode), 1 ≤ inum.toNat → inum.toNat < inodeNum →
    ino.type ≠ 0 → SetsInode d (putInode rt inum ino d) inum (some ino)

private theorem actsAsMap (d : Disk) : d.ActsAsMap := by
  refine ⟨fun rt type hlo hhi => ?_, setsInode_freeInode d, fun rt inum ino _ hi hne => ?_⟩
  · cases hnext : nextInode d with
    | none =>
      right
      exact ⟨fun i => live_of_nextInode hnext, allocInode_of_none rt type hnext⟩
    | some i =>
      left
      rw [toNat_allocInode rt type hnext]
      exact ⟨isLeast_of_nextInode hnext, _, toNat_type hhi, rfl, setsInode_allocInode rt hlo hhi hnext⟩
  · have hput := setsInode_putInode d rt hi ino
    rwa [if_neg hne] at hput

/-- Every list of calls acts on the inode table as on a partial map, whatever the disk was, and
leaves every block outside the table alone, the bitmap and the data blocks among them. -/
theorem inode_table_refines_map (d : Disk) (ops : List InodeOp) (hops : ∀ op ∈ ops, op.Valid) :
    runOps (tableStep inodeIds) d.inodes (ops.map InodeOp.toTable) =
        ((runOps InodeOp.step d ops).1.map handedOut, (d.afterInodes ops).inodes) ∧
      (∀ inum, getInode (d.afterInodes ops) inum =
        (runOps (tableStep inodeIds) d.inodes (ops.map InodeOp.toTable)).2 inum.toNat) ∧
      (d.afterInodes ops).ActsAsMap ∧
      (∀ b, (∀ i < inodeNum, b ≠ iblock i blockNum) → d.afterInodes ops b = d b) ∧
      ∀ b ∈ dataIds, d.afterInodes ops (bblock b) = d (bblock b) ∧ d.afterInodes ops b = d b := by
  have hrun := runOps_inodes d hops
  refine ⟨hrun, fun inum => ?_, actsAsMap _, fun b hb => afterInodes_of_ne hops hb, fun b hb => ?_⟩
  · rw [hrun, ← inodes_toNat]
  · obtain ⟨hlo, hhi⟩ := mem_dataIds.1 hb
    rw [firstData_eq] at hlo
    constructor
    · apply afterInodes_of_ne hops
      intro i _
      rw [bblock_eq hhi, iblock_eq]
      omega
    · apply afterInodes_of_ne hops
      intro i hi
      rw [iblock_eq]
      simp only [inodeNum] at hi
      omega

/-- A directory is made, inode 5 is written and freed again. -/
theorem inode_table_refines_map_new :
    (∀ op ∈ [.alloc quiet 1, .put quiet 5 ⟨2, 0, 0, 0, 0, fun _ => 0⟩, .free quiet 5],
      InodeOp.Valid op) ∧
    (new.afterInodes [.alloc quiet 1, .put quiet 5 ⟨2, 0, 0, 0, 0, fun _ => 0⟩,
      .free quiet 5]).ActsAsMap ∧
    new.afterInodes [.alloc quiet 1, .put quiet 5 ⟨2, 0, 0, 0, 0, fun _ => 0⟩, .free quiet 5] 2 =
      new 2 := by
  have hops : ∀ op ∈ [.alloc quiet 1, .put quiet 5 ⟨2, 0, 0, 0, 0, fun _ => 0⟩, .free quiet 5],
      InodeOp.Valid op := by
    intro op hop
    simp only [List.mem_cons, List.not_mem_nil, or_false] at hop
    rcases hop with rfl | rfl | rfl
    · exact ⟨by decide, by decide⟩
    · exact ⟨mem_inodeIds.2 ⟨by decide, by decide⟩, fun h => by cases h⟩
    · trivial
  obtain ⟨-, -, hacts, hsame, -⟩ := inode_table_refines_map new _ hops
  refine ⟨hops, hacts, hsame 2 fun i _ => ?_⟩
  rw [iblock_eq]
  omega

end Disk
end Yfs.Extent
