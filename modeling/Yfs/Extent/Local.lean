import Yfs.Extent.Stored
import Yfs.Extent.Fresh

/-! Operations on one file: they touch its own blocks and free blocks only, so every other file
keeps its blocks and its content. -/
namespace Yfs.Extent
open Yfs.Lib

def OwnBlock (d : Disk) (i : UInt32) (b : ℕ) : Prop :=
  ∃ ino, getInode d i = some ino ∧ b ∈ blockList d ino

structure Local (d d' : Disk) (i : UInt32) : Prop where
  inode : ∀ j : UInt32, j ≠ i → j.toNat < inodeNum → d' (j.toNat + 3) = d (j.toNat + 3)
  data : ∀ b, Disk.firstData ≤ b → b < blockNum → d.used b = true → ¬OwnBlock d i b →
    d' b = d b ∧ d'.used b = true

section
variable {d d' : Disk} {i : UInt32} {ino : Inode}

theorem inodeBlock_lt (hi : i.toNat < inodeNum) : i.toNat + 3 < Disk.firstData := by
  simp only [inodeNum] at hi
  rw [Disk.firstData_eq]
  omega

theorem Local.refl (d : Disk) (i : UInt32) : Local d d i :=
  ⟨fun _ _ _ => rfl, fun _ _ _ hu _ => ⟨rfl, hu⟩⟩

theorem Owned.not_ownBlock (h : Owned d) {j : UInt32} (hj : j ≠ i) (hino : getInode d j = some ino)
    {b : ℕ} (hb : b ∈ blockList d ino) : ¬OwnBlock d i b := by
  rintro ⟨ino', hino', hb'⟩
  exact h.disjoint j i ino ino' hj hino hino' b hb hb'

theorem Local.spares (hl : Local d d' i) (h : Owned d) : Spares d d' i := by
  have hdata : ∀ j ino, j ≠ i → getInode d j = some ino → ∀ b ∈ blockList d ino,
      d' b = d b ∧ d'.used b = true := by
    intro j ino hj hino b hb
    have hwf := h.wellFormed j ino hino
    exact hl.data b (hwf.data b hb).1 (hwf.data b hb).2 (hwf.marked b hb) (h.not_ownBlock hj hino hb)
  constructor
  · intro j hj
    exact getInode_congr fun hlt k _ => by rw [hl.inode j hj hlt]
  · intro j ino hj hino b hb
    exact SameBlock.of_eq (hdata j ino hj hino b hb).1
  · intro j ino hj hino b hb
    exact (hdata j ino hj hino b hb).2

theorem Local.putInode (hl : Local d d' i) (hi : i.toNat < inodeNum) (rt : Runtime) (ino : Inode) :
    Local d (putInode rt i ino d') i := by
  constructor
  · intro j hj hlt
    have hne : j.toNat + 3 ≠ i.toNat + 3 := fun heq => hj (UInt32.toNat_inj.1 (by omega))
    rw [putInode_of_ne hne, hl.inode j hj hlt]
  · intro b hlo hhi hu hown
    have hne : b ≠ i.toNat + 3 := by
      have := inodeBlock_lt hi
      omega
    rw [putInode_of_ne hne, putInode_used]
    exact hl.data b hlo hhi hu hown

theorem WellFormed.sameBlock_putInode (hwf : WellFormed d ino) (hi : i.toNat < inodeNum) (rt : Runtime)
    (ino' : Inode) : ∀ b ∈ blockList d ino, SameBlock d (putInode rt i ino' d) b := by
  intro b hb
  have hlt := inodeBlock_lt hi
  have hlo := (hwf.data b hb).1
  exact SameBlock.of_eq (putInode_of_ne (by omega))

theorem WellFormed.putInode (hwf : WellFormed d ino) (hi : i.toNat < inodeNum) (rt : Runtime)
    (ino' : Inode) : WellFormed (putInode rt i ino' d) ino ∧
      blockList (putInode rt i ino' d) ino = blockList d ino := by
  have hsame := hwf.sameBlock_putInode hi rt ino'
  refine ⟨hwf.congr hsame fun b hb => ?_, hwf.blockList_congr hsame⟩
  rw [putInode_used]
  exact hwf.marked b hb

/-- A local operation that stores an inode whose list is made of its old blocks and of free ones. -/
theorem Owned.putInode (h : Owned d) (hl : Local d d' i) (hi : i.toNat < inodeNum)
    (hwf : WellFormed d' ino) (hold : ∀ b ∈ blockList d' ino, OwnBlock d i b ∨ d.used b = false)
    (rt : Runtime) : Owned (putInode rt i ino d') := by
  refine h.step ((hl.putInode hi rt ino).spares h) fun ino' hino' => ?_
  rw [getInode_putInode hi, if_pos rfl] at hino'
  split_ifs at hino'
  cases hino'
  obtain ⟨hwf', hlist⟩ := hwf.putInode hi rt ino
  rw [hlist]
  exact ⟨hwf', hold⟩

theorem Local.get_eq (hl : Local d d' i) (h : Owned d) {id : UInt64} (hid : maskId id ≠ i)
    (rt rt' : Runtime) : (Server.get rt id d').1 = (Server.get rt' id d).1 := by
  have hsp := hl.spares h
  cases hino : getInode d (maskId id) with
  | none =>
    have hino' : getInode d' (maskId id) = none := by rw [hsp.inode _ hid, hino]
    simp only [Server.get, readFile, hino, hino']
  | some ino =>
    have hwf := h.wellFormed _ _ hino
    have hino' : getInode d' (maskId id) = some ino := by rw [hsp.inode _ hid, hino]
    have hsame := hsp.same _ ino hid hino
    have hwf' := hwf.congr hsame (hsp.marked _ ino hid hino)
    rw [Server.get_eq rt hino' hwf.size_lt, Server.get_eq rt' hino hwf.size_lt, hwf'.content_eq,
      hwf.content_eq, hwf.fileBytes_congr hsame]

end
end Yfs.Extent
