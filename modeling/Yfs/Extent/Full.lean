import Yfs.Extent.RoundTrip

/-! A `put` that does not find enough free blocks. `write_file` does not look at what `alloc_block`
returns, so it stores the new size in any case. -/
namespace Yfs.Extent
open Yfs.Lib

/-- No file shows a change, neither in its size nor in its content. -/
def Unchanged (d d' : Disk) : Prop :=
  ∀ j, (Server.getattr j d').size = (Server.getattr j d).size ∧
    ∀ rt, (Server.get rt j d').1 = (Server.get rt j d).1

section
variable {d : Disk} {i : UInt32} {ino : Inode}

/-- Whatever `write_file` finds on the disk, it ends with storing the inode with the new size. -/
theorem writeFile_stores (rt : Runtime) (buf : Buf) {size : ℤ} (hino : getInode d i = some ino)
    (hmax : needBlocks size ≤ maxFile) : ∃ (ino' : Inode) (d' : Disk), ino'.type = ino.type ∧
      writeFile rt i buf size d = putInode rt i (ino'.written rt size) d' := by
  unfold writeFile
  rw [hino]
  dsimp only
  rw [if_neg (Nat.not_lt.2 hmax)]
  split_ifs
  · exact ⟨_, _, (allocDirect_times _ _ _).1, rfl⟩
  · exact ⟨_, _, rfl, rfl⟩
  · exact ⟨_, _, rfl, rfl⟩
  · exact ⟨_, _, rfl, rfl⟩
  · exact ⟨_, _, (allocDirect_times _ _ _).1, rfl⟩
  · exact ⟨_, _, rfl, rfl⟩
  · exact ⟨_, _, rfl, rfl⟩
  · exact ⟨_, _, rfl, rfl⟩

theorem Server.size_put (rt : Runtime) {id : UInt64} {buf : List UInt8}
    (hino : getInode d (maskId id) = some ino)
    (hmax : needBlocks (Int.bmod buf.length (2 ^ 32)) ≤ maxFile) :
    (Server.getattr id (Server.put rt id buf d)).size.toNat = buf.length % 2 ^ 32 := by
  obtain ⟨ino', d', htype, heq⟩ := writeFile_stores rt (Buf.ofList (buf ++ [0]) rt.tail) hino hmax
  have hino' : getInode (Server.put rt id buf d) (maskId id) =
      some (ino'.written rt (Int.bmod buf.length (2 ^ 32))) := by
    rw [Server.put, heq, getInode_putInode (getInode_lt hino), if_pos rfl, if_neg]
    rw [Inode.type_written, htype]
    exact getInode_type hino
  rw [Server.getattr, Extent.getattr, hino']
  change (UInt32.ofNat (toUnsigned _)).toNat = _
  rw [toUnsigned_bmod_eq, UInt32.toNat_ofNat', Nat.mod_mod]

private theorem blocksFor_mono {m n : ℕ} (h : m ≤ n) : blocksFor m ≤ blocksFor n := by
  unfold blocksFor
  split_ifs <;> omega

private theorem lt_of_not_enough {n : ℕ} (h : ¬Enough d ino (blockCount n)) : ino.size.toNat < n := by
  by_contra hle
  refine h (le_trans ?_ (Nat.le_add_right _ _))
  exact blocksFor_mono (blockCount_le.2 ((Nat.not_lt.1 hle).trans (blockCount_le.1 le_rfl)))

/-- A `put` without room changes nothing exactly if it is refused for its length. A string whose
length does not fit an `int` can also happen to leave the old size. -/
theorem Server.put_full_iff (rt : Runtime) {id : UInt64} {buf : List UInt8}
    (hino : getInode d (maskId id) = some ino) (hfull : ¬Enough d ino (blockCount buf.length))
    (hint : buf.length < 2 ^ 31 ∨ buf.length % 2 ^ 32 ≠ ino.size.toNat) :
    Unchanged d (Server.put rt id buf d) ↔ maxFile < needBlocks (Int.bmod buf.length (2 ^ 32)) := by
  constructor
  · intro h
    by_contra hmax
    have hsize := Server.size_put rt hino (Nat.not_lt.1 hmax)
    rw [(h id).1, Server.getattr, Extent.getattr, hino] at hsize
    have hlt := lt_of_not_enough hfull
    change ino.size.toNat = _ at hsize
    rcases hint with hshort | hne
    · omega
    · exact hne hsize.symm
  · intro hmax
    rw [Server.put, writeFile_of_lt rt _ hino hmax]
    exact fun j => ⟨rfl, fun _ => rfl⟩

end

theorem not_enough_init {need : ℕ} (h : blockNum - Disk.firstData < blocksFor need) :
    ¬Enough (Server.init quiet) (newInode quiet FileType.dir.code) need := by
  have hzero : blocksFor (blockCount (newInode quiet FileType.dir.code).size.toNat) = 0 := rfl
  rw [Enough, freeBlocks_init, List.length_range', hzero]
  omega

/-- A string of more than `maxFile` blocks is refused. -/
theorem Server.put_full_iff_refused : ∃ buf : List UInt8, buf.length = (maxFile + 1) * blockSize ∧
    ¬Enough (Server.init quiet) (newInode quiet FileType.dir.code) (blockCount buf.length) ∧
    ∀ rt, Unchanged (Server.init quiet) (Server.put rt 1 buf (Server.init quiet)) := by
  obtain ⟨buf, hlen⟩ : ∃ buf : List UInt8, buf.length = (maxFile + 1) * blockSize :=
    ⟨List.replicate _ 0, List.length_replicate⟩
  have hcount : blockCount buf.length = maxFile + 1 := by
    rw [hlen]
    decide
  have hlt : buf.length < 2 ^ 31 := by
    rw [hlen]
    decide
  have hfull : ¬Enough (Server.init quiet) (newInode quiet FileType.dir.code) (blockCount buf.length) := by
    rw [hcount]
    exact not_enough_init (by decide)
  refine ⟨buf, hlen, hfull, fun rt => (Server.put_full_iff rt (getInode_root quiet) hfull (.inl hlt)).2 ?_⟩
  rw [needBlocks_bmod hlt, hcount]
  exact Nat.lt_succ_self _

/-- A string of 1021 blocks on a fresh server, which has 1020 free blocks: the size changes. -/
theorem Server.put_full_changed : ∃ buf : List UInt8, buf.length = 1021 * blockSize ∧
    ¬Enough (Server.init quiet) (newInode quiet FileType.dir.code) (blockCount buf.length) ∧
    ∀ rt, (Server.getattr 1 (Server.put rt 1 buf (Server.init quiet))).size.toNat = 1021 * blockSize ∧
      ¬Unchanged (Server.init quiet) (Server.put rt 1 buf (Server.init quiet)) := by
  obtain ⟨buf, hlen⟩ : ∃ buf : List UInt8, buf.length = 1021 * blockSize :=
    ⟨List.replicate _ 0, List.length_replicate⟩
  have hcount : blockCount buf.length = 1021 := by
    rw [hlen]
    decide
  have hmax : needBlocks (Int.bmod buf.length (2 ^ 32)) ≤ maxFile := by
    rw [needBlocks_bmod (by rw [hlen]; decide), hcount]
    decide
  refine ⟨buf, hlen, ?_, fun rt => ?_⟩
  · rw [hcount]
    exact not_enough_init (by decide)
  · have hsize := Server.size_put rt (getInode_root quiet) hmax
    have hmod : buf.length % 2 ^ 32 = 1021 * blockSize := by
      rw [hlen]
      decide
    rw [hmod] at hsize
    refine ⟨hsize, fun h => ?_⟩
    rw [(h 1).1, Server.getattr, Extent.getattr, getInode_root] at hsize
    exact absurd hsize (by decide)

end Yfs.Extent
