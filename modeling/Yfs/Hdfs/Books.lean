import Yfs.Hdfs.Growing
import Yfs.Extent.Contents

/-! The files that a namenode has opened for writing, on the disk: each is a regular file of full
blocks, and every operation of the server changes one file at most. -/
namespace Yfs.Hdfs
open Yfs.Lib Yfs.Extent Yfs.Client

/-- The pending files with their sizes, in step with the disk. -/
structure Books (pending : UInt64 → Option UInt32) (d : Disk) : Prop where
  owned : Owned d
  file : ∀ ino size, pending ino = some size → ∃ (inum : UInt32) (ids : List ℕ), ino = inum.toUInt64 ∧
    FullBlocks d inum ids ∧ size = UInt32.ofNat (ids.length * blockSize)

/-- An inum that is the number of an inode in use. -/
def Live (d : Disk) (ino : UInt64) : Prop := ∃ inum : UInt32, ino = inum.toUInt64 ∧ getInode d inum ≠ none

section
variable {d d' : Disk} {pending pending' : UInt64 → Option UInt32} {inum i : UInt32} {ids : List ℕ}
    {ino : UInt64}

theorem maskId_of_getInode (h : getInode d inum ≠ none) : maskId inum.toUInt64 = inum := by
  obtain ⟨ino, hino⟩ := Option.ne_none_iff_exists'.1 h
  exact maskId_toUInt64 (getInode_lt hino)

theorem FullBlocks.getInode_ne_none (h : FullBlocks d inum ids) : getInode d inum ≠ none := by
  obtain ⟨ino, hino, -⟩ := h.file
  rw [hino]
  exact Option.some_ne_none ino

theorem FullBlocks.spares (h : FullBlocks d inum ids) (hsp : Spares d d' i) (hown : Owned d')
    (hne : inum ≠ i) :
    FullBlocks d' inum ids := by
  obtain ⟨ino, hino, htype, hsize, hids⟩ := h.file
  have hwf := h.owned.wellFormed inum ino hino
  refine ⟨hown, ino, (hsp.inode inum hne).trans hino, htype, hsize, ?_⟩
  rw [← hids]
  exact hwf.dataBlocks_congr (hsp.same inum ino hne hino)

/-- An operation on file `i`: the other pending files stay as they are. -/
theorem Books.step (h : Books pending d) (hsp : Spares d d' i) (hown : Owned d')
    (hothers : ∀ ino, ino ≠ i.toUInt64 → pending' ino = pending ino)
    (hi : ∀ size, pending' i.toUInt64 = some size → ∃ ids, FullBlocks d' i ids ∧
      size = UInt32.ofNat (ids.length * blockSize)) : Books pending' d' := by
  refine ⟨hown, fun ino size hsize => ?_⟩
  by_cases hino : ino = i.toUInt64
  · rw [hino] at hsize
    obtain ⟨ids, hholds, hlen⟩ := hi size hsize
    exact ⟨i, ids, hino, hholds, hlen⟩
  · rw [hothers ino hino] at hsize
    obtain ⟨inum, ids, heq, hholds, hlen⟩ := h.file ino size hsize
    have hne : inum ≠ i := fun hi => hino (by rw [heq, hi])
    exact ⟨inum, ids, heq, hholds.spares hsp hown hne, hlen⟩

theorem Books.touched (h : Books pending d) (ht : Touched d d') : Books pending d' := by
  refine ⟨ht.owned h.owned, fun ino size hsize => ?_⟩
  obtain ⟨inum, ids, heq, hholds, hlen⟩ := h.file ino size hsize
  exact ⟨inum, ids, heq, hholds.touched ht, hlen⟩

theorem Books.live (h : Books pending d) {size : UInt32} (hsize : pending ino = some size) : Live d ino := by
  obtain ⟨inum, ids, heq, hholds, -⟩ := h.file ino size hsize
  exact ⟨inum, heq, hholds.getInode_ne_none⟩

theorem Live.touched (h : Live d ino) (ht : Touched d d') : Live d' ino := by
  obtain ⟨inum, heq, hlive⟩ := h
  obtain ⟨t, hinode⟩ := ht.inode inum
  refine ⟨inum, heq, ?_⟩
  rw [hinode, ne_eq, Option.map_eq_none_iff]
  exact hlive

theorem Live.spares (h : Live d ino) (hsp : Spares d d' i) (hi : getInode d i ≠ none → getInode d' i ≠ none) :
    Live d' ino := by
  obtain ⟨inum, heq, hlive⟩ := h
  refine ⟨inum, heq, ?_⟩
  by_cases hinum : inum = i
  · rw [hinum] at hlive ⊢
    exact hi hlive
  · rw [hsp.inode inum hinum]
    exact hlive

def opened (type : FileType) (pending : UInt64 → Option UInt32) (ino : UInt64) : UInt64 → Option UInt32 :=
  if type = .file then Function.update pending ino (some 0) else pending

theorem Books.create (h : Books pending d) (rt : Runtime) (type : FileType) {n : ℕ}
    (hnext : nextInode d = some n) :
    Server.create rt type.code d = ((UInt32.ofNat n).toUInt64, (Server.create rt type.code d).2) ∧
      Books (opened type pending (UInt32.ofNat n).toUInt64) (Server.create rt type.code d).2 ∧
      Live (Server.create rt type.code d).2 (UInt32.ofNat n).toUInt64 ∧ ¬Live d (UInt32.ofNat n).toUInt64 ∧
      ∀ ino, Live d ino → Live (Server.create rt type.code d).2 ino := by
  have hfree := getInode_nextInode hnext
  have hown := h.owned.create rt type
  have hnot : ¬Live d (UInt32.ofNat n).toUInt64 := by
    rintro ⟨inum, heq, hlive⟩
    exact hlive (UInt32.toUInt64_inj.1 heq ▸ hfree)
  have hpending : pending (UInt32.ofNat n).toUInt64 = none := by
    cases hsize : pending (UInt32.ofNat n).toUInt64 with
    | none => rfl
    | some size => exact absurd (h.live hsize) hnot
  have hlt : (UInt32.ofNat n).toNat < inodeNum := by
    obtain ⟨heq, -, hlt⟩ := toNat_ofNat_nextInode hnext
    rwa [heq]
  have htype : type.code.toUInt16 ≠ 0 := by
    cases type <;> decide
  have hcreate := Server.create_eq rt type.code hnext
  have hsp : Spares d (Server.create rt type.code d).2 (UInt32.ofNat n) := by
    rw [hcreate]
    exact ((Local.refl d _).putInode hlt rt _).spares h.owned
  have hnew : getInode (Server.create rt type.code d).2 (UInt32.ofNat n) = some (newInode rt type.code) := by
    rw [hcreate, getInode_putInode hlt, if_pos rfl, newInode, if_neg htype]
  refine ⟨by rw [hcreate], h.step hsp hown (fun ino hne => ?_) fun size hsize => ?_, ?_, hnot, ?_⟩
  · unfold opened
    split_ifs
    · exact Function.update_of_ne hne _ _
    · rfl
  · unfold opened at hsize
    split_ifs at hsize with hfile
    · rw [Function.update_self] at hsize
      cases hsize
      refine ⟨[], ⟨hown, _, hnew, ?_, rfl, ?_⟩, rfl⟩
      · rw [hfile, newInode]
      · exact (List.append_eq_nil_iff.1 (blockList_of_empty rfl)).1
    · rw [hpending] at hsize
      cases hsize
  · exact ⟨_, rfl, by rw [hnew]; exact Option.some_ne_none _⟩
  · intro ino hlive
    exact hlive.spares hsp fun hsome => absurd hfree hsome

private theorem getInode_put_ne_none (h : Owned d) (rt : Runtime) {id : UInt64} {buf : Str}
    (ha : Request.Allowed d (.put id buf)) (hs : Request.Sound d (.put id buf))
    (hlive : getInode d (maskId id) ≠ none) : getInode (Server.put rt id buf d) (maskId id) ≠ none := by
  obtain ⟨ino, hino⟩ := Option.ne_none_iff_exists'.1 hlive
  obtain ⟨hlen, htame⟩ := hs ino hino
  have hneed := needBlocks_bmod hlen
  by_cases hmax : blockCount buf.length ≤ maxFile
  · have hroom := ha ino hino
    rw [hneed] at hroom
    have henough := enough_of_tame (htame hmax) (hroom hmax)
    obtain ⟨ino', table, d', hl, hput⟩ := writeFile_eq rt (Buf.ofList (buf ++ [0]) rt.tail) hino
      (h.wellFormed _ ino hino) hneed hmax henough
    rw [Server.put, hput, hl.getInode_put hino rt]
    exact Option.some_ne_none _
  · rw [Server.put, writeFile_of_lt rt _ hino (hneed ▸ Nat.not_le.1 hmax)]
    exact hlive

theorem Books.put (h : Books pending d) (rt : Runtime) {id : UInt64} {buf : Str}
    (ha : Request.Allowed d (.put id buf)) (hs : Request.Sound d (.put id buf))
    (hid : pending (maskId id).toUInt64 = none) :
    Books pending (Server.put rt id buf d) ∧ ∀ ino, Live d ino → Live (Server.put rt id buf d) ino := by
  obtain ⟨hown, hlocal⟩ := h.owned.put rt ha hs
  have hsp := hlocal.spares h.owned
  refine ⟨h.step hsp hown (fun _ _ => rfl) fun size hsize => ?_, fun ino hlive =>
      hlive.spares hsp fun hsome => ?_⟩
  · rw [hid] at hsize
    cases hsize
  · exact getInode_put_ne_none h.owned rt ha hs hsome

theorem Books.append (h : Books pending d) (rt : Runtime) {size : UInt32} (hsize : pending ino = some size)
    (ha : Request.Allowed d (.appendBlock ino)) :
    Books (Function.update pending ino (some (size + UInt32.ofNat blockSize)))
    (Server.appendBlock rt ino d).2 ∧
      ∀ ino', Live d ino' → Live (Server.appendBlock rt ino d).2 ino' := by
  obtain ⟨inum, ids, rfl, hholds, hlen⟩ := h.file ino size hsize
  have hmask := maskId_of_getInode hholds.getInode_ne_none
  obtain ⟨inode, hinode, -, hbytes, -⟩ := hholds.file
  have hwf := h.owned.wellFormed inum inode hinode
  have hcount : blockCount inode.size.toNat = ids.length := by rw [hbytes, blockCount_mul]
  have hfree : appendNeeds (blockCount inode.size.toNat) ≤ d.freeBlocks.length :=
    ha inode (by rw [hmask, hinode]) (hwf.blockCount_le.trans (by decide))
  have hroom : blocksFor (ids.length + 1) ≤ room d ids := by
    rw [blocksFor_succ, room]
    rw [hcount] at hfree
    omega
  obtain ⟨b, d', happend, hnew, -⟩ := hholds.append rt hroom
  have hd' : (Server.appendBlock rt inum.toUInt64 d).2 = d' := by rw [Server.appendBlock, hmask, happend]
  have hsp : Spares d d' inum := by
    obtain ⟨inode', d₁, happ, heq⟩ := appendBlock_eq rt hinode hwf hfree
    rw [heq] at happend
    obtain rfl := (Prod.mk.inj happend).2
    exact ((happ.isLocal hinode hwf hfree).putInode (getInode_lt hinode) rt inode').spares h.owned
  rw [hd']
  refine ⟨h.step hsp hnew.owned (fun ino' hne => Function.update_of_ne hne _ _) fun size' hsize' => ?_, ?_⟩
  · rw [Function.update_self] at hsize'
    refine ⟨ids ++ [b], hnew, ?_⟩
    rw [← Option.some.inj hsize', hlen, List.length_append, List.length_singleton, Nat.succ_mul,
      UInt32.ofNat_add]
  · intro ino' hlive
    exact hlive.spares hsp fun _ => hnew.getInode_ne_none

theorem Books.complete (h : Books pending d) {rt : Runtime} {size : UInt32} (hlive : Live d ino)
    (ha : Request.Allowed d (.complete ino size)) (hrun : Server.complete rt ino size d = some d') :
    Books (Function.update pending ino none) d' ∧ ∀ ino', Live d ino' → Live d' ino' := by
  have hown := h.owned.complete ha hrun
  obtain ⟨inum, rfl, -⟩ := hlive
  rw [Server.complete, UInt32.toUInt32_toUInt64] at hrun
  obtain ⟨inode, hinode, rfl⟩ := Option.map_eq_some_iff.1 hrun
  have hlt := getInode_lt hinode
  have hsp := ((Local.refl d inum).putInode hlt rt
    { inode with size := size, atime := rt.now, mtime := rt.now, ctime := rt.now }).spares h.owned
  refine ⟨h.step hsp hown (fun ino' hne => Function.update_of_ne hne _ _) fun size' hsize' => ?_, ?_⟩
  · rw [Function.update_self] at hsize'
    cases hsize'
  · intro ino' hlive
    refine hlive.spares hsp fun _ => ?_
    rw [getInode_putInode hlt, if_pos rfl, if_neg (getInode_type hinode)]
    exact Option.some_ne_none _

theorem Books.shown (h : Books pending d) {size : UInt32} (hsize : pending ino = some size) (rt : Runtime) :
    (Server.getattr ino d).size = size ∧
      ∃ ids, Server.getBlockIds rt ino d = some ids ∧ size.toNat = blockSize * ids.length := by
  obtain ⟨inum, ids, rfl, hholds, hlen⟩ := h.file ino size hsize
  have hmask := maskId_of_getInode hholds.getInode_ne_none
  obtain ⟨inode, hinode, -, hbytes, -⟩ := hholds.file
  have hcount : blockCount inode.size.toNat = ids.length := by rw [hbytes, blockCount_mul]
  have hnat : inode.size = size := by
    rw [hlen, ← hbytes, UInt32.ofNat_toNat]
  refine ⟨?_, (List.range (blockCount inode.size.toNat)).map (fileBlock rt d inode), ?_, ?_⟩
  · rw [Server.getattr, Extent.getattr, hmask, hinode]
    exact hnat
  · rw [Server.getBlockIds, hmask, getBlockIds_eq rt hinode]
  · rw [List.length_map, List.length_range, hcount, ← hnat, hbytes, Nat.mul_comm]

end
end Yfs.Hdfs
