import Yfs.Extent.Ownership

/-! The disk as a map from inums to files, as long as the files own their blocks: what `create`,
`put` and `remove` do to it. -/
namespace Yfs.Extent
open Yfs.Lib

def fileOf (d : Disk) (i : UInt32) : Option (UInt16 × List UInt8) :=
  (getInode d i).map fun ino => (ino.type, fileBytes d ino)

section
variable {d d' : Disk} {i : UInt32} {ino : Inode}

theorem fileOf_eq_none_iff : fileOf d i = none ↔ getInode d i = none := Option.map_eq_none_iff

theorem fileBytes_of_empty (h : ino.size.toNat = 0) : fileBytes d ino = [] := by
  rw [fileBytes, h]
  rfl

theorem Spares.fileOf_eq (hsp : Spares d d' i) (h : Owned d) {j : UInt32} (hj : j ≠ i) :
    fileOf d' j = fileOf d j := by
  unfold fileOf
  rw [hsp.inode j hj]
  cases hino : getInode d j with
  | none => rfl
  | some ino =>
    have hbytes := (h.wellFormed j ino hino).fileBytes_congr (hsp.same j ino hj hino)
    rw [Option.map_some, Option.map_some, hbytes]

theorem nextInode_eq_find (d : Disk) :
    nextInode d = (List.range' 1 (inodeNum - 1)).find? fun i => (fileOf d (UInt32.ofNat i)).isNone := by
  simp only [nextInode, fileOf, Option.isNone_map]

theorem toNat_ofNat_nextInode {n : ℕ} (h : nextInode d = some n) :
    (UInt32.ofNat n).toNat = n ∧ 1 ≤ n ∧ n < inodeNum := by
  have hmem := List.mem_range'_1.1 (List.mem_of_find?_eq_some h)
  simp only [inodeNum] at hmem ⊢
  rw [UInt32.toNat_ofNat', Nat.mod_eq_of_lt (by omega)]
  omega

theorem getInode_nextInode {n : ℕ} (h : nextInode d = some n) : getInode d (UInt32.ofNat n) = none := by
  have hnone := List.find?_some h
  exact Option.isNone_iff_eq_none.1 hnone

theorem Server.create_eq (rt : Runtime) (type : UInt32) {n : ℕ} (h : nextInode d = some n) :
    Server.create rt type d =
      ((UInt32.ofNat n).toUInt64, putInode rt (UInt32.ofNat n) (newInode rt type) d) := by
  simp only [Server.create, allocInode, h, newInode]

theorem FileType.toUInt16_code_ne (type : FileType) : type.code.toUInt16 ≠ 0 := by
  cases type <;> decide

theorem fileOf_create (hown : Owned d) (rt : Runtime) (type : FileType) {n : ℕ} (h : nextInode d = some n)
    (j : UInt32) : fileOf (Server.create rt type.code d).2 j =
      if j = UInt32.ofNat n then some (type.code.toUInt16, []) else fileOf d j := by
  have hlt : (UInt32.ofNat n).toNat < inodeNum := by
    obtain ⟨heq, -, hlt⟩ := toNat_ofNat_nextInode h
    rwa [heq]
  rw [Server.create_eq rt type.code h]
  split_ifs with hj
  · rw [hj, fileOf, getInode_putInode hlt, if_pos rfl, newInode, if_neg type.toUInt16_code_ne,
      Option.map_some, fileBytes_of_empty rfl]
  · exact (((Local.refl d _).putInode hlt rt _).spares hown).fileOf_eq hown hj

theorem fileOf_init (rt : Runtime) (j : UInt32) :
    fileOf (Server.init rt) j = if j = 1 then some (FileType.dir.code.toUInt16, []) else none := by
  rw [fileOf, getInode_init]
  split_ifs
  · rw [Option.map_some, fileBytes_of_empty rfl, newInode]
  · rfl

theorem nextInode_init (rt : Runtime) : nextInode (Server.init rt) = some 2 := by
  have hrange : List.range' 1 (inodeNum - 1) = 1 :: 2 :: List.range' 3 (inodeNum - 3) := rfl
  rw [nextInode_eq_find, hrange]
  simp only [fileOf_init]
  rfl

theorem freeBlocks_create (rt : Runtime) (type : UInt32) {n : ℕ} (h : nextInode d = some n) :
    (Server.create rt type d).2.freeBlocks = d.freeBlocks := by
  rw [Server.create_eq rt type h]
  simp only [Disk.freeBlocks, putInode_used]

end

section
variable {d d' : Disk} {ino ino' : Inode} {need : ℕ} {table : Buf} {id : UInt64} {buf : List UInt8}

/-- A file that is laid out anew takes at most the blocks that it needs from the free ones. -/
theorem Laid.length_freeBlocks_le (hl : Laid d ino need ino' table d') (hn : need ≤ nDirect) :
    d.freeBlocks.length ≤ d'.freeBlocks.length + need := by
  have hsub : d.freeBlocks ⊆ d'.freeBlocks ++ (List.range need).map (newBlock d ino) := by
    intro b hb
    obtain ⟨hlo, hhi, hfree⟩ := Disk.mem_freeBlocks.1 hb
    rw [List.mem_append]
    by_cases hnew : ∃ j < need, b = newBlock d ino j
    · obtain ⟨j, hj, heq⟩ := hnew
      exact .inr (List.mem_map.2 ⟨j, List.mem_range.2 hj, heq.symm⟩)
    · refine .inl (Disk.mem_freeBlocks.2 ⟨hlo, hhi, ?_⟩)
      rw [← Bool.not_eq_true, hl.used b (hhi.trans (by decide))]
      rintro (hj | ⟨hgt, -⟩ | ⟨hused, -⟩)
      · exact hnew hj
      · omega
      · rw [hfree] at hused
        cases hused
  have hle := (List.subperm_of_subset (Disk.nodup_freeBlocks d) hsub).length_le
  rwa [List.length_append, List.length_map, List.length_range] at hle

/-- The requests that the server serves as a map would: there is room for the file, and if it needs a table
the code gets one and clears no byte of the file that is not zero. -/
def Roomy (d : Disk) (id : UInt64) (buf : List UInt8) : Prop :=
  ∀ ino, getInode d (maskId id) = some ino →
    blockCount buf.length ≤ maxFile ∧ Tame ino (blockCount buf.length) ∧ RoundTrips d ino (maskId id) buf ∧
      grownBy ino (blockCount buf.length) ≤ d.freeBlocks.length

theorem Roomy.of_direct (hn : blockCount buf.length ≤ nDirect)
    (h : ∀ ino, getInode d (maskId id) = some ino →
      grownBy ino (blockCount buf.length) ≤ d.freeBlocks.length) :
    Roomy d id buf := fun ino hino =>
  ⟨hn.trans (by decide), fun hgt => absurd hn (Nat.not_le.2 hgt), .inl hn, h ino hino⟩

private theorem length_lt_of_blockCount (h : blockCount buf.length ≤ maxFile) : buf.length < 2 ^ 31 := by
  have hle := blockCount_le.1 h
  rw [blockSize_eq, maxFile_eq] at hle
  omega

theorem Roomy.allowed (h : Roomy d id buf) : Request.Allowed d (.put id buf) := by
  intro ino hino _
  obtain ⟨hmax, -, -, hroom⟩ := h ino hino
  rw [needBlocks_bmod (length_lt_of_blockCount hmax)]
  exact hroom

theorem Roomy.sound (h : Roomy d id buf) : Request.Sound d (.put id buf) := by
  intro ino hino
  obtain ⟨hmax, htame, -, -⟩ := h ino hino
  exact ⟨length_lt_of_blockCount hmax, fun _ => htame⟩

theorem fileOf_put (hown : Owned d) (rt : Runtime) (h : Roomy d id buf) :
    Owned (Server.put rt id buf d) ∧
      (∀ j, fileOf (Server.put rt id buf d) j =
        if j = maskId id then (fileOf d j).map (fun f => (f.1, buf)) else fileOf d j) ∧
      (blockCount buf.length ≤ nDirect →
        d.freeBlocks.length ≤ (Server.put rt id buf d).freeBlocks.length + blockCount buf.length) := by
  obtain ⟨hown', hlocal⟩ := hown.put rt h.allowed h.sound
  have hother := fun j (hj : j ≠ maskId id) => (hlocal.spares hown).fileOf_eq hown hj
  cases hino : getInode d (maskId id) with
  | none =>
    have hsame : Server.put rt id buf d = d := by
      simp only [Server.put, writeFile, hino]
    refine ⟨hown', fun j => ?_, ?_⟩
    · rw [hsame]
      split_ifs with hj
      · rw [hj, fileOf_eq_none_iff.2 hino, Option.map_none]
      · rfl
    · intro _
      rw [hsame]
      exact Nat.le_add_right _ _
  | some ino =>
    have hwf := hown.wellFormed _ ino hino
    obtain ⟨hmax, htame, htrips, hroom⟩ := h ino hino
    have hlen := length_lt_of_blockCount hmax
    have henough := enough_of_tame htame hroom
    obtain ⟨ino', table, d', hl, hput⟩ := writeFile_eq rt (Buf.ofList (buf ++ [0]) rt.tail) hino hwf
      (needBlocks_bmod hlen) hmax henough
    have hino' : getInode (Server.put rt id buf d) (maskId id) =
        some (ino'.written rt (Int.bmod buf.length (2 ^ 32))) := by
      rw [Server.put, hput]
      exact hl.getInode_put hino rt _ _
    have hbytes : fileBytes (Server.put rt id buf d) (ino'.written rt (Int.bmod buf.length (2 ^ 32))) =
        buf := by
      have hget := htrips.get_put hino hwf (blockCount_le.1 hmax) henough rt rt
      have hwf' := hown'.wellFormed _ _ hino'
      rw [Server.get_eq rt hino' hwf'.size_lt, hwf'.content_eq, Option.some.injEq] at hget
      exact hget
    refine ⟨hown', fun j => ?_, ?_⟩
    · split_ifs with hj
      · have htype := (ino'.type_written rt (Int.bmod buf.length (2 ^ 32))).trans hl.type
        rw [hj, fileOf, fileOf, hino', hino, Option.map_some, Option.map_some, Option.map_some, hbytes, htype]
      · exact hother j hj
    · intro hn
      have hle := hl.length_freeBlocks_le hn
      have hused : ∀ c, (Server.put rt id buf d).used c = d'.used c := by
        intro c
        rw [Server.put, hput, putInode_used, hl.used_writeData hwf henough htame]
      have hfree : (Server.put rt id buf d).freeBlocks = d'.freeBlocks := by
        simp only [Disk.freeBlocks, hused]
      rwa [hfree]

theorem fileOf_remove (hown : Owned d) (rt : Runtime) (hs : Request.Sound d (.remove id)) (j : UInt32) :
    fileOf (Server.remove rt id d) j = if j = maskId id then none else fileOf d j := by
  cases hino : getInode d (maskId id) with
  | none =>
    have hsame : Server.remove rt id d = d := by
      simp only [Server.remove, removeFile, hino]
    rw [hsame]
    split_ifs with hj
    · rw [hj, fileOf_eq_none_iff.2 hino]
    · rfl
  | some ino =>
    obtain ⟨hloc, hsame⟩ := RemoveSafe.isLocal (hs ino hino) hino rt
    have hremove : Server.remove rt id d =
        putInode rt (maskId id) ⟨0, 0, 0, 0, 0, fun _ => 0⟩ (d.unmark (removeIds rt d ino)) := by
      rw [Server.remove, removeFile_eq rt hino, freeInode, hsame]
    split_ifs with hj
    · rw [fileOf_eq_none_iff, hj, hremove, getInode_putInode (getInode_lt hino), if_pos rfl]
      exact if_pos rfl
    · rw [hremove]
      exact ((hloc.putInode (getInode_lt hino) rt _).spares hown).fileOf_eq hown hj

end
end Yfs.Extent
