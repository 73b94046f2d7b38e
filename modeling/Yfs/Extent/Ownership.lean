import Yfs.Extent.Append
import Yfs.Extent.RoundTrip
import Mathlib.Logic.Relation

/-! Block ownership over whole runs of the server. -/
namespace Yfs.Extent
open Yfs.Lib

inductive Request where
  | create (type : FileType)
  | put (id : UInt64) (buf : List UInt8)
  | get (id : UInt64)
  | remove (id : UInt64)
  | appendBlock (id : UInt64)
  | complete (id : UInt64) (size : UInt32)

def Request.run (rt : Runtime) (d : Disk) : Request → Option Disk
  | .create type => some (Server.create rt type.code d).2
  | .put id buf => some (Server.put rt id buf d)
  | .get id => (Server.get rt id d).1.map fun _ => (Server.get rt id d).2
  | .remove id => some (Server.remove rt id d)
  | .appendBlock id => some (Server.appendBlock rt id d).2
  | .complete id size => Server.complete rt id size d

/-- Clients complete a file within its last block, and no allocation finds the data region full. -/
def Request.Allowed (d : Disk) : Request → Prop
  | .put id buf => ∀ ino, getInode d (maskId id) = some ino →
      needBlocks (Int.bmod buf.length (2 ^ 32)) ≤ maxFile →
      grownBy ino (needBlocks (Int.bmod buf.length (2 ^ 32))) ≤ d.freeBlocks.length
  | .appendBlock id => ∀ ino, getInode d (maskId id) = some ino →
      blockCount ino.size.toNat ≤ maxFile →
      appendNeeds (blockCount ino.size.toNat) ≤ d.freeBlocks.length
  | .complete id size => ∀ ino, getInode d id.toUInt32 = some ino →
      ino.size.toNat < size.toNat + blockSize ∧ size.toNat ≤ ino.size.toNat
  | _ => True

def removeIds (rt : Runtime) (d : Disk) (ino : Inode) : List UInt32 :=
  let n := if ino.size.toNat % blockSize ≠ 0 then ino.size.toNat / blockSize
    else ino.size.toNat / blockSize + 1
  if n < nDirect then (List.range' 0 n).map ino.block
  else
    ((List.range' 0 (n - nDirect)).map fun k =>
      (d.readBlock (ino.block nDirect).toNat rt.table 0).word (4 * k)) ++
      (List.range' 0 (nDirect + 1)).map ino.block

/-- What `remove_file` frees beyond the blocks of the file is free already. -/
def RemoveSafe (d : Disk) (ino : Inode) : Prop :=
  ∀ rt, ∀ id ∈ removeIds rt d ino,
    id.toNat < bpb ∧ (id.toNat ∈ blockList d ino ∨ d.used id.toNat = false)

/-- The requests that the code serves without damage to other files. -/
def Request.Sound (d : Disk) : Request → Prop
  | .put id buf => ∀ ino, getInode d (maskId id) = some ino →
      buf.length < 2 ^ 31 ∧ (blockCount buf.length ≤ maxFile → Tame ino (blockCount buf.length))
  | .remove id => ∀ ino, getInode d (maskId id) = some ino → RemoveSafe d ino
  | _ => True

section
variable {d d' : Disk} {i : UInt32} {ino ino' : Inode} {need : ℕ}

theorem enough_of_tame (ht : Tame ino need) (h : grownBy ino need ≤ d.freeBlocks.length) :
    Enough d ino need := by
  unfold Tame at ht
  unfold grownBy at h
  unfold Enough blocksFor
  split_ifs at h ⊢ <;> omega

theorem WellFormed.shrink (hwf : WellFormed d ino) (hb : ∀ j, ino'.block j = ino.block j)
    (hc : blockCount ino'.size.toNat ≤ blockCount ino.size.toNat) :
    WellFormed d ino' ∧ ∀ b ∈ blockList d ino', b ∈ blockList d ino := by
  have hid : blockId d ino' = blockId d ino := by
    funext j
    rw [blockId, blockId, hb, hb]
  have hsub : (blockList d ino').Sublist (blockList d ino) := by
    refine List.Sublist.append ?_ ?_
    · rw [dataBlocks, dataBlocks, hid]
      exact (List.range_sublist.2 hc).map _
    · unfold tableBlocks
      rw [hb]
      split_ifs with h₁ h₂
      · exact List.Sublist.refl _
      · omega
      · exact List.nil_sublist _
      · exact List.nil_sublist _
  exact ⟨⟨hwf.nodup.sublist hsub, fun b h => hwf.data b (hsub.subset h),
    fun b h => hwf.marked b (hsub.subset h)⟩, fun b h => hsub.subset h⟩

theorem Owned.shrink (h : Owned d) (hino : getInode d i = some ino) (new : Inode)
    (hb : ∀ j, new.block j = ino.block j)
    (hc : blockCount new.size.toNat ≤ blockCount ino.size.toNat) (rt : Runtime) :
    Owned (Extent.putInode rt i new d) := by
  obtain ⟨hwf, hmem⟩ := (h.wellFormed i ino hino).shrink hb hc
  exact h.putInode (Local.refl d i) (getInode_lt hino) hwf (fun b hb => .inl ⟨ino, hino, hmem b hb⟩) rt

theorem Owned.create (h : Owned d) (rt : Runtime) (type : FileType) :
    Owned (Server.create rt type.code d).2 := by
  simp only [Server.create, allocInode]
  cases hnext : nextInode d with
  | none => exact h
  | some n =>
    have hmem := List.mem_range'_1.1 (List.mem_of_find?_eq_some hnext)
    have hlt : (UInt32.ofNat n).toNat < inodeNum := by
      simp only [inodeNum] at hmem ⊢
      rw [UInt32.toNat_ofNat', Nat.mod_eq_of_lt (by omega)]
      omega
    refine h.putInode (Local.refl d _) hlt (wellFormed_of_empty rfl) (fun b hb => ?_) rt
    rw [blockList_of_empty rfl] at hb
    cases hb

theorem Owned.get (h : Owned d) (rt : Runtime) (id : UInt64) : Owned (Server.get rt id d).2 := by
  cases hino : getInode d (maskId id) with
  | none =>
    simp only [Server.get, readFile, hino]
    exact h
  | some ino =>
    rw [Server.get_eq rt hino (h.wellFormed _ _ hino).size_lt]
    exact h.shrink hino { ino with atime := rt.now } (fun _ => rfl) le_rfl rt

theorem Owned.complete (h : Owned d) {rt : Runtime} {id : UInt64} {size : UInt32}
    (ha : Request.Allowed d (.complete id size)) (hrun : Server.complete rt id size d = some d') :
    Owned d' := by
  simp only [Server.complete, Extent.complete, Option.map_eq_some_iff] at hrun
  obtain ⟨ino, hino, rfl⟩ := hrun
  have hle := (ha ino hino).2
  refine h.shrink hino
    { ino with size := size, atime := rt.now, mtime := rt.now, ctime := rt.now } (fun _ => rfl) ?_ rt
  exact blockCount_le.2 (hle.trans (blockCount_le.1 le_rfl))

theorem Owned.appendBlock (h : Owned d) (rt : Runtime) {id : UInt64}
    (ha : Request.Allowed d (.appendBlock id)) : Owned (Server.appendBlock rt id d).2 := by
  cases hino : getInode d (maskId id) with
  | none =>
    simp only [Server.appendBlock, Extent.appendBlock, hino]
    exact h
  | some ino =>
    have hwf := h.wellFormed _ _ hino
    have hmax : blockCount ino.size.toNat ≤ maxFile := hwf.blockCount_le.trans (by decide)
    have hfree := ha ino hino hmax
    obtain ⟨ino', d', happ, heq⟩ := appendBlock_eq rt hino hwf hfree
    rw [Server.appendBlock, heq]
    exact h.putInode (happ.isLocal hino hwf hfree) (getInode_lt hino) (happ.wellFormed hwf hfree)
      (fun b hb => happ.old_or_free hino hwf hfree hb) rt

theorem Owned.put (h : Owned d) (rt : Runtime) {id : UInt64} {buf : List UInt8}
    (ha : Request.Allowed d (.put id buf)) (hs : Request.Sound d (.put id buf)) :
    Owned (Server.put rt id buf d) ∧ Local d (Server.put rt id buf d) (maskId id) := by
  cases hino : getInode d (maskId id) with
  | none =>
    simp only [Server.put, writeFile, hino]
    exact ⟨h, Local.refl d _⟩
  | some ino =>
    obtain ⟨hlen, htame⟩ := hs ino hino
    have hneed := needBlocks_bmod hlen
    by_cases hmax : blockCount buf.length ≤ maxFile
    · have hwf := h.wellFormed _ _ hino
      have ht := htame hmax
      have hroom := ha ino hino
      rw [hneed] at hroom
      have he : Enough d ino (blockCount buf.length) := enough_of_tame ht (hroom hmax)
      obtain ⟨ino', table, d', hl, hput⟩ :=
        writeFile_eq rt (Buf.ofList (buf ++ [0]) rt.tail) hino hwf hneed hmax he
      have hloc := hl.isLocal hino hwf he ht rt (Buf.ofList (buf ++ [0]) rt.tail)
      have hsize := congrArg blockCount (ino'.toNat_size_written rt hlen)
      obtain ⟨hwf', hmem⟩ := hl.wellFormed_written hwf he ht hmax rt (Buf.ofList (buf ++ [0]) rt.tail) hsize
      rw [Server.put, hput]
      exact ⟨h.putInode hloc (getInode_lt hino) hwf' (fun b hb => (hmem b hb).old_or_free hino he ht) rt,
        hloc.putInode (getInode_lt hino) rt _⟩
    · rw [Server.put, writeFile_of_lt rt _ hino (hneed ▸ Nat.not_le.1 hmax)]
      exact ⟨h, Local.refl d _⟩

theorem removeFile_eq (rt : Runtime) (hino : getInode d i = some ino) :
    removeFile rt i d = freeInode rt i (d.unmark (removeIds rt d ino)) := by
  simp only [removeFile, hino, removeIds]
  generalize (if ino.size.toNat % blockSize ≠ 0 then ino.size.toNat / blockSize
    else ino.size.toNat / blockSize + 1) = n
  split_ifs with hn
  · rw [freeDirect_eq, Nat.sub_zero]
  · rw [freeDirect_eq, freeTable_eq, Nat.sub_zero, Nat.sub_zero, Disk.unmark, Disk.unmark, Disk.unmark,
      ← List.foldl_append]

theorem RemoveSafe.isLocal (h : RemoveSafe d ino) (hino : getInode d i = some ino) (rt : Runtime) :
    Local d (d.unmark (removeIds rt d ino)) i ∧ getInode (d.unmark (removeIds rt d ino)) i = some ino := by
  have hlt : ∀ id ∈ removeIds rt d ino, id.toNat < bpb := fun id hid => (h rt id hid).1
  refine ⟨⟨fun j _ _ => Disk.unmark_of_ne (by omega) hlt, ?_⟩, ?_⟩
  · intro b hlo hhi hu hown
    have hne : b ≠ 2 := by
      rw [Disk.firstData_eq] at hlo
      omega
    refine ⟨Disk.unmark_of_ne hne hlt, ?_⟩
    rw [Disk.used_unmark (hhi.trans (by decide)) hlt, hu, Bool.true_and, Bool.not_eq_true',
      decide_eq_false_iff_not]
    intro hmem
    obtain ⟨id', hid', rfl⟩ := List.mem_map.1 hmem
    rcases (h rt id' hid').2 with hb | hb
    · exact hown ⟨ino, hino, hb⟩
    · rw [hu] at hb
      cases hb
  · rw [← hino]
    refine getInode_congr fun _ k _ => ?_
    rw [Disk.unmark_of_ne (by omega) hlt]

theorem Owned.remove (h : Owned d) (rt : Runtime) {id : UInt64}
    (hs : Request.Sound d (.remove id)) : Owned (Server.remove rt id d) := by
  cases hino : getInode d (maskId id) with
  | none =>
    simp only [Server.remove, removeFile, hino]
    exact h
  | some ino =>
    obtain ⟨hloc, hsame⟩ := RemoveSafe.isLocal (hs ino hino) hino rt
    rw [Server.remove, removeFile_eq rt hino, freeInode, hsame]
    refine h.putInode hloc (getInode_lt hino) (wellFormed_of_empty rfl) (fun b hb => ?_) rt
    rw [blockList_of_empty rfl] at hb
    cases hb

theorem mem_removeIds {rt : Runtime} {id : UInt32} : id ∈ removeIds rt d ino ↔
    (∃ j < if ino.size.toNat % blockSize ≠ 0 then ino.size.toNat / blockSize
        else ino.size.toNat / blockSize + 1,
      id = fileBlock rt d ino j) ∨
    (nDirect ≤ (if ino.size.toNat % blockSize ≠ 0 then ino.size.toNat / blockSize
      else ino.size.toNat / blockSize + 1) ∧ id = ino.block nDirect) := by
  rw [removeIds]
  generalize (if ino.size.toNat % blockSize ≠ 0 then ino.size.toNat / blockSize
    else ino.size.toNat / blockSize + 1) = n
  split_ifs with hn
  · rw [List.mem_map]
    constructor
    · rintro ⟨j, hj, rfl⟩
      have hlt := (List.mem_range'_1.1 hj).2
      exact .inl ⟨j, by omega, (fileBlock_of_lt (by omega)).symm⟩
    · rintro (⟨j, hj, rfl⟩ | ⟨hle, -⟩)
      · exact ⟨j, List.mem_range'_1.2 ⟨by omega, by omega⟩, (fileBlock_of_lt (hj.trans hn)).symm⟩
      · omega
  · rw [List.mem_append, List.mem_map, List.mem_map]
    constructor
    · rintro (⟨k, hk, rfl⟩ | ⟨j, hj, rfl⟩)
      · have hlt := (List.mem_range'_1.1 hk).2
        exact .inl ⟨nDirect + k, by omega, (fileBlock_add rt d ino k).symm⟩
      · have hlt := (List.mem_range'_1.1 hj).2
        rcases Nat.lt_or_ge j nDirect with hd | hge
        · exact .inl ⟨j, by omega, (fileBlock_of_lt hd).symm⟩
        · exact .inr ⟨by omega, by rw [Nat.le_antisymm (by omega : j ≤ nDirect) hge]⟩
    · rintro (⟨j, hj, rfl⟩ | ⟨-, rfl⟩)
      · rcases Nat.lt_or_ge j nDirect with hd | hge
        · exact .inr ⟨j, List.mem_range'_1.2 ⟨by omega, by omega⟩, (fileBlock_of_lt hd).symm⟩
        · obtain ⟨k, rfl⟩ := Nat.exists_eq_add_of_le hge
          exact .inl ⟨k, List.mem_range'_1.2 ⟨by omega, by omega⟩, (fileBlock_add rt d ino k).symm⟩
      · exact .inr ⟨nDirect, List.mem_range'_1.2 ⟨by omega, by omega⟩, rfl⟩

end

namespace Request

/-- A step of the server as the clients may cause it. -/
def Step (d d' : Disk) : Prop := ∃ rt r, Allowed d r ∧ r.run rt d = some d'

/-- A step by a request that the code serves without damage. -/
def SoundStep (d d' : Disk) : Prop := ∃ rt r, Allowed d r ∧ Sound d r ∧ r.run rt d = some d'

theorem SoundStep.owned {d d' : Disk} (hstep : SoundStep d d') (h : Owned d) : Owned d' := by
  obtain ⟨rt, r, ha, hs, hrun⟩ := hstep
  cases r with
  | create type =>
    cases hrun
    exact h.create rt type
  | put id buf =>
    cases hrun
    exact (h.put rt ha hs).1
  | get id =>
    obtain ⟨_, -, rfl⟩ := Option.map_eq_some_iff.1 hrun
    exact h.get rt id
  | remove id =>
    cases hrun
    exact h.remove rt hs
  | appendBlock id =>
    cases hrun
    exact h.appendBlock rt ha
  | complete id size => exact h.complete ha hrun

theorem owned_of_soundSteps {rt₀ : Runtime} {d : Disk}
    (h : Relation.ReflTransGen SoundStep (Server.init rt₀) d) : Owned d := by
  induction h with
  | refl => exact owned_init rt₀
  | tail _ hstep ih => exact hstep.owned ih

end Request

open Request in
/-- In every run of sound requests the files own their blocks, and a `put` to one file does not
change what `get` returns for another. -/
theorem Server.owned_of_run {rt₀ : Runtime} {d : Disk}
    (h : Relation.ReflTransGen SoundStep (Server.init rt₀) d) :
    Owned d ∧ ∀ id id' buf, maskId id' ≠ maskId id → Allowed d (.put id buf) → Sound d (.put id buf) →
      ∀ rt rt' rt'', (Server.get rt' id' (Server.put rt id buf d)).1 = (Server.get rt'' id' d).1 := by
  have hown := owned_of_soundSteps h
  refine ⟨hown, fun id id' buf hne ha hs rt rt' rt'' => ?_⟩
  exact (hown.put rt ha hs).2.get_eq hown hne rt' rt''

theorem put_byte_init :
    Request.Allowed (Server.init quiet) (.put 1 [7]) ∧ Request.Sound (Server.init quiet) (.put 1 [7]) := by
  have hneed : needBlocks (Int.bmod [(7 : UInt8)].length (2 ^ 32)) = 1 := needBlocks_bmod (by decide)
  constructor
  · intro ino hino _
    rw [getInode_root] at hino
    cases hino
    rw [hneed, freeBlocks_init, List.length_range']
    decide
  · intro ino _
    exact ⟨by decide, fun _ hn => absurd hn (by decide)⟩

theorem inodes_put_byte : ∃ ino : Inode,
    getInode (Server.put quiet 1 [7] (Server.init quiet)) 1 = some ino ∧ ino.size.toNat = 1 ∧
    (ino.block 0).toNat = 1028 ∧
    getInode (Server.put quiet 1 [7] (Server.init quiet)) 2 = none := by
  have hroot := getInode_root quiet
  have hwf : WellFormed (Server.init quiet) (newInode quiet FileType.dir.code) := wellFormed_of_empty rfl
  have he := enough_init quiet (by decide : blocksFor 1 ≤ _)
  have hlen : [(7 : UInt8)].length < 2 ^ 31 := by decide
  obtain ⟨ino', table, d', hl, hput⟩ := writeFile_eq quiet (Buf.ofList ([7] ++ [0]) quiet.tail) hroot hwf
    (needBlocks_bmod hlen) (by decide) he
  obtain ⟨ha, hs⟩ := put_byte_init
  have hspares := ((owned_init quiet).put quiet ha hs).2.spares (owned_init quiet)
  have hblock := hl.direct 0 (by decide) (by decide)
  have hnew : newBlock (Server.init quiet) (newInode quiet FileType.dir.code) 0 = 1028 := by
    have horigin : blockCount (newInode quiet FileType.dir.code).size.toNat = 0 := rfl
    rw [newBlock, horigin, freeBlocks_init]
    rfl
  refine ⟨ino'.written quiet (Int.bmod [(7 : UInt8)].length (2 ^ 32)), ?_,
    ino'.toNat_size_written quiet hlen, ?_, ?_⟩
  · rw [Server.put, hput]
    exact hl.getInode_put hroot quiet _ _
  · rw [Inode.block_written, hblock, hnew]
  · rw [hspares.inode 2 (by decide), getInode_init, if_neg (by decide)]

/-- A runtime in which a fresh inode comes with stale block ids. -/
def stale : Runtime := { quiet with fresh := fun _ => 1028 }

theorem create_put_byte :
    (Server.create stale FileType.file.code (Server.put quiet 1 [7] (Server.init quiet))).2 =
      putInode stale 2 (newInode stale FileType.file.code)
        (Server.put quiet 1 [7] (Server.init quiet)) := by
  obtain ⟨ino, hone, -, -, htwo⟩ := inodes_put_byte
  have hrange : List.range' 1 (inodeNum - 1) = 1 :: 2 :: List.range' 3 (inodeNum - 3) := rfl
  have hnext : nextInode (Server.put quiet 1 [7] (Server.init quiet)) = some 2 := by
    rw [nextInode, hrange, List.find?_cons_of_neg, List.find?_cons_of_pos]
    · change (getInode _ 2).isNone = true
      rw [htwo, Option.isNone_none]
    · change ¬(getInode _ 1).isNone = true
      rw [hone]
      simp
  simp only [Server.create, allocInode, hnext]
  rfl

private theorem getInode_create_put_byte {ino : Inode}
    (hone : getInode (Server.put quiet 1 [7] (Server.init quiet)) 1 = some ino) {d : Disk}
    (hd : d = (Server.create stale FileType.file.code (Server.put quiet 1 [7] (Server.init quiet))).2) :
    getInode d 1 = some ino ∧ getInode d 2 = some (newInode stale FileType.file.code) := by
  rw [hd, create_put_byte]
  constructor
  · rw [getInode_putInode (by decide), if_neg (by decide), hone]
  · rw [getInode_putInode (by decide), if_pos rfl, if_neg]
    exact (by decide : FileType.file.code.toUInt16 ≠ 0)

open Request in
/-- The root is written before and after a file is made. -/
theorem Server.owned_of_run_three : ∃ d ino,
    d = (Server.create stale FileType.file.code (Server.put quiet 1 [7] (Server.init quiet))).2 ∧
    getInode d 1 = some ino ∧ getInode d 2 = some (newInode stale FileType.file.code) ∧
    Relation.ReflTransGen SoundStep (Server.init quiet) (Server.put quiet 1 [8] d) ∧
    Owned (Server.put quiet 1 [8] d) ∧
    ∀ rt rt' rt'', (Server.get rt' 2 (Server.put rt 1 [8] d)).1 = (Server.get rt'' 2 d).1 := by
  obtain ⟨ino, hput, hsize, -, -⟩ := inodes_put_byte
  obtain ⟨d, hd⟩ : ∃ d, d = (Server.create stale FileType.file.code
      (Server.put quiet 1 [7] (Server.init quiet))).2 := ⟨_, rfl⟩
  obtain ⟨hone, htwo⟩ := getInode_create_put_byte hput hd
  have hrun : Relation.ReflTransGen SoundStep (Server.init quiet) d := by
    have hfirst : SoundStep (Server.init quiet) (Server.put quiet 1 [7] (Server.init quiet)) :=
      ⟨quiet, .put 1 [7], put_byte_init.1, put_byte_init.2, rfl⟩
    exact (Relation.ReflTransGen.single hfirst).tail ⟨stale, .create .file, trivial, trivial, hd ▸ rfl⟩
  have hneed : needBlocks (Int.bmod [(8 : UInt8)].length (2 ^ 32)) = 1 := needBlocks_bmod (by decide)
  have hallowed : Allowed d (.put 1 [8]) := by
    intro ino' hino' _
    cases hone.symm.trans hino'
    rw [hneed, grownBy, hsize]
    exact Nat.zero_le _
  have hsound : Sound d (.put 1 [8]) := fun ino' _ => ⟨by decide, fun _ hn => absurd hn (by decide)⟩
  obtain ⟨-, hothers⟩ := Server.owned_of_run hrun
  have hlast := hrun.tail ⟨quiet, .put 1 [8], hallowed, hsound, rfl⟩
  exact ⟨d, ino, hd, hone, htwo, hlast, (Server.owned_of_run hlast).1,
    hothers 1 2 [8] (by decide) hallowed hsound⟩

open Request in
/-- An empty file is removed whose `blocks[0]`, never initialised, is the block of another file:
the block of the other file becomes free. -/
theorem Server.owned_lost :
    Relation.ReflTransGen Step (Server.init quiet) (Server.remove quiet 2 (Server.create stale
        FileType.file.code (Server.put quiet 1 [7] (Server.init quiet))).2) ∧
      ¬Owned (Server.remove quiet 2 (Server.create stale FileType.file.code
        (Server.put quiet 1 [7] (Server.init quiet))).2) := by
  constructor
  · have hput : Step (Server.init quiet) (Server.put quiet 1 [7] (Server.init quiet)) :=
      ⟨quiet, .put 1 [7], put_byte_init.1, rfl⟩
    exact ((Relation.ReflTransGen.single hput).tail ⟨stale, .create .file, trivial, rfl⟩).tail
      ⟨quiet, .remove 2, trivial, rfl⟩
  · rw [create_put_byte]
    obtain ⟨ino, hone, hsize, hblock, -⟩ := inodes_put_byte
    generalize Server.put quiet 1 [7] (Server.init quiet) = d at hone
    have htwo : getInode (putInode stale 2 (newInode stale FileType.file.code) d) (maskId 2) =
        some (newInode stale FileType.file.code) := by
      rw [getInode_putInode (by decide), if_pos (by decide), if_neg]
      exact (by decide : FileType.file.code.toUInt16 ≠ 0)
    have hids : removeIds quiet (putInode stale 2 (newInode stale FileType.file.code) d)
        (newInode stale FileType.file.code) = [1028] := rfl
    have hlt : ∀ id ∈ [(1028 : UInt32)], id.toNat < bpb := by
      intro id hid
      rw [List.mem_singleton.1 hid]
      decide
    intro hown
    rw [Server.remove, removeFile_eq quiet htwo, hids, freeInode] at hown
    have hsame : getInode ((putInode stale 2 (newInode stale FileType.file.code) d).unmark [1028])
        (maskId 2) = some (newInode stale FileType.file.code) := by
      rw [← htwo]
      exact getInode_congr fun _ k _ => by rw [Disk.unmark_of_ne (by omega) hlt]
    rw [hsame] at hown
    have hroot : getInode (putInode quiet (maskId 2) ⟨0, 0, 0, 0, 0, fun _ => 0⟩
        ((putInode stale 2 (newInode stale FileType.file.code) d).unmark [1028])) 1 = some ino := by
      rw [← hone]
      refine getInode_congr fun _ k _ => ?_
      rw [putInode_of_ne (by decide), Disk.unmark_of_ne (by decide) hlt, putInode_of_ne (by decide)]
    have hmem : (1028 : ℕ) ∈ blockList (putInode quiet (maskId 2) ⟨0, 0, 0, 0, 0, fun _ => 0⟩
        ((putInode stale 2 (newInode stale FileType.file.code) d).unmark [1028])) ino := by
      rw [← hblock, ← blockId_of_lt (by decide : 0 < nDirect)]
      refine mem_blockList ?_
      rw [hsize]
      decide
    have hused := (hown.wellFormed 1 ino hroot).marked 1028 hmem
    rw [putInode_used, Disk.used_unmark (by decide) hlt] at hused
    simp at hused

end Yfs.Extent
