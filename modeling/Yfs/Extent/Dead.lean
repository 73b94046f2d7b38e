import Yfs.Extent.Full
import Yfs.Extent.Remove

/-! The requests of `extent_server` that name an inode, on ids that name none. The server keeps 31 bits
of an id, and `complete` 32, so that a large one can reach an inode with another number. -/
namespace Yfs.Extent
open Yfs.Lib

inductive InodeRequest where
  | get
  | put (buf : List UInt8)
  | getattr
  | remove
  | appendBlock
  | getBlockIds
  | complete (size : UInt32)
  deriving DecidableEq

/-- What comes back besides the status. `block none` is a block id that was not assigned. -/
inductive InodeReply where
  | nothing
  | bytes (buf : List UInt8)
  | attr (a : Attr)
  | block (bid : Option UInt32)
  | ids (l : List UInt32)
  deriving DecidableEq

/-- No inode in use has the number `id`. -/
def Dead (d : Disk) (id : UInt64) : Prop := ∀ inum : UInt32, inum.toUInt64 = id → getInode d inum = none

/-- Without its high bits `id` is not the number of another inode. -/
def NoAlias (id : UInt64) : Prop := id.toNat < 2 ^ 31 ∨ inodeNum ≤ id.toNat % 2 ^ 31

namespace InodeRequest

/-- The reply and the disk after the request; `none` if the server crashes. -/
def run (rt : Runtime) (id : UInt64) (d : Disk) : InodeRequest → Option (InodeReply × Disk)
  | .get => (Server.get rt id d).1.map fun buf => (.bytes buf, (Server.get rt id d).2)
  | .put buf => some (.nothing, Server.put rt id buf d)
  | .getattr => some (.attr (Server.getattr id d), d)
  | .remove => some (.nothing, Server.remove rt id d)
  | .appendBlock => some (.block (Server.appendBlock rt id d).1, (Server.appendBlock rt id d).2)
  | .getBlockIds => (Server.getBlockIds rt id d).map fun l => (.ids l, d)
  | .complete size => (Server.complete rt id size d).map fun d => (.nothing, d)

/-- The request returns and leaves the whole disk as it is; `get` and `get_block_ids` find nothing. -/
def Ignored (rt : Runtime) (id : UInt64) (d : Disk) (r : InodeRequest) : Prop :=
  ∃ reply, r.run rt id d = some (reply, d) ∧ (r = .get → reply = .bytes []) ∧
    (r = .getBlockIds → reply = .ids [])

/-- The requests that do no harm on a dead id. `get_block_ids` and `complete` do not check the inode;
`getattr` changes nothing in any case, and a `put` that is too long neither. -/
def SafeOnDead (id : UInt64) : InodeRequest → Prop
  | .getBlockIds => False
  | .complete _ => False
  | .getattr => True
  | .put buf => NoAlias id ∨ maxFile < needBlocks (Int.bmod buf.length (2 ^ 32))
  | _ => NoAlias id

end InodeRequest

section
variable {d : Disk} {id : UInt64}

private theorem Dead.getInode_maskId (h : Dead d id) (halias : NoAlias id) :
    getInode d (maskId id) = none := by
  rcases halias with hlt | hle
  · apply h
    rw [← UInt64.toNat_inj, UInt32.toNat_toUInt64, toNat_maskId, Nat.mod_eq_of_lt hlt]
  · exact getInode_of_le (by rwa [toNat_maskId])

private theorem getInode_toUInt32 (h : getInode d (maskId id) = none) : getInode d id.toUInt32 = none := by
  by_cases hlt : id.toUInt32.toNat < inodeNum
  · have hsame : id.toUInt32 = maskId id := by
      rw [← UInt32.toNat_inj, toNat_maskId]
      rw [UInt64.toNat_toUInt32, inodeNum] at *
      omega
    rw [hsame, h]
  · exact getInode_of_le (Nat.not_lt.1 hlt)

private theorem InodeRequest.ignored_of_run {rt : Runtime} {r : InodeRequest} {reply : InodeReply}
    (h : r.run rt id d = some (reply, d)) (hget : r ≠ .get) (hids : r ≠ .getBlockIds) : r.Ignored rt id d :=
  ⟨reply, h, fun hr => absurd hr hget, fun hr => absurd hr hids⟩

private theorem InodeRequest.not_ignored_of_crash {rt : Runtime} {r : InodeRequest}
    (h : r.run rt id d = none) : ¬r.Ignored rt id d := by
  rintro ⟨reply, hrun, -, -⟩
  cases h.symm.trans hrun

private theorem getBlockIds_crash (rt : Runtime) (h : getInode d (maskId id) = none) :
    InodeRequest.getBlockIds.run rt id d = none := by
  rw [InodeRequest.run, Server.getBlockIds, getBlockIds, h]
  rfl

private theorem complete_crash (rt : Runtime) (h : getInode d (maskId id) = none) (size : UInt32) :
    (InodeRequest.complete size).run rt id d = none := by
  rw [InodeRequest.run, Server.complete, complete, getInode_toUInt32 h]
  rfl

theorem InodeRequest.ignored_of_none (rt : Runtime) (h : getInode d (maskId id) = none) {r : InodeRequest}
    (hharm : r.SafeOnDead id) : r.Ignored rt id d := by
  cases r with
  | get =>
    have hget : Server.get rt id d = (some [], d) := by rw [Server.get, readFile, h]
    refine ⟨.bytes [], ?_, fun _ => rfl, fun hr => InodeRequest.noConfusion hr⟩
    rw [InodeRequest.run, hget, Option.map_some]
  | put buf =>
    have hput : Server.put rt id buf d = d := by rw [Server.put, writeFile, h]
    have hrun : (InodeRequest.put buf).run rt id d = some (.nothing, d) := by rw [InodeRequest.run, hput]
    exact InodeRequest.ignored_of_run hrun (fun h => by cases h) fun h => by cases h
  | getattr =>
    have hrun : InodeRequest.getattr.run rt id d = some (.attr (Server.getattr id d), d) := rfl
    exact InodeRequest.ignored_of_run hrun (fun h => by cases h) fun h => by cases h
  | remove =>
    have hremove : Server.remove rt id d = d := by rw [Server.remove, removeFile, h]
    have hrun : InodeRequest.remove.run rt id d = some (.nothing, d) := by rw [InodeRequest.run, hremove]
    exact InodeRequest.ignored_of_run hrun (fun h => by cases h) fun h => by cases h
  | appendBlock =>
    have happend : Server.appendBlock rt id d = (none, d) := by rw [Server.appendBlock, Extent.appendBlock, h]
    have hrun : InodeRequest.appendBlock.run rt id d = some (.block none, d) := by
      rw [InodeRequest.run, happend]
    exact InodeRequest.ignored_of_run hrun (fun h => by cases h) fun h => by cases h
  | getBlockIds => exact hharm.elim
  | complete size => exact hharm.elim

/-- Where the masked id is that of an inode in use, only a `put` that is too long and `getattr` do
nothing. -/
theorem InodeRequest.ignored_of_alias (rt : Runtime) (halias : ¬NoAlias id) {r : InodeRequest}
    (hharm : r.SafeOnDead id) (d : Disk) : r.Ignored rt id d := by
  cases r with
  | getattr =>
    have hrun : InodeRequest.getattr.run rt id d = some (.attr (Server.getattr id d), d) := rfl
    exact InodeRequest.ignored_of_run hrun (fun h => by cases h) fun h => by cases h
  | put buf =>
    have hput : Server.put rt id buf d = d := by
      cases hino : getInode d (maskId id) with
      | none => rw [Server.put, writeFile, hino]
      | some ino => exact writeFile_of_lt rt _ hino (hharm.resolve_left halias)
    have hrun : (InodeRequest.put buf).run rt id d = some (.nothing, d) := by rw [InodeRequest.run, hput]
    exact InodeRequest.ignored_of_run hrun (fun h => by cases h) fun h => by cases h
  | get => exact (halias hharm).elim
  | remove => exact (halias hharm).elim
  | appendBlock => exact (halias hharm).elim
  | getBlockIds => exact hharm.elim
  | complete size => exact hharm.elim

end

section
variable {rt : Runtime} {id : UInt64} {d : Disk} {ino : Inode}

/-- A disk with one inode, in the place of the masked id. -/
def aliasDisk (rt : Runtime) (id : UInt64) (size : UInt32) : Disk :=
  putInode rt (maskId id) ⟨FileType.file.code.toUInt16, size, 0, 0, 0, fun _ => 0⟩ Disk.new

private theorem maskId_lt (halias : ¬NoAlias id) : (maskId id).toNat < inodeNum := by
  rw [toNat_maskId]
  exact Nat.not_le.1 fun hle => halias (.inr hle)

private theorem getInode_aliasDisk (halias : ¬NoAlias id) (size : UInt32) (j : UInt32) :
    getInode (aliasDisk rt id size) j =
      if j = maskId id then some ⟨FileType.file.code.toUInt16, size, 0, 0, 0, fun _ => 0⟩ else none := by
  rw [aliasDisk, getInode_putInode (maskId_lt halias), getInode_new]
  exact if_congr Iff.rfl (if_neg (show ¬FileType.file.code.toUInt16 = 0 by decide)) rfl

private theorem dead_aliasDisk (halias : ¬NoAlias id) (size : UInt32) : Dead (aliasDisk rt id size) id := by
  intro inum hid
  rw [getInode_aliasDisk halias, if_neg]
  rintro rfl
  have hlt := maskId_lt halias
  rw [← UInt32.toNat_toUInt64, hid, inodeNum] at hlt
  exact halias (.inl (hlt.trans (by decide)))

private theorem InodeRequest.not_ignored_of_changes {r : InodeRequest} {reply : InodeReply} {d' : Disk}
    (hrun : r.run rt id d = some (reply, d')) (hlive : getInode d' (maskId id) ≠ getInode d (maskId id)) :
    ¬r.Ignored rt id d := by
  rintro ⟨reply', hrun', -, -⟩
  have hsame := (Prod.mk.inj (Option.some.inj (hrun.symm.trans hrun'))).2
  exact hlive (by rw [hsame])

private theorem not_ignored_get (hino : getInode d (maskId id) = some ino) (hsize : ino.size = 1) :
    ¬InodeRequest.get.Ignored rt id d := by
  rintro ⟨reply, hrun, hbytes, -⟩
  rw [hbytes rfl, InodeRequest.run, Option.map_eq_some_iff] at hrun
  obtain ⟨buf, hbuf, hreply⟩ := hrun
  have hnil : buf = [] := InodeReply.bytes.inj (Prod.mk.inj hreply).1
  rw [Server.get, readFile, hino] at hbuf
  have hone : Int.bmod (1 : UInt32).toNat (2 ^ 32) = 1 := by decide
  dsimp only at hbuf
  rw [hsize, hone, if_neg (by decide), Option.some.injEq, hnil] at hbuf
  exact absurd (congrArg List.length hbuf) (by rw [Buf.length_toList]; decide)

private theorem not_ignored_put (hino : getInode d (maskId id) = some ino) {buf : List UInt8}
    (hmax : needBlocks (Int.bmod buf.length (2 ^ 32)) ≤ maxFile)
    (hsize : ino.size ≠ UInt32.ofNat (toUnsigned (Int.bmod buf.length (2 ^ 32)))) :
    ¬(InodeRequest.put buf).Ignored rt id d := by
  refine InodeRequest.not_ignored_of_changes rfl ?_
  obtain ⟨ino', d', htype, heq⟩ := writeFile_stores rt (Buf.ofList (buf ++ [0]) rt.tail) hino hmax
  rw [Server.put, heq, getInode_putInode (getInode_lt hino), if_pos rfl, if_neg, hino]
  · intro hsame
    exact hsize (congrArg Inode.size (Option.some.inj hsame)).symm
  · rw [Inode.type_written, htype]
    exact getInode_type hino

private theorem getInode_remove (hino : getInode d (maskId id) = some ino) :
    getInode (Server.remove rt id d) (maskId id) = none := by
  rw [Server.remove, removeFile, hino]
  dsimp only
  generalize (if ino.size.toNat % blockSize ≠ 0 then ino.size.toNat / blockSize
    else ino.size.toNat / blockSize + 1) = n
  split_ifs
  · rw [getInode_freeInode, if_pos rfl]
  · rw [getInode_freeInode, if_pos rfl]

private theorem not_ignored_remove (hino : getInode d (maskId id) = some ino) :
    ¬InodeRequest.remove.Ignored rt id d := by
  refine InodeRequest.not_ignored_of_changes rfl ?_
  rw [getInode_remove hino, hino]
  exact Option.some_ne_none ino ∘ Eq.symm

private theorem not_ignored_appendBlock (hino : getInode d (maskId id) = some ino) (hsize : ino.size = 1) :
    ¬InodeRequest.appendBlock.Ignored rt id d := by
  have hindex : blockCount (1 : UInt32).toNat = 1 := by decide
  have hgrow : (Server.appendBlock rt id d).2 = putInode rt (maskId id)
      { ino.setBlock 1 d.allocBlock.1 with size := ino.size + UInt32.ofNat blockSize } d.allocBlock.2 := by
    rw [Server.appendBlock, appendBlock, hino]
    dsimp only
    rw [hsize, hindex, if_neg (by decide), if_pos (by decide)]
  refine InodeRequest.not_ignored_of_changes rfl ?_
  rw [hgrow, getInode_putInode (getInode_lt hino), if_pos rfl, if_neg, hino]
  · intro hsame
    have hsum := congrArg Inode.size (Option.some.inj hsame)
    dsimp only at hsum
    rw [hsize] at hsum
    exact absurd hsum (by decide)
  · have htype := getInode_type hino
    exact htype

end

/-- Which requests are harmless on every disk where `id` is the number of no inode. -/
theorem ignored_iff (rt : Runtime) (id : UInt64) (r : InodeRequest) :
    (∀ d, Dead d id → r.Ignored rt id d) ↔ r.SafeOnDead id := by
  constructor
  · intro h
    have hnew : Dead Disk.new id := fun inum _ => getInode_new inum
    -- the cases that need an inode under the masked id, of one byte or of another size than the new one
    have hone : ¬NoAlias id → Dead (aliasDisk rt id 1) id := fun halias => dead_aliasDisk halias 1
    cases r with
    | get =>
      by_contra halias
      exact not_ignored_get ((getInode_aliasDisk halias 1 _).trans (if_pos rfl)) rfl (h _ (hone halias))
    | put buf =>
      by_contra hharm
      obtain ⟨halias, hmax⟩ := not_or.1 hharm
      let size := UInt32.ofNat (toUnsigned (Int.bmod buf.length (2 ^ 32)))
      have hne : size + 1 ≠ size := by
        intro hsame
        have hsucc := congrArg UInt32.toNat hsame
        rw [UInt32.toNat_add, UInt32.toNat_one] at hsucc
        omega
      exact not_ignored_put ((getInode_aliasDisk halias _ _).trans (if_pos rfl)) (Nat.not_lt.1 hmax) hne
        (h (aliasDisk rt id (size + 1)) (dead_aliasDisk halias _))
    | getattr => trivial
    | remove =>
      by_contra halias
      exact not_ignored_remove ((getInode_aliasDisk halias 1 _).trans (if_pos rfl)) (h _ (hone halias))
    | appendBlock =>
      by_contra halias
      exact not_ignored_appendBlock ((getInode_aliasDisk halias 1 _).trans (if_pos rfl)) rfl
        (h _ (hone halias))
    | getBlockIds =>
      exact InodeRequest.not_ignored_of_crash (getBlockIds_crash rt (getInode_new _)) (h _ hnew)
    | complete size =>
      exact InodeRequest.not_ignored_of_crash (complete_crash rt (getInode_new _) size) (h _ hnew)
  · intro hharm d hdead
    by_cases halias : NoAlias id
    · exact InodeRequest.ignored_of_none rt (hdead.getInode_maskId halias) hharm
    · exact InodeRequest.ignored_of_alias rt halias hharm d

private theorem dead_init {id : UInt64} (hid : id ≠ 1) : Dead (Server.init quiet) id := by
  intro inum hinum
  rw [getInode_init, if_neg]
  rintro rfl
  exact hid hinum.symm

theorem ignored_iff_put : Dead (Server.init quiet) 2 ∧
    (InodeRequest.put [7]).Ignored quiet 2 (Server.init quiet) :=
  ⟨dead_init (by decide), (ignored_iff quiet 2 (.put [7])).2 (.inl (.inl (by decide))) _
    (dead_init (by decide))⟩

/-- Two requests use the null pointer on inode 2 of a fresh disk, and the removal of a number that is
too large for an inode removes the root. -/
theorem dead_inode_crash :
    (Dead (Server.init quiet) 2 ∧ InodeRequest.getBlockIds.run quiet 2 (Server.init quiet) = none ∧
      (InodeRequest.complete 0).run quiet 2 (Server.init quiet) = none) ∧
    (Dead (Server.init quiet) 0x80000001 ∧ getInode (Server.init quiet) 1 ≠ none ∧
      getInode (Server.remove quiet 0x80000001 (Server.init quiet)) 1 = none ∧
      ¬InodeRequest.remove.Ignored quiet 0x80000001 (Server.init quiet)) := by
  have hmask : maskId 2 = 2 := by decide
  have hnone : getInode (Server.init quiet) (maskId 2) = none :=
    dead_init (show (2 : UInt64) ≠ 1 by decide) (maskId 2) (by rw [hmask]; rfl)
  have hroot : getInode (Server.init quiet) (maskId 0x80000001) =
      some (newInode quiet FileType.dir.code) := by
    rw [getInode_init, if_pos (by decide)]
  have hone : maskId 0x80000001 = 1 := by decide
  refine ⟨⟨dead_init (by decide), getBlockIds_crash quiet hnone, complete_crash quiet hnone 0⟩,
    dead_init (by decide), ?_, ?_, not_ignored_remove hroot⟩
  · rw [← hone, hroot]
    exact Option.some_ne_none _
  · rw [← hone]
    exact getInode_remove hroot

end Yfs.Extent
