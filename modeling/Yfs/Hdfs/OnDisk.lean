import Yfs.Client.Table
import Yfs.Hdfs.Making
import Mathlib.Data.List.Find

/-! The disk of the extent server refines the map of files: one call on a disk whose files own their
blocks is one call on the map, as long as there is room and the inums are not cut. -/
namespace Yfs.Hdfs
open Yfs.Lib Yfs.Extent Yfs.Client

/-- The type that `getattr` shows. The server keeps it in a `short`. -/
def shownType (type : UInt16) : UInt32 := UInt32.ofNat (toUnsigned (Int.bmod type.toNat (2 ^ 16)))

/-- The files of a disk, under the inums that fit into the 31 bits the server looks at. -/
def filesOf (d : Disk) : Files := fun id =>
  if id.toNat < 2 ^ 31 then (fileOf d (maskId id)).map fun f => (shownType f.1, f.2) else none

def worldOf (s : Store) : World Unit := ⟨filesOf s.disk, fun id => if s.held id then some () else none⟩

/-- The calls that the disk serves as the map does. -/
def ServedAsMap (d : Disk) : Call → Prop
  | .create type => ∃ kind : FileType, type = kind.code
  | .get id => id.toNat < 2 ^ 31
  | .getattr id => id.toNat < 2 ^ 31
  | .put id buf => id.toNat < 2 ^ 31 ∧ Roomy d id buf
  | .remove id => id.toNat < 2 ^ 31 ∧ Request.Sound d (.remove id)
  | .acquire _ => True
  | .release _ => True
  | _ => False

section
variable {d d' : Disk} {id id' : UInt64}

theorem shownType_code (type : FileType) : shownType type.code.toUInt16 = type.code :=
  (attr_type_eq_code _ type).2 rfl

theorem maskId_inj (h : id.toNat < 2 ^ 31) (h' : id'.toNat < 2 ^ 31) : maskId id = maskId id' ↔ id = id' := by
  rw [← UInt32.toNat_inj, toNat_maskId, toNat_maskId, Nat.mod_eq_of_lt h, Nat.mod_eq_of_lt h',
    UInt64.toNat_inj]

theorem filesOf_of_lt (h : id.toNat < 2 ^ 31) :
    filesOf d id = (fileOf d (maskId id)).map fun f => (shownType f.1, f.2) := if_pos h

theorem text_filesOf (h : id.toNat < 2 ^ 31) : text (filesOf d id) = bytesOf d id := by
  rw [filesOf_of_lt h, text, bytesOf, Option.map_map]
  rfl

theorem dir_filesOf (h : id.toNat < 2 ^ 31) : (filesOf d).dir id = dirText d id := by
  rw [Files.dir, filesOf_of_lt h, dirText_eq_fileOf]
  cases fileOf d (maskId id) with
  | none => rfl
  | some f =>
    have htype : shownType f.1 = FileType.dir.code ↔ f.1 = FileType.dir.code.toUInt16 :=
      attr_type_eq_code f.1 .dir
    change (if shownType f.1 = FileType.dir.code then some f.2 else none) = _
    simp only [htype, Option.bind_some]

theorem filesOf_update (hid : id.toNat < 2 ^ 31) {v : Option (UInt16 × Str)}
    (h : ∀ j, fileOf d' j = if j = maskId id then v else fileOf d j) :
    filesOf d' = Function.update (filesOf d) id (v.map fun f => (shownType f.1, f.2)) := by
  funext k
  by_cases hk : k = id
  · rw [hk, Function.update_self, filesOf_of_lt hid, h, if_pos rfl]
  · rw [Function.update_of_ne hk, filesOf, filesOf]
    split_ifs with hlt
    · rw [h, if_neg fun heq => hk ((maskId_inj hlt hid).1 heq)]
    · rfl

theorem maskId_ofNat {n : ℕ} (h : n < 2 ^ 31) : maskId (UInt64.ofNat n) = UInt32.ofNat n := by
  rw [← UInt32.toNat_inj, toNat_maskId, UInt64.toNat_ofNat', UInt32.toNat_ofNat']
  omega

theorem firstFree_filesOf (d : Disk) : (filesOf d).firstFree = (nextInode d).map UInt64.ofNat := by
  have hsame : ∀ n ∈ List.range' 1 (inodeNum - 1),
      (filesOf d (UInt64.ofNat n)).isNone = (fileOf d (UInt32.ofNat n)).isNone := by
    intro n hn
    have hlt : n < 2 ^ 31 := by
      rw [List.mem_range'_1, inodeNum] at hn
      omega
    have hnat : (UInt64.ofNat n).toNat < 2 ^ 31 := by
      rw [UInt64.toNat_ofNat']
      omega
    rw [filesOf_of_lt hnat, Option.isNone_map, maskId_ofNat hlt]
  rw [Files.firstFree, nextInode_eq_find, List.find?_congr hsame]

theorem alloc_filesOf (hown : Owned d) (rt : Runtime) (type : FileType) :
    (filesOf d).alloc type.code =
      ((Server.create rt type.code d).1, filesOf (Server.create rt type.code d).2) := by
  rw [Files.alloc, firstFree_filesOf]
  cases hnext : nextInode d with
  | none =>
    simp only [Server.create, allocInode, hnext]
    rfl
  | some n =>
    obtain ⟨hnat, -, hlt⟩ := toNat_ofNat_nextInode hnext
    have hsmall : n < 2 ^ 31 := hlt.trans (by decide)
    have hid : (UInt32.ofNat n).toUInt64 = UInt64.ofNat n := by
      rw [← UInt64.toNat_inj, UInt32.toNat_toUInt64, hnat, UInt64.toNat_ofNat']
      omega
    have hids : (UInt64.ofNat n).toNat < 2 ^ 31 := by
      rw [← hid, UInt32.toNat_toUInt64, hnat]
      exact hsmall
    have hfiles := filesOf_update hids fun j =>
      (maskId_ofNat hsmall).symm ▸ fileOf_create hown rt type hnext j
    rw [Server.create_eq rt type.code hnext, hid] at hfiles ⊢
    rw [hfiles, Option.map_some, Option.map_some, shownType_code]

theorem filesOf_put (hown : Owned d) (rt : Runtime) (hid : id.toNat < 2 ^ 31) {buf : Str}
    (h : Roomy d id buf) : filesOf (Server.put rt id buf d) = (filesOf d).put id buf := by
  have hfiles : ∀ j, fileOf (Server.put rt id buf d) j =
      if j = maskId id then (fileOf d (maskId id)).map (fun f => (f.1, buf)) else fileOf d j := by
    intro j
    rw [(fileOf_put hown rt h).2.1]
    split_ifs with hj
    · rw [hj]
    · rfl
  rw [filesOf_update hid hfiles, Files.put, filesOf_of_lt hid, Option.map_map, Option.map_map]
  rfl

theorem Touched.filesOf_eq (h : Touched d d') (hown : Owned d) : filesOf d' = filesOf d := by
  unfold filesOf
  rw [h.fileOf_eq hown]

theorem getattr_filesOf (h : id.toNat < 2 ^ 31) : (Server.getattr id d).type = typeOf (filesOf d id) ∧
    (Server.getattr id d).size = UInt32.ofNat (text (filesOf d id)).length := by
  rw [Server.getattr, Extent.getattr, filesOf_of_lt h, fileOf]
  cases getInode d (maskId id) with
  | none => exact ⟨rfl, rfl⟩
  | some ino =>
    refine ⟨rfl, ?_⟩
    change ino.size = UInt32.ofNat (fileBytes d ino).length
    rw [fileBytes, Buf.length_toList, UInt32.ofNat_toNat]

end

section
variable {s s' : Store}

private theorem lock_worldOf_update (s : Store) (lid : UInt64) (b : Bool) :
    (fun id => if Function.update s.held lid b id then some () else none) =
      Function.update (worldOf s).lock lid (if b then some () else none) := by
  funext id
  by_cases hid : id = lid
  · rw [hid, Function.update_self, Function.update_self]
  · rw [Function.update_of_ne hid, Function.update_of_ne hid]
    rfl

theorem table_of_serve (hown : Owned s.disk) {c : Call} (hserved : ServedAsMap s.disk c) {r : Reply c}
    (h : Store.serve c s = some (r, s')) :
    World.table () c (worldOf s) r (worldOf s') ∧ Owned s'.disk := by
  cases c with
  | create type =>
    obtain ⟨kind, rfl⟩ := hserved
    have hserve : Store.serve (.create kind.code) s = some ((.ok, (Server.create s.now kind.code s.disk).1),
        s.next (Server.create s.now kind.code s.disk).2) := rfl
    rw [hserve] at h
    cases h
    have halloc := alloc_filesOf hown s.now kind
    refine ⟨⟨?_, ?_⟩, hown.create s.now kind⟩
    · rw [worldOf, halloc]
    · rw [worldOf, worldOf, halloc]
      rfl
  | get id =>
    obtain ⟨s₁, hget, hsame⟩ := serve_get hown id
    cases hget.symm.trans h
    refine ⟨⟨⟨?_, hsame.touched.filesOf_eq hown⟩, ?_⟩, hsame.touched.owned hown⟩
    · rw [worldOf, text_filesOf hserved]
    · rw [worldOf, worldOf, hsame.held]
  | getattr id =>
    cases h
    obtain ⟨htype, hsize⟩ := getattr_filesOf (d := s.disk) hserved
    exact ⟨⟨⟨rfl, htype, hsize, rfl⟩, rfl⟩, hown⟩
  | put id buf =>
    obtain ⟨hid, hroom⟩ := hserved
    cases h
    exact ⟨⟨⟨rfl, filesOf_put hown s.now hid hroom⟩, rfl⟩, (fileOf_put hown s.now hroom).1⟩
  | remove id =>
    obtain ⟨hid, hsound⟩ := hserved
    cases h
    exact ⟨⟨⟨rfl, filesOf_update hid (fileOf_remove hown s.now hsound)⟩, rfl⟩, hown.remove s.now hsound⟩
  | acquire lid =>
    obtain ⟨hfree, h⟩ := Option.ite_none_left_eq_some.1 h
    cases h
    refine ⟨⟨if_neg hfree, ?_⟩, hown⟩
    rw [worldOf, lock_worldOf_update s lid true]
    rfl
  | release lid =>
    obtain ⟨hheld, h⟩ := Option.ite_none_right_eq_some.1 h
    cases h
    refine ⟨⟨if_pos hheld, ?_⟩, hown⟩
    rw [worldOf, lock_worldOf_update s lid false]
    rfl
  | _ => exact hserved.elim

/-- A call on a disk whose files own their blocks, with room for it. -/
def Acts (c : Call) (s : Store) (r : Reply c) (s' : Store) : Prop :=
  Owned s.disk ∧ ServedAsMap s.disk c ∧ Store.serve c s = some (r, s')

/-- Only a lock is waited for. -/
theorem exists_acts (hown : Owned s.disk) {c : Call} (h : ServedAsMap s.disk c)
    (hlock : ∀ lid, (c = .acquire lid → s.held lid = false) ∧ (c = .release lid → s.held lid = true)) :
    ∃ r s', Acts c s r s' := by
  cases c with
  | create type => exact ⟨_, _, hown, h, rfl⟩
  | get id =>
    obtain ⟨s', hget, -⟩ := serve_get hown id
    exact ⟨_, s', hown, h, hget⟩
  | getattr id => exact ⟨_, _, hown, h, rfl⟩
  | put id buf => exact ⟨_, _, hown, h, rfl⟩
  | remove id => exact ⟨_, _, hown, h, rfl⟩
  | acquire lid =>
    have hfree : s.held lid = false := (hlock lid).1 rfl
    exact ⟨(), _, hown, h, if_neg (Bool.eq_false_iff.1 hfree)⟩
  | release lid => exact ⟨(), _, hown, h, if_pos ((hlock lid).2 rfl)⟩
  | _ => exact h.elim

end
end Yfs.Hdfs
