import Yfs.Hdfs.Lookup

/-! A file that grows block by block: what the requests of the HDFS write path do to it on the
disk. -/
namespace Yfs.Hdfs
open Yfs.Lib Yfs.Extent Yfs.Client

/-- File `inum` is a regular file that consists of the full blocks `ids`. -/
structure FullBlocks (d : Disk) (inum : UInt32) (ids : List ℕ) : Prop where
  owned : Owned d
  file : ∃ ino, getInode d inum = some ino ∧ ino.type = FileType.file.code.toUInt16 ∧
    ino.size.toNat = ids.length * blockSize ∧ dataBlocks d ino = ids

def room (d : Disk) (ids : List ℕ) : ℕ := blocksFor ids.length + d.freeBlocks.length

theorem maskId_toUInt64 {inum : UInt32} (h : inum.toNat < inodeNum) : maskId inum.toUInt64 = inum := by
  have hlt : inum.toNat < 2 ^ 31 := h.trans (by decide)
  rw [← UInt32.toNat_inj, toNat_maskId, UInt32.toNat_toUInt64, Nat.mod_eq_of_lt hlt]

theorem dirText_of_spares {d d' : Disk} {inum : UInt32} (hown : Owned d) (hsp : Spares d d' inum)
    (hd : ∀ ino, getInode d inum = some ino → ino.type ≠ FileType.dir.code.toUInt16)
    (hd' : ∀ ino, getInode d' inum = some ino → ino.type ≠ FileType.dir.code.toUInt16) :
    dirText d' = dirText d := by
  have hnone : ∀ (d : Disk) (id : UInt64), maskId id = inum →
      (∀ ino, getInode d inum = some ino → ino.type ≠ FileType.dir.code.toUInt16) →
      dirText d id = none := by
    intro d id hid hd
    rw [dirText, hid]
    cases hino : getInode d inum with
    | none => rfl
    | some ino => rw [Option.bind_some, if_neg (hd ino hino)]
  funext id
  by_cases hid : maskId id = inum
  · rw [hnone d' id hid hd', hnone d id hid hd]
  · unfold dirText
    rw [hsp.inode _ hid]
    cases hino : getInode d (maskId id) with
    | none => rfl
    | some ino =>
      have hbytes := (hown.wellFormed _ ino hino).fileBytes_congr (hsp.same _ ino hid hino)
      rw [Option.bind_some, Option.bind_some, hbytes]

section
variable {d : Disk} {inum : UInt32} {ino : Inode} {b : ℕ}

/-! Writing over a data block of a file. -/

theorem getInode_writeBlock (hb : Disk.firstData ≤ b) (buf : Buf) (i : UInt32) :
    getInode (d.writeBlock b buf) i = getInode d i := by
  refine getInode_congr fun hi k _ => ?_
  have hlt := inodeBlock_lt hi
  rw [Disk.writeBlock_of_ne (by omega)]

theorem used_writeBlock (hb : Disk.firstData ≤ b) {c : ℕ} (hc : c < bpb) (buf : Buf) :
    (d.writeBlock b buf).used c = d.used c := by
  rw [Disk.firstData_eq] at hb
  rw [Disk.used_writeBlock hc, if_neg (by omega)]

theorem marked_writeBlock (hown : Owned d) (hb : Disk.firstData ≤ b) (buf : Buf) {i : UInt32} {jno : Inode}
    (hjno : getInode d i = some jno) : ∀ c ∈ blockList d jno, (d.writeBlock b buf).used c = true := by
  intro c hc
  have hwf := hown.wellFormed i jno hjno
  rw [used_writeBlock hb ((hwf.data c hc).2.trans (by decide)), hwf.marked c hc]

theorem spares_writeBlock (hown : Owned d) (hino : getInode d inum = some ino) (hmem : b ∈ dataBlocks d ino)
    (buf : Buf) : Spares d (d.writeBlock b buf) inum := by
  have hlist : b ∈ blockList d ino := List.mem_append_left _ hmem
  have hlow := ((hown.wellFormed inum ino hino).data b hlist).1
  refine ⟨fun i _ => getInode_writeBlock hlow buf i, fun i jno hi hjno c hc => ?_,
    fun i jno _ => marked_writeBlock hown hlow buf⟩
  refine SameBlock.of_eq (Disk.writeBlock_of_ne fun heq => ?_)
  exact hown.disjoint i inum jno ino hi hjno hino c hc (heq ▸ hlist)

theorem dataBlocks_writeBlock (hwf : WellFormed d ino) (hmem : b ∈ dataBlocks d ino) (buf : Buf) :
    dataBlocks (d.writeBlock b buf) ino = dataBlocks d ino := by
  refine List.map_congr_left fun j hj => ?_
  unfold blockId
  split_ifs with hd
  · rfl
  · -- the table is not the block that is written
    have hn : nDirect < blockCount ino.size.toNat := by
      have hlt := List.mem_range.1 hj
      omega
    have hne := (List.nodup_append.1 hwf.nodup).2.2 b hmem (ino.block nDirect).toNat
      (by simp [tableBlocks, hn])
    rw [Disk.writeBlock_of_ne (Ne.symm hne)]

theorem owned_writeBlock (hown : Owned d) (hino : getInode d inum = some ino) (hmem : b ∈ dataBlocks d ino)
    (buf : Buf) : Owned (d.writeBlock b buf) := by
  have hwf := hown.wellFormed inum ino hino
  have hlow := (hwf.data b (List.mem_append_left _ hmem)).1
  have hlist : blockList (d.writeBlock b buf) ino = blockList d ino := by
    rw [blockList, dataBlocks_writeBlock hwf hmem, blockList]
  refine hown.step (spares_writeBlock hown hino hmem buf) fun ino' hino' => ?_
  rw [getInode_writeBlock hlow, hino] at hino'
  cases hino'
  rw [hlist]
  refine ⟨⟨?_, ?_, ?_⟩, fun c hc => .inl ⟨ino, hino, hc⟩⟩ <;> rw [hlist]
  exacts [hwf.nodup, hwf.data, marked_writeBlock hown hlow buf hino]

end

namespace FullBlocks
variable {d d' : Disk} {inum : UInt32} {ids : List ℕ}

theorem not_dir (h : FullBlocks d inum ids) :
    ∀ ino, getInode d inum = some ino → ino.type ≠ FileType.dir.code.toUInt16 := by
  obtain ⟨ino, hino, htype, -, -⟩ := h.file
  intro ino' hino'
  rw [hino] at hino'
  cases hino'
  rw [htype]
  decide

theorem data_lt (h : FullBlocks d inum ids) {b : ℕ} (hb : b ∈ ids) :
    Disk.firstData ≤ b ∧ b < blockNum ∧ d.used b = true := by
  obtain ⟨ino, hino, -, -, hids⟩ := h.file
  have hwf := h.owned.wellFormed inum ino hino
  have hmem : b ∈ blockList d ino := List.mem_append_left _ (hids ▸ hb)
  exact ⟨(hwf.data b hmem).1, (hwf.data b hmem).2, hwf.marked b hmem⟩

theorem length_le (h : FullBlocks d inum ids) : ids.length ≤ blockNum - Disk.firstData := by
  obtain ⟨ino, hino, -, hsize, -⟩ := h.file
  have hle := (h.owned.wellFormed inum ino hino).blockCount_le
  rwa [hsize, blockCount_mul] at hle

theorem touched (h : FullBlocks d inum ids) (ht : Touched d d') : FullBlocks d' inum ids := by
  refine ⟨ht.owned h.owned, ?_⟩
  obtain ⟨ino, hino, htype, hsize, hids⟩ := h.file
  obtain ⟨t, hinode⟩ := ht.inode inum
  have hwf := h.owned.wellFormed inum ino hino
  have hsame : ∀ b ∈ blockList d ino, SameBlock d d' b := fun b hb =>
    SameBlock.of_eq (ht.block b (.inr (hwf.data b hb).1))
  refine ⟨{ ino with atime := t }, ?_, htype, hsize, ?_⟩
  · rw [hinode, hino]
    rfl
  · rw [← hids]
    exact hwf.dataBlocks_congr hsame

theorem append (h : FullBlocks d inum ids) (rt : Runtime)
    (hroom : blocksFor (ids.length + 1) ≤ room d ids) :
    ∃ b d', Extent.appendBlock rt inum d = (some (UInt32.ofNat b), d') ∧ FullBlocks d' inum (ids ++ [b]) ∧
      (∀ c ∈ ids, d' c = d c) ∧ dirText d' = dirText d ∧ room d ids ≤ room d' (ids ++ [b]) := by
  obtain ⟨ino, hino, htype, hsize, hids⟩ := h.file
  have hwf := h.owned.wellFormed inum ino hino
  have hcount : blockCount ino.size.toNat = ids.length := by rw [hsize, blockCount_mul]
  have hfree : appendNeeds (blockCount ino.size.toNat) ≤ d.freeBlocks.length := by
    rw [blocksFor_succ, room] at hroom
    rw [hcount]
    omega
  obtain ⟨ino', d₁, happ, heq⟩ := appendBlock_eq rt hino hwf hfree
  have hlt := getInode_lt hino
  have hwf₁ := happ.wellFormed hwf hfree
  have hlocal := happ.isLocal hino hwf hfree
  have hown : Owned (putInode rt inum ino' d₁) := h.owned.putInode hlocal hlt hwf₁
    (fun b hb => happ.old_or_free hino hwf hfree hb) rt
  have hget : getInode (putInode rt inum ino' d₁) inum = some ino' := by
    rw [getInode_putInode hlt, if_pos rfl, if_neg (by rw [happ.type]; exact getInode_type hino)]
  have hlist : dataBlocks (putInode rt inum ino' d₁) ino' = ids ++ [d.freeBlocks.getD 0 0] := by
    rw [← hids, ← happ.dataBlocks_eq hwf]
    exact hwf₁.dataBlocks_congr (hwf₁.sameBlock_putInode hlt rt ino')
  have hnew : FullBlocks (putInode rt inum ino' d₁) inum (ids ++ [d.freeBlocks.getD 0 0]) := by
    refine ⟨hown, ino', hget, by rw [happ.type, htype], ?_, hlist⟩
    rw [happ.toNat_size hwf, hsize, List.length_append, List.length_singleton, Nat.succ_mul]
  refine ⟨d.freeBlocks.getD 0 0, putInode rt inum ino' d₁, heq, hnew, fun c hc => ?_, ?_, ?_⟩
  · obtain ⟨hlow, -, -⟩ := h.data_lt hc
    have hne := inodeBlock_lt hlt
    rw [putInode_of_ne (by omega)]
    refine happ.same c (by omega) fun hge heq' => ?_
    have hn : nDirect < blockCount ino'.size.toNat := by
      rw [happ.toNat_size hwf, blockCount_add]
      omega
    -- `c` is still a data block, and the table is none of those
    have hmem : c ∈ dataBlocks d₁ ino' := by
      rw [happ.dataBlocks_eq hwf, hids]
      exact List.mem_append_left _ hc
    exact (List.nodup_append.1 hwf₁.nodup).2.2 c hmem _ (by simp [tableBlocks, hn]) heq'
  · exact dirText_of_spares h.owned ((hlocal.putInode hlt rt ino').spares h.owned) h.not_dir hnew.not_dir
  · have hlen := happ.length_freeBlocks
    have hsame : (putInode rt inum ino' d₁).freeBlocks = d₁.freeBlocks := by
      simp only [Disk.freeBlocks, putInode_used]
    rw [room, room, hsame, List.length_append, List.length_singleton, blocksFor_succ]
    rw [hcount] at hlen
    omega

theorem write (h : FullBlocks d inum ids) {b : ℕ} (hb : b ∈ ids) (buf : Buf) :
    FullBlocks (d.writeBlock b buf) inum ids ∧ dirText (d.writeBlock b buf) = dirText d ∧
      (d.writeBlock b buf).freeBlocks = d.freeBlocks := by
  obtain ⟨ino, hino, htype, hsize, hids⟩ := h.file
  have hlow := (h.data_lt hb).1
  have hmem : b ∈ dataBlocks d ino := hids ▸ hb
  have hdata := dataBlocks_writeBlock (h.owned.wellFormed inum ino hino) hmem buf
  have hnew : FullBlocks (d.writeBlock b buf) inum ids := by
    refine ⟨owned_writeBlock h.owned hino hmem buf, ino, ?_, htype, hsize, hdata.trans hids⟩
    rw [getInode_writeBlock hlow, hino]
  refine ⟨hnew, dirText_of_spares h.owned (spares_writeBlock h.owned hino hmem buf) h.not_dir
      hnew.not_dir, ?_⟩
  refine List.filter_congr fun c hc => ?_
  have hlt : c < bpb := by
    have hend : Disk.firstData + (blockNum - Disk.firstData) ≤ bpb := by decide
    have hc' := List.mem_range'_1.1 hc
    omega
  rw [used_writeBlock hlow hlt]

theorem complete (h : FullBlocks d inum ids) (rt : Runtime) {size : UInt32}
    (hsize : blockCount size.toNat ≤ ids.length) :
    ∃ d' ino', Extent.complete rt inum size d = some d' ∧ getInode d' inum = some ino' ∧
      WellFormed d' ino' ∧ ino'.size = size ∧ dataBlocks d' ino' = ids.take (blockCount size.toNat) ∧
      ∀ b ∈ ids, d' b = d b := by
  obtain ⟨ino, hino, -, hfull, hids⟩ := h.file
  have hwf := h.owned.wellFormed inum ino hino
  have hlt := getInode_lt hino
  have hcount : blockCount ino.size.toNat = ids.length := by rw [hfull, blockCount_mul]
  obtain ⟨ino', hino'⟩ : ∃ ino' : Inode, ino' =
    { ino with size := size, atime := rt.now, mtime := rt.now, ctime := rt.now } := ⟨_, rfl⟩
  have hblock : ∀ j, ino'.block j = ino.block j := by
    intro j
    rw [hino']
    rfl
  have hsize' : ino'.size = size := by rw [hino']
  have hwf' : WellFormed d ino' := (hwf.shrink hblock (by rw [hsize', hcount]; exact hsize)).1
  have hlist : dataBlocks (putInode rt inum ino' d) ino' = ids.take (blockCount size.toNat) := by
    have hdata : dataBlocks d ino' = (dataBlocks d ino).take (blockCount size.toNat) := by
      unfold dataBlocks
      rw [hsize', hcount, ← List.map_take, List.take_range, Nat.min_eq_left hsize]
      refine List.map_congr_left fun j _ => ?_
      rw [blockId, blockId, hblock, hblock]
    rw [← hids, ← hdata]
    exact hwf'.dataBlocks_congr (hwf'.sameBlock_putInode hlt rt ino')
  have htype : ino'.type ≠ 0 := by
    have hne := getInode_type hino
    rw [hino']
    exact hne
  refine ⟨putInode rt inum ino' d, ino', ?_, ?_, (hwf'.putInode hlt rt ino').1, hsize', hlist, ?_⟩
  · rw [Extent.complete, hino, Option.map_some, hino']
  · rw [getInode_putInode hlt, if_pos rfl, if_neg htype]
  · intro b hb
    have hlow := (h.data_lt hb).1
    have hne := inodeBlock_lt hlt
    exact putInode_of_ne (by omega)

end FullBlocks
end Yfs.Hdfs
