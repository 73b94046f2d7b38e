import Yfs.Hdfs.BlockIo
import Yfs.Hdfs.Growing

/-! Writing a file through HDFS: blocks added by the name node and filled through a data node make
up a plain file. -/
namespace Yfs.Hdfs
open Yfs.Lib Yfs.Extent Yfs.Client

section
variable {D : Type}

def writeOne (nn : NameNode D) (src buf : Str) : M (Option UInt32 × NameNode D) := do
  let (r, nn) ← nn.pbAddBlock src
  match r with
  | .ok (some b) =>
    let w ← DataNode.writeBlock b.blockId 0 (UInt64.ofNat buf.length) buf
    pure (if w = some true then some b.blockId else none, nn)
  | _ => pure (none, nn)

/-- The ids of the blocks that were written, if all went well. -/
def writeBlocks (nn : NameNode D) (src : Str) : List Str → M (Option (List UInt32) × NameNode D)
  | [] => pure (some [], nn)
  | buf :: l => do
    let (id, nn) ← writeOne nn src buf
    match id with
    | none => pure (none, nn)
    | some id =>
      let (ids, nn) ← writeBlocks nn src l
      pure (ids.map fun ids => id :: ids, nn)

/-- The file `src` is pending and has the blocks `ids` so far. -/
structure Writing (nn : NameNode D) (s : Store) (src : Str) (inum : UInt32) (ids : List ℕ) : Prop where
  holds : FullBlocks s.disk inum ids
  path : resolvePath (dirText s.disk) src = some inum.toUInt64
  pending : nn.pendingWrite inum.toUInt64 = some (UInt32.ofNat (ids.length * blockSize))
  held : s.held inum.toUInt64 = true

def Filled (d : Disk) (ids : List ℕ) (bufs : List Str) : Prop :=
  List.Forall₂ (fun b buf => (d b).toList buf.length = buf) ids bufs

theorem Filled.congr {d d' : Disk} {ids : List ℕ} {bufs : List Str} (h : Filled d ids bufs)
    (hsame : ∀ b ∈ ids, d' b = d b) : Filled d' ids bufs := by
  induction h with
  | nil => exact .nil
  | @cons b buf ids bufs hhead _ ih =>
    refine .cons ?_ (ih fun c hc => hsame c (List.mem_cons_of_mem b hc))
    rw [hsame b List.mem_cons_self, hhead]

/-- `WriteBlock` from the start of a block keeps the rest of it. -/
theorem run_writeBlock (s : Store) {bid : UInt32} (hb : bid.toNat < blockNum) {buf : Str}
    (hlen : buf.length ≤ blockSize) :
    ∃ s' c, (DataNode.writeBlock bid 0 (UInt64.ofNat buf.length) buf).run Store.serve s =
        some (some true, s') ∧ s'.disk = s.disk.writeBlock bid.toNat c ∧ s'.held = s.held ∧
      Buf.toList c buf.length = buf := by
  have hfits : (⟨0, UInt64.ofNat buf.length, buf⟩ : BlockWrite).Fits := by
    have hnat : (UInt64.ofNat buf.length).toNat = buf.length := by
      rw [blockSize_eq] at hlen
      rw [UInt64.toNat_ofNat', Nat.mod_eq_of_lt (by omega)]
    refine ⟨hnat, ?_⟩
    dsimp only
    rwa [hnat, UInt64.toNat_zero, Nat.zero_add]
  have hrun := run_writeBlock_overlay s hb hfits
  dsimp only at hrun
  refine ⟨_, Buf.ofList (overlay (blockBytes s.disk bid.toNat) 0 buf) (afterReads s).now.tail, hrun,
    ?_, ?_, ?_⟩
  · rw [Store.disk_next, UInt64.toNat_zero]
  · rw [Store.held_next, afterReads, Store.held_next, Store.held_next]
  have hover : overlay (blockBytes s.disk bid.toNat) 0 buf =
      buf ++ (blockBytes s.disk bid.toNat).drop buf.length := by
    have hin : 0 + buf.length ≤ (blockBytes s.disk bid.toNat).length := by
      rwa [length_blockBytes, Nat.zero_add]
    rw [overlay_eq_append hin, List.take_zero, List.nil_append, Nat.zero_add]
  refine (Buf.toList_eq_iff zero).2 ⟨rfl, fun i hi => ?_⟩
  have hlt : i < (buf ++ (blockBytes s.disk bid.toNat).drop buf.length).length := by
    rw [List.length_append]
    omega
  rw [hover, Buf.ofList, dif_pos hlt, Buf.ofList, dif_pos hi, List.getElem_append_left hi]

private theorem run_appendBlock (nn : NameNode D) {s : Store} {inum : UInt32} {ids : List ℕ}
    (h : FullBlocks s.disk inum ids) (hroom : blocksFor (ids.length + 1) ≤ room s.disk ids) :
    ∃ b block nn' s', (nn.appendBlock inum.toUInt64).run Store.serve s = some ((block, nn'), s') ∧
      block.blockId = UInt32.ofNat b ∧ nn'.pendingWrite = nn.pendingWrite ∧
      FullBlocks s'.disk inum (ids ++ [b]) ∧ (∀ c ∈ ids, s'.disk c = s.disk c) ∧
      dirText s'.disk = dirText s.disk ∧ room s.disk ids ≤ room s'.disk (ids ++ [b]) ∧
      s'.held = s.held := by
  obtain ⟨ino, hino, -, -, -⟩ := h.file
  have hmask := maskId_toUInt64 (getInode_lt hino)
  obtain ⟨b, d', happ, hholds, hkeep, hdir, hfree⟩ := h.append (s.next s.disk).now hroom
  have hserve : (perform (.appendBlock inum.toUInt64)).run Store.serve (s.next s.disk) =
      some ((.ok, UInt32.ofNat b), (s.next s.disk).next d') := by
    simp only [Prog.run_perform, Store.serve, Server.appendBlock, hmask, Store.disk_next, happ,
      Option.getD_some]
  unfold NameNode.appendBlock
  rw [Prog.run_bind_some (by rw [Prog.run_perform, Store.serve]), Prog.run_bind_some hserve]
  exact ⟨b, _, _, _, rfl, rfl, rfl, hholds, hkeep, hdir, hfree, rfl⟩

theorem run_pbAddBlock {nn : NameNode D} {s : Store} {src : Str} {inum : UInt32} {ids : List ℕ}
    (h : Writing nn s src inum ids) (hroom : blocksFor (ids.length + 1) ≤ room s.disk ids) :
    ∃ b block nn' s', (nn.pbAddBlock src).run Store.serve s = some ((.ok (some block), nn'), s') ∧
      block.blockId = UInt32.ofNat b ∧ Writing nn' s' src inum (ids ++ [b]) ∧
      (∀ c ∈ ids, s'.disk c = s.disk c) ∧ room s.disk ids ≤ room s'.disk (ids ++ [b]) ∧
      dirText s'.disk = dirText s.disk := by
  obtain ⟨s₁, hlookup, hsame⟩ := run_recursiveLookup s h.holds.owned src
  rw [h.path] at hlookup
  have hroom₁ : room s₁.disk ids = room s.disk ids := by
    rw [room, hsame.touched.freeBlocks, room]
  obtain ⟨b, block, nn', s', hrun, hblock, hpending, hholds, hkeep, hdir, hfree, hheld⟩ :=
    run_appendBlock nn (h.holds.touched hsame.touched) (hroom₁ ▸ hroom)
  obtain ⟨size, hsize⟩ : ∃ size, size = UInt32.ofNat (ids.length * blockSize) + UInt32.ofNat blockSize :=
    ⟨_, rfl⟩
  refine ⟨b, block,
    { nn' with pendingWrite := Function.update nn'.pendingWrite inum.toUInt64 (some size) }, s', ?_,
    hblock, ⟨hholds, ?_, ?_, ?_⟩, fun c hc => ?_, hroom₁ ▸ hfree,
    hdir.trans (hsame.touched.dirText_eq h.holds.owned)⟩
  · rw [NameNode.pbAddBlock, Prog.run_bind_some hlookup]
    simp only [h.pending]
    rw [Prog.run_bind_some hrun, Prog.run_pure, hsize]
  · rw [hdir, hsame.touched.dirText_eq h.holds.owned, h.path]
  · refine (Function.update_self _ _ _).trans ?_
    rw [hsize, List.length_append, List.length_singleton, Nat.succ_mul, UInt32.ofNat_add]
  · rw [hheld, hsame.held, h.held]
  · rw [hkeep c hc, hsame.touched.block c (.inr (h.holds.data_lt hc).1)]

theorem run_writeOne {nn : NameNode D} {s : Store} {src : Str} {inum : UInt32} {ids : List ℕ}
    {bufs : List Str} {buf : Str} (h : Writing nn s src inum ids) (hfilled : Filled s.disk ids bufs)
    (hlen : buf.length ≤ blockSize) (hroom : blocksFor (ids.length + 1) ≤ room s.disk ids) :
    ∃ b nn' s', (writeOne nn src buf).run Store.serve s = some ((some (UInt32.ofNat b), nn'), s') ∧
      Writing nn' s' src inum (ids ++ [b]) ∧ Filled s'.disk (ids ++ [b]) (bufs ++ [buf]) ∧
      room s.disk ids ≤ room s'.disk (ids ++ [b]) := by
  obtain ⟨b, block, nn', s₁, hadd, hblock, hw, hkeep, hfree, -⟩ := run_pbAddBlock h hroom
  have hmem : b ∈ ids ++ [b] := List.mem_append_right _ (List.mem_singleton.2 rfl)
  have hlt := (hw.holds.data_lt hmem).2.1
  have hnat : (UInt32.ofNat b).toNat = b := by
    rw [blockNum_eq] at hlt
    rw [UInt32.toNat_ofNat', Nat.mod_eq_of_lt (by omega)]
  have hnot : b ∉ ids := by
    obtain ⟨ino, hino, -, -, hids⟩ := hw.holds.file
    have hnd := (List.nodup_append.1 (hw.holds.owned.wellFormed inum ino hino).nodup).1
    rw [hids, List.nodup_append] at hnd
    exact fun hb => hnd.2.2 b hb b (List.mem_singleton.2 rfl) rfl
  obtain ⟨s', c, hrun, hdisk, hheld, hc⟩ := run_writeBlock s₁ (hnat.symm ▸ hlt) hlen
  rw [hnat] at hdisk
  obtain ⟨hholds, hdir, hfb⟩ := hw.holds.write hmem c
  rw [← hdisk] at hholds hdir hfb
  refine ⟨b, nn', s', ?_, ⟨hholds, ?_, hw.pending, ?_⟩, ?_, ?_⟩
  · rw [writeOne, Prog.run_bind_some hadd]
    simp only [hblock]
    rw [Prog.run_bind_some hrun, Prog.run_pure, if_pos rfl]
  · rw [hdir, hw.path]
  · rw [hheld, hw.held]
  · refine List.rel_append (hfilled.congr fun e he => ?_) (.cons ?_ .nil)
    · have hne : e ≠ b := fun heq => hnot (heq ▸ he)
      rw [hdisk, Disk.writeBlock_of_ne hne, hkeep e he]
    · refine Eq.trans (List.map_congr_left fun i hi => ?_) hc
      rw [hdisk, Disk.writeBlock_apply, if_pos ⟨rfl, hlt, (List.mem_range.1 hi).trans_le hlen⟩]
  · have hsame : room s'.disk (ids ++ [b]) = room s₁.disk (ids ++ [b]) := by rw [room, hfb, room]
    rw [hsame]
    exact hfree

theorem blocksFor_mono {m n : ℕ} (h : m ≤ n) : blocksFor m ≤ blocksFor n := by
  unfold blocksFor
  split_ifs <;> omega

theorem run_writeBlocks (l : List Str) {nn : NameNode D} {s : Store} {src : Str} {inum : UInt32}
    {ids : List ℕ} {bufs : List Str} (h : Writing nn s src inum ids) (hfilled : Filled s.disk ids bufs)
    (hlen : ∀ buf ∈ l, buf.length ≤ blockSize)
    (hroom : blocksFor (ids.length + l.length) ≤ room s.disk ids) :
    ∃ new nn' s', (writeBlocks nn src l).run Store.serve s =
        some ((some (new.map UInt32.ofNat), nn'), s') ∧
      Writing nn' s' src inum (ids ++ new) ∧ Filled s'.disk (ids ++ new) (bufs ++ l) := by
  induction l generalizing nn s ids bufs with
  | nil =>
    refine ⟨[], nn, s, rfl, ?_, ?_⟩
    · rwa [List.append_nil]
    · rwa [List.append_nil, List.append_nil]
  | cons buf l ih =>
    have hone : blocksFor (ids.length + 1) ≤ room s.disk ids :=
      (blocksFor_mono (by rw [List.length_cons]; omega)).trans hroom
    obtain ⟨b, nn₁, s₁, hrun, hw, hf, hfree⟩ :=
      run_writeOne h hfilled (hlen buf List.mem_cons_self) hone
    have hroom₁ : blocksFor ((ids ++ [b]).length + l.length) ≤ room s₁.disk (ids ++ [b]) := by
      have hcount : (ids ++ [b]).length + l.length = ids.length + (buf :: l).length := by
        rw [List.length_append, List.length_singleton, List.length_cons]
        omega
      rw [hcount]
      exact hroom.trans hfree
    obtain ⟨new, nn', s', hrun', hw', hf'⟩ :=
      ih hw hf (fun c hc => hlen c (List.mem_cons_of_mem buf hc)) hroom₁
    refine ⟨b :: new, nn', s', ?_, ?_, ?_⟩
    · rw [writeBlocks, Prog.run_bind_some hrun]
      simp only
      rw [Prog.run_bind_some hrun', Prog.run_pure, List.map_cons, Option.map_some]
    · rwa [List.append_assoc, List.singleton_append] at hw'
    · rwa [List.append_assoc, List.singleton_append, List.append_assoc, List.singleton_append] at hf'

/-- What `PBCreate` leaves: an empty file behind the path, pending and locked. -/
structure Created (nn : NameNode D) (s : Store) (src : Str) (inum : UInt32) : Prop where
  owned : Owned s.disk
  file : ∃ ino, getInode s.disk inum = some ino ∧ ino.type = FileType.file.code.toUInt16 ∧ ino.size = 0
  path : ∃ s', (NameNode.recursiveLookup src).run Store.serve s = some (some inum.toUInt64, s')
  pending : nn.pendingWrite inum.toUInt64 = some 0
  held : s.held inum.toUInt64 = true

theorem Created.writing {nn : NameNode D} {s : Store} {src : Str} {inum : UInt32}
    (h : Created nn s src inum) : Writing nn s src inum [] := by
  obtain ⟨ino, hino, htype, hsize⟩ := h.file
  have hzero : ino.size.toNat = 0 := by
    rw [hsize]
    rfl
  refine ⟨⟨h.owned, ino, hino, htype, ?_, ?_⟩, ?_, h.pending, h.held⟩
  · rw [hzero, List.length_nil, Nat.zero_mul]
  · rw [dataBlocks, hzero]
    rfl
  · obtain ⟨s', hrun⟩ := h.path
    obtain ⟨s'', hspec, -⟩ := run_recursiveLookup s h.owned src
    rw [hrun, Option.some.injEq, Prod.mk.injEq] at hspec
    exact hspec.1.symm

private theorem run_complete_some {s : Store} {inum : UInt32} {size : UInt32} {d' : Disk}
    (h : Extent.complete s.now inum size s.disk = some d') (hheld : s.held inum.toUInt64 = true) :
    (NameNode.complete inum.toUInt64 size).run Store.serve s = some (true,
      { s.next d' with held := Function.update (s.next d').held inum.toUInt64 false }) := by
  have hserve : (perform (.complete inum.toUInt64 size)).run Store.serve s = some (.ok, s.next d') := by
    rw [Prog.run_perform, Store.serve, Server.complete, UInt32.toUInt32_toUInt64, h, Option.map_some]
  have hrelease : (perform (.release inum.toUInt64)).run Store.serve (s.next d') = some ((),
      { s.next d' with held := Function.update (s.next d').held inum.toUInt64 false }) := by
    rw [Prog.run_perform, Store.serve, if_pos (by rw [Store.held_next, hheld])]
  rw [NameNode.complete, Prog.run_bind_some hserve, if_pos rfl, Prog.run_bind_some hrelease,
    Prog.run_pure]

theorem run_pbComplete_some {nn : NameNode D} {s s₁ : Store} {src : Str} {inum : UInt32} {size : UInt32}
    (hlookup : (NameNode.recursiveLookup src).run Store.serve s = some (some inum.toUInt64, s₁))
    (hpending : nn.pendingWrite inum.toUInt64 = some size) (hheld : s₁.held inum.toUInt64 = true)
    (last : Option UInt64) {d' : Disk}
    (h : Extent.complete s₁.now inum (newSize size last) s₁.disk = some d') :
    ∃ nn' s', (nn.pbComplete src last).run Store.serve s = some ((.ok true, nn'), s') ∧ s'.disk = d' := by
  refine ⟨{ nn with pendingWrite := Function.update nn.pendingWrite inum.toUInt64 none },
    { s₁.next d' with held := Function.update (s₁.next d').held inum.toUInt64 false }, ?_, rfl⟩
  rw [NameNode.pbComplete, Prog.run_bind_some hlookup]
  simp only [hpending]
  exact Prog.run_bind_some (run_complete_some h hheld) _

theorem FullBlocks.toNat_newSize {d : Disk} {inum : UInt32} {ids : List ℕ} {m n : ℕ}
    (h : FullBlocks d inum ids)
    (hids : ids.length = m + 1) (hn : n ≤ blockSize) :
    (newSize (UInt32.ofNat (ids.length * blockSize)) (some (UInt64.ofNat n))).toNat = m * blockSize + n := by
  have hle := h.length_le
  rw [hids, blockNum_eq, Disk.firstData_eq] at hle
  rw [newSize, hids, Nat.succ_mul, UInt32.ofNat_add, UInt32.add_sub_cancel, UInt64.toUInt32_ofNat',
    ← UInt32.ofNat_add, UInt32.toNat_ofNat', Nat.mod_eq_of_lt]
  rw [blockSize_eq] at hn ⊢
  omega

theorem run_pbComplete {nn : NameNode D} {s : Store} {src : Str} {inum : UInt32} {ids : List ℕ} {m n : ℕ}
    (h : Writing nn s src inum ids) (hids : ids.length = m + 1) (hpos : 1 ≤ n) (hn : n ≤ blockSize) :
    ∃ nn' s' ino, (nn.pbComplete src (some (UInt64.ofNat n))).run Store.serve s =
        some ((.ok true, nn'), s') ∧ getInode s'.disk inum = some ino ∧ WellFormed s'.disk ino ∧
      ino.size.toNat = m * blockSize + n ∧ dataBlocks s'.disk ino = ids ∧
      ∀ b ∈ ids, s'.disk b = s.disk b := by
  obtain ⟨s₁, hlookup, hsame⟩ := run_recursiveLookup s h.holds.owned src
  rw [h.path] at hlookup
  obtain ⟨size, hnew⟩ : ∃ size, size = newSize (UInt32.ofNat (ids.length * blockSize))
      (some (UInt64.ofNat n)) := ⟨_, rfl⟩
  have hsize : size.toNat = m * blockSize + n := by rw [hnew, h.holds.toNat_newSize hids hn]
  have hcount : blockCount size.toNat = ids.length := by
    rw [hsize, blockCount_mul_add hpos hn, hids]
  have hheld : s₁.held inum.toUInt64 = true := by rw [hsame.held, h.held]
  obtain ⟨d', ino, hcomplete, hino, hwf, hsz, hdata, hkeep⟩ :=
    (h.holds.touched hsame.touched).complete s₁.now hcount.le
  rw [hcount, List.take_length] at hdata
  rw [hnew] at hcomplete
  obtain ⟨nn', s', hrun, rfl⟩ := run_pbComplete_some hlookup h.pending hheld _ hcomplete
  refine ⟨nn', s', ino, hrun, hino, hwf, ?_, hdata, fun b hb => ?_⟩
  · rw [hsz, hsize]
  · rw [hkeep b hb, hsame.touched.block b (.inr (h.holds.data_lt hb).1)]

private theorem fileBytes_of_filled {d : Disk} {ino : Inode} {bufs : List Str}
    (hfilled : Filled d (dataBlocks d ino) bufs) (hlen : bufs.map List.length =
      (List.range (blockCount ino.size.toNat)).map (Buf.chunkLen blockSize ino.size.toNat)) :
    fileBytes d ino = bufs.flatten := by
  obtain ⟨hcount, hget⟩ := List.forall₂_iff_get.1 hfilled
  rw [fileBytes_eq_chunks, List.flatMap_def]
  refine congrArg List.flatten (List.ext_getElem ?_ fun i hi hi' => ?_)
  · rw [← hcount, dataBlocks, List.length_map, List.length_map]
  · have hchunk : bufs[i].length = Buf.chunkLen blockSize ino.size.toNat i := by
      have heq := congrArg (fun l : List ℕ => l[i]?) hlen
      simp only [List.getElem?_map] at heq
      rw [List.length_map, List.length_range] at hi
      simpa [hi, hi'] using heq
    have hblock := hget i (hcount ▸ hi') hi'
    simp only [dataBlocks, List.get_eq_getElem, List.getElem_map, List.getElem_range] at hblock
    rw [List.getElem_map, List.getElem_range, ← hchunk, hblock]

/-- Blocks that are added, filled and completed through HDFS make up a plain file. -/
theorem hdfs_write_eq_file {nn : NameNode D} {s : Store} {src : Str} {inum : UInt32}
    (h : Created nn s src inum) {bufs : List Str} {last : Str}
    (hbufs : ∀ buf ∈ bufs, buf.length = blockSize) (hpos : 1 ≤ last.length)
    (hlast : last.length ≤ blockSize) (hroom : blocksFor (bufs.length + 1) ≤ s.disk.freeBlocks.length) :
    ∃ ids nn₁ s₁ nn₂ s₂ locs s₃,
      (writeBlocks nn src (bufs ++ [last])).run Store.serve s = some ((some ids, nn₁), s₁) ∧
      (nn₁.pbComplete src (some (UInt64.ofNat last.length))).run Store.serve s₁ =
        some ((.ok true, nn₂), s₂) ∧
      (∀ rt, (Server.get rt inum.toUInt64 s₂.disk).1 = some (bufs.flatten ++ last)) ∧
      (Server.getattr inum.toUInt64 s₂.disk).size.toNat = bufs.length * blockSize + last.length ∧
      (nn₂.getBlockLocations inum.toUInt64).run Store.serve s₂ = some (locs, s₃) ∧
      locs.map LocatedBlock.blockId = ids ∧
      (locs.map fun b => b.offset.toNat) = (List.range (bufs.length + 1)).map (fun j => j * blockSize) ∧
      (locs.map fun b => b.size.toNat) = List.replicate bufs.length blockSize ++ [last.length] := by
  have hle : ∀ buf ∈ bufs ++ [last], buf.length ≤ blockSize := by
    intro buf hbuf
    rcases List.mem_append.1 hbuf with hb | hb
    · exact (hbufs buf hb).le
    · rw [List.mem_singleton.1 hb]
      exact hlast
  have hroom' : blocksFor (([] : List ℕ).length + (bufs ++ [last]).length) ≤ room s.disk [] := by
    rw [room, List.length_nil, Nat.zero_add, List.length_append, List.length_singleton]
    exact hroom.trans (Nat.le_add_left _ _)
  obtain ⟨ids, nn₁, s₁, hrun, hw, hfilled⟩ := run_writeBlocks _ h.writing .nil hle hroom'
  rw [List.nil_append] at hw hfilled
  rw [List.nil_append] at hfilled
  have hids : ids.length = bufs.length + 1 := by
    rw [hfilled.length_eq, List.length_append, List.length_singleton]
  obtain ⟨nn₂, s₂, ino, hcomplete, hino, hwf, hsize, hdata, hkeep⟩ := run_pbComplete hw hids hpos hlast
  have hmask : getInode s₂.disk (maskId inum.toUInt64) = some ino := by
    rw [maskId_toUInt64 (getInode_lt hino), hino]
  have hcount : blockCount ino.size.toNat = bufs.length + 1 := by
    rw [hsize, blockCount_mul_add hpos hlast]
  have hchunks := Buf.map_chunkLen bufs.length hlast
  rw [← hsize, ← hcount] at hchunks
  have hlens : (bufs ++ [last]).map List.length = List.replicate bufs.length blockSize ++ [last.length] := by
    rw [List.map_append, List.map_singleton]
    congr 1
    exact List.eq_replicate_iff.2 ⟨List.length_map _, by simpa using hbufs⟩
  have htiles := tiles_located nn₂ s₂.now s₂.disk ino
  refine ⟨ids.map UInt32.ofNat, nn₁, s₁, nn₂, s₂, _, _, hrun, hcomplete, fun rt => ?_, ?_,
    run_getBlockLocations nn₂ s₂ hmask, ?_, ?_, ?_⟩
  · have hfilled₂ : Filled s₂.disk (dataBlocks s₂.disk ino) (bufs ++ [last]) := by
      rw [hdata]
      exact hfilled.congr hkeep
    rw [Server.get_eq rt hmask hwf.size_lt, hwf.content_eq,
      fileBytes_of_filled hfilled₂ (hlens.trans hchunks.symm), List.flatten_append, List.flatten_singleton]
  · rw [Server.getattr, Extent.getattr, hmask, hsize]
  · rw [← hdata, dataBlocks, List.map_map, List.map_map]
    refine List.map_congr_left fun j hj => ?_
    rw [Function.comp_apply, Function.comp_apply, ← hwf.fileBlock_eq s₂.now (List.mem_range.1 hj),
      UInt32.ofNat_toNat]
    rfl
  · rw [htiles.offset, List.length_map, List.length_range, hcount]
  · rw [List.map_map, ← hchunks]
    exact List.map_congr_left fun j _ => toNat_chunkLen _ j

private theorem exists_inode_of_fileOf {d : Disk} {inum : UInt32} {type : UInt16}
    (h : fileOf d inum = some (type, [])) :
    ∃ ino, getInode d inum = some ino ∧ ino.type = type ∧ ino.size = 0 := by
  obtain ⟨ino, hino, heq⟩ := Option.map_eq_some_iff.1 h
  obtain ⟨htype, hbytes⟩ := Prod.mk.inj heq
  have hlength := congrArg List.length hbytes
  rw [fileBytes, Buf.length_toList] at hlength
  exact ⟨ino, hino, htype, UInt32.toNat_inj.1 hlength⟩

theorem created_fresh (D : Type) : ∃ info nn s,
    ((NameNode.init D).pbCreate [47, 102] false).run Store.serve freshStore = some ((.ok info, nn), s) ∧
      Created nn s [47, 102] 2 ∧ 1 ≤ s.disk.freeBlocks.length ∧ fileOf s.disk = oneFile [102] := by
  obtain ⟨info, s, hrun, hheld, hown, hfiles, hfree⟩ := run_pbCreate_fresh D [47, 102] false rfl rfl
    (by decide) (by decide)
  refine ⟨info, _, s, hrun, ⟨hown, ?_, ?_, rfl, ?_⟩, hfree, hfiles⟩
  · apply exists_inode_of_fileOf
    rw [hfiles]
    rfl
  · obtain ⟨s', hlookup, -⟩ := run_recursiveLookup s hown [47, 102]
    have hdir : dirText s.disk 1 = some [102, 59, 50] := by
      rw [dirText_eq_fileOf, hfiles]
      rfl
    have hpath : resolvePath (dirText s.disk) [47, 102] = some 2 := by
      have hcomponents : NameNode.components [47, 102] = [[102]] := by decide
      rw [resolvePath, if_pos (by decide), hcomponents, resolve, hdir]
      rfl
    rw [hpath] at hlookup
    exact ⟨s', hlookup⟩
  · rw [hheld]
    rfl

/-- One byte written to `/f`. -/
theorem hdfs_write_eq_file_byte : ∃ (nn : NameNode ℕ) (s : Store), Created nn s [47, 102] 2 ∧
    ∃ ids nn₁ s₁ nn₂ s₂, (writeBlocks nn [47, 102] [[7]]).run Store.serve s = some ((some ids, nn₁), s₁) ∧
      (nn₁.pbComplete [47, 102] (some 1)).run Store.serve s₁ = some ((.ok true, nn₂), s₂) ∧
      ∀ rt, (Server.get rt 2 s₂.disk).1 = some [7] := by
  obtain ⟨info, nn, s, -, hcreated, hfree, -⟩ := created_fresh ℕ
  have hbufs : ∀ buf ∈ ([] : List Str), buf.length = blockSize := fun _ h => nomatch h
  have hpos : 1 ≤ ([7] : Str).length := le_rfl
  obtain ⟨ids, nn₁, s₁, nn₂, s₂, locs, s₃, hwrite, hcomplete, hget, -⟩ :=
    hdfs_write_eq_file hcreated hbufs hpos (by decide) hfree
  exact ⟨nn, s, hcreated, ids, nn₁, s₁, nn₂, s₂, hwrite, hcomplete, hget⟩

end
end Yfs.Hdfs
