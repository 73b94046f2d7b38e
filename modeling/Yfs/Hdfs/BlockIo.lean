import Yfs.Hdfs.Making
import Yfs.Hdfs.ReadPath

/-! The blocks of a data node as byte arrays: what `WriteBlock` and `ReadBlock` do at any offset. -/
namespace Yfs.Hdfs
open Yfs.Lib Yfs.Extent Yfs.Client

/-- The array with `data` laid over its bytes from `off` on. -/
def overlay (block : Str) (off : ℕ) (data : Str) : Str :=
  block.mapIdx fun i c => if off ≤ i then data.getD (i - off) c else c

section
variable {block data : Str} {off : ℕ}

@[simp] theorem length_overlay : (overlay block off data).length = block.length := List.length_mapIdx

theorem overlay_eq_append (h : off + data.length ≤ block.length) :
    overlay block off data = block.take off ++ data ++ block.drop (off + data.length) := by
  have htake : (block.take off).length = off := List.length_take_of_le (by omega)
  refine List.ext_getElem ?_ fun i hi _ => ?_
  · simp only [length_overlay, List.length_append, List.length_drop, htake]
    omega
  · rw [length_overlay] at hi
    simp only [overlay, List.getElem_mapIdx]
    split_ifs with hoff
    · by_cases hdata : i < off + data.length
      · rw [List.getElem_append_left (by simp [htake]; omega), List.getElem_append_right (by omega)]
        simp only [htake]
        exact (List.getElem_eq_getD _).symm
      · rw [List.getElem_append_right (by simp [htake]; omega), List.getElem_drop,
          List.getD_eq_default _ _ (by omega)]
        congr 1
        simp only [List.length_append, htake]
        omega
    · rw [List.getElem_append_left (by simp [htake]; omega), List.getElem_append_left (by omega),
        List.getElem_take]

end

def blockBytes (d : Disk) (b : ℕ) : Str := (d b).toList blockSize

@[simp] theorem length_blockBytes (d : Disk) (b : ℕ) : (blockBytes d b).length = blockSize :=
  Buf.length_toList _ _

theorem blockBytes_writeBlock {d : Disk} {b : ℕ} (hb : b < blockNum) {content : Str}
    (hlen : content.length = blockSize) (tail : Buf) :
    blockBytes (d.writeBlock b (Buf.ofList content tail)) b = content := by
  refine (Buf.toList_eq_iff tail).2 ⟨hlen, fun i hi => ?_⟩
  rw [Disk.writeBlock_apply, if_pos ⟨rfl, hb, hi⟩]

section
variable (s : Store) {bid : UInt32} (hb : bid.toNat < blockNum) (offset len : UInt64)

def spliced (block : Str) (offset len : UInt64) (buf : Str) : Str :=
  block.take offset.toNat ++ buf ++ block.drop (offset + len).toNat

def afterReads : Store := (s.next s.disk).next s.disk

include hb

theorem run_perform_readBlock :
    (perform (.readBlock bid)).run Store.serve s =
      some ((.ok, blockBytes s.disk bid.toNat), s.next s.disk) := by
  rw [Prog.run_perform, Store.serve, readBlock_eq s.now hb, blockBytes]

theorem run_readBlock_eq :
    (DataNode.readBlock bid offset len).run Store.serve s = some
      ((blockBytes s.disk bid.toNat).extract offset.toNat (min (offset.toNat + len.toNat) blockSize),
        s.next s.disk) := by
  have hslice : (blockBytes s.disk bid.toNat).extract offset.toNat
        (min (offset.toNat + len.toNat) blockSize) =
      ((blockBytes s.disk bid.toNat).drop offset.toNat).take len.toNat := by
    rw [List.extract_eq_take_drop, List.take_eq_take_iff, List.length_drop, length_blockBytes]
    omega
  rw [DataNode.readBlock, Prog.run_bind_some (run_perform_readBlock s hb), hslice]
  dsimp only
  rw [Prog.run_pure]
  split_ifs with hoff
  · rw [List.drop_eq_nil_of_le hoff.le, List.take_nil]
  · rfl

theorem run_writeBlock_reads (buf : Str) :
    (DataNode.writeBlock bid offset len buf).run Store.serve s =
      if blockSize < (offset + len).toNat then some (none, afterReads s)
      else some (some true, (afterReads s).next (Server.writeBlock (afterReads s).now bid
        (spliced (blockBytes s.disk bid.toNat) offset len buf) s.disk).2) := by
  rw [DataNode.writeBlock, Prog.run_bind_some (run_perform_readBlock s hb),
    Prog.run_bind_some (run_perform_readBlock _ hb)]
  dsimp only
  rw [Store.disk_next, length_blockBytes]
  split_ifs with h
  · rfl
  · rw [Prog.run_bind_some (by rw [Prog.run_perform, Store.serve]), Prog.run_pure]
    rfl

end

theorem run_perform_writeBlock (s : Store) (bid : UInt32) {content : Str}
    (hlen : content.length = blockSize) : (perform (.writeBlock bid content)).run Store.serve s =
      some (.ok, s.next (s.disk.writeBlock bid.toNat (Buf.ofList content s.now.tail))) := by
  rw [Prog.run_perform, Store.serve, Server.writeBlock, if_neg (not_not.2 hlen)]

structure BlockWrite where
  offset : UInt64
  len : UInt64
  buf : Str

/-- The length is that of the string, and the range is inside the block. -/
structure BlockWrite.Fits (w : BlockWrite) : Prop where
  length : w.len.toNat = w.buf.length
  inside : w.offset.toNat + w.len.toNat ≤ blockSize

/-- One call of `WriteBlock` after the other, with what they return. -/
def writeSeq (bid : UInt32) : List BlockWrite → M (List (Option Bool))
  | [] => pure []
  | w :: ws => do
    let r ← DataNode.writeBlock bid w.offset w.len w.buf
    let rs ← writeSeq bid ws
    pure (r :: rs)

/-- The writes laid over the block in their order. -/
def overlayAll (block : Str) : List BlockWrite → Str
  | [] => block
  | w :: ws => overlayAll (overlay block w.offset.toNat w.buf) ws

theorem length_overlayAll (block : Str) (ws : List BlockWrite) :
    (overlayAll block ws).length = block.length := by
  induction ws generalizing block with
  | nil => rfl
  | cons w ws ih => rw [overlayAll, ih, length_overlay]

theorem BlockWrite.Fits.spliced {w : BlockWrite} (h : w.Fits) {block : Str}
    (hblock : block.length = blockSize) :
    (w.offset + w.len).toNat ≤ blockSize ∧
    Hdfs.spliced block w.offset w.len w.buf = overlay block w.offset.toNat w.buf := by
  have hsum := h.inside
  rw [blockSize_eq] at hsum
  have hend : (w.offset + w.len).toNat = w.offset.toNat + w.len.toNat := by
    rw [UInt64.toNat_add, Nat.mod_eq_of_lt (by omega)]
  refine ⟨hend ▸ h.inside, ?_⟩
  rw [Hdfs.spliced, overlay_eq_append (by rw [← h.length, hblock]; exact h.inside), hend, h.length]

theorem run_writeBlock_overlay (s : Store) {bid : UInt32} (hb : bid.toNat < blockNum) {w : BlockWrite}
    (h : w.Fits) : (DataNode.writeBlock bid w.offset w.len w.buf).run Store.serve s =
      some (some true, (afterReads s).next (s.disk.writeBlock bid.toNat (Buf.ofList
        (overlay (blockBytes s.disk bid.toNat) w.offset.toNat w.buf) (afterReads s).now.tail))) := by
  obtain ⟨hend, hsplice⟩ := h.spliced (length_blockBytes s.disk bid.toNat)
  have hlen : (overlay (blockBytes s.disk bid.toNat) w.offset.toNat w.buf).length = blockSize := by
    rw [length_overlay, length_blockBytes]
  rw [run_writeBlock_reads s hb, if_neg (Nat.not_lt.2 hend), hsplice, Server.writeBlock,
    if_neg (not_not.2 hlen)]

theorem run_writeBlock_of_fits (s : Store) {bid : UInt32} (hb : bid.toNat < blockNum) {w : BlockWrite}
    (h : w.Fits) : ∃ s', (DataNode.writeBlock bid w.offset w.len w.buf).run Store.serve s =
        some (some true, s') ∧
      blockBytes s'.disk bid.toNat = overlay (blockBytes s.disk bid.toNat) w.offset.toNat w.buf ∧
      ∀ b, b ≠ bid.toNat → s'.disk b = s.disk b := by
  refine ⟨_, run_writeBlock_overlay s hb h, ?_, ?_⟩
  · rw [Store.disk_next]
    refine blockBytes_writeBlock hb ?_ _
    rw [length_overlay, length_blockBytes]
  · intro b hne
    rw [Store.disk_next, Disk.writeBlock_of_ne hne]

private theorem run_writeSeq {bid : UInt32} (hb : bid.toNat < blockNum) (ws : List BlockWrite) (s : Store)
    (hws : ∀ w ∈ ws, w.Fits) : ∃ s', (writeSeq bid ws).run Store.serve s =
        some (List.replicate ws.length (some true), s') ∧
      blockBytes s'.disk bid.toNat = overlayAll (blockBytes s.disk bid.toNat) ws ∧
      ∀ b, b ≠ bid.toNat → s'.disk b = s.disk b := by
  induction ws generalizing s with
  | nil => exact ⟨s, rfl, by rw [overlayAll], fun _ _ => rfl⟩
  | cons w ws ih =>
    obtain ⟨s₁, hrun, hbytes, hsame⟩ := run_writeBlock_of_fits s hb (hws w List.mem_cons_self)
    obtain ⟨s', hrest, hall, hothers⟩ := ih s₁ fun w' hw' => hws w' (List.mem_cons_of_mem w hw')
    refine ⟨s', ?_, ?_, fun b hne => (hothers b hne).trans (hsame b hne)⟩
    · rw [writeSeq, Prog.run_bind_some hrun, Prog.run_bind_some hrest, Prog.run_pure]
      rfl
    · rw [hall, hbytes, overlayAll]

/-- After any writes that fit, a block on the disk is the array with all of them laid over it: it is as
long as before, every read shows the part of it that was asked for, and no other block has changed. -/
theorem read_of_writes (bid : UInt32) (hb : bid.toNat < blockNum) (ws : List BlockWrite) (s : Store)
    (hws : ∀ w ∈ ws, w.Fits) : ∃ s', (writeSeq bid ws).run Store.serve s =
        some (List.replicate ws.length (some true), s') ∧
      (overlayAll (blockBytes s.disk bid.toNat) ws).length = blockSize ∧
      blockBytes s'.disk bid.toNat = overlayAll (blockBytes s.disk bid.toNat) ws ∧
      (∀ b, b ≠ bid.toNat → s'.disk b = s.disk b) ∧
      ∀ offset len, ∃ s'', (DataNode.readBlock bid offset len).run Store.serve s' = some
          ((overlayAll (blockBytes s.disk bid.toNat) ws).extract offset.toNat
            (min (offset.toNat + len.toNat) blockSize), s'') ∧ s''.disk = s'.disk := by
  obtain ⟨s', hrun, hbytes, hsame⟩ := run_writeSeq hb ws s hws
  refine ⟨s', hrun, ?_, hbytes, hsame, fun offset len => ⟨s'.next s'.disk, ?_, rfl⟩⟩
  · rw [length_overlayAll, length_blockBytes]
  · rw [run_readBlock_eq s' hb, hbytes]

/-- A write of nothing at the end of the block, and one of a byte. -/
theorem read_of_writes_two : (∀ w ∈ [(⟨16384, 0, []⟩ : BlockWrite), ⟨2, 1, [9]⟩], w.Fits) ∧
    ∃ s', (writeSeq 7 [⟨16384, 0, []⟩, ⟨2, 1, [9]⟩]).run Store.serve freshStore =
        some ([some true, some true], s') ∧
      ∀ b, b ≠ 7 → s'.disk b = freshStore.disk b := by
  have hws : ∀ w ∈ [(⟨16384, 0, []⟩ : BlockWrite), ⟨2, 1, [9]⟩], w.Fits := by
    intro w hw
    rcases List.mem_pair.1 hw with rfl | rfl
    · exact ⟨rfl, by decide⟩
    · exact ⟨rfl, by decide⟩
  obtain ⟨s', hrun, -, -, hsame, -⟩ := read_of_writes 7 (by decide) _ freshStore hws
  exact ⟨hws, s', hrun, hsame⟩

/-- `new` is `old` with the bytes from `off` on replaced by `data`. -/
structure Replaced (old new : Str) (off : ℕ) (data : Str) : Prop where
  length : new.length = old.length
  written : ∀ i (hi : i < data.length), new[off + i]? = some data[i]
  rest : ∀ i, ¬(off ≤ i ∧ i < off + data.length) → new[i]? = old[i]?

theorem Replaced.inside {old new data : Str} {off : ℕ} (h : Replaced old new off data) (hdata : data ≠ []) :
    off + data.length ≤ old.length := by
  have hpos := List.length_pos_iff.2 hdata
  have hlast := h.written (data.length - 1) (by omega)
  obtain ⟨hlt, -⟩ := List.getElem?_eq_some_iff.1 hlast
  rw [h.length] at hlt
  omega

theorem replaced_overlay {old data : Str} {off : ℕ} (h : off + data.length ≤ old.length) :
    Replaced old (overlay old off data) off data := by
  refine ⟨length_overlay, fun i hi => ?_, fun i hi => ?_⟩
  · rw [List.getElem?_eq_getElem (by rw [length_overlay]; omega), Option.some_inj]
    simp only [overlay, List.getElem_mapIdx, Nat.le_add_right, if_true, Nat.add_sub_cancel_left]
    exact (List.getElem_eq_getD _).symm
  · rw [overlay, List.getElem?_mapIdx]
    cases old[i]? with
    | none => rfl
    | some c =>
      rw [Option.map_some, Option.some_inj]
      split_ifs with hoff
      · exact List.getD_eq_default _ _ (by omega)
      · rfl

/-- `WriteBlock` returns, with `true` exactly if the bytes are in the block then, and with `false` only if
the block is as it was. -/
def Honest (s : Store) (bid : UInt32) (offset len : UInt64) (data : Str) : Prop :=
  ∃ r s', (DataNode.writeBlock bid offset len data).run Store.serve s = some (some r, s') ∧
    (r = true ↔ Replaced (blockBytes s.disk bid.toNat) (blockBytes s'.disk bid.toNat) offset.toNat data) ∧
    (r = false → blockBytes s'.disk bid.toNat = blockBytes s.disk bid.toNat)

/-- Where the end of the range wraps around, the splice is longer than a block and the extent server
refuses it; `WriteBlock` does not look at the status. -/
theorem run_writeBlock_of_wrap (s : Store) {bid : UInt32} (hb : bid.toNat < blockNum) {offset len : UInt64}
    {data : Str} (hlen : len.toNat = data.length) (hend : (offset + len).toNat ≤ blockSize)
    (hout : blockSize < offset.toNat + len.toNat) :
    ∃ s', (DataNode.writeBlock bid offset len data).run Store.serve s = some (some true, s') ∧
      s'.disk = s.disk := by
  have hlong : blockSize < (spliced (blockBytes s.disk bid.toNat) offset len data).length := by
    have hoff := offset.toNat_lt
    rw [UInt64.toNat_add] at hend
    rw [spliced, List.length_append, List.length_append, List.length_take, List.length_drop,
      length_blockBytes, ← hlen, UInt64.toNat_add]
    rw [blockSize_eq] at *
    omega
  rw [run_writeBlock_reads s hb, if_neg (Nat.not_lt.2 hend), Server.writeBlock, if_pos hlong.ne']
  exact ⟨_, rfl, rfl⟩

/-- `WriteBlock` is honest about the ranges inside the block only: behind it it throws, or says `true`
and does nothing. -/
theorem honest_iff (s : Store) {bid : UInt32} (hb : bid.toNat < blockNum) (offset : UInt64) {len : UInt64}
    {data : Str} (hlen : len.toNat = data.length) :
    Honest s bid offset len data ↔ offset.toNat + len.toNat ≤ blockSize := by
  constructor
  · rintro ⟨r, s', hrun, htrue, -⟩
    by_contra hout
    rw [Nat.not_le] at hout
    by_cases hend : (offset + len).toNat ≤ blockSize
    · obtain ⟨s'', hwrap, -⟩ := run_writeBlock_of_wrap s hb hlen hend hout
      have hr : r = true := by
        rw [hwrap] at hrun
        cases hrun
        rfl
      have hdata : data ≠ [] := by
        rintro rfl
        have hzero : len = 0 := UInt64.toNat_inj.1 hlen
        rw [hzero, UInt64.add_zero] at hend
        rw [hzero, UInt64.toNat_zero] at hout
        omega
      have hinside := (htrue.1 hr).inside hdata
      rw [length_blockBytes, ← hlen] at hinside
      omega
    · rw [run_writeBlock_reads s hb, if_pos (Nat.not_le.1 hend)] at hrun
      cases hrun
  · intro hinside
    obtain ⟨s', hrun, hbytes, -⟩ := run_writeBlock_of_fits s hb (w := ⟨offset, len, data⟩) ⟨hlen, hinside⟩
    refine ⟨true, s', hrun, iff_of_true rfl ?_, fun h => Bool.noConfusion h⟩
    rw [hbytes]
    refine replaced_overlay ?_
    rw [length_blockBytes, ← hlen]
    exact hinside

theorem honest_iff_byte : Honest freshStore 7 2 1 [9] ∧ ¬Honest freshStore 7 16384 1 [9] := by
  refine ⟨(honest_iff freshStore (by decide) 2 rfl).2 (by decide), fun h => ?_⟩
  exact absurd ((honest_iff freshStore (by decide) 16384 rfl).1 h) (by decide)

/-- A byte behind the block throws; one at the last 64-bit offset is reported as written and is not. -/
theorem writeBlock_lies :
    (∃ s', (DataNode.writeBlock 7 16384 1 [9]).run Store.serve freshStore = some (none, s')) ∧
    ∃ s', (DataNode.writeBlock 7 18446744073709551615 1 [9]).run Store.serve freshStore =
        some (some true, s') ∧ s'.disk = freshStore.disk ∧
      ¬Replaced (blockBytes freshStore.disk 7) (blockBytes s'.disk 7) 18446744073709551615 [9] := by
  refine ⟨⟨_, (run_writeBlock_reads freshStore (by decide) _ _ _).trans (if_pos (by decide))⟩, ?_⟩
  have hlen : (1 : UInt64).toNat = [(9 : UInt8)].length := rfl
  have hend : ((18446744073709551615 : UInt64) + 1).toNat ≤ blockSize := by decide
  obtain ⟨s', hrun, hdisk⟩ := run_writeBlock_of_wrap freshStore (by decide : (7 : UInt32).toNat < blockNum)
    hlen hend (by decide)
  refine ⟨s', hrun, hdisk, fun h => ?_⟩
  have hinside := h.inside (List.cons_ne_nil _ _)
  rw [length_blockBytes] at hinside
  exact absurd hinside (by decide)

end Yfs.Hdfs
