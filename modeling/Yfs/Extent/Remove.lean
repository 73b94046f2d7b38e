import Yfs.Extent.Ownership

/-! What `remove_file` gives back. Its block count is one off in either direction, so it keeps the
last block of a file or frees one id too many. -/
namespace Yfs.Extent
open Yfs.Lib

/-- The inode is free, and exactly the blocks of `get_block_ids` and the table have become free. -/
structure Removed (d : Disk) (i : UInt32) (ino : Inode) (d' : Disk) : Prop where
  gone : getInode d' i = none
  freed : ∀ rt l, getBlockIds rt i d = some l → ∀ b < bpb, d'.used b = true ↔
    d.used b = true ∧ b ∉ l.map UInt32.toNat ∧ (nDirect < l.length → b ≠ (ino.block nDirect).toNat)
  others : ∀ j, j ≠ i → getInode d' j = getInode d j

def Inode.IsField (k : ℕ) : Prop := k < Inode.bytes ∧ (k < 2 ∨ 4 ≤ k)

/-- The bit that `free_block` clears for `id` is a set bit of the live inode `j`. -/
def Strikes (d : Disk) (id j : UInt32) : Prop :=
  getInode d j ≠ none ∧ bblock id.toNat = j.toNat + 3 ∧ Inode.IsField (id.toNat % bpb / 8) ∧
    (d (j.toNat + 3)).bit (id.toNat % bpb) = true

/-- `free_block` of `id` clears no mark but those of the file, and spares the other inodes. -/
structure Harmless (d : Disk) (i : UInt32) (ino : Inode) (id : UInt32) : Prop where
  bitmap : id.toNat < bpb → id.toNat ∈ blockList d ino ∨ d.used id.toNat = false
  inode : ∀ j, j ≠ i → ¬Strikes d id j

/-- The ids that `remove_file` frees besides the blocks of a file whose last block is full. -/
def spareIds (rt : Runtime) (d : Disk) (ino : Inode) : List UInt32 :=
  let n := ino.size.toNat / blockSize
  fileBlock rt d ino n :: if n + 1 = nDirect ∨ n = nDirect then [ino.block nDirect] else []

namespace Disk
variable {d : Disk}

theorem bit_unmark {b p : ℕ} (hb : b < blockNum) (hp : p < bpb) (l : List UInt32) :
    (d.unmark l b).bit p = true ↔
      (d b).bit p = true ∧ ∀ id ∈ l, bblock id.toNat = b → id.toNat % bpb ≠ p := by
  have hk : p / 8 < blockSize := by
    rw [bpb_eq] at hp
    rw [blockSize_eq]
    omega
  induction l generalizing d with
  | nil => simp [unmark]
  | cons id l ih =>
    have hfree : (d.freeBlock id b).bit p = true ↔
        (d b).bit p = true ∧ (bblock id.toNat = b → id.toNat % bpb ≠ p) := by
      by_cases hid : bblock id.toNat = b
      · have hbyte : d.freeBlock id b (p / 8) = (d b).clearBit (id.toNat % bpb) (p / 8) := by
          rw [freeBlock, writeBlock_apply, if_pos ⟨hid.symm, hid ▸ hb, hk⟩, hid]
        rw [Buf.bit_congr hbyte, Buf.bit_clearBit, Bool.and_eq_true, Bool.not_eq_true',
          decide_eq_false_iff_not]
        exact and_congr_right fun _ => ⟨fun hne _ heq => hne heq.symm, fun hne heq => hne hid heq.symm⟩
      · rw [freeBlock, writeBlock_of_ne (Ne.symm hid)]
        exact (and_iff_left fun h => absurd h hid).symm
    rw [List.forall_mem_cons, ← and_assoc]
    exact ih.trans (and_congr_left' hfree)

theorem used_unmark_iff {b : ℕ} (hb : b < bpb) (l : List UInt32) :
    (d.unmark l).used b = true ↔ d.used b = true ∧ b ∉ l.map UInt32.toNat := by
  rw [used, bit_unmark (by decide) hb, ← used, List.mem_map]
  refine and_congr_right fun _ => ⟨?_, ?_⟩
  · rintro h ⟨id, hid, rfl⟩
    exact h id hid (bblock_eq hb) (Nat.mod_eq_of_lt hb)
  · rintro h id hid hblock hmod
    refine h ⟨id, hid, ?_⟩
    have hlt : id.toNat < bpb := by
      rw [bblock] at hblock
      exact (Nat.div_eq_zero_iff_lt (by decide)).1 (by omega)
    rw [← hmod, Nat.mod_eq_of_lt hlt]

end Disk

theorem Inode.word_decode (b : Buf) {q : ℕ} (hq : q < nDirect + 5) :
    (decode b).word q = b.word (4 + 4 * q) := by
  match q with
  | 0 => rfl
  | 1 => rfl
  | 2 => rfl
  | 3 => rfl
  | m + 4 =>
    have hpos : 4 + 4 * (m + 4) = 20 + 4 * m := by omega
    rw [word, block_of_lt (by omega), hpos]
    simp only [decode]

theorem Inode.decode_eq_iff {b c : Buf} : decode b = decode c ↔ ∀ k, IsField k → b k = c k := by
  have hbytes : bytes = 424 := rfl
  constructor
  · intro h k hk
    rcases hk.2 with htwo | hfour
    · have htype : b.half 0 = c.half 0 := congrArg Inode.type h
      have hbyte := Buf.byteOf_half b 0 htwo
      rw [htype, Buf.byteOf_half c 0 htwo, Nat.zero_add] at hbyte
      exact hbyte.symm
    · have hq : (k - 4) / 4 < nDirect + 5 := by
        have hlt := hk.1
        simp only [nDirect]
        omega
      have hword := congrArg (fun ino : Inode => ino.word ((k - 4) / 4)) h
      simp only [word_decode _ hq] at hword
      have hpos : 4 + 4 * ((k - 4) / 4) + (k - 4) % 4 = k := by omega
      have hbyte := Buf.byteOf_word b (4 + 4 * ((k - 4) / 4)) (Nat.mod_lt (k - 4) (by decide : 0 < 4))
      rw [hword, Buf.byteOf_word c _ (Nat.mod_lt (k - 4) (by decide : 0 < 4)), hpos] at hbyte
      exact hbyte.symm
  · intro h
    have hword : ∀ k, 4 ≤ k → k + 4 ≤ 424 → b.word k = c.word k := fun k hlo hhi =>
      Buf.word_congr fun j hj => h _ ⟨by omega, .inr (by omega)⟩
    rw [decode, decode, mk.injEq]
    refine ⟨Buf.half_congr fun j hj => h _ ⟨by omega, .inl (by omega)⟩, hword 4 (by omega) (by omega),
      hword 8 (by omega) (by omega), hword 12 (by omega) (by omega), hword 16 (by omega) (by omega), ?_⟩
    funext j
    have hj := j.isLt
    simp only [nDirect] at hj
    exact hword _ (by omega) (by omega)

section
variable {d : Disk} {i j : UInt32} {ino : Inode}

theorem getInode_of_lt (h : j.toNat < inodeNum) : getInode d j =
    if (Inode.decode (d (j.toNat + 3))).type = 0 then none else some (Inode.decode (d (j.toNat + 3))) := by
  rw [getInode, if_neg (Nat.not_le.2 h), iblock_eq]

theorem getInode_of_le (h : inodeNum ≤ j.toNat) : getInode d j = none := if_pos h

theorem getInode_unmark_none (h : getInode d j = none) (l : List UInt32) :
    getInode (d.unmark l) j = none := by
  rcases Nat.lt_or_ge j.toNat inodeNum with hj | hj
  · have hb : j.toNat + 3 < blockNum := (inodeBlock_lt hj).trans (by decide)
    rw [getInode_of_lt hj] at h ⊢
    split_ifs at h with htype
    -- the two bytes of the type were 0
    have hbyte : ∀ k < 2, d (j.toNat + 3) k = 0 := by
      intro k hk
      have hof := Buf.byteOf_half (d (j.toNat + 3)) 0 hk
      rw [Nat.zero_add] at hof
      have hhalf : (d (j.toNat + 3)).half 0 = 0 := htype
      rw [← hof, hhalf, ← UInt8.toNat_inj, Buf.byteOf_toNat, UInt16.toNat_zero, Nat.zero_div]
      rfl
    have hsame : ∀ k < 2, d.unmark l (j.toNat + 3) k = d (j.toNat + 3) k := by
      intro k hk
      refine Buf.eq_of_bit fun p hp => ?_
      have hpb : p < bpb := by
        rw [bpb_eq]
        omega
      have hzero : (d (j.toNat + 3)).bit p = false := by
        rw [Buf.bit, hp, hbyte k hk]
        exact Nat.zero_testBit _
      rw [hzero, Bool.eq_false_iff]
      intro hbit
      rw [((Disk.bit_unmark hb hpb l).1 hbit).1] at hzero
      cases hzero
    have htype' : (Inode.decode (d.unmark l (j.toNat + 3))).type = 0 := by
      rw [← htype]
      exact Buf.half_congr fun k hk => by rw [Nat.zero_add, hsame k hk]
    rw [if_pos htype']
  · exact getInode_of_le hj

/-- A row of `free_block` spares an inode exactly if none of them strikes it. -/
theorem getInode_unmark_iff (l : List UInt32) (j : UInt32) :
    getInode (d.unmark l) j = getInode d j ↔ ∀ id ∈ l, ¬Strikes d id j := by
  cases hino : getInode d j with
  | none => exact iff_of_true (getInode_unmark_none hino l) fun id _ h => h.1 hino
  | some ino =>
    have hj := getInode_lt hino
    have hb : j.toNat + 3 < blockNum := (inodeBlock_lt hj).trans (by decide)
    have hfield : ∀ p, Inode.IsField (p / 8) → p < bpb := by
      intro p hp
      have hlt := hp.1
      have hbytes : Inode.bytes = 424 := rfl
      rw [bpb_eq]
      omega
    have hdec : Inode.decode (d (j.toNat + 3)) = ino := by
      rw [getInode_of_lt hj] at hino
      split_ifs at hino
      exact Option.some.inj hino
    constructor
    · intro h id hid hstrike
      obtain ⟨-, hblock, hf, hbit⟩ := hstrike
      have hdec' : Inode.decode (d.unmark l (j.toNat + 3)) = Inode.decode (d (j.toNat + 3)) := by
        rw [hdec]
        rw [getInode_of_lt hj] at h
        split_ifs at h
        exact Option.some.inj h
      have hbyte := Inode.decode_eq_iff.1 hdec' _ hf
      rw [← Buf.bit_congr hbyte, Disk.bit_unmark hb (hfield _ hf)] at hbit
      exact hbit.2 id hid hblock rfl
    · intro h
      have hdec' : Inode.decode (d.unmark l (j.toNat + 3)) = Inode.decode (d (j.toNat + 3)) := by
        refine Inode.decode_eq_iff.2 fun k hk => Buf.eq_of_bit fun p hp => ?_
        subst hp
        rw [Bool.eq_iff_iff, Disk.bit_unmark hb (hfield p hk)]
        refine and_iff_left_of_imp fun hbit id hid hblock hmod => h id hid ⟨?_, hblock, ?_, ?_⟩
        · rw [hino]
          exact Option.some_ne_none _
        · rw [hmod]
          exact hk
        · rw [hmod]
          exact hbit
      rw [← hino, getInode_of_lt hj, getInode_of_lt hj, hdec']

theorem freeInode_of_ne (rt : Runtime) {b : ℕ} (hb : b ≠ i.toNat + 3) : freeInode rt i d b = d b := by
  rw [freeInode]
  cases getInode d i with
  | none => rfl
  | some ino => exact putInode_of_ne hb

theorem getInode_freeInode (rt : Runtime) (j : UInt32) :
    getInode (freeInode rt i d) j = if j = i then none else getInode d j := by
  rw [freeInode]
  cases hino : getInode d i with
  | none =>
    split_ifs with hj
    · rw [hj]
      exact hino
    · rfl
  | some ino => exact getInode_putInode (getInode_lt hino) _ d j

theorem not_mem_getBlockIds_iff (hino : getInode d i = some ino) (hwf : WellFormed d ino) {rt : Runtime}
    {l : List UInt32} (h : getBlockIds rt i d = some l) {b : ℕ} :
    b ∉ l.map UInt32.toNat ∧ (nDirect < l.length → b ≠ (ino.block nDirect).toNat) ↔ b ∉ blockList d ino := by
  rw [hwf.getBlockIds_eq hino, Option.some.injEq] at h
  have hmap : l.map UInt32.toNat = dataBlocks d ino := by
    rw [← h, List.map_map, List.map_congr_left (g := id), List.map_id]
    intro c hc
    exact toNat_ofNat_of_lt (hwf.data c (List.mem_append_left _ hc)).2
  have hlen : l.length = blockCount ino.size.toNat := by
    rw [← h, List.length_map, dataBlocks, List.length_map, List.length_range]
  rw [hmap, hlen, blockList, List.mem_append, not_or, tableBlocks]
  refine and_congr_right fun _ => ?_
  split_ifs with hn
  · rw [List.mem_singleton]
    exact ⟨fun h => h hn, fun h _ => h⟩
  · exact iff_of_true (fun hlt => absurd hlt hn) (List.not_mem_nil)

private theorem used_removeFile (hino : getInode d i = some ino) (rt : Runtime) {b : ℕ} (hb : b < bpb) :
    (removeFile rt i d).used b = true ↔
      d.used b = true ∧ b ∉ (removeIds rt d ino).map UInt32.toNat := by
  rw [removeFile_eq rt hino, Disk.used, freeInode_of_ne rt (by omega), ← Disk.used, Disk.used_unmark_iff hb]

theorem removed_iff_ids (hino : getInode d i = some ino) (hwf : WellFormed d ino) (rt : Runtime) :
    Removed d i ino (removeFile rt i d) ↔
      (∀ b ∈ blockList d ino, b ∈ (removeIds rt d ino).map UInt32.toNat) ∧
        ∀ id ∈ removeIds rt d ino, Harmless d i ino id := by
  have hiff : ∀ {rt' l b}, getBlockIds rt' i d = some l → b < bpb → (((removeFile rt i d).used b = true ↔
      d.used b = true ∧ b ∉ l.map UInt32.toNat ∧ (nDirect < l.length → b ≠ (ino.block nDirect).toNat)) ↔
      (d.used b = true → (b ∉ (removeIds rt d ino).map UInt32.toNat ↔ b ∉ blockList d ino))) := by
    intro rt' l b hl hb
    rw [used_removeFile hino rt hb, not_mem_getBlockIds_iff hino hwf hl, and_congr_right_iff]
  constructor
  · intro h
    have hused : ∀ b < bpb, d.used b = true →
        (b ∉ (removeIds rt d ino).map UInt32.toNat ↔ b ∉ blockList d ino) :=
      fun b hb => (hiff (hwf.getBlockIds_eq hino rt) hb).1 (h.freed rt _ (hwf.getBlockIds_eq hino rt) b hb)
    refine ⟨fun b hb => ?_, fun id hid => ⟨fun hlt => ?_, fun j hj => ?_⟩⟩
    · have hlt := (hwf.data b hb).2.trans (by decide : blockNum < bpb)
      exact not_not.1 fun hnot => (hused b hlt (hwf.marked b hb)).1 hnot hb
    · by_contra hnot
      obtain ⟨hown, hu⟩ := not_or.1 hnot
      rw [Bool.not_eq_false] at hu
      exact (hused _ hlt hu).2 hown (List.mem_map_of_mem hid)
    · have hother := h.others j hj
      rw [removeFile_eq rt hino, getInode_freeInode, if_neg hj, getInode_unmark_iff] at hother
      exact hother id hid
  · rintro ⟨hsub, hsafe⟩
    refine ⟨?_, fun rt' l hl b hb => (hiff hl hb).2 fun hu => not_congr ⟨fun hmem => ?_, hsub b⟩,
      fun j hj => ?_⟩
    · rw [removeFile_eq rt hino, getInode_freeInode, if_pos rfl]
    · obtain ⟨id, hid, rfl⟩ := List.mem_map.1 hmem
      refine ((hsafe id hid).bitmap hb).resolve_right fun hfree => ?_
      rw [hu] at hfree
      cases hfree
    · rw [removeFile_eq rt hino, getInode_freeInode, if_neg hj, getInode_unmark_iff]
      exact fun id hid => (hsafe id hid).inode j hj

theorem mem_removeIds_of_full (hwf : WellFormed d ino) (hmod : ino.size.toNat % blockSize = 0) (rt : Runtime)
    (id : UInt32) : id ∈ removeIds rt d ino ↔ id.toNat ∈ blockList d ino ∨ id ∈ spareIds rt d ino := by
  have hcount : blockCount ino.size.toNat = ino.size.toNat / blockSize := by rw [blockCount, if_pos hmod]
  have hlist : id.toNat ∈ blockList d ino ↔ (∃ j < ino.size.toNat / blockSize, id = fileBlock rt d ino j) ∨
      (nDirect < ino.size.toNat / blockSize ∧ id = ino.block nDirect) := by
    rw [mem_blockList_iff, hcount, UInt32.toNat_inj]
    refine or_congr_left (exists_congr fun j => and_congr_right fun hj => ?_)
    rw [← hwf.fileBlock_eq rt (hcount ▸ hj), UInt32.toNat_inj]
  have hspare : id ∈ spareIds rt d ino ↔ id = fileBlock rt d ino (ino.size.toNat / blockSize) ∨
      ((ino.size.toNat / blockSize + 1 = nDirect ∨ ino.size.toNat / blockSize = nDirect) ∧
        id = ino.block nDirect) := by
    rw [spareIds, List.mem_cons]
    split_ifs with h <;> simp [h]
  rw [mem_removeIds, hlist, hspare, if_neg (not_not.2 hmod)]
  clear hlist hspare
  generalize ino.size.toNat / blockSize = n
  constructor
  · rintro (⟨j, hj, rfl⟩ | ⟨hn, rfl⟩)
    · rcases Nat.lt_succ_iff_lt_or_eq.1 hj with hlt | rfl
      · exact .inl (.inl ⟨j, hlt, rfl⟩)
      · exact .inr (.inl rfl)
    · rcases Nat.lt_or_ge nDirect n with hgt | hle
      · exact .inl (.inr ⟨hgt, rfl⟩)
      · exact .inr (.inr ⟨by omega, rfl⟩)
  · rintro ((⟨j, hj, rfl⟩ | ⟨hn, rfl⟩) | (rfl | ⟨hn, rfl⟩))
    · exact .inl ⟨j, by omega, rfl⟩
    · exact .inr ⟨by omega, rfl⟩
    · exact .inl ⟨n, by omega, rfl⟩
    · exact .inr ⟨by omega, rfl⟩

private theorem harmless_of_mem (hwf : WellFormed d ino) {id : UInt32} (h : id.toNat ∈ blockList d ino) :
    Harmless d i ino id := by
  refine ⟨fun _ => .inl h, fun j _ hstrike => ?_⟩
  have hblock := hstrike.2.1
  rw [bblock_eq ((hwf.data _ h).2.trans (by decide))] at hblock
  omega

/-- The last block of a file that does not fill it stays marked. -/
theorem last_not_mem_removeIds (hwf : WellFormed d ino) (hmod : ino.size.toNat % blockSize ≠ 0)
    (rt : Runtime) :
    blockId d ino (ino.size.toNat / blockSize) ∉ (removeIds rt d ino).map UInt32.toNat := by
  have hcount : blockCount ino.size.toNat = ino.size.toNat / blockSize + 1 := by rw [blockCount, if_neg hmod]
  intro hmem
  obtain ⟨id, hid, heq⟩ := List.mem_map.1 hmem
  rw [mem_removeIds, if_pos hmod] at hid
  rcases hid with ⟨j, hj, rfl⟩ | ⟨hn, rfl⟩
  · rw [hwf.fileBlock_eq rt (by omega)] at heq
    exact hwf.ne_of_lt hj (by omega) heq
  · exact hwf.table_ne (by omega) (by omega) heq.symm

/-- `remove_file` gives back exactly the blocks of a file if its last block is full and the ids that
are freed beyond its list are harmless. -/
theorem removed_iff (hino : getInode d i = some ino) (hwf : WellFormed d ino) :
    (∀ rt, Removed d i ino (removeFile rt i d)) ↔ ino.size.toNat % blockSize = 0 ∧
      ∀ rt, ∀ id ∈ spareIds rt d ino, Harmless d i ino id := by
  constructor
  · intro h
    have hmod : ino.size.toNat % blockSize = 0 := by
      by_contra hmod
      have hsub := ((removed_iff_ids hino hwf quiet).1 (h quiet)).1
      refine last_not_mem_removeIds hwf hmod quiet (hsub _ (mem_blockList ?_))
      rw [blockCount, if_neg hmod]
      exact Nat.lt_succ_self _
    refine ⟨hmod, fun rt id hid => ?_⟩
    exact ((removed_iff_ids hino hwf rt).1 (h rt)).2 id ((mem_removeIds_of_full hwf hmod rt id).2 (.inr hid))
  · rintro ⟨hmod, hsafe⟩ rt
    refine (removed_iff_ids hino hwf rt).2 ⟨fun b hb => ?_, fun id hid => ?_⟩
    · have hof := toNat_ofNat_of_lt (hwf.data b hb).2
      refine List.mem_map.2 ⟨UInt32.ofNat b, (mem_removeIds_of_full hwf hmod rt _).2 (.inl ?_), hof⟩
      rw [hof]
      exact hb
    · rcases (mem_removeIds_of_full hwf hmod rt id).1 hid with hmem | hmem
      · exact harmless_of_mem hwf hmem
      · exact hsafe rt id hmem

end

def blockNode : Inode :=
  { (newInode quiet FileType.dir.code).setBlock 0 1028 with size := UInt32.ofNat blockSize }

private theorem appendBlock_init : Server.appendBlock quiet 1 (Server.init quiet) =
    (some 1028, putInode quiet 1 blockNode ((Server.init quiet).mark [1028])) := by
  have hcons : (Server.init quiet).freeBlocks = 1028 :: List.range' 1029 (blockNum - Disk.firstData - 1) := by
    rw [freeBlocks_init]
    rfl
  have hroot : getInode (Server.init quiet) (maskId 1) = some (newInode quiet FileType.dir.code) :=
    getInode_root quiet
  have hmax : ¬maxFile < blockCount (newInode quiet FileType.dir.code).size.toNat := by decide
  have hdirect : blockCount (newInode quiet FileType.dir.code).size.toNat < nDirect := by decide
  simp only [Server.appendBlock, appendBlock, hroot, if_neg hmax, if_pos hdirect,
    Disk.allocBlock_of_cons hcons]
  rfl

theorem removed_iff_block : ∃ d, d = (Server.appendBlock quiet 1 (Server.init quiet)).2 ∧
    getInode d 1 = some blockNode ∧ blockList d blockNode = [1028] ∧ WellFormed d blockNode ∧
    ∀ rt, Removed d 1 blockNode (removeFile rt 1 d) := by
  have hallowed : Request.Allowed (Server.init quiet) (.appendBlock 1) := by
    intro ino hino _
    rw [getInode_root] at hino
    cases hino
    rw [freeBlocks_init, List.length_range']
    decide
  have hown := (owned_init quiet).appendBlock quiet hallowed
  refine ⟨_, rfl, ?_⟩
  rw [appendBlock_init] at hown ⊢
  have hino : getInode (putInode quiet 1 blockNode ((Server.init quiet).mark [1028])) 1 = some blockNode := by
    rw [getInode_putInode (by decide), if_pos rfl, if_neg (by decide)]
  have hwf := hown.wellFormed 1 blockNode hino
  refine ⟨hino, rfl, hwf, (removed_iff hino hwf).2 ⟨rfl, fun rt id hid => ?_⟩⟩
  -- the slot behind the block has what `malloc` left there
  obtain rfl : id = 0 := List.mem_singleton.1 hid
  constructor
  · intro _
    have hbit := Disk.used_mark (d := Server.init quiet) (by decide : 0 < bpb) [1028]
    rw [used_init] at hbit
    refine .inr (Eq.trans ?_ hbit)
    rw [Disk.used, putInode_of_ne (by decide), ← Disk.used]
    rfl
  · intro j _ hstrike
    have hblock : 2 = j.toNat + 3 := hstrike.2.1
    omega

/-- A file of one byte leaves its block marked. -/
theorem removed_byte : ∃ ino, getInode (Server.put quiet 1 [7] (Server.init quiet)) 1 = some ino ∧
    WellFormed (Server.put quiet 1 [7] (Server.init quiet)) ino ∧
    ∀ rt, ¬Removed (Server.put quiet 1 [7] (Server.init quiet)) 1 ino
      (removeFile rt 1 (Server.put quiet 1 [7] (Server.init quiet))) := by
  obtain ⟨ino, hino, hsize, -, -⟩ := inodes_put_byte
  have hown := ((owned_init quiet).put quiet put_byte_init.1 put_byte_init.2).1
  have hwf := hown.wellFormed 1 ino hino
  refine ⟨ino, hino, hwf, fun rt h => ?_⟩
  have hmod : ino.size.toNat % blockSize ≠ 0 := by
    rw [hsize]
    decide
  have hsub := ((removed_iff_ids hino hwf rt).1 h).1
  refine last_not_mem_removeIds hwf hmod rt (hsub _ (mem_blockList ?_))
  rw [blockCount, if_neg hmod]
  exact Nat.lt_succ_self _

end Yfs.Extent
