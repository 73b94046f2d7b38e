import Yfs.Client.FuseDisk
import Yfs.Hdfs.Listing
import Yfs.Hdfs.Packets

/-! The files of a mount as HDFS shows them: `PBGetFileInfo` and `PBGetBlockLocations` of a path, and the
bytes at any position of a file, in the packets that the datanodes send. -/
namespace Yfs.Client.Fuse
open Yfs.Hdfs

def Tree.walk (tree : Tree) (ino : UInt64) : List Str → Option UInt64
  | [] => some ino
  | name :: l => (tree.find ino name).bind fun ino' => tree.walk ino' l

def Tree.node (tree : Tree) (ino : UInt64) : Option (UInt64 × Node) := (tree ino).map fun node => (ino, node)

/-- What is at an absolute path. Its components are passed on as C strings. -/
def Tree.nodeAt (tree : Tree) (path : Str) : Option (UInt64 × Node) :=
  if path.head? = some slash then (tree.walk 1 ((NameNode.components path).map cStr)).bind tree.node else none

end Yfs.Client.Fuse

namespace Yfs.Hdfs
open Yfs.Lib Yfs.Extent Yfs.Client

/-- No locations come back if the path is not that of a file. -/
def NameNode.pbGetBlockLocations {D : Type} (nn : NameNode D) (src : Str) : M (Option (LocatedBlocks D)) := do
  match ← recursiveLookup src with
  | none => pure none
  | some ino =>
    if ← Client.isfile ino then
      match ← Client.getfile ino with
      | (.ok, some info) =>
        let blocks ← nn.getBlockLocations ino
        pure (some (locatedBlocks info blocks))
      | _ => pure none
    else pure none

/-- A client of HDFS that reads `len` bytes at `off`: it asks for the part of each block that it needs, and
takes the data out of the packets. -/
def fetch {D : Type} (off len : ℕ) : List (LocatedBlock D) → M (Option Str)
  | [] => pure (some [])
  | b :: l => do
    let first := max off b.offset.toNat
    let last := min (off + len) (b.offset.toNat + b.size.toNat)
    if first < last then
      let (_, packets) ← DataNode.readBlockOp b.blockId (.ofNat (first - b.offset.toNat))
        (.ofNat (last - first))
      let rest ← fetch off len l
      pure (packets.bind fun ps => rest.map fun data => carried ps ++ data)
    else fetch off len l

/-- The status has the times of an inode, in milliseconds. -/
def Timed (d : Disk) (ino : UInt64) (st : FileStatus) : Prop :=
  st.modificationTime = (Server.getattr ino d).mtime.toUInt64 * 1000 ∧
    st.accessTime = (Server.getattr ino d).atime.toUInt64 * 1000

/-- What `PBGetFileInfo` tells of a node, with the times that its inode has then. It knows no links. -/
def Tells (d : Disk) (status : Option FileStatus) : Option (UInt64 × Fuse.Node) → Prop
  | some (ino, .file content) => ∃ st, status = some st ∧ st.isDir = false ∧
      st.length.toNat = content.length ∧ Timed d ino st
  | some (ino, .dir _) => ∃ st, status = some st ∧ st.isDir = true ∧ Timed d ino st
  | some (_, .link _) => status = none
  | none => status = none

/-- The locations of a file lead to its bytes, wherever a client reads; nothing else has locations. -/
def Locates {D : Type} (s : Store) (locs : Option (LocatedBlocks D)) : Option (UInt64 × Fuse.Node) → Prop
  | some (_, .file content) => ∃ l, locs = some l ∧ l.fileLength.toNat = content.length ∧
      ∀ off len, ∃ s', (fetch off len l.blocks).run Store.serve s =
        some (some ((content.drop off).take len), s')
  | _ => locs = none

section
variable {α : Type} {l : List α} {a e : ℕ}

theorem extract_of_le (h : e ≤ a) (l : List α) : l.extract a e = [] := by
  rw [List.extract_eq_take_drop, Nat.sub_eq_zero_of_le h, List.take_zero]

private theorem extract_append_extract {m : ℕ} (ham : a ≤ m) (hme : m ≤ e) (l : List α) :
    l.extract a m ++ l.extract m e = l.extract a e := by
  have hm : l.drop m = (l.drop a).drop (m - a) := by
    rw [List.drop_drop, Nat.add_sub_of_le ham]
  have he : e - a = m - a + (e - m) := by omega
  simp only [List.extract_eq_take_drop]
  rw [hm, he, List.take_add]

theorem flatMap_extract (c off e k : ℕ) (l : List α) :
    ((List.range k).flatMap fun j =>
        l.extract (max off (j * c)) (min e (j * c + Buf.chunkLen c l.length j))) =
      l.extract off (min e (min (k * c) l.length)) := by
  induction k with
  | zero =>
    rw [List.range_zero, List.flatMap_nil, extract_of_le]
    omega
  | succ k ih =>
    have hchunk := Buf.min_add_chunkLen c l.length k
    rw [List.range_succ, List.flatMap_append, ih, List.flatMap_singleton, ← hchunk]
    by_cases hk : k * c ≤ min e l.length
    · rw [Nat.min_eq_left (by omega : k * c ≤ l.length), Nat.min_eq_right (by omega : k * c ≤ e)]
      rcases Nat.le_total off (k * c) with hoff | hoff
      · rw [Nat.max_eq_right hoff, extract_append_extract hoff (by omega)]
      · rw [Nat.max_eq_left hoff, extract_of_le hoff, List.nil_append]
    · -- the range or the list has come to its end before this chunk
      have hlen : Buf.chunkLen c l.length k = 0 ∨ e < k * c := by
        rw [Buf.chunkLen]
        omega
      rw [extract_of_le (by omega : min e (k * c + Buf.chunkLen c l.length k) ≤ max off (k * c)),
        List.append_nil]
      congr 1
      omega

end

section
variable {D : Type} {d : Disk} {ino : Inode}

theorem extract_blockBytes {j a e : ℕ} (ha : j * blockSize ≤ a)
    (he : e ≤ j * blockSize + Buf.chunkLen blockSize ino.size.toNat j) :
    (blockBytes d (blockId d ino j)).extract (a - j * blockSize) (e - j * blockSize) =
      (fileBytes d ino).extract a e := by
  have hle : Buf.chunkLen blockSize ino.size.toNat j ≤ blockSize := Nat.min_le_left _ _
  have hsize : a < e → e ≤ ino.size.toNat := by
    intro hlt
    rw [Buf.chunkLen] at he
    omega
  rcases Nat.lt_or_ge a e with hlt | hge
  · refine List.ext_getElem ?_ fun i hi hi' => ?_
    · rw [List.extract_eq_take_drop, List.extract_eq_take_drop, List.length_take, List.length_drop,
        List.length_take, List.length_drop, length_blockBytes, fileBytes, Buf.length_toList]
      have := hsize hlt
      omega
    · simp only [List.extract_eq_take_drop, List.getElem_take, List.getElem_drop, blockBytes, fileBytes,
        Buf.toList, List.getElem_map, List.getElem_range]
      simp only [List.extract_eq_take_drop, List.length_take, List.length_drop] at hi
      have hdiv : (a + i) / blockSize = j := Nat.div_eq_of_lt_le (by omega) (by rw [Nat.succ_mul]; omega)
      have hmod : (a + i) % blockSize = a - j * blockSize + i := by
        have := Nat.div_add_mod (a + i) blockSize
        rw [hdiv, Nat.mul_comm] at this
        omega
      rw [hdiv, hmod]
  · rw [extract_of_le hge, extract_of_le (by omega)]

theorem run_fetch (off len : ℕ) (l : List (LocatedBlock D)) (s : Store)
    (hl : ∀ b ∈ l, b.blockId.toNat < blockNum ∧ b.size.toNat ≤ blockSize) :
    ∃ s', (fetch off len l).run Store.serve s = some (some (l.flatMap fun b =>
        (blockBytes s.disk b.blockId.toNat).extract (max off b.offset.toNat - b.offset.toNat)
          (min (off + len) (b.offset.toNat + b.size.toNat) - b.offset.toNat)), s') ∧
      s'.disk = s.disk := by
  induction l generalizing s with
  | nil => exact ⟨s, rfl, rfl⟩
  | cons b l ih =>
    obtain ⟨hb, hsize⟩ := hl b List.mem_cons_self
    have hrest : ∀ b ∈ l, b.blockId.toNat < blockNum ∧ b.size.toNat ≤ blockSize :=
      fun b' hb' => hl b' (List.mem_cons_of_mem b hb')
    rw [fetch, List.flatMap_cons]
    dsimp only
    split_ifs with hpart
    · have hbound : blockSize < 2 ^ 64 := by decide
      have hfirst : (UInt64.ofNat (max off b.offset.toNat - b.offset.toNat)).toNat =
          max off b.offset.toNat - b.offset.toNat := by
        rw [UInt64.toNat_ofNat', Nat.mod_eq_of_lt]
        omega
      have hlast : (UInt64.ofNat (min (off + len) (b.offset.toNat + b.size.toNat) -
          max off b.offset.toNat)).toNat =
            min (off + len) (b.offset.toNat + b.size.toNat) - max off b.offset.toNat := by
        rw [UInt64.toNat_ofNat', Nat.mod_eq_of_lt]
        omega
      obtain ⟨ps, hread, hps⟩ := run_readBlockOp s hb (by rw [hfirst]; omega) (by rw [hlast]; omega)
      obtain ⟨s', hrun, hdisk⟩ := ih (s.next s.disk) hrest
      refine ⟨s', ?_, hdisk⟩
      have hend : min (max off b.offset.toNat - b.offset.toNat +
          (min (off + len) (b.offset.toNat + b.size.toNat) - max off b.offset.toNat)) blockSize =
            min (off + len) (b.offset.toNat + b.size.toNat) - b.offset.toNat := by omega
      have hdata := hps.data
      rw [hfirst, hlast, hend] at hdata
      rw [Prog.run_bind_some hread]
      dsimp only
      rw [Prog.run_bind_some hrun, Prog.run_pure, Option.bind_some, Option.map_some, hdata]
      rfl
    · obtain ⟨s', hrun, hdisk⟩ := ih s hrest
      refine ⟨s', ?_, hdisk⟩
      rw [hrun, extract_of_le (by omega), List.nil_append]

theorem run_fetch_located (nn : NameNode D) (rt : Runtime) (s : Store) (hin : InRange s.disk ino)
    (off len : ℕ) :
    ∃ s', (fetch off len ((List.range (blockCount ino.size.toNat)).map (located nn rt s.disk ino))).run
      Store.serve s = some (some (((fileBytes s.disk ino).drop off).take len), s') := by
  have hblock : ∀ j ∈ List.range (blockCount ino.size.toNat),
      (located nn rt s.disk ino j).blockId.toNat = blockId s.disk ino j ∧
      (located nn rt s.disk ino j).offset.toNat = j * blockSize ∧
      (located nn rt s.disk ino j).size.toNat = Buf.chunkLen blockSize ino.size.toNat j := by
    intro j hj
    have hlow := lt_blockCount.1 (List.mem_range.1 hj)
    have hlt := ino.size.toNat_lt
    refine ⟨hin.fileBlock_eq rt (List.mem_range.1 hj), ?_, toNat_chunkLen _ j⟩
    rw [located, UInt64.toNat_ofNat', Nat.mod_eq_of_lt (by omega)]
  obtain ⟨s', hrun, -⟩ := run_fetch off len
    ((List.range (blockCount ino.size.toNat)).map (located nn rt s.disk ino)) s (by
      intro b hb
      obtain ⟨j, hj, rfl⟩ := List.mem_map.1 hb
      obtain ⟨hid, -, hsize⟩ := hblock j hj
      rw [hid, hsize]
      exact ⟨hin.block j (List.mem_range.1 hj), Nat.min_le_left _ _⟩)
  refine ⟨s', hrun.trans ?_⟩
  have hlen : (fileBytes s.disk ino).length = ino.size.toNat := Buf.length_toList _ _
  have hall : min (off + len) (min (blockCount ino.size.toNat * blockSize) ino.size.toNat) =
      min (off + len) ino.size.toNat := by rw [Nat.min_eq_right (blockCount_le.1 le_rfl)]
  have hrange := flatMap_extract blockSize off (off + len) (blockCount ino.size.toNat)
    (fileBytes s.disk ino)
  rw [hlen, hall] at hrange
  have htake : (fileBytes s.disk ino).extract off (min (off + len) ino.size.toNat) =
      ((fileBytes s.disk ino).drop off).take len := by
    rw [List.extract_eq_take_drop, List.take_eq_take_iff, List.length_drop, hlen]
    omega
  rw [← htake, ← hrange, List.flatMap_map]
  congr 3
  refine List.flatMap_congr fun j hj => ?_
  obtain ⟨hid, hoff, hsize⟩ := hblock j hj
  rw [hid, hoff, hsize]
  exact extract_blockBytes (Nat.le_max_right _ _) (Nat.min_le_right _ _)

end

section
variable {D : Type} {s : Store} {tree : Fuse.Tree} {ino : UInt64} {node : Fuse.Node}

theorem toNat_lt_of_live (hfiles : filesOf s.disk = tree.files) (hlive : tree ino ≠ none) :
    ino.toNat < 2 ^ 31 := by
  by_contra hlarge
  have hnone : filesOf s.disk ino = none := if_neg hlarge
  rw [hfiles] at hnone
  exact hlive (Fuse.Tree.files_eq_none.1 hnone)

theorem exists_inode_of_node (hfiles : filesOf s.disk = tree.files) (hnode : tree ino = some node) :
    ∃ i, getInode s.disk (maskId ino) = some i ∧ fileBytes s.disk i = node.bytes := by
  have hlive : tree ino ≠ none := Option.ne_none_iff_exists'.2 ⟨node, hnode⟩
  have hfile : filesOf s.disk ino = some (node.type.code, node.bytes) := by
    rw [hfiles, Fuse.Tree.files_of_some hnode]
  rw [filesOf_of_lt (toNat_lt_of_live hfiles hlive), fileOf] at hfile
  obtain ⟨_, hi, heq⟩ := Option.map_eq_some_iff.1 hfile
  obtain ⟨i, hino, rfl⟩ := Option.map_eq_some_iff.1 hi
  exact ⟨i, hino, (Prod.mk.inj heq).2⟩

private theorem entryOf_dirText (hs : Fuse.Sound tree) (hfiles : filesOf s.disk = tree.files)
    (hlive : tree ino ≠ none) (name : Str) : entryOf (dirText s.disk ino) name = tree.find ino name := by
  rw [← dir_filesOf (toNat_lt_of_live hfiles hlive), hfiles, entryOf]
  exact Fuse.Tree.entry?_eq hs ino name

private theorem resolve_eq_walk (hs : Fuse.Sound tree) (hfiles : filesOf s.disk = tree.files) (l : List Str)
    (hlive : tree ino ≠ none) : resolve (dirText s.disk) ino l = tree.walk ino (l.map cStr) ∧
      ∀ ino', tree.walk ino (l.map cStr) = some ino' → tree ino' ≠ none := by
  induction l generalizing ino with
  | nil =>
    refine ⟨rfl, fun ino' h => ?_⟩
    cases h
    exact hlive
  | cons c l ih =>
    rw [resolve, entryOf_dirText hs hfiles hlive, List.map_cons, Fuse.Tree.walk]
    cases hfind : tree.find ino (cStr c) with
    | none => exact ⟨rfl, fun ino' h => by cases h⟩
    | some ino' => exact ih (hs.live (Fuse.Tree.lists_of_find hfind))

/-- `RecursiveLookup` on a disk that keeps a tree: the node of the path, or none. -/
theorem run_recursiveLookup_tree (hown : Owned s.disk) (hs : Fuse.Sound tree)
    (hfiles : filesOf s.disk = tree.files) (path : Str) :
    ∃ r s', (NameNode.recursiveLookup path).run Store.serve s = some (r, s') ∧ SameStore s s' ∧
      tree.nodeAt path = r.bind tree.node ∧ ∀ ino, r = some ino → tree ino ≠ none := by
  obtain ⟨s', hrun, hsame⟩ := run_recursiveLookup s hown path
  have hroot : tree 1 ≠ none := by
    obtain ⟨l, hl⟩ := hs.root
    exact Option.ne_none_iff_exists'.2 ⟨_, hl⟩
  obtain ⟨hwalk, hlive⟩ := resolve_eq_walk hs hfiles (NameNode.components path) hroot
  refine ⟨_, s', hrun, hsame, ?_, ?_⟩
  · rw [Fuse.Tree.nodeAt, resolvePath]
    split_ifs
    · rw [hwalk]
    · rfl
  · intro ino hino
    rw [resolvePath] at hino
    split_ifs at hino
    exact hlive ino (hwalk ▸ hino)

theorem type_getattr (hfiles : filesOf s.disk = tree.files) (hnode : tree ino = some node) (type : FileType) :
    decide ((Server.getattr ino s.disk).type = type.code) = decide (node.type = type) := by
  have hlive : tree ino ≠ none := Option.ne_none_iff_exists'.2 ⟨node, hnode⟩
  rw [(getattr_filesOf (toNat_lt_of_live hfiles hlive)).1, hfiles, Fuse.Tree.files_of_some hnode]
  change decide (node.type.code = type.code) = _
  cases node.type <;> cases type <;> rfl

theorem run_getattr (s : Store) (ino : UInt64) : (perform (.getattr ino)).run Store.serve s =
    some ((.ok, Server.getattr ino s.disk), s.next s.disk) := Prog.run_perform _ s

theorem run_nlockIs (s : Store) (type : FileType) (ino : UInt64) :
    (nlockIs type ino).run Store.serve s =
      some (decide ((Server.getattr ino s.disk).type = type.code), s.next s.disk) := by
  rw [nlockIs, Prog.run_bind_some (run_getattr s ino), Prog.run_pure]
  rfl

theorem size_getattr_node (hfiles : filesOf s.disk = tree.files) (hnode : tree ino = some node)
    (hfits : node.Fits) : (Server.getattr ino s.disk).size.toUInt64.toNat = node.bytes.length := by
  have hlive : tree ino ≠ none := Option.ne_none_iff_exists'.2 ⟨node, hnode⟩
  have hlen := hfits.1
  rw [(getattr_filesOf (toNat_lt_of_live hfiles hlive)).2, hfiles, Fuse.Tree.files_of_some hnode,
    UInt32.toNat_toUInt64, UInt32.toNat_ofNat']
  change node.bytes.length % 2 ^ 32 = _
  omega

theorem run_pbGetFileInfoFromInum_node (hfiles : filesOf s.disk = tree.files) (hnode : tree ino = some node)
    (hfits : node.Fits) : ∃ status s', (NameNode.pbGetFileInfoFromInum ino).run Store.serve s =
      some (status, s') ∧ Tells s'.disk status (some (ino, node)) := by
  have hfile := run_nlockIs s .file ino
  have hdir := run_nlockIs (s.next s.disk) .dir ino
  rw [Store.disk_next, type_getattr hfiles hnode] at hdir
  rw [type_getattr hfiles hnode] at hfile
  have hsize := size_getattr_node hfiles hnode hfits
  have hother : node.type ≠ .file → (NameNode.pbGetFileInfoFromInum ino).run Store.serve s =
      if node.type = .dir then some (some ⟨true, "", 0, "cse", "supergroup", UInt64.ofNat blockSize, 0o777,
        (dirInfo (Server.getattr ino s.disk)).mtime * 1000,
        (dirInfo (Server.getattr ino s.disk)).atime * 1000⟩, ((s.next s.disk).next s.disk).next s.disk)
      else some (none, (s.next s.disk).next s.disk) := by
    intro hne
    rw [NameNode.pbGetFileInfoFromInum, NameNode.isfile, nlockIsfile, Prog.run_bind_some hfile,
      decide_eq_false hne, if_neg Bool.false_ne_true, NameNode.isdir, nlockIsdir, Prog.run_bind_some hdir]
    by_cases htype : node.type = .dir
    · rw [decide_eq_true htype, if_pos rfl, if_pos htype]
      rfl
    · rw [decide_eq_false htype, if_neg Bool.false_ne_true, if_neg htype, Prog.run_pure]
  cases node with
  | file content =>
    rw [NameNode.pbGetFileInfoFromInum, NameNode.isfile, nlockIsfile, Prog.run_bind_some hfile]
    exact ⟨_, _, rfl, _, rfl, rfl, hsize, rfl, rfl⟩
  | dir l => exact ⟨_, _, (hother FileType.noConfusion).trans (if_pos rfl), _, rfl, rfl, rfl, rfl⟩
  | link target =>
    exact ⟨_, _, (hother FileType.noConfusion).trans (if_neg FileType.noConfusion), rfl⟩

private theorem run_isfile (hfree : s.held ino = false) : ∃ s', (Client.isfile ino).run Store.serve s =
    some (decide ((Server.getattr ino s.disk).type = FileType.file.code), s') ∧ s'.disk = s.disk ∧
      s'.held = s.held :=
  ⟨_, run_locked hfree (run_nlockIs _ .file ino) rfl, rfl, rfl⟩

private theorem run_getfile (hfree : s.held ino = false) : ∃ s', (Client.getfile ino).run Store.serve s =
    some ((.ok, some (fileInfo (Server.getattr ino s.disk))), s') ∧ s'.disk = s.disk :=
  ⟨_, run_locked hfree (Prog.run_bind_some (run_getattr _ ino) _) rfl, rfl⟩

theorem run_pbGetBlockLocations_tree (nn : NameNode D) (hown : Owned s.disk) (hs : Fuse.Sound tree)
    (hfiles : filesOf s.disk = tree.files) (hfree : ∀ id, s.held id = false) (path : Str) :
    ∃ locs s', (nn.pbGetBlockLocations path).run Store.serve s = some (locs, s') ∧
      Locates s' locs (tree.nodeAt path) := by
  obtain ⟨r, s₁, hlookup, hsame, hat, hlive⟩ := run_recursiveLookup_tree hown hs hfiles path
  have hown₁ := hsame.touched.owned hown
  have hfiles₁ : filesOf s₁.disk = tree.files := (hsame.touched.filesOf_eq hown).trans hfiles
  have hfree₁ : ∀ id, s₁.held id = false := fun id => by rw [hsame.held, hfree]
  rw [NameNode.pbGetBlockLocations, Prog.run_bind_some hlookup, hat]
  cases r with
  | none => exact ⟨none, s₁, rfl, rfl⟩
  | some ino =>
    obtain ⟨node, hnode⟩ := Option.ne_none_iff_exists'.1 (hlive ino rfl)
    obtain ⟨s₂, hisfile, hdisk₂, hheld₂⟩ := run_isfile (hfree₁ ino)
    rw [type_getattr hfiles₁ hnode] at hisfile
    dsimp only
    rw [Prog.run_bind_some hisfile, Option.bind_some, Fuse.Tree.node, hnode]
    cases node with
    | dir l => exact ⟨none, s₂, rfl, rfl⟩
    | link target => exact ⟨none, s₂, rfl, rfl⟩
    | file content =>
      have hfree₂ : s₂.held ino = false := by rw [hheld₂, hfree₁]
      obtain ⟨s₃, hgetfile, hdisk₃⟩ := run_getfile hfree₂
      have hfiles₃ : filesOf s₃.disk = tree.files := by rw [hdisk₃, hdisk₂, hfiles₁]
      obtain ⟨i, hino, hbytes⟩ := exists_inode_of_node hfiles₃ hnode
      have hown₃ : Owned s₃.disk := by rwa [hdisk₃, hdisk₂]
      have hin := (hown₃.wellFormed _ i hino).inRange
      have hsize := size_getattr_node hfiles₁ hnode (hs.fits ino _ hnode)
      have hlocs := run_getBlockLocations nn s₃ hino
      refine ⟨some (NameNode.locatedBlocks (fileInfo (Server.getattr ino s₂.disk))
        ((List.range (blockCount i.size.toNat)).map (located nn s₃.now s₃.disk i))),
        (s₃.next s₃.disk).next s₃.disk, ?_, _, rfl, ?_, fun off len => ?_⟩
      · have htype : decide ((Fuse.Node.file content).type = FileType.file) = true := decide_eq_true rfl
        rw [if_pos htype, Prog.run_bind_some hgetfile]
        dsimp only
        rw [Prog.run_bind_some hlocs, Prog.run_pure]
      · rw [hdisk₂]
        exact hsize
      · obtain ⟨s', hfetch⟩ := run_fetch_located nn s₃.now ((s₃.next s₃.disk).next s₃.disk) hin off len
        rw [Store.disk_next, hbytes] at hfetch
        exact ⟨s', hfetch⟩

private theorem run_pbGetFileInfo_tree (hown : Owned s.disk) (hs : Fuse.Sound tree)
    (hfiles : filesOf s.disk = tree.files) (path : Str) :
    ∃ status s', (NameNode.pbGetFileInfo path).run Store.serve s = some (status, s') ∧
      Tells s'.disk status (tree.nodeAt path) := by
  obtain ⟨r, s₁, hlookup, hsame, hat, hlive⟩ := run_recursiveLookup_tree hown hs hfiles path
  have hfiles₁ : filesOf s₁.disk = tree.files := (hsame.touched.filesOf_eq hown).trans hfiles
  rw [NameNode.pbGetFileInfo, Prog.run_bind_some hlookup, hat]
  cases r with
  | none => exact ⟨none, s₁, rfl, rfl⟩
  | some ino =>
    obtain ⟨node, hnode⟩ := Option.ne_none_iff_exists'.1 (hlive ino rfl)
    rw [Option.bind_some, Fuse.Tree.node, hnode]
    exact run_pbGetFileInfoFromInum_node hfiles₁ hnode (hs.fits ino node hnode)

/-- HDFS shows what a mount has made of the disk: behind every session `PBGetFileInfo` tells the node at a
path, and `PBGetBlockLocations` leads a client to the bytes of a file at any position. -/
theorem hdfs_shows_session {f : Fuse.DirentFormat} {s₀ : Store} {tree₀ : Fuse.Tree}
    {log : List (Fuse.Request × Fuse.Answer)} (hown : Owned s₀.disk)
    (hs₀ : worldOf s₀ = Fuse.mount Unit tree₀) (hs : Fuse.Sound tree₀)
    (hsession : Fuse.DiskSession f s₀ log s) (hvalid : Fuse.AllValid f tree₀ log) (nn : NameNode D) :
    ∃ tree, Fuse.Run f tree₀ log tree ∧ ∀ path,
      (∃ status s', (NameNode.pbGetFileInfo path).run Store.serve s = some (status, s') ∧
        Tells s'.disk status (tree.nodeAt path)) ∧
      ∃ locs s', (nn.pbGetBlockLocations path).run Store.serve s = some (locs, s') ∧
        Locates s' locs (tree.nodeAt path) := by
  obtain ⟨hworld, hown'⟩ := hsession.session hown
  rw [hs₀] at hworld
  obtain ⟨tree, hrun, hw, htree⟩ := hworld.follows hs hvalid
  have hfiles : filesOf s.disk = tree.files := congrArg World.files hw
  refine ⟨tree, hrun, fun path => ⟨?_, ?_⟩⟩
  · exact run_pbGetFileInfo_tree hown' htree hfiles path
  · exact run_pbGetBlockLocations_tree nn hown' htree hfiles (Fuse.held_of_lock hw) path

end

/-- A byte that is written through a mount, as HDFS shows it. -/
theorem hdfs_shows_session_byte : ∃ log s,
    log.map Prod.fst = [.create 1 [102], .write 2 [7] 0] ∧
    Fuse.DiskSession Fuse.libfuse freshStore log s ∧
    (∃ st s', (NameNode.pbGetFileInfo [47, 102]).run Store.serve s = some (some st, s') ∧
      st.length.toNat = 1 ∧ Timed s'.disk 2 st) ∧
    ∃ l s' s'', ((NameNode.init ℕ).pbGetBlockLocations [47, 102]).run Store.serve s = some (some l, s') ∧
      (fetch 0 9 l.blocks).run Store.serve s' = some (some [7], s'') := by
  obtain ⟨a, b, s, hsession, hvalid, -⟩ := Fuse.exists_session_byte
  obtain ⟨tree, hrun, hshows⟩ := hdfs_shows_session (owned_init quiet) Fuse.worldOf_freshStore
    Fuse.sound_rootTree hsession hvalid (NameNode.init ℕ)
  obtain ⟨⟨status, s₁, hinfo, htells⟩, locs, s₂, hlocs, hlocates⟩ := hshows [47, 102]
  have hnode : tree.nodeAt [47, 102] = some (2, .file [7]) := by
    have hcomponents : NameNode.components [47, 102] = [[102]] := by decide
    rw [Fuse.run_byte hrun, Fuse.Tree.nodeAt, if_pos (by decide), hcomponents]
    rfl
  rw [hnode] at htells hlocates
  obtain ⟨st, rfl, -, hlength, htimed⟩ := htells
  obtain ⟨l, rfl, -, hfetch⟩ := hlocates
  obtain ⟨s₃, hbytes⟩ := hfetch 0 9
  exact ⟨_, s, rfl, hsession, ⟨st, s₁, hinfo, hlength, htimed⟩, l, s₂, s₃, hlocs, hbytes⟩

end Yfs.Hdfs
