import Yfs.Hdfs.Retry

/-! The size that `PBComplete` commits, against the blocks that were added to the file. -/
namespace Yfs.Hdfs
open Yfs.Lib Yfs.Extent Yfs.Client

section
variable {D : Type} {nn : NameNode D} {s : Store} {src : Str} {inum : UInt32} {ids : List ℕ}

/-- `n` requests for a block one after the other, with the ids of the blocks if all went well. -/
def addBlocks (nn : NameNode D) (src : Str) : ℕ → M (Option (List UInt32) × NameNode D)
  | 0 => pure (some [], nn)
  | n + 1 => do
    let (r, nn) ← nn.pbAddBlock src
    match r with
    | .ok (some b) =>
      let (ids, nn) ← addBlocks nn src n
      pure (ids.map fun ids => b.blockId :: ids, nn)
    | _ => pure (none, nn)

theorem run_addBlocks (n : ℕ) (h : Writing nn s src inum ids)
    (hroom : blocksFor (ids.length + n) ≤ room s.disk ids) :
    ∃ new nn' s', (addBlocks nn src n).run Store.serve s = some ((some (new.map UInt32.ofNat), nn'), s') ∧
      new.length = n ∧ Writing nn' s' src inum (ids ++ new) := by
  induction n generalizing nn s ids with
  | zero => exact ⟨[], nn, s, rfl, rfl, by rwa [List.append_nil]⟩
  | succ n ih =>
    have hone : blocksFor (ids.length + 1) ≤ room s.disk ids :=
      (blocksFor_mono (by omega)).trans hroom
    obtain ⟨b, block, nn₁, s₁, hadd, hblock, hw, -, hfree, -⟩ := run_pbAddBlock h hone
    have hcount : (ids ++ [b]).length + n = ids.length + (n + 1) := by
      rw [List.length_append, List.length_singleton]
      omega
    obtain ⟨new, nn', s', hrun, hlen, hw'⟩ := ih hw (by rw [hcount]; exact hroom.trans hfree)
    refine ⟨b :: new, nn', s', ?_, by rw [List.length_cons, hlen], ?_⟩
    · rw [addBlocks, Prog.run_bind_some hadd]
      simp only
      rw [Prog.run_bind_some hrun, Prog.run_pure, Option.map_some, hblock, List.map_cons]
    · rwa [List.append_assoc, List.singleton_append] at hw'

private theorem complete_size {d : Disk} {ino : Inode} (hino : getInode d inum = some ino) (rt : Runtime)
    (size : UInt32) : ∃ d' ino', Extent.complete rt inum size d = some d' ∧
      getInode d' inum = some ino' ∧ ino'.size = size := by
  let ino' : Inode := { ino with size := size, atime := rt.now, mtime := rt.now, ctime := rt.now }
  refine ⟨putInode rt inum ino' d, ino', by rw [Extent.complete, hino, Option.map_some], ?_, rfl⟩
  rw [getInode_putInode (getInode_lt hino), if_pos rfl, if_neg (getInode_type hino)]

private theorem size_getattr {d : Disk} {ino : Inode} (hino : getInode d inum = some ino) :
    (Server.getattr inum.toUInt64 d).size = ino.size := by
  rw [Server.getattr, maskId_toUInt64 (getInode_lt hino), Extent.getattr, hino]

/-- What `getattr` and `get_block_ids` show after the file was completed with a size. -/
structure Committed (d : Disk) (inum : UInt32) (ids : List ℕ) (size : UInt32) : Prop where
  attr : (Server.getattr inum.toUInt64 d).size = size
  blocks : blockCount size.toNat ≤ ids.length → ∀ rt, Server.getBlockIds rt inum.toUInt64 d =
    some ((ids.take (blockCount size.toNat)).map UInt32.ofNat)

theorem FullBlocks.committed {d : Disk} (h : FullBlocks d inum ids) (rt : Runtime) (size : UInt32) :
    ∃ d', Extent.complete rt inum size d = some d' ∧ Committed d' inum ids size := by
  obtain ⟨ino, hino, -⟩ := h.file
  obtain ⟨d', ino', hcomplete, hino', hsize⟩ := complete_size hino rt size
  refine ⟨d', hcomplete, (size_getattr hino').trans hsize, fun hcount rt' => ?_⟩
  obtain ⟨d₂, ino₂, hcomplete₂, hino₂, hwf, -, hdata, -⟩ := h.complete rt hcount
  obtain rfl : d₂ = d' := Option.some.inj (hcomplete₂.symm.trans hcomplete)
  rw [Server.getBlockIds, maskId_toUInt64 (getInode_lt hino₂), hwf.getBlockIds_eq hino₂, hdata]

theorem run_pbComplete_any (h : Writing nn s src inum ids) (last : Option UInt64) :
    ∃ nn' s', (nn.pbComplete src last).run Store.serve s = some ((.ok true, nn'), s') ∧
      Committed s'.disk inum ids (newSize (UInt32.ofNat (ids.length * blockSize)) last) := by
  obtain ⟨s₁, hlookup, hsame⟩ := run_recursiveLookup s h.holds.owned src
  rw [h.path] at hlookup
  obtain ⟨d', hcomplete, hcommitted⟩ := (h.holds.touched hsame.touched).committed s₁.now
    (newSize (UInt32.ofNat (ids.length * blockSize)) last)
  have hheld : s₁.held inum.toUInt64 = true := by rw [hsame.held, h.held]
  obtain ⟨nn', s', hrun, rfl⟩ := run_pbComplete_some hlookup h.pending hheld last hcomplete
  exact ⟨nn', s', hrun, hcommitted⟩

/-- The size is no more than the blocks that were added can hold, and `get_block_ids` returns only those. -/
def WithinBlocks (d : Disk) (inum : UInt32) (ids : List UInt32) : Prop :=
  (Server.getattr inum.toUInt64 d).size.toNat ≤ ids.length * blockSize ∧
    ∀ rt, ∃ l, Server.getBlockIds rt inum.toUInt64 d = some l ∧ ∀ b ∈ l, b ∈ ids

/-- A last block that fits behind `k - 1` full ones. Without any block it has to undo the subtraction; else it
is no longer than a block, or so long that the sum wraps around. -/
def LastFits (k : ℕ) (last : Option UInt64) : Prop :=
  ∀ n ∈ last, (k = 0 ∧ n.toNat % 2 ^ 32 = blockSize) ∨
    (1 ≤ k ∧ (n.toNat % 2 ^ 32 ≤ blockSize ∨ 2 ^ 32 ≤ (k - 1) * blockSize + n.toNat % 2 ^ 32))

/-- For `2 ^ 18` blocks and more both sides hold, as no `uint32` is larger. -/
theorem newSize_le_iff (k : ℕ) (last : Option UInt64) :
    (newSize (UInt32.ofNat (k * blockSize)) last).toNat ≤ k * blockSize ↔ LastFits k last := by
  have hfull : (UInt32.ofNat (k * blockSize)).toNat = k * blockSize % 2 ^ 32 := UInt32.toNat_ofNat'
  cases last with
  | none => exact iff_of_true (hfull ▸ Nat.mod_le _ _) (by simp [LastFits])
  | some n =>
    have hblock : (UInt32.ofNat blockSize).toNat = blockSize := rfl
    simp only [newSize, LastFits, Option.mem_some_iff, forall_eq', UInt32.toNat_add, UInt32.toNat_sub,
      UInt64.toNat_toUInt32, hfull, hblock]
    rw [blockSize_eq]
    omega

theorem Committed.within_iff {d : Disk} {size : UInt32} (h : Committed d inum ids size) :
    WithinBlocks d inum (ids.map UInt32.ofNat) ↔ size.toNat ≤ ids.length * blockSize := by
  rw [WithinBlocks, h.attr, List.length_map]
  refine and_iff_left_of_imp fun hle rt => ⟨_, h.blocks (blockCount_le.2 hle) rt, fun b hb => ?_⟩
  exact List.map_subset _ (List.take_subset _ _) hb

theorem run_within_iff (h : Created nn s src inum) {k : ℕ}
    (hroom : blocksFor k ≤ s.disk.freeBlocks.length) (last : Option UInt64) :
    ∃ ids nn₁ s₁ nn₂ s₂, (addBlocks nn src k).run Store.serve s = some ((some ids, nn₁), s₁) ∧
      ids.length = k ∧ (nn₁.pbComplete src last).run Store.serve s₁ = some ((.ok true, nn₂), s₂) ∧
      (WithinBlocks s₂.disk inum ids ↔ LastFits k last) := by
  have hroom' : blocksFor (([] : List ℕ).length + k) ≤ room s.disk [] := by
    rw [room, List.length_nil, Nat.zero_add]
    exact hroom.trans (Nat.le_add_left _ _)
  obtain ⟨ids, nn₁, s₁, hadd, hlen, hw⟩ := run_addBlocks k h.writing hroom'
  rw [List.nil_append] at hw
  obtain ⟨nn₂, s₂, hcomplete, hcommitted⟩ := run_pbComplete_any hw last
  refine ⟨_, nn₁, s₁, nn₂, s₂, hadd, by rw [List.length_map, hlen], hcomplete, ?_⟩
  rw [hcommitted.within_iff, newSize_le_iff, hlen]

end

section
variable {T D : Type} {t : T} {nn : NameNode D} {s s' : World T × Commits} {src : Str} {ino : UInt64}
  {size : UInt32} {log : Commits} {k : ℕ} {last : Option UInt64}

/-- The file is pending with that size, and its lock is taken. -/
structure PendingAt (t : T) (nn : NameNode D) (s : World T × Commits) (src : Str) (ino : UInt64)
    (size : UInt32) : Prop where
  path : resolvePath s.1.files.dir src = some ino
  pending : nn.pendingWrite ino = some size
  held : s.1.lock ino = some t

theorem PendingAt.of_addBlock (h : PendingAt t nn s src ino size)
    {p : Except HdfsException (Option (LocatedBlock D)) × NameNode D}
    (hexec : (nn.pbAddBlock src).Exec (commitServe true t) s p s') :
    (∃ b, p.1 = .ok (some b)) ∧ PendingAt t p.2 s' src ino (size + UInt32.ofNat blockSize) ∧ s'.2 = s.2 := by
  have hlookup := gives_recursiveLookup true t s.1 s.2 src
  rw [h.path] at hlookup
  unfold NameNode.pbAddBlock at hexec
  rw [Prog.exec_bind_of_iff hlookup] at hexec
  dsimp only at hexec
  rw [h.pending] at hexec
  obtain ⟨q, s₁, happend, rfl, rfl⟩ := Prog.exec_bind.1 hexec
  obtain ⟨attr, s₂, hattr, hrest⟩ := Prog.exec_bind.1 happend
  obtain ⟨bid, s₃, hblock, rfl, rfl⟩ := Prog.exec_bind.1 hrest
  obtain ⟨⟨⟨-, -, -, hfiles⟩, hlock⟩, hlog⟩ := Prog.exec_perform.1 hattr
  obtain ⟨hdir', hlock', hlog'⟩ := Prog.exec_perform.1 hblock
  refine ⟨⟨_, rfl⟩, ⟨?_, Function.update_self _ _ _, ?_⟩, hlog'.trans hlog⟩
  · rw [hdir', hfiles]
    exact h.path
  · rw [hlock', hlock]
    exact h.held

theorem PendingAt.addBlock_runs (h : PendingAt t nn s src ino size) :
    ∃ p s', (nn.pbAddBlock src).Exec (commitServe true t) s p s' := by
  have hlookup := gives_recursiveLookup true t s.1 s.2 src
  rw [h.path] at hlookup
  let attr : Attr := ⟨typeOf (s.1.files ino), 0, 0, 0, UInt32.ofNat (text (s.1.files ino)).length⟩
  obtain ⟨q, hq⟩ : ∃ q, (nn.appendBlock ino).Exec (commitServe true t) s q s := by
    have hattr : (perform (.getattr ino)).Exec (commitServe true t) s (.ok, attr) s :=
      Prog.exec_perform.2 ⟨⟨⟨rfl, rfl, rfl, rfl⟩, rfl⟩, rfl⟩
    have hblock : (perform (.appendBlock ino)).Exec (commitServe true t) s (.ok, 0) s :=
      Prog.exec_perform.2 ⟨rfl, rfl, rfl⟩
    exact ⟨_, Prog.exec_bind.2 ⟨_, s, hattr, Prog.exec_bind.2 ⟨_, s, hblock, rfl, rfl⟩⟩⟩
  unfold NameNode.pbAddBlock
  simp only [Prog.exec_bind_of_iff hlookup, h.pending]
  exact ⟨_, s, Prog.exec_bind.2 ⟨q, s, hq, rfl, rfl⟩⟩

theorem PendingAt.of_addBlocks (h : PendingAt t nn s src ino size) {p : Option (List UInt32) × NameNode D}
    (hexec : (addBlocks nn src k).Exec (commitServe true t) s p s') :
    (∃ ids, p.1 = some ids ∧ ids.length = k) ∧
      PendingAt t p.2 s' src ino (size + UInt32.ofNat (k * blockSize)) ∧ s'.2 = s.2 := by
  induction k generalizing nn s size p with
  | zero =>
    obtain ⟨rfl, rfl⟩ := Prog.exec_pure.1 hexec
    refine ⟨⟨[], rfl, rfl⟩, ?_, rfl⟩
    simpa using h
  | succ k ih =>
    obtain ⟨q, s₁, hadd, hrest⟩ := Prog.exec_bind.1 hexec
    obtain ⟨⟨b, hb⟩, h₁, hlog₁⟩ := h.of_addBlock hadd
    dsimp only at hrest
    rw [hb] at hrest
    obtain ⟨q', s₂, hadds, rfl, rfl⟩ := Prog.exec_bind.1 hrest
    obtain ⟨⟨ids, hids, hlen⟩, h₂, hlog₂⟩ := ih h₁ hadds
    refine ⟨⟨b.blockId :: ids, by rw [hids]; rfl, by rw [List.length_cons, hlen]⟩, ?_, hlog₂.trans hlog₁⟩
    have hsize : size + UInt32.ofNat ((k + 1) * blockSize) =
        size + UInt32.ofNat blockSize + UInt32.ofNat (k * blockSize) := by
      rw [Nat.add_mul, Nat.one_mul, UInt32.ofNat_add, UInt32.add_comm (UInt32.ofNat (k * blockSize)),
        UInt32.add_assoc]
    rw [hsize]
    exact h₂

theorem PendingAt.addBlocks_runs (h : PendingAt t nn s src ino size) (k : ℕ) :
    ∃ p s', (addBlocks nn src k).Exec (commitServe true t) s p s' := by
  induction k generalizing nn s size with
  | zero => exact ⟨_, s, rfl, rfl⟩
  | succ k ih =>
    obtain ⟨q, s₁, hadd⟩ := h.addBlock_runs
    obtain ⟨⟨b, hb⟩, h₁, -⟩ := h.of_addBlock hadd
    obtain ⟨q', s₂, hadds⟩ := ih h₁
    refine ⟨(q'.1.map fun ids => b.blockId :: ids, q'.2), s₂, Prog.exec_bind.2 ⟨q, s₁, hadd, ?_⟩⟩
    dsimp only
    rw [hb]
    exact Prog.exec_bind.2 ⟨q', s₂, hadds, rfl, rfl⟩

/-- The blocks are added, and the size that is then committed is no more than they can hold. -/
def CommitsWithin (t : T) (nn : NameNode D) (s : World T × Commits) (src : Str) (ino : UInt64) (k : ℕ)
    (last : Option UInt64) : Prop :=
  ∀ p s₁ q s₂, (addBlocks nn src k).Exec (commitServe true t) s p s₁ →
    (p.2.pbComplete src last).Exec (commitServe true t) s₁ q s₂ →
    ∃ ids size, p.1 = some ids ∧ ids.length = k ∧ s₂.2 = (ino, size) :: s.2 ∧ size.toNat ≤ k * blockSize

theorem commitsWithin_iff (h : PendingAt t nn s src ino 0) :
    CommitsWithin t nn s src ino k last ↔ LastFits k last := by
  rw [← newSize_le_iff]
  constructor
  · intro hwithin
    obtain ⟨p, s₁, hadd⟩ := h.addBlocks_runs k
    obtain ⟨-, h₁, hlog⟩ := h.of_addBlocks hadd
    rw [UInt32.zero_add] at h₁
    obtain ⟨q, s₂, hcomplete⟩ := exec_pbComplete_ok (t := t) p.2 s₁.2 last h₁.path h₁.pending h₁.held
    obtain ⟨ids, size, -, -, hcommit, hle⟩ := hwithin p s₁ q s₂ hadd hcomplete
    rw [commits_of_pbComplete h₁.path h₁.pending hcomplete] at hcommit
    obtain ⟨heq, -⟩ := List.cons.inj hcommit
    cases heq
    exact hle
  · intro hle p s₁ q s₂ hadd hcomplete
    obtain ⟨⟨ids, hids, hlen⟩, h₁, hlog⟩ := h.of_addBlocks hadd
    rw [UInt32.zero_add] at h₁
    refine ⟨ids, _, hids, hlen, ?_, hle⟩
    rw [commits_of_pbComplete h₁.path h₁.pending hcomplete, hlog]

end

/-- After any number of blocks were added to a pending file, the size that `PBComplete` commits stays within
them exactly if the request has no last block or one that fits, whatever the extent server answers. On a disk
with room for the blocks, `get_block_ids` then returns only those. -/
theorem committed_within_iff (k : ℕ) (last : Option UInt64) :
    (∀ (T D : Type) (t : T) (nn : NameNode D) (s : World T × Commits) (src : Str) (ino : UInt64),
      PendingAt t nn s src ino 0 → (CommitsWithin t nn s src ino k last ↔ LastFits k last)) ∧
    ∀ (D : Type) (nn : NameNode D) (s : Store) (src : Str) (inum : UInt32), Created nn s src inum →
      blocksFor k ≤ s.disk.freeBlocks.length →
      ∃ ids nn₁ s₁ nn₂ s₂, (addBlocks nn src k).run Store.serve s = some ((some ids, nn₁), s₁) ∧
        ids.length = k ∧ (nn₁.pbComplete src last).run Store.serve s₁ = some ((.ok true, nn₂), s₂) ∧
        (WithinBlocks s₂.disk inum ids ↔ LastFits k last) :=
  ⟨fun _ _ _ _ _ _ _ h => commitsWithin_iff h, fun _ _ _ _ _ h hroom => run_within_iff h hroom last⟩

def noBlock : NameNode ℕ := ⟨fun id => if id = 2 then some 0 else none, ∅, [], 0⟩

/-- One block is added to a file, and five bytes of it are committed. -/
theorem committed_within_iff_byte :
    (PendingAt () noBlock (heldFile, []) [slash, 97] 2 0 ∧
      CommitsWithin () noBlock (heldFile, []) [slash, 97] 2 1 (some 5)) ∧
    ∃ (nn : NameNode ℕ) (s : Store), Created nn s [47, 102] 2 ∧
      ∃ ids nn₁ s₁ nn₂ s₂, (addBlocks nn [47, 102] 1).run Store.serve s = some ((some ids, nn₁), s₁) ∧
        (nn₁.pbComplete [47, 102] (some 5)).run Store.serve s₁ = some ((.ok true, nn₂), s₂) ∧
        WithinBlocks s₂.disk 2 ids := by
  obtain ⟨habstract, hdisk⟩ := committed_within_iff 1 (some 5)
  have hfits : LastFits 1 (some 5) := by
    intro n hn
    cases hn
    decide
  have hpending : PendingAt () noBlock (heldFile, []) [slash, 97] 2 0 := ⟨by decide, rfl, rfl⟩
  refine ⟨⟨hpending, (habstract _ _ _ _ _ _ _ hpending).2 hfits⟩, ?_⟩
  obtain ⟨info, nn, s, -, hcreated, hfree, -⟩ := created_fresh ℕ
  obtain ⟨ids, nn₁, s₁, nn₂, s₂, hadd, -, hcomplete, hwithin⟩ := hdisk _ nn s _ 2 hcreated hfree
  exact ⟨nn, s, hcreated, ids, nn₁, s₁, nn₂, s₂, hadd, hcomplete, hwithin.2 hfits⟩

/-- No block was added to `/f`, and a last block of one byte is reported: the size wraps around to almost
4 GiB. -/
theorem committed_beyond_blocks : ∃ (nn : NameNode ℕ) (s : Store), Created nn s [47, 102] 2 ∧
    ∃ nn' s', (nn.pbComplete [47, 102] (some 1)).run Store.serve s = some ((.ok true, nn'), s') ∧
      (Server.getattr 2 s'.disk).size = 4294950913 ∧ ¬WithinBlocks s'.disk 2 [] := by
  obtain ⟨info, nn, s, -, hcreated, -⟩ := created_fresh ℕ
  obtain ⟨nn', s', hcomplete, hcommitted⟩ := run_pbComplete_any hcreated.writing (some 1)
  refine ⟨nn, s, hcreated, nn', s', hcomplete, hcommitted.attr, fun h => ?_⟩
  have hle := hcommitted.within_iff.1 h
  revert hle
  decide

end Yfs.Hdfs
