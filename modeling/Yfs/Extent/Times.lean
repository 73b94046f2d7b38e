import Yfs.Extent.Contents
import Yfs.Extent.Dead

/-! The times that `getattr` shows, over whole runs of requests on one inode. -/
namespace Yfs.Extent
open Yfs.Lib

/-- A request while an inode is in use: on that inode, or one that creates another. -/
inductive InodeEvent where
  | create (type : UInt32)
  | on (r : InodeRequest)
  deriving DecidableEq

namespace InodeEvent

def run (rt : Runtime) (id : UInt64) (d : Disk) : InodeEvent → Option Disk
  | .create type => some (Server.create rt type d).2
  | .on r => (r.run rt id d).map Prod.snd

def modifies : InodeEvent → Bool
  | .on (.put buf) => blockCount buf.length ≤ maxFile
  | .on .appendBlock => true
  | .on (.complete _) => true
  | _ => false

/-- The requests that set `atime`. -/
def touches : InodeEvent → Bool
  | .on .get => true
  | .on (.complete _) => true
  | _ => false

def runAll (id : UInt64) : List (Runtime × InodeEvent) → Disk → Option Disk
  | [], d => some d
  | (rt, e) :: l, d => (e.run rt id d).bind (runAll id l)

/-- The clock at the last request for which `p` holds; `start` if there is none. -/
def lastTime (p : InodeEvent → Bool) (start : UInt32) : List (Runtime × InodeEvent) → UInt32
  | [] => start
  | (rt, e) :: l => lastTime p (if p e then rt.now else start) l

end InodeEvent

def AccessedAt (inum : UInt32) (t : UInt32) (d : Disk) : Prop :=
  ∃ ino, getInode d inum = some ino ∧ ino.atime = t

section
variable {d d' : Disk} {inum : UInt32} {ino : Inode} {id : UInt64} {t : UInt32}

theorem accessedAt_putInode (hlive : getInode d inum = some ino) (ino' : Inode) (htype : ino'.type = ino.type)
    (hatime : ino'.atime = t) (rt : Runtime) (d' : Disk) : AccessedAt inum t (putInode rt inum ino' d') := by
  refine ⟨ino', ?_, hatime⟩
  rw [getInode_putInode (getInode_lt hlive), if_pos rfl, if_neg (htype ▸ getInode_type hlive)]

/-- `write_file` sets `ctime` and `mtime` only, whatever happens to the blocks. -/
theorem accessedAt_writeFile (h : AccessedAt inum t d) (rt : Runtime) (buf : Buf) (size : ℤ) :
    AccessedAt inum t (writeFile rt inum buf size d) := by
  obtain ⟨ino, hlive, hatime⟩ := h
  have hput : ∀ (ino' : Inode) d', ino'.type = ino.type ∧ ino'.atime = ino.atime →
      AccessedAt inum t (putInode rt inum (ino'.written rt size) d') :=
    fun ino' d' h => accessedAt_putInode hlive (ino'.written rt size) h.1 (h.2.trans hatime) rt d'
  unfold writeFile
  rw [hlive]
  dsimp only
  split_ifs
  · exact ⟨ino, hlive, hatime⟩
  · exact hput _ _ (allocDirect_times _ _ (ino, d))
  · exact hput _ _ ⟨rfl, rfl⟩
  · exact hput _ _ ⟨rfl, rfl⟩
  · exact hput _ _ ⟨rfl, rfl⟩
  · exact hput _ _ (allocDirect_times _ _ (ino, d))
  · exact hput _ _ ⟨rfl, rfl⟩
  · exact hput _ _ ⟨rfl, rfl⟩
  · exact hput _ _ ⟨rfl, rfl⟩

/-- `append_block` sets no time at all. -/
theorem accessedAt_appendBlock (h : AccessedAt inum t d) (rt : Runtime) :
    AccessedAt inum t (appendBlock rt inum d).2 := by
  obtain ⟨ino, hlive, hatime⟩ := h
  have hput : ∀ (ino' : Inode) d', ino'.type = ino.type ∧ ino'.atime = ino.atime →
      AccessedAt inum t (putInode rt inum ino' d') :=
    fun ino' d' h => accessedAt_putInode hlive ino' h.1 (h.2.trans hatime) rt d'
  unfold appendBlock
  rw [hlive]
  dsimp only
  split_ifs
  · exact ⟨ino, hlive, hatime⟩
  · exact hput _ _ ⟨rfl, rfl⟩
  · exact hput _ _ ⟨rfl, rfl⟩
  · exact hput _ _ ⟨rfl, rfl⟩

theorem accessedAt_get (h : AccessedAt (maskId id) t d) (rt : Runtime) :
    AccessedAt (maskId id) rt.now (Server.get rt id d).2 := by
  obtain ⟨ino, hlive, -⟩ := h
  rw [Server.get, readFile, hlive]
  exact accessedAt_putInode hlive { ino with atime := rt.now } rfl rfl rt d

theorem accessedAt_create (h : AccessedAt inum t d) (rt : Runtime) (type : UInt32) :
    AccessedAt inum t (Server.create rt type d).2 := by
  obtain ⟨ino, hlive, hatime⟩ := h
  cases hnext : nextInode d with
  | none =>
    simp only [Server.create, allocInode, hnext]
    exact ⟨ino, hlive, hatime⟩
  | some n =>
    obtain ⟨heq, -, hlt⟩ := toNat_ofNat_nextInode hnext
    have hne : inum ≠ UInt32.ofNat n := by
      intro hsame
      rw [hsame, getInode_nextInode hnext] at hlive
      cases hlive
    refine ⟨ino, ?_, hatime⟩
    rw [Server.create_eq rt type hnext, getInode_putInode (heq.symm ▸ hlt), if_neg hne, hlive]

theorem accessedAt_complete (h : AccessedAt (maskId id) t d) (hid : id.toUInt32 = maskId id) {rt : Runtime}
    {size : UInt32} (hrun : Server.complete rt id size d = some d') : AccessedAt (maskId id) rt.now d' := by
  obtain ⟨ino, hlive, -⟩ := h
  rw [Server.complete, complete, hid, hlive, Option.map_some] at hrun
  cases hrun
  refine accessedAt_putInode hlive _ ?_ ?_ rt d <;> rfl

theorem accessedAt_run (h : AccessedAt (maskId id) t d) (hid : id.toUInt32 = maskId id) {rt : Runtime}
    {e : InodeEvent} (hkeep : e ≠ .on .remove) (hrun : e.run rt id d = some d') :
    AccessedAt (maskId id) (if e.touches then rt.now else t) d' := by
  cases e with
  | create type =>
    cases hrun
    exact accessedAt_create h rt type
  | on r =>
    obtain ⟨⟨reply, d''⟩, hr, rfl⟩ := Option.map_eq_some_iff.1 hrun
    cases r with
    | get =>
      obtain ⟨buf, -, hpair⟩ := Option.map_eq_some_iff.1 hr
      cases hpair
      exact accessedAt_get h rt
    | put buf =>
      cases hr
      exact accessedAt_writeFile h rt _ _
    | getattr =>
      cases hr
      exact h
    | remove => exact absurd rfl hkeep
    | appendBlock =>
      cases hr
      exact accessedAt_appendBlock h rt
    | getBlockIds =>
      obtain ⟨l, -, hpair⟩ := Option.map_eq_some_iff.1 hr
      cases hpair
      exact h
    | complete size =>
      obtain ⟨d₁, hcomplete, hpair⟩ := Option.map_eq_some_iff.1 hr
      cases hpair
      exact accessedAt_complete h hid hcomplete

theorem accessedAt_runAll (h : AccessedAt (maskId id) t d) (hid : id.toUInt32 = maskId id)
    {l : List (Runtime × InodeEvent)} (hkeep : ∀ e ∈ l, e.2 ≠ .on .remove)
    (hrun : InodeEvent.runAll id l d = some d') :
    AccessedAt (maskId id) (InodeEvent.lastTime InodeEvent.touches t l) d' := by
  induction l generalizing d t with
  | nil =>
    cases hrun
    exact h
  | cons e l ih =>
    obtain ⟨d₁, hone, hrest⟩ := Option.bind_eq_some_iff.1 hrun
    have hstep := accessedAt_run h hid (hkeep e List.mem_cons_self) hone
    exact ih hstep (fun e' he' => hkeep e' (List.mem_cons_of_mem e he')) hrest

theorem accessedAt_of_create {rt : Runtime} {type : FileType} (h : Server.create rt type.code d = (id, d'))
    (hid : id ≠ 0) : id.toUInt32 = maskId id ∧ AccessedAt (maskId id) rt.now d' := by
  cases hnext : nextInode d with
  | none =>
    simp only [Server.create, allocInode, hnext] at h
    cases h
    exact absurd rfl hid
  | some n =>
    obtain ⟨heq, -, hlt⟩ := toNat_ofNat_nextInode hnext
    rw [Server.create_eq rt type.code hnext] at h
    cases h
    have hmask : maskId (UInt32.ofNat n).toUInt64 = UInt32.ofNat n := by
      rw [← UInt32.toNat_inj, toNat_maskId, UInt32.toNat_toUInt64, heq]
      rw [inodeNum] at hlt
      omega
    rw [hmask, UInt32.toUInt32_toUInt64]
    refine ⟨rfl, newInode rt type.code, ?_, rfl⟩
    rw [getInode_putInode (heq.symm ▸ hlt), if_pos rfl, newInode, if_neg type.toUInt16_code_ne]

/-- `getattr` fills `mtime` from `atime`, so it shows the last `get` or `complete`. -/
theorem getattr_mtime (h : AccessedAt (maskId id) t d) : (Server.getattr id d).mtime = t := by
  obtain ⟨ino, hlive, hatime⟩ := h
  rw [Server.getattr, getattr, hlive]
  exact hatime

/-- From the creation of an inode on, `getattr` shows the time of its last modification exactly when it
is also that of the last request that sets `atime`. -/
theorem mtime_eq_iff {rt : Runtime} {type : FileType} {d₁ : Disk}
    (hcreate : Server.create rt type.code d = (id, d₁)) (hid : id ≠ 0) (l : List (Runtime × InodeEvent))
    (hkeep : ∀ e ∈ l, e.2 ≠ .on .remove) (hrun : InodeEvent.runAll id l d₁ = some d') :
    (Server.getattr id d').mtime = InodeEvent.lastTime InodeEvent.modifies rt.now l ↔
      InodeEvent.lastTime InodeEvent.touches rt.now l = InodeEvent.lastTime InodeEvent.modifies rt.now l := by
  obtain ⟨hmask, hnew⟩ := accessedAt_of_create hcreate hid
  rw [getattr_mtime (accessedAt_runAll hnew hmask hkeep hrun)]

end

def newFile : Disk := putInode quiet 2 (newInode quiet FileType.file.code) (Server.init quiet)

theorem create_init : Server.create quiet FileType.file.code (Server.init quiet) = (2, newFile) :=
  Server.create_eq quiet FileType.file.code (nextInode_init quiet)

theorem getInode_newFile : getInode newFile (maskId 2) = some (newInode quiet FileType.file.code) := by
  rw [newFile, getInode_putInode (by decide), if_pos (by decide), newInode,
    if_neg FileType.file.toUInt16_code_ne]

def atFive (r : InodeRequest) : List (Runtime × InodeEvent) := [({ quiet with now := 5 }, .on r)]

theorem mtime_eq_iff_complete : ∃ d', InodeEvent.runAll 2 (atFive (.complete 3)) newFile = some d' ∧
    (Server.getattr 2 d').mtime = 5 := by
  obtain ⟨hmask, -⟩ := accessedAt_of_create create_init (by decide)
  have hrun : ∃ d', InodeEvent.runAll 2 (atFive (.complete 3)) newFile = some d' := by
    rw [atFive, InodeEvent.runAll, InodeEvent.run, InodeRequest.run, Server.complete, complete, hmask,
      getInode_newFile]
    exact ⟨_, rfl⟩
  obtain ⟨d', hd'⟩ := hrun
  exact ⟨d', hd', (mtime_eq_iff create_init (by decide) (atFive (.complete 3)) (by decide) hd').2 rfl⟩

/-- A file written at time 5 still shows 0, and one that is only read at time 5 shows 5. -/
theorem mtime_of_put_of_get :
    (∃ d', InodeEvent.runAll 2 (atFive (.put [7])) newFile = some d' ∧ (Server.getattr 2 d').mtime = 0 ∧
      InodeEvent.lastTime InodeEvent.modifies quiet.now (atFive (.put [7])) = 5) ∧
    ∃ d', InodeEvent.runAll 2 (atFive .get) newFile = some d' ∧ (Server.getattr 2 d').mtime = 5 ∧
      InodeEvent.lastTime InodeEvent.modifies quiet.now (atFive .get) = 0 := by
  obtain ⟨hmask, hnew⟩ := accessedAt_of_create create_init (by decide)
  have hput : ∃ d', InodeEvent.runAll 2 (atFive (.put [7])) newFile = some d' := ⟨_, rfl⟩
  have hget : ∃ d', InodeEvent.runAll 2 (atFive .get) newFile = some d' := by
    rw [atFive, InodeEvent.runAll, InodeEvent.run, InodeRequest.run,
      Server.get_eq _ getInode_newFile (by decide)]
    exact ⟨_, rfl⟩
  obtain ⟨d₁, hd₁⟩ := hput
  obtain ⟨d₂, hd₂⟩ := hget
  refine ⟨⟨d₁, hd₁, ?_, by decide⟩, d₂, hd₂, ?_, by decide⟩
  · exact getattr_mtime (accessedAt_runAll hnew hmask (by decide) hd₁)
  · exact getattr_mtime (accessedAt_runAll hnew hmask (by decide) hd₂)

end Yfs.Extent
