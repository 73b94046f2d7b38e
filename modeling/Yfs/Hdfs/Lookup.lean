import Yfs.Hdfs.Nodes
import Yfs.Extent.Ownership

/-! Lookups only read: what `RecursiveLookup` finds is a function of the texts of the directories,
and all it changes is the access times of those. -/
namespace Yfs.Hdfs
open Yfs.Lib Yfs.Extent Yfs.Client

/-- The disk after some files were read: inodes may have a new access time. -/
structure Touched (d d' : Disk) : Prop where
  block : ∀ b, b = 2 ∨ Disk.firstData ≤ b → d' b = d b
  inode : ∀ i, ∃ t, getInode d' i = (getInode d i).map fun ino => { ino with atime := t }

/-- The text of a directory; `none` for an inode of another type. -/
def dirText (d : Disk) (id : UInt64) : Option Str :=
  (getInode d (maskId id)).bind fun ino =>
    if ino.type = FileType.dir.code.toUInt16 then some (fileBytes d ino) else none

def entryOf (dir : Option Str) (name : Str) : Option UInt64 :=
  (dir.bind fun text => findEntry text name).map fun e => n2i e.2

def resolve (dir : UInt64 → Option Str) (ino : UInt64) : List Str → Option UInt64
  | [] => some ino
  | c :: l => (entryOf (dir ino) (cStr c)).bind fun ino' => resolve dir ino' l

def resolvePath (dir : UInt64 → Option Str) (path : Str) : Option UInt64 :=
  if path.head? = some slash then resolve dir 1 (NameNode.components path) else none

namespace Touched
variable {d d' d'' : Disk}

theorem refl (d : Disk) : Touched d d := by
  refine ⟨fun _ _ => rfl, fun i => ?_⟩
  cases h : getInode d i with
  | none => exact ⟨0, rfl⟩
  | some ino => exact ⟨ino.atime, rfl⟩

theorem trans (h : Touched d d') (h' : Touched d' d'') : Touched d d'' := by
  refine ⟨fun b hb => (h'.block b hb).trans (h.block b hb), fun i => ?_⟩
  obtain ⟨t, ht⟩ := h.inode i
  obtain ⟨t', ht'⟩ := h'.inode i
  refine ⟨t', ?_⟩
  rw [ht', ht, Option.map_map]
  rfl

theorem used (h : Touched d d') (b : ℕ) : d'.used b = d.used b := by
  rw [Disk.used, h.block 2 (.inl rfl), Disk.used]

theorem freeBlocks (h : Touched d d') : d'.freeBlocks = d.freeBlocks := by
  simp only [Disk.freeBlocks, h.used]

private theorem exists_inode (h : Touched d d') (hown : Owned d) {i : UInt32} {ino' : Inode}
    (hino' : getInode d' i = some ino') : ∃ ino t, getInode d i = some ino ∧
      ino' = { ino with atime := t } ∧ ∀ b ∈ blockList d ino, SameBlock d d' b := by
  obtain ⟨t, ht⟩ := h.inode i
  rw [ht] at hino'
  obtain ⟨ino, hino, rfl⟩ := Option.map_eq_some_iff.1 hino'
  refine ⟨ino, t, hino, rfl, fun b hb => SameBlock.of_eq (h.block b (.inr ?_))⟩
  exact ((hown.wellFormed i ino hino).data b hb).1

theorem owned (h : Touched d d') (hown : Owned d) : Owned d' := by
  have hlist : ∀ i ino', getInode d' i = some ino' → ∃ ino, getInode d i = some ino ∧
      WellFormed d' ino' ∧ blockList d' ino' = blockList d ino := by
    intro i ino' hino'
    obtain ⟨ino, t, hino, rfl, hsame⟩ := h.exists_inode hown hino'
    have hwf := hown.wellFormed i ino hino
    have hlist : blockList d' { ino with atime := t } = blockList d ino := hwf.blockList_congr hsame
    have hwf' : WellFormed d' ino := hwf.congr hsame fun b hb => by rw [h.used, hwf.marked b hb]
    exact ⟨ino, hino, ⟨hwf'.nodup, hwf'.data, hwf'.marked⟩, hlist⟩
  constructor
  · intro i ino' hino'
    obtain ⟨ino, -, hwf, -⟩ := hlist i ino' hino'
    exact hwf
  · intro i j ino' jno' hne hi hj b hb hb'
    obtain ⟨ino, hino, -, hl⟩ := hlist i ino' hi
    obtain ⟨jno, hjno, -, hl'⟩ := hlist j jno' hj
    rw [hl] at hb
    rw [hl'] at hb'
    exact hown.disjoint i j ino jno hne hino hjno b hb hb'

theorem dirText_eq (h : Touched d d') (hown : Owned d) : dirText d' = dirText d := by
  funext id
  unfold dirText
  obtain ⟨t, ht⟩ := h.inode (maskId id)
  cases hino : getInode d (maskId id) with
  | none =>
    rw [ht, hino]
    rfl
  | some ino =>
    have hino' : getInode d' (maskId id) = some { ino with atime := t } := by
      rw [ht, hino]
      rfl
    have hwf := hown.wellFormed _ ino hino
    have hsame : ∀ b ∈ blockList d ino, SameBlock d d' b := fun b hb =>
      SameBlock.of_eq (h.block b (.inr (hwf.data b hb).1))
    have hbytes : fileBytes d' { ino with atime := t } = fileBytes d ino := hwf.fileBytes_congr hsame
    rw [hino', Option.bind_some, Option.bind_some, hbytes]

end Touched

theorem touched_get (rt : Runtime) {d : Disk} (hown : Owned d) (id : UInt64) :
    Touched d (Server.get rt id d).2 := by
  cases hino : getInode d (maskId id) with
  | none =>
    have hsame : (Server.get rt id d).2 = d := by
      simp only [Server.get, readFile, hino]
    rw [hsame]
    exact Touched.refl d
  | some ino =>
    have hlt := getInode_lt hino
    rw [Server.get_eq rt hino (hown.wellFormed _ ino hino).size_lt]
    constructor
    · intro b hb
      have hne := inodeBlock_lt hlt
      exact putInode_of_ne (by omega)
    · intro i
      by_cases hi : i = maskId id
      · subst hi
        refine ⟨rt.now, ?_⟩
        rw [getInode_putInode hlt, if_pos rfl, if_neg (getInode_type hino), hino]
        rfl
      · obtain ⟨t, ht⟩ := (Touched.refl d).inode i
        exact ⟨t, by rw [getInode_putInode hlt, if_neg hi, ← ht]⟩

theorem attr_type_eq_code (type : UInt16) (f : FileType) :
    UInt32.ofNat (toUnsigned (Int.bmod type.toNat (2 ^ 16))) = f.code ↔ type = f.code.toUInt16 := by
  have hlt := type.toNat_lt
  have hnat : (UInt32.ofNat (toUnsigned (Int.bmod type.toNat (2 ^ 16)))).toNat =
      if type.toNat < 2 ^ 15 then type.toNat else 2 ^ 32 - 2 ^ 16 + type.toNat := by
    rw [UInt32.toNat_ofNat', toUnsigned, Int.bmod_def]
    split_ifs <;> omega
  rw [← UInt32.toNat_inj, hnat, ← UInt16.toNat_inj]
  cases f <;> simp [FileType.code] <;> split_ifs <;> omega

structure SameStore (s s' : Store) : Prop where
  touched : Touched s.disk s'.disk
  held : s'.held = s.held

theorem SameStore.refl (s : Store) : SameStore s s := ⟨Touched.refl s.disk, rfl⟩

theorem SameStore.trans {s s' s'' : Store} (h : SameStore s s') (h' : SameStore s' s'') :
    SameStore s s'' := ⟨h.touched.trans h'.touched, h'.held.trans h.held⟩

theorem run_nlockIsdir (s : Store) (inum : UInt64) :
    (nlockIsdir inum).run Store.serve s = some ((dirText s.disk inum).isSome, s.next s.disk) := by
  have htype : decide ((Server.getattr inum s.disk).type = FileType.dir.code) =
      (dirText s.disk inum).isSome := by
    unfold Server.getattr Extent.getattr dirText
    cases hino : getInode s.disk (maskId inum) with
    | none => rfl
    | some ino =>
      simp only [attr_type_eq_code, Option.bind_some]
      split_ifs with ht
      · exact decide_eq_true ht
      · exact decide_eq_false ht
  rw [nlockIsdir, nlockIs, Prog.run_bind_some (by rw [Prog.run_perform, Store.serve]), Prog.run_pure, htype]
  rfl

private theorem run_get_dir (s : Store) (hown : Owned s.disk) {id : UInt64} {text : Str}
    (h : dirText s.disk id = some text) :
    ∃ s', Store.serve (.get id) s = some ((.ok, text), s') ∧ SameStore s s' := by
  unfold dirText at h
  obtain ⟨ino, hino, htext⟩ := Option.bind_eq_some_iff.1 h
  split_ifs at htext
  cases htext
  have hwf := hown.wellFormed _ ino hino
  have hget := Server.get_eq s.now hino hwf.size_lt
  have htouched := touched_get s.now hown id
  rw [hwf.content_eq] at hget
  rw [hget] at htouched
  refine ⟨s.next (putInode s.now (maskId id) { ino with atime := s.now.now } s.disk), ?_, htouched, rfl⟩
  rw [Store.serve, hget]

theorem run_lookup (s : Store) (hown : Owned s.disk) (parent : UInt64) (name : Str) (found : Bool)
    (inoOut : UInt64) : ∃ r s', (lookup parent name found inoOut).run Store.serve s = some (r, s') ∧
      SameStore s s' ∧ (∀ i, entryOf (dirText s.disk parent) name = some i → r = (.ok, true, i)) ∧
      (entryOf (dirText s.disk parent) name = none → r.2.1 = false) := by
  unfold lookup nlockLookup
  rw [Prog.run_bind_some (run_nlockIsdir s parent)]
  have hsame : SameStore s (s.next s.disk) := ⟨Touched.refl s.disk, rfl⟩
  cases hdir : dirText s.disk parent with
  | none =>
    exact ⟨_, _, rfl, hsame, fun i hi => by simp [entryOf] at hi, fun _ => rfl⟩
  | some text =>
    obtain ⟨s', hget, hs'⟩ := run_get_dir (s.next s.disk) hown hdir
    have hkeep := hsame.trans hs'
    rw [Option.isSome_some, if_pos rfl, Prog.run_bind_some (by rw [Prog.run_perform, hget])]
    simp only [if_true]
    cases hfind : findEntry text name with
    | none => exact ⟨_, s', rfl, hkeep, fun i hi => by simp [entryOf, hfind] at hi, fun _ => rfl⟩
    | some e =>
      refine ⟨_, s', rfl, hkeep, fun i hi => ?_, fun hnone => by simp [entryOf, hfind] at hnone⟩
      simp only [entryOf, Option.bind_some, hfind, Option.map_some, Option.some.injEq] at hi
      rw [hi]

theorem run_walk (l : List Str) (s : Store) (hown : Owned s.disk) (ino : UInt64) :
    ∃ s', (NameNode.walk ino l).run Store.serve s = some (resolve (dirText s.disk) ino l, s') ∧
      SameStore s s' := by
  induction l generalizing s ino with
  | nil => exact ⟨s, rfl, SameStore.refl s⟩
  | cons c l ih =>
    obtain ⟨⟨r, found, ino'⟩, s', hrun, hsame, hsome, hnone⟩ := run_lookup s hown ino (cStr c) false ino
    rw [NameNode.walk, Prog.run_bind_some hrun, resolve]
    cases hentry : entryOf (dirText s.disk ino) (cStr c) with
    | none =>
      refine ⟨s', ?_, hsame⟩
      have hfound : found = false := hnone hentry
      simp only [hfound, Bool.false_eq_true, and_false, if_false]
      rfl
    | some i =>
      obtain ⟨s'', hrun', hsame'⟩ := ih s' (hsame.touched.owned hown) i
      rw [hsame.touched.dirText_eq hown] at hrun'
      refine ⟨s'', ?_, hsame.trans hsame'⟩
      cases hsome i hentry
      simp only [and_self, if_true, hrun', Option.bind_some]

/-- `RecursiveLookup` walks the texts of the directories and leaves them as they are. -/
theorem run_recursiveLookup (s : Store) (hown : Owned s.disk) (path : Str) :
    ∃ s', (NameNode.recursiveLookup path).run Store.serve s =
        some (resolvePath (dirText s.disk) path, s') ∧ SameStore s s' := by
  unfold NameNode.recursiveLookup resolvePath
  split_ifs
  · exact run_walk _ s hown 1
  · exact ⟨s, rfl, SameStore.refl s⟩

end Yfs.Hdfs
