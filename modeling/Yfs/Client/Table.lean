import Yfs.Client.Created

/-! The operations that enter a name, over a table of inodes that can be full. -/
namespace Yfs.Client
open Yfs.Lib Yfs.Extent

/-- `alloc_inode`: the first free inum, or 0 and no change. -/
def Files.alloc (files : Files) (type : UInt32) : UInt64 × Files :=
  match files.firstFree with
  | some id => (id, Function.update files id (some (type, [])))
  | none => (0, files)

/-- The extent server as a map with a table of inodes. `create` answers `OK` in any case. -/
def World.table {T : Type} (t : T) : (c : Call) → World T → Reply c → World T → Prop
  | .create type, w, r, w' =>
    r = (.ok, (w.files.alloc type).1) ∧ w' = { w with files := (w.files.alloc type).2 }
  | c, w, r, w' => World.serve t c w r w'

def NotCreate : Call → Prop
  | .create _ => False
  | _ => True

def Files.add (files : Files) (type : FileType) (parent : UInt64) (name : Str) : UInt64 × Files :=
  let (ino, files) := files.alloc type.code
  (ino, files.enter parent (name, filename ino))

def Files.link (files : Files) (parent : UInt64) (name targetName : Str) : UInt64 × Files :=
  let (ino, files) := files.add .symlink parent name
  (ino, files.put ino targetName)

section
variable {T α : Type} {t : T} {w w₁ : World T} {files : Files} {parent ino out : UInt64} {name : Str}

theorem exec_table {p : M α} {a : α} (hp : p.All NotCreate) :
    p.Exec (World.table t) w a w₁ ↔ p.Exec (World.serve t) w a w₁ := by
  have hserve : ∀ c, NotCreate c → ∀ w r w', World.table t c w r w' ↔
      ∃ w₁, w' = w₁ ∧ World.serve t c w r w₁ := by
    intro c hc w r w'
    rw [exists_eq_left']
    cases c <;> first | exact hc.elim | exact Iff.rfl
  exact (Prog.exec_embed id hserve hp).trans ⟨fun ⟨_, heq, h⟩ => heq ▸ h, fun h => ⟨_, rfl, h⟩⟩

theorem gives_table {p : M α} {a : α} (hp : p.All NotCreate) (h : p.Gives (World.serve t) w a w₁) :
    p.Gives (World.table t) w a w₁ := fun r w' => (exec_table hp).trans (h r w')

theorem gives_lookup (t : T) (w : World T) (parent : UInt64) (name : Str) (found : Bool) (out : UInt64) :
    (lookup parent name found out).Gives (World.table t) w (w.files.lookup parent name out) w :=
  gives_table (all_nlockLookup (K := NotCreate) trivial trivial name found out)
    (shows_lookup t w parent name found out)

theorem gives_create (t : T) (w : World T) (type : UInt32) : (perform (.create type)).Gives (World.table t) w
    (.ok, (w.files.alloc type).1) { w with files := (w.files.alloc type).2 } :=
  fun _ _ => Prog.exec_perform

theorem gives_get (t : T) (w : World T) (id : UInt64) :
    (perform (.get id)).Gives (World.table t) w (.ok, text (w.files id)) w :=
  gives_table (Prog.all_perform.2 trivial) (shows_get t w id)

theorem gives_put (t : T) (w : World T) (id : UInt64) (buf : Str) :
    (perform (.put id buf)).Gives (World.table t) w .ok { w with files := w.files.put id buf } :=
  gives_table (Prog.all_perform.2 trivial) fun _ _ => exec_put

theorem gives_locked {p : M α} {a : α} {id : UInt64} (hfree : w.lock id = none)
    (hp : p.Gives (World.table t) ⟨w.files, Function.update w.lock id (some t)⟩ a
      ⟨files, Function.update w.lock id (some t)⟩) :
    (locked id p).Gives (World.table t) w a ⟨files, w.lock⟩ := by
  have hacquire : (perform (.acquire id)).Gives (World.table t) w () _ :=
    gives_table (Prog.all_perform.2 trivial) (gives_acquire hfree)
  have hrelease : (perform (.release id)).Gives (World.table t)
      ⟨files, Function.update w.lock id (some t)⟩ () _ :=
    gives_table (Prog.all_perform.2 trivial) (gives_release (Function.update_self _ _ _))
  dsimp only at hrelease
  rw [update_back hfree] at hrelease
  exact hacquire.bind (hp.bind (hrelease.bind (Prog.gives_pure _ _)))

theorem gives_nlockAdd (hnew : w.files.entry? parent name = none) (t : T) (type : FileType) (out : UInt64) :
    (nlockAdd type parent name out).Gives (World.table t) w (.ok, (w.files.add type parent name).1)
      { w with files := (w.files.add type parent name).2 } := by
  have hlookup := gives_lookup t w parent name false out
  rw [Files.lookup, hnew] at hlookup
  exact hlookup.bind ((gives_create t w type.code).bind ((gives_get t _ parent).bind
    ((gives_put t _ parent _).bind (Prog.gives_pure _ _))))

private theorem gives_nlockCreatelink (hnew : w.files.entry? parent (cStr name) = none) (t : T)
    (targetName : Str) (out : UInt64) :
    (nlockCreatelink parent name targetName out).Gives (World.table t) w
      (.ok, (w.files.link parent name targetName).1)
      { w with files := (w.files.link parent name targetName).2 } := by
  have hlookup := gives_lookup t w parent (cStr name) false out
  rw [Files.lookup, hnew] at hlookup
  exact hlookup.bind ((gives_create t w _).bind ((gives_get t _ parent).bind ((gives_put t _ parent _).bind
    ((gives_put t _ _ targetName).bind (Prog.gives_pure _ _)))))

def Maker.enter (files : Files) (parent : UInt64) (name : Str) : Maker → UInt64 × Files
  | .create => files.add .file parent name
  | .mkdir => files.add .dir parent name
  | .createlink targetName => files.link parent name targetName

/-- The name that is looked up. `createlink` passes on a C string. -/
def Maker.key (name : Str) : Maker → Str
  | .create => name
  | .mkdir => name
  | .createlink _ => cStr name

theorem gives_maker {maker : Maker} (hnew : w.files.entry? parent (maker.key name) = none)
    (hfree : w.lock parent = none) (t : T) (out : UInt64) :
    (maker.call parent name out).Gives (World.table t) w (.ok, (maker.enter w.files parent name).1)
      { w with files := (maker.enter w.files parent name).2 } := by
  cases maker with
  | create =>
    apply gives_locked hfree
    apply gives_nlockAdd
    exact hnew
  | mkdir =>
    apply gives_locked hfree
    apply gives_nlockAdd
    exact hnew
  | createlink targetName =>
    apply gives_locked hfree
    apply gives_nlockCreatelink
    exact hnew

theorem gives_maker_exist {maker : Maker} {e : Str × Str}
    (hentry : w.files.entry? parent (maker.key name) = some e) (hfree : w.lock parent = none) (t : T)
    (out : UInt64) : (maker.call parent name out).Gives (World.table t) w (.exist, n2i e.2) w := by
  have hlookup : ∀ lock, (nlockLookup parent (maker.key name) false out).Gives (World.table t)
      ⟨w.files, lock⟩ (.ok, true, n2i e.2) ⟨w.files, lock⟩ := by
    intro lock
    have h := gives_lookup t ⟨w.files, lock⟩ parent (maker.key name) false out
    dsimp only at h
    rwa [Files.lookup, hentry] at h
  cases maker with
  | create => exact gives_locked hfree ((hlookup _).bind (Prog.gives_pure _ _))
  | mkdir => exact gives_locked hfree ((hlookup _).bind (Prog.gives_pure _ _))
  | createlink targetName => exact gives_locked hfree ((hlookup _).bind (Prog.gives_pure _ _))

theorem add_of_some (h : files.firstFree = some ino) (type : FileType) (parent : UInt64) (name : Str) :
    files.add type parent name = (ino, (files.grow ino type).enter parent (name, filename ino)) := by
  rw [Files.add, Files.alloc, h]
  rfl

theorem add_of_none (h : files.firstFree = none) (type : FileType) (parent : UInt64) (name : Str) :
    files.add type parent name = (0, files.enter parent (name, filename 0)) := by
  rw [Files.add, Files.alloc, h]

/-- A status other than `OK`, and the content of the directory as it was. -/
def RefusesEntry (t : T) (w : World T) (parent : UInt64) (name : Str) (out : UInt64) (maker : Maker) : Prop :=
  ∀ r w', (maker.call parent name out).Exec (World.table t) w r w' →
    r.1 ≠ .ok ∧ w'.files.dir parent = w.files.dir parent

/-- When the table is full, inum 0 is entered. -/
theorem Maker.enter_full (hfull : files.firstFree = none) (parent : UInt64) (name : Str) (maker : Maker) :
    (maker.enter files parent name).1 = 0 ∧ (parent ≠ 0 → (maker.enter files parent name).2.dir parent =
      (files.dir parent).map fun text => addEntry text (name, filename 0)) := by
  have hadd := fun type => add_of_none hfull type parent name
  have hdir := Files.dir_enter files parent (name, filename 0) parent
  rw [if_pos rfl] at hdir
  cases maker with
  | create => exact ⟨congrArg Prod.fst (hadd .file), fun _ => (congrArg Prod.snd (hadd .file)) ▸ hdir⟩
  | mkdir => exact ⟨congrArg Prod.fst (hadd .dir), fun _ => (congrArg Prod.snd (hadd .dir)) ▸ hdir⟩
  | createlink targetName =>
    rw [Maker.enter, Files.link, hadd]
    refine ⟨rfl, fun hne => ?_⟩
    rw [Files.dir_put, if_neg hne, hdir]

/-- With a full table a new name is entered all the same, for inum 0, and the status is `OK`. -/
theorem full_never_refused {maker : Maker} {text : Str} (hfull : w.files.firstFree = none)
    (hdir : w.files.dir parent = some text) (hnew : findEntry text (maker.key name) = none)
    (hfree : w.lock parent = none) (out : UInt64) : ¬RefusesEntry t w parent name out maker ∧
      ∃ w', (maker.call parent name out).Gives (World.table t) w (.ok, 0) w' ∧
        (parent ≠ 0 → w'.files.dir parent = some (addEntry text (name, filename 0))) := by
  have hentry : w.files.entry? parent (maker.key name) = none := by
    rw [Files.entry?, hdir, Option.bind_some, hnew]
  have hgives := gives_maker hentry hfree t out
  obtain ⟨hzero, htext⟩ := maker.enter_full hfull parent name
  rw [hdir, Option.map_some] at htext
  rw [hzero] at hgives
  exact ⟨fun h => (h _ _ hgives.exec).1 rfl, _, hgives, htext⟩

end

def fullTable : World Unit :=
  ⟨fun id => if id = 1 then some (FileType.dir.code, [])
    else if id ≠ 0 ∧ id.toNat < inodeNum then some (FileType.file.code, []) else none, fun _ => none⟩

theorem firstFree_fullTable : fullTable.files.firstFree = none := by
  rw [Files.firstFree, Option.map_eq_none_iff, List.find?_eq_none]
  intro n hn
  rw [List.mem_range'_1, inodeNum] at hn
  have hnat : (UInt64.ofNat n).toNat = n := by
    rw [UInt64.toNat_ofNat']
    exact Nat.mod_eq_of_lt (by omega)
  have hzero : UInt64.ofNat n ≠ 0 := by
    intro heq
    have hnone : (0 : UInt64).toNat = n := heq ▸ hnat
    exact absurd hnone (by simp; omega)
  by_cases hone : UInt64.ofNat n = 1
  · simp [fullTable, hone]
  · simp [fullTable, hone, hzero, hnat, inodeNum]
    omega

theorem full_never_refused_letter : fullTable.files.firstFree = none ∧ findEntry [] [97] = none ∧
    ¬RefusesEntry () fullTable 1 [97] 0 .mkdir := by
  have hdir : fullTable.files.dir 1 = some [] := rfl
  have hnew : findEntry [] (Maker.mkdir.key [97]) = none := rfl
  exact ⟨firstFree_fullTable, rfl, (full_never_refused firstFree_fullTable hdir hnew rfl 0).1⟩

/-- The root directory gets the entry `a;0`. -/
theorem create_enters_zero :
    (∃ w', (create 1 [97] 0).Exec (World.table ()) fullTable (.ok, 0) w' ∧
      Shows () (readdir 1) w' (.ok, [⟨[97], 0⟩]) ∧ w'.files 0 = none) ∧
    ¬RefusesEntry () fullTable 1 [97] 0 .create := by
  have hadd := add_of_none firstFree_fullTable .file 1 [97]
  have hnew : fullTable.files.entry? 1 (Maker.create.key [97]) = none := rfl
  have hcall := (gives_maker hnew rfl () 0).exec
  rw [Maker.enter, hadd] at hcall
  have hdir : (fullTable.files.enter 1 ([97], filename 0)).dir 1 = some (Client.build [([97], 0)]) := by
    rw [Files.dir_enter, if_pos rfl]
    rfl
  have hread := shows_readdir (w := ⟨_, fullTable.lock⟩) hdir () rfl
  exact ⟨⟨_, hcall, hread, rfl⟩, fun h => (h _ _ hcall).1 rfl⟩

end Yfs.Client
