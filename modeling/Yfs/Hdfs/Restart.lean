import Yfs.Hdfs.Making
import Yfs.Hdfs.Paths

/-! A restart of the master datanode, which shares its extent server with the namenode:
`DataNode::init` writes an empty root directory. -/
namespace Yfs.Hdfs
open Yfs.Lib Yfs.Extent Yfs.Client

/-- `DataNode::init`, as far as it touches the extent server: whether the datanode gets a connection
to the namenode and is registered there is up to the network. -/
def DataNode.init (connected registered : Bool) : M Int32 := do
  if connected then
    if registered then
      let _ ← perform (.put 1 [])
      pure 0
    else pure (-1)
  else pure (-1)

def lookedUp (s : Store) (path : Str) : Option (Option UInt64) :=
  ((NameNode.recursiveLookup path).run Store.serve s).map Prod.fst

/-- A name that a component of a path can have. -/
def Nameable (name : Str) : Prop := slash ∉ name ∧ 0 ∉ name

theorem lookedUp_eq {s : Store} (hown : Owned s.disk) (path : Str) :
    lookedUp s path = some (resolvePath (dirText s.disk) path) := by
  obtain ⟨s', hrun, -⟩ := run_recursiveLookup s hown path
  rw [lookedUp, hrun, Option.map_some]

private theorem nameable_cStr {c : Str} (h : slash ∉ c) : Nameable (cStr c) := by
  constructor
  · exact fun hmem => h (List.takeWhile_subset _ hmem)
  · intro hmem
    have hne := List.mem_takeWhile_imp hmem
    exact absurd rfl (of_decide_eq_true hne)

theorem nameable_of_mem_components {path c : Str} (h : c ∈ NameNode.components path) : Nameable (cStr c) :=
  nameable_cStr (slash_not_mem_of_mem_splitOn (List.mem_of_mem_filter h))

theorem exists_path_of_nameable {name : Str} (h : Nameable name) :
    ∃ path c, path.head? = some slash ∧ NameNode.components path = [c] ∧ cStr c = name := by
  obtain ⟨c, hne, hslash, hname⟩ : ∃ c : Str, c ≠ [] ∧ slash ∉ c ∧ cStr c = name := by
    by_cases hnil : name = []
    · exact ⟨[0], by decide, by decide, by rw [hnil]; decide⟩
    · refine ⟨name, hnil, h.1, List.takeWhile_eq_self_iff.2 fun x hx => ?_⟩
      exact decide_eq_true fun heq => h.2 (heq ▸ hx)
  refine ⟨slash :: c, c, rfl, ?_, hname⟩
  rw [NameNode.components, List.drop_one, List.tail_cons, List.splitOn_eq_singleton hslash,
    List.filter_singleton, decide_eq_true hne, cond_true]

theorem roomy_nil (d : Disk) (id : UInt64) : Roomy d id [] := by
  have hzero : blockCount ([] : List UInt8).length = 0 := rfl
  refine Roomy.of_direct (Nat.zero_le _) fun ino _ => ?_
  rw [hzero]
  exact (grownBy_le (Nat.zero_le nDirect)).trans (Nat.zero_le _)

theorem dirText_put_root {d : Disk} (hown : Owned d) (rt : Runtime) (id : UInt64) :
    dirText (Server.put rt 1 [] d) id =
      if maskId id = 1 then (dirText d 1).map fun _ => [] else dirText d id := by
  have hmask : maskId 1 = 1 := by decide
  obtain ⟨-, hfiles, -⟩ := fileOf_put hown rt (roomy_nil d 1)
  rw [dirText_eq_fileOf, hfiles, hmask]
  split_ifs with hid
  · rw [dirText_eq_fileOf, hmask, hid]
    cases fileOf d 1 with
    | none => rfl
    | some f =>
      rw [Option.map_some, Option.bind_some, Option.bind_some]
      split_ifs <;> rfl
  · rw [dirText_eq_fileOf]

theorem resolve_congr {dir dir' : UInt64 → Option Str} {l : List Str}
    (hl : ∀ c ∈ l, ∀ id, entryOf (dir' id) (cStr c) = entryOf (dir id) (cStr c)) (ino : UInt64) :
    resolve dir' ino l = resolve dir ino l := by
  induction l generalizing ino with
  | nil => rfl
  | cons c l ih =>
    rw [resolve, resolve, hl c List.mem_cons_self]
    congr 1
    funext ino'
    exact ih (fun c' hc' => hl c' (List.mem_cons_of_mem c hc')) ino'

private theorem entryOf_eq_none {text name : Str} (h : ∀ e ∈ entries text, e.1 ≠ name) :
    entryOf (some text) name = none := by
  rw [entryOf, Option.bind_some, findEntry, List.find?_eq_none.2 fun e he => by simpa using h e he,
    Option.map_none]

private theorem entryOf_ne_none {text : Str} {e : Str × Str} (h : e ∈ entries text) :
    entryOf (some text) e.1 ≠ none := by
  rw [entryOf, Option.bind_some, findEntry, ne_eq, Option.map_eq_none_iff, List.find?_eq_none]
  intro hnone
  exact hnone e h (decide_eq_true rfl)

/-- Lookups of all paths give the same before and after the root is emptied, exactly if the root has
no entry that a path can name. -/
theorem resolvePath_put_root_iff {d : Disk} (hown : Owned d) (rt : Runtime) :
    (∀ path, resolvePath (dirText (Server.put rt 1 [] d)) path = resolvePath (dirText d) path) ↔
      ∀ e ∈ entries ((dirText d 1).getD []), ¬Nameable e.1 := by
  constructor
  · intro hsame e he hname
    obtain ⟨path, c, habs, hcomponents, hc⟩ := exists_path_of_nameable hname
    have heq := hsame path
    rw [resolvePath, resolvePath, if_pos habs, if_pos habs, hcomponents, resolve, resolve, hc,
      dirText_put_root hown, if_pos (by decide)] at heq
    cases hroot : dirText d 1 with
    | none =>
      rw [hroot] at he
      exact absurd he List.not_mem_nil
    | some text =>
      rw [hroot] at he heq
      rw [Option.getD_some] at he
      obtain ⟨i, hi⟩ := Option.ne_none_iff_exists'.1 (entryOf_ne_none he)
      rw [hi] at heq
      cases heq
  · intro hroot path
    unfold resolvePath
    split_ifs
    · refine resolve_congr (fun c hc id => ?_) 1
      rw [dirText_put_root hown]
      split_ifs with hid
      · have hsame : dirText d id = dirText d 1 := by rw [dirText, hid, dirText]; rfl
        rw [hsame]
        cases htext : dirText d 1 with
        | none => rfl
        | some text =>
          rw [htext, Option.getD_some] at hroot
          rw [entryOf_eq_none fun e he heq => hroot e he (heq ▸ nameable_of_mem_components hc)]
          rfl
      · rfl
    · rfl

theorem lookedUp_put_root_iff {s : Store} (hown : Owned s.disk) :
    (∀ path, lookedUp (s.next (Server.put s.now 1 [] s.disk)) path = lookedUp s path) ↔
      ∀ e ∈ entries ((dirText s.disk 1).getD []), ¬Nameable e.1 := by
  have hown' := (fileOf_put hown s.now (roomy_nil s.disk 1)).1
  rw [← resolvePath_put_root_iff hown s.now]
  refine forall_congr' fun path => ?_
  rw [lookedUp_eq hown, lookedUp_eq hown', Option.some.injEq, Store.disk_next]

/-- The root is emptied by a restart that gets through to its end, and by no other. -/
theorem DataNode.init_cases {s s' : Store} {connected registered : Bool} {r : Int32}
    (hinit : (DataNode.init connected registered).run Store.serve s = some (r, s')) :
    (connected = true ∧ registered = true) ∧ s' = s.next (Server.put s.now 1 [] s.disk) ∨
      ¬(connected = true ∧ registered = true) ∧ s' = s := by
  unfold DataNode.init at hinit
  split_ifs at hinit with hconnected hregistered
  · rw [Prog.run_bind_some (by rw [Prog.run_perform, Store.serve])] at hinit
    cases hinit
    exact .inl ⟨⟨hconnected, hregistered⟩, rfl⟩
  · cases hinit
    exact .inr ⟨fun h => hregistered h.2, rfl⟩
  · cases hinit
    exact .inr ⟨fun h => hconnected h.1, rfl⟩

/-- A restart that gets through to its end leaves all lookups as they are, exactly if the root has no
entry that a path can name. -/
theorem lookup_restart_iff {s s' : Store} (hown : Owned s.disk) {connected registered : Bool} {r : Int32}
    (hinit : (DataNode.init connected registered).run Store.serve s = some (r, s')) :
    (∀ path, lookedUp s' path = lookedUp s path) ↔
      (connected = true → registered = true → ∀ e ∈ entries ((dirText s.disk 1).getD []), ¬Nameable e.1) := by
  rw [← and_imp]
  rcases DataNode.init_cases hinit with ⟨hend, rfl⟩ | ⟨hend, rfl⟩
  · rw [lookedUp_put_root_iff hown]
    exact ⟨fun h _ => h, fun h => h hend⟩
  · exact ⟨fun _ h => absurd h hend, fun _ _ => rfl⟩

/-- A fresh server whose root was written with one entry, of the name `a\0b`. -/
def nulStore : Store := freshStore.next (Server.put quiet 1 [97, 0, 98, 59, 50] (Server.init quiet))

theorem roomy_nul : Roomy (Server.init quiet) 1 [97, 0, 98, 59, 50] := by
  refine Roomy.of_direct (by decide) fun ino _ => ?_
  rw [freeBlocks_init, List.length_range']
  exact (grownBy_le (by decide)).trans (by decide)

private theorem dirText_nulStore : dirText nulStore.disk 1 = some [97, 0, 98, 59, 50] := by
  have hput := (fileOf_put (owned_init quiet) quiet roomy_nul).2.1
  rw [nulStore, Store.disk_next, dirText_eq_fileOf, hput, fileOf_init]
  rfl

theorem not_nameable_nulStore : ∀ e ∈ entries ((dirText nulStore.disk 1).getD []), ¬Nameable e.1 := by
  intro e he hname
  rw [dirText_nulStore] at he
  obtain rfl : e = ([97, 0, 98], [50]) := List.mem_singleton.1 he
  exact hname.2 (by decide)

/-- The root has an entry, but none that a path can name. -/
theorem lookup_restart_iff_nul : ∃ s', (DataNode.init true true).run Store.serve nulStore = some (0, s') ∧
    ∀ path, lookedUp s' path = lookedUp nulStore path := by
  have hown : Owned nulStore.disk := (fileOf_put (owned_init quiet) quiet roomy_nul).1
  have hinit : (DataNode.init true true).run Store.serve nulStore = some (0, _) := rfl
  exact ⟨_, hinit, (lookup_restart_iff hown hinit).2 fun _ _ => not_nameable_nulStore⟩

open Request in
/-- A restart at any point of a run of sound requests is such a request itself, and leaves all lookups
as they are exactly if the root has no entry that a path can name. -/
theorem restart_of_run {rt₀ : Runtime} {s s' : Store} {connected registered : Bool} {r : Int32}
    (hrun : Relation.ReflTransGen SoundStep (Server.init rt₀) s.disk)
    (hinit : (DataNode.init connected registered).run Store.serve s = some (r, s')) :
    Relation.ReflTransGen SoundStep (Server.init rt₀) s'.disk ∧
      ((∀ path, lookedUp s' path = lookedUp s path) ↔ (connected = true ∧ registered = true →
        ∀ e ∈ entries ((dirText s.disk 1).getD []), ¬Nameable e.1)) := by
  have hroom := roomy_nil s.disk 1
  rcases DataNode.init_cases hinit with ⟨hend, rfl⟩ | ⟨hend, rfl⟩
  · refine ⟨hrun.tail ⟨s.now, .put 1 [], hroom.allowed, hroom.sound, rfl⟩, ?_⟩
    rw [lookedUp_put_root_iff (owned_of_soundSteps hrun)]
    exact ⟨fun h _ => h, fun h => h hend⟩
  · exact ⟨hrun, fun _ h => absurd h hend, fun _ _ => rfl⟩

open Request in
theorem restart_of_run_nul : ∃ s', (DataNode.init true true).run Store.serve nulStore = some (0, s') ∧
    Relation.ReflTransGen SoundStep (Server.init quiet) s'.disk ∧
    ∀ path, lookedUp s' path = lookedUp nulStore path := by
  have hrun : Relation.ReflTransGen SoundStep (Server.init quiet) nulStore.disk :=
    .single ⟨quiet, .put 1 [97, 0, 98, 59, 50], roomy_nul.allowed, roomy_nul.sound, rfl⟩
  have hinit : (DataNode.init true true).run Store.serve nulStore = some (0, _) := rfl
  obtain ⟨hrun', hiff⟩ := restart_of_run hrun hinit
  exact ⟨_, hinit, hrun', hiff.2 fun _ => not_nameable_nulStore⟩

/-- After `PBCreate` of `/f` a restart makes the file unreachable. -/
theorem lookup_restart_lost : ∃ info nn s s',
    ((NameNode.init ℕ).pbCreate [47, 102] false).run Store.serve freshStore = some ((.ok info, nn), s) ∧
      (DataNode.init true true).run Store.serve s = some (0, s') ∧
      lookedUp s [47, 102] = some (some 2) ∧ lookedUp s' [47, 102] = some none := by
  obtain ⟨info, s, hrun, -, hown, hfiles, -⟩ := run_pbCreate_fresh ℕ [47, 102] false rfl rfl
    (by decide) (by decide)
  have hroot : dirText s.disk 1 = some [102, 59, 50] := by
    rw [dirText_eq_fileOf, hfiles]
    rfl
  have hcomponents : NameNode.components [47, 102] = [[102]] := by decide
  have hpath : ∀ dir, resolvePath dir [47, 102] = resolve dir 1 [[102]] := by
    intro dir
    rw [resolvePath, if_pos (by decide), hcomponents]
  have hown' := (fileOf_put hown s.now (roomy_nil s.disk 1)).1
  refine ⟨info, _, s, s.next (Server.put s.now 1 [] s.disk), hrun, rfl, ?_, ?_⟩
  · rw [lookedUp_eq hown, hpath, resolve, hroot]
    rfl
  · rw [lookedUp_eq hown', hpath, resolve, Store.disk_next, dirText_put_root hown, if_pos (by decide), hroot]
    rfl

end Yfs.Hdfs
