import Yfs.Client.Codec
import Yfs.Client.Observe

/-! A name that was entered into a directory is found again, unless it holds the separator. -/
namespace Yfs.Client
open Yfs.Lib Yfs.Extent

/-- The operations that enter a new name. -/
inductive Maker where
  | create | mkdir
  | createlink (targetName : Str)

def Maker.call (parent : UInt64) (name : Str) (out : UInt64) : Maker → M (YfsStatus × UInt64)
  | .create => Client.create parent name out
  | .mkdir => Client.mkdir parent name out
  | .createlink targetName => Client.createlink parent name targetName out

def toDirent (e : Str × UInt64) : Dirent := ⟨e.1, e.2⟩

theorem map_dirent (l : List (Str × Str)) :
    (l.map fun e => (⟨e.1, n2i e.2⟩ : Dirent)) = (l.map readBack).map toDirent := by
  rw [List.map_map]
  rfl

/-- The new entry is listed behind the old ones and found by its name, and no other lookup changes. -/
structure FoundAgain {T : Type} (t : T) (w w' : World T) (parent : UInt64) (l : List (Str × UInt64))
    (name : Str) (ino : UInt64) : Prop where
  readdir : Shows t (readdir parent) w' (.ok, (l ++ [(name, ino)]).map toDirent)
  lookup : ∀ found out, Shows t (lookup parent name found out) w' (.ok, true, ino)
  others : ∀ other, other ≠ name → ∀ found out r, Shows t (Client.lookup parent other found out) w r →
    Shows t (Client.lookup parent other found out) w' r

section
variable {T : Type} {t : T} {w w' : World T} {files files' : Files} {parent ino out : UInt64} {name : Str}
  {l : List (Str × UInt64)}

theorem findEntry_of_semi (dirList : Str) (h : semi ∈ name) : findEntry dirList name = none := by
  rw [findEntry, List.find?_eq_none]
  intro e he heq
  have hnot : semi ∉ e.1 := semi_not_mem_scan List.not_mem_nil he
  rw [of_decide_eq_true heq] at hnot
  exact hnot h

theorem addEntry_build (l : List (Str × UInt64)) (name : Str) (ino : UInt64) :
    addEntry (build l) (name, filename ino) = build (l ++ [(name, ino)]) := by
  rw [build, build, List.foldl_append]
  rfl

private theorem dir_grow_of_live (hdir : files.dir parent = some (build l)) (hfree : files ino = none)
    (type : FileType) : (files.grow ino type).dir parent = some (build l) := by
  have hne : parent ≠ ino := by
    rintro rfl
    rw [Files.dir_eq_some, hfree] at hdir
    cases hdir
  rw [Files.dir_grow, if_neg hne, hdir]

theorem dir_enter_build (hdir : files.dir parent = some (build l)) (hfree : files ino = none)
    (type : FileType) (name : Str) :
    ((files.grow ino type).enter parent (name, filename ino)).dir parent =
      some (build (l ++ [(name, ino)])) := by
  rw [Files.dir_enter, if_pos rfl, dir_grow_of_live hdir hfree, Option.map_some, addEntry_build]

theorem Added.dir_eq {type : FileType} (h : Added files type parent name (.ok, ino) files')
    (hdir : files.dir parent = some (build l)) : files'.dir parent = some (build (l ++ [(name, ino)])) := by
  rcases h with ⟨e, -, hexist, -⟩ | ⟨-, hfree, -, rfl⟩
  · cases hexist
  · exact dir_enter_build hdir hfree type name

theorem Linked.dir_eq {targetName : Str} (h : Linked files parent name targetName (.ok, ino) files')
    (hdir : files.dir parent = some (build l)) : files'.dir parent = some (build (l ++ [(name, ino)])) := by
  rcases h with ⟨e, -, hexist, -⟩ | ⟨-, hfree, -, rfl⟩
  · cases hexist
  · have hne : parent ≠ ino := by
      rintro rfl
      rw [Files.dir_eq_some, hfree] at hdir
      cases hdir
    rw [Files.dir_put, if_neg hne]
    exact dir_enter_build hdir hfree .symlink name

theorem dir_of_call (hdir : w.files.dir parent = some (build l)) {maker : Maker}
    (hexec : (maker.call parent name out).Exec (World.serve t) w (.ok, ino) w') :
    w'.files.dir parent = some (build (l ++ [(name, ino)])) ∧ w'.lock parent = none := by
  have hlock : ∀ p : M (YfsStatus × UInt64), (locked parent p).Exec (World.serve t) w (.ok, ino) w' →
      w'.lock parent = none := by
    intro p hp
    obtain ⟨-, w₁, -, -, rfl⟩ := exec_locked.1 hp
    exact Function.update_self _ _ _
  cases maker with
  | create =>
    have hadd := (leads_locked (leads_nlockAdd w.files .file parent name out)).result hexec
    exact ⟨hadd.dir_eq hdir, hlock _ hexec⟩
  | mkdir =>
    have hadd := (leads_locked (leads_nlockAdd w.files .dir parent name out)).result hexec
    exact ⟨hadd.dir_eq hdir, hlock _ hexec⟩
  | createlink targetName =>
    have hlink := (leads_locked (leads_nlockCreatelink w.files parent name targetName out)).result hexec
    exact ⟨hlink.dir_eq hdir, hlock _ hexec⟩

theorem findEntry_build (hl : ∀ e ∈ l, semi ∉ e.1) (name : Str) :
    findEntry (build l) name = (l.find? fun e => e.1 = name).map written := by
  rw [findEntry, entries_build hl, List.find?_map]
  rfl

private theorem lookup_build (hdir : files.dir parent = some (build l)) (hl : ∀ e ∈ l, semi ∉ e.1) :
    files.lookup parent name out = match l.find? fun e => e.1 = name with
      | some e => (.ok, true, e.2)
      | none => (.noent, false, out) := by
  rw [Files.lookup, Files.entry?, hdir, Option.bind_some, findEntry_build hl]
  cases l.find? fun e => e.1 = name with
  | none => rfl
  | some e => simp only [Option.map_some, written, n2i_filename]

/-- A new name is found again exactly if it does not hold the separator. -/
theorem found_again_iff (hdir : w.files.dir parent = some (build l)) (hl : ∀ e ∈ l, semi ∉ e.1)
    (hnew : findEntry (build l) name = none) {maker : Maker}
    (hexec : (maker.call parent name out).Exec (World.serve t) w (.ok, ino) w') :
    FoundAgain t w w' parent l name ino ↔ semi ∉ name := by
  obtain ⟨hdir', hlock⟩ := dir_of_call hdir hexec
  constructor
  · intro h hsemi
    have hfound := (h.lookup false 0).unique (shows_lookup t w' parent name false 0)
    rw [Files.lookup, Files.entry?, hdir', Option.bind_some, findEntry_of_semi _ hsemi] at hfound
    cases hfound
  · intro hsemi
    have hl' : ∀ e ∈ l ++ [(name, ino)], semi ∉ e.1 := by
      intro e he
      rcases List.mem_append.1 he with he | he
      · exact hl e he
      · rw [List.mem_singleton.1 he]
        exact hsemi
    have hnone : l.find? (fun e => e.1 = name) = none := by
      rw [findEntry, entries_build hl, List.find?_map, Option.map_eq_none_iff] at hnew
      exact hnew
    constructor
    · have hread := shows_readdir hdir' t hlock
      rwa [entries_build hl', map_dirent, map_readBack_written] at hread
    · intro found out
      have hlookup := shows_lookup t w' parent name found out
      rw [lookup_build hdir' hl', List.find?_append, hnone, Option.none_or,
        List.find?_cons_of_pos (by simp)] at hlookup
      exact hlookup
    · intro other hother found out r hr
      have hsame : w'.files.lookup parent other out = w.files.lookup parent other out := by
        rw [lookup_build hdir' hl', lookup_build hdir hl, List.find?_append,
          List.find?_cons_of_neg (by simpa using Ne.symm hother), List.find?_nil, Option.or_none]
      rw [hr.unique (shows_lookup t w parent other found out), ← hsame]
      exact shows_lookup t w' parent other found out

end

def emptyRoot : World Unit := ⟨rootFiles, fun _ => none⟩

theorem dir_emptyRoot : emptyRoot.files.dir 1 = some (build []) := rfl

theorem exec_create_emptyRoot (name : Str)
    (hrun : ((Maker.create.call 1 name 0).run (World.reply ()) emptyRoot).any
      (fun r => decide (r.1 = (.ok, 2))) = true) :
    ∃ w', (Maker.create.call 1 name 0).Exec (World.serve ()) emptyRoot (.ok, 2) w' := by
  obtain ⟨⟨r, w'⟩, hrun, hr⟩ := (Option.any_eq_true _ _).1 hrun
  obtain rfl : r = (.ok, 2) := of_decide_eq_true hr
  exact ⟨w', World.exec_of_run hrun⟩

theorem found_again_iff_letter : ∃ w', (Maker.create.call 1 [97] 0).Exec (World.serve ()) emptyRoot
    (.ok, 2) w' ∧ FoundAgain () emptyRoot w' 1 [] [97] 2 := by
  obtain ⟨w', hexec⟩ := exec_create_emptyRoot [97] (by decide +kernel)
  exact ⟨w', hexec, (found_again_iff dir_emptyRoot (by simp) rfl hexec).2 (by decide)⟩

/-- `create` of `a;b` returns `OK`. Afterwards the directory lists `a` with inum 0 and has no `a;b`. -/
theorem created_name_lost : ∃ w',
    (Maker.create.call 1 [97, semi, 98] 0).Exec (World.serve ()) emptyRoot (.ok, 2) w' ∧
    Shows () (readdir 1) w' (.ok, [⟨[97], 0⟩]) ∧
    Shows () (lookup 1 [97, semi, 98] false 0) w' (.noent, false, 0) ∧
    ¬FoundAgain () emptyRoot w' 1 [] [97, semi, 98] 2 := by
  obtain ⟨w', hexec⟩ := exec_create_emptyRoot [97, semi, 98] (by decide +kernel)
  obtain ⟨hdir, hlock⟩ := dir_of_call dir_emptyRoot hexec
  have htext : build ([] ++ [([97, semi, 98], 2)]) = [97, semi, 98, semi, 50] := by decide +kernel
  rw [htext] at hdir
  refine ⟨w', hexec, shows_readdir hdir () hlock, ?_, fun h => ?_⟩
  · have hlookup := shows_lookup () w' 1 [97, semi, 98] false 0
    rw [Files.lookup, Files.entry?, hdir] at hlookup
    exact hlookup
  · have hfound := (h.lookup false 0).unique (shows_lookup () w' 1 [97, semi, 98] false 0)
    rw [Files.lookup, Files.entry?, hdir] at hfound
    cases hfound

end Yfs.Client
