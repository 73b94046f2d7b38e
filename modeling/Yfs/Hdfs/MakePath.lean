import Yfs.Client.Table
import Yfs.Hdfs.Making
import Yfs.Hdfs.PathWalk

/-! `PBMkdirs` and `PBCreate` over a table of inodes, and the paths that they leave behind. -/
namespace Yfs.Hdfs
open Yfs.Lib Yfs.Extent Yfs.Client

namespace NameNode

theorem lastName_eq_baseName {path : Str} (habsolute : path.head? = some slash) :
    lastName path = baseName path := by
  obtain ⟨rest, rfl⟩ := List.head?_eq_some_iff.1 habsolute
  rw [baseName_slash, lastName, List.drop_one, List.tail_cons, getLast?_splitOn, Option.getD_some]

theorem names_eq_parents {path : Str} (habsolute : path.head? = some slash) :
    names path = parents path ++ if baseName path = [] then [] else [baseName path] := by
  obtain ⟨rest, rfl⟩ := List.head?_eq_some_iff.1 habsolute
  obtain ⟨init, hinit⟩ := List.getLast?_eq_some_iff.1 (getLast?_splitOn rest)
  rw [← components_eq_names habsolute, components, parents, baseName_slash, List.drop_one, List.tail_cons,
    hinit, List.filter_append, List.dropLast_concat, List.filter_singleton]
  split_ifs with hbase <;> simp [hbase]

section
variable {T : Type} {t : T} {w w' : World T} {ino parent : UInt64} {name : Str}

theorem gives_mkdir (hnew : w.files.entry? parent (cStr name) = none) (hfree : w.lock parent = none) (t : T)
    (out : UInt64) : (mkdir parent name out).Gives (World.table t) w
      (true, (w.files.add .dir parent (cStr name)).1)
      { w with files := (w.files.add .dir parent (cStr name)).2 } := by
  have hcall : (Maker.mkdir.call parent (cStr name) out).Gives (World.table t) w _ _ :=
    gives_maker hnew hfree t out
  exact hcall.bind (Prog.gives_pure _ _)

theorem gives_create (hnew : w.files.entry? parent (cStr name) = none) (hfree : ∀ id, w.lock id = none)
    (t : T) (out : UInt64) : (create parent name out).Gives (World.table t) w
      (true, (w.files.add .file parent (cStr name)).1)
      ⟨(w.files.add .file parent (cStr name)).2,
        Function.update w.lock (w.files.add .file parent (cStr name)).1 (some t)⟩ := by
  have hcall : (Maker.create.call parent (cStr name) out).Gives (World.table t) w _ _ :=
    gives_maker hnew (hfree parent) t out
  have hacquire : ∀ files lid, (perform (.acquire lid)).Gives (World.table t) ⟨files, w.lock⟩ () _ :=
    fun files lid => gives_table (Prog.all_perform.2 trivial) (gives_acquire (hfree lid))
  exact hcall.bind ((hacquire _ _).bind (Prog.gives_pure _ _))

theorem gives_descend_append {l l' : List Str} {createParent : Bool} {r : Except HdfsException UInt64}
    {i : UInt64} (hfound : resolve w.files.dir ino l = some i)
    (hrest : (descend createParent i l').Gives (World.table t) w r w') :
    (descend createParent ino (l ++ l')).Gives (World.table t) w r w' := by
  induction l generalizing ino with
  | nil =>
    cases hfound
    exact hrest
  | cons c l ih =>
    obtain ⟨next, hentry, hresolve⟩ := Option.bind_eq_some_iff.1 hfound
    have hlookup := gives_lookup t w ino (cStr c) false ino
    rw [lookup_eq, hentry] at hlookup
    exact hlookup.bind (ih hresolve)

theorem gives_descend_missing {c : Str} {l : List Str} {createParent : Bool} (t : T)
    (hdir : (w.files.dir ino).isSome) (hentry : entryOf (w.files.dir ino) (cStr c) = none) :
    (descend createParent ino (c :: l)).Gives (World.table t) w (.error .traverseFailed) w := by
  have hlookup := gives_lookup t w ino (cStr c) false ino
  rw [lookup_eq, hentry, if_pos hdir] at hlookup
  exact hlookup.bind (Prog.gives_pure _ _)

end
end NameNode

section
variable {files : Files} {dir dir' : UInt64 → Option Str} {d ino i : UInt64} {name : Str} {type : FileType}
  {entries : List (Str × UInt64)}

theorem resolve_append (dir : UInt64 → Option Str) (ino : UInt64) (l l' : List Str) :
    resolve dir ino (l ++ l') = (resolve dir ino l).bind fun i => resolve dir i l' := by
  induction l generalizing ino with
  | nil => rfl
  | cons c l ih =>
    rw [List.cons_append, resolve, resolve, Option.bind_assoc]
    congr 1
    funext next
    exact ih next

theorem resolve_mono (h : ∀ id name i, entryOf (dir id) name = some i → entryOf (dir' id) name = some i)
    {l : List Str} (hfound : resolve dir ino l = some i) : resolve dir' ino l = some i := by
  induction l generalizing ino with
  | nil => exact hfound
  | cons c l ih =>
    obtain ⟨next, hentry, hrest⟩ := Option.bind_eq_some_iff.1 hfound
    exact Option.bind_eq_some_iff.2 ⟨next, h _ _ _ hentry, ih hrest⟩

theorem ne_of_dir {text : Str} (hdir : files.dir d = some text) (hdead : files ino = none) : d ≠ ino := by
  rintro rfl
  rw [Files.dir_eq_some, hdead] at hdir
  cases hdir

theorem dir_add_self (hdir : files.dir d = some (Client.build entries)) :
    (files.add type d name).2.dir d =
      some (Client.build (entries ++ [(name, (files.add type d name).1)])) := by
  cases hfree : files.firstFree with
  | some ino =>
    rw [add_of_some hfree]
    exact dir_enter_build hdir (Files.dead_of_firstFree hfree) type name
  | none => rw [add_of_none hfree, Files.dir_enter, if_pos rfl, hdir, Option.map_some, addEntry_build]

theorem dir_add_of_ne {text : Str} {id : UInt64} (hne : id ≠ d) (hdir : files.dir id = some text) :
    (files.add type d name).2.dir id = some text := by
  cases hfree : files.firstFree with
  | some ino =>
    rw [add_of_some hfree, Files.dir_enter, if_neg hne, Files.dir_grow,
      if_neg (ne_of_dir hdir (Files.dead_of_firstFree hfree)), hdir]
  | none => rw [add_of_none hfree, Files.dir_enter, if_neg hne, hdir]

theorem typeOf_add {text : Str} (hdir : files.dir d = some text) (hzero : files 0 = none) :
    typeOf ((files.add type d name).2 (files.add type d name).1) = type.code ↔ files.firstFree ≠ none := by
  cases hfree : files.firstFree with
  | some ino =>
    have hne := ne_of_dir hdir (Files.dead_of_firstFree hfree)
    refine iff_of_true ?_ (Option.some_ne_none ino)
    rw [add_of_some hfree]
    dsimp only
    rw [Files.enter, Files.put, Function.update_of_ne hne.symm, Files.grow, Function.update_self]
    rfl
  | none =>
    have hne := ne_of_dir hdir hzero
    refine iff_of_false ?_ (fun h => h rfl)
    rw [add_of_none hfree]
    dsimp only
    rw [Files.enter, Files.put, Function.update_of_ne hne.symm, hzero]
    cases type <;> decide

theorem plain_concat (hplain : ∀ e ∈ entries, semi ∉ e.1) (hname : semi ∉ name) :
    ∀ e ∈ entries ++ [(name, ino)], semi ∉ e.1 := by
  intro e he
  rcases List.mem_append.1 he with he | he
  · exact hplain e he
  · rw [List.mem_singleton.1 he]
    exact hname

theorem entryOf_add (hdir : files.dir d = some (Client.build entries)) (hplain : ∀ e ∈ entries, semi ∉ e.1)
    (hname : semi ∉ name) {id : UInt64} {other : Str} (h : entryOf (files.dir id) other = some i) :
    entryOf ((files.add type d name).2.dir id) other = some i := by
  cases htext : files.dir id with
  | none =>
    rw [htext] at h
    cases h
  | some text =>
    by_cases hid : id = d
    · subst hid
      rw [hdir, entryOf_build hplain] at h
      obtain ⟨e, hfind, rfl⟩ := Option.map_eq_some_iff.1 h
      rw [dir_add_self hdir, entryOf_build (plain_concat hplain hname), List.find?_append, hfind,
        Option.some_or, Option.map_some]
    · rw [dir_add_of_ne hid htext, ← htext]
      exact h

theorem entryOf_add_self (hdir : files.dir d = some (Client.build entries))
    (hplain : ∀ e ∈ entries, semi ∉ e.1) (hname : semi ∉ name) (hnew : entryOf (files.dir d) name = none) :
    entryOf ((files.add type d name).2.dir d) name = some (files.add type d name).1 := by
  rw [hdir, entryOf_build hplain, Option.map_eq_none_iff] at hnew
  rw [dir_add_self hdir, entryOf_build (plain_concat hplain hname), List.find?_append, hnew, Option.none_or,
    List.find?_cons_of_pos (by simp), Option.map_some]

end

/-- Each directory encodes a list of entries, and there is no inode 0. -/
structure WellBuilt (files : Files) : Prop where
  texts : ∀ id text, files.dir id = some text →
    ∃ entries, text = Client.build entries ∧ ∀ e ∈ entries, semi ∉ e.1
  zero : files 0 = none

/-- The components of the path from `c` on are missing, and those before lead to directory `d`. -/
structure Missing (files : Files) (path : Str) (pre : List Str) (c : Str) (post : List Str) (d : UInt64) :
    Prop where
  absolute : path.head? = some slash
  base : baseName path ≠ []
  plain : semi ∉ path
  split : names path = pre ++ c :: post
  front : resolve files.dir 1 pre = some d
  dir : (files.dir d).isSome
  entry : entryOf (files.dir d) (cStr c) = none

section
variable {T D : Type} {t : T} {nn : NameNode D} {w w' : World T} {path : Str} {pre : List Str} {c : Str}
  {post : List Str} {d : UInt64}

/-- The path leads to an inode of that type, and each path that led somewhere leads there still. -/
structure Made (t : T) (w w' : World T) (path : Str) (type : FileType) : Prop where
  found : ∃ ino, (NameNode.recursiveLookup path).Gives (World.table t) w' (some ino) w' ∧
    typeOf (w'.files ino) = type.code
  kept : ∀ other ino, (NameNode.recursiveLookup other).Gives (World.table t) w (some ino) w →
    (NameNode.recursiveLookup other).Gives (World.table t) w' (some ino) w'

/-- `PBMkdirs` with `createparent` makes the path. -/
def MkdirsMakes (t : T) (w : World T) (path : Str) : Prop :=
  (∃ r w', (NameNode.pbMkdirs path true).Exec (World.table t) w r w') ∧
    ∀ r w', (NameNode.pbMkdirs path true).Exec (World.table t) w r w' → r = .ok true ∧ Made t w w' path .dir

/-- `PBCreate` with `createparent` makes the path. -/
def CreateMakes (t : T) (nn : NameNode D) (w : World T) (path : Str) : Prop :=
  (∃ r w', (nn.pbCreate path true).Exec (World.table t) w r w') ∧
    ∀ r w', (nn.pbCreate path true).Exec (World.table t) w r w' →
      (∃ info, r.1 = .ok info) ∧ Made t w w' path .file

private theorem gives_path (t : T) (w : World T) (path : Str) :
    (NameNode.recursiveLookup path).Gives (World.table t) w (resolvePath w.files.dir path) w :=
  gives_table (all_recursiveLookup (K := NotCreate) (fun _ => trivial) (fun _ => trivial) path)
    (shows_recursiveLookup t w path)

theorem gives_path_iff {i : Option UInt64} : (NameNode.recursiveLookup path).Gives (World.table t) w i w ↔
    resolvePath w.files.dir path = i := by
  constructor
  · intro h
    exact ((h _ _).1 (gives_path t w path).exec).1
  · rintro rfl
    exact gives_path t w path

namespace Missing

theorem parents_eq (h : Missing w.files path pre c post d) :
    NameNode.parents path ++ [baseName path] = pre ++ c :: post := by
  rw [← h.split, NameNode.names_eq_parents h.absolute, if_neg h.base]

/-- A new entry for the last component makes the path, unless the table is full. -/
theorem made_iff (h : Missing w.files path pre c [] d) (hbuilt : WellBuilt w.files) (type : FileType)
    (hfiles : w'.files = (w.files.add type d (cStr c)).2) :
    Made t w w' path type ↔ w.files.firstFree ≠ none := by
  obtain ⟨text, hdir⟩ := Option.isSome_iff_exists.1 h.dir
  obtain ⟨entries, rfl, hplain⟩ := hbuilt.texts d text hdir
  have hname : semi ∉ cStr c := by
    intro hmem
    have hc : c ∈ names path := by rw [h.split]; simp
    exact h.plain (mem_of_mem_names hc (List.takeWhile_subset _ hmem))
  have hmono : ∀ {ino l i}, resolve w.files.dir ino l = some i → resolve w'.files.dir ino l = some i := by
    intro ino l i
    apply resolve_mono
    intro id name i hentry
    rw [hfiles]
    exact entryOf_add hdir hplain hname hentry
  have hpath : resolvePath w'.files.dir path = some (w.files.add type d (cStr c)).1 := by
    rw [resolvePath_eq h.absolute, h.split, resolve_append, hmono h.front, Option.bind_some, resolve, hfiles,
      entryOf_add_self hdir hplain hname h.entry]
    rfl
  rw [← typeOf_add hdir hbuilt.zero, ← hfiles]
  constructor
  · rintro ⟨⟨ino, hfound, htype⟩, -⟩
    rw [gives_path_iff, hpath] at hfound
    cases hfound
    exact htype
  · intro htype
    refine ⟨⟨_, gives_path_iff.2 hpath, htype⟩, fun other ino hother => ?_⟩
    rw [gives_path_iff] at hother ⊢
    unfold resolvePath at hother ⊢
    split_ifs at hother ⊢ with habsolute
    exact hmono hother

theorem gives_descend (h : Missing w.files path pre c [] d) (createParent : Bool) :
    (NameNode.descend createParent 1 (NameNode.parents path)).Gives (World.table t) w (.ok d) w ∧
      baseName path = c := by
  have hparents := h.parents_eq
  obtain ⟨hpre, hbase⟩ := List.append_inj' hparents rfl
  rw [hpre, ← List.append_nil pre]
  exact ⟨NameNode.gives_descend_append h.front (Prog.gives_pure _ _), List.cons.inj hbase |>.1⟩

/-- The walk fails at the first component that is missing, if it is not the last one. -/
theorem gives_descend_fail (h : Missing w.files path pre c post d) (hpost : post ≠ []) (createParent : Bool) :
    (NameNode.descend createParent 1 (NameNode.parents path)).Gives (World.table t) w
      (.error .traverseFailed) w := by
  obtain ⟨post', last, rfl⟩ := List.eq_nil_or_concat post |>.resolve_left hpost
  have hparents := h.parents_eq
  rw [List.concat_eq_append, ← List.cons_append, ← List.append_assoc] at hparents
  rw [(List.append_inj' hparents rfl).1]
  exact NameNode.gives_descend_append h.front (NameNode.gives_descend_missing t h.dir h.entry)

end Missing

theorem exists_run {α : Type} {p : M α} (hp : p.All fun c => ∃ id, c = .getattr id) (w : World T) :
    ∃ a, p.Exec (World.serve t) w a w := by
  induction p with
  | pure a => exact ⟨a, rfl, rfl⟩
  | call c next ih =>
    obtain ⟨⟨id, rfl⟩, hnext⟩ := hp
    let attr : Attr := ⟨typeOf (w.files id), 0, 0, 0, UInt32.ofNat (text (w.files id)).length⟩
    obtain ⟨a, ha⟩ := ih (.ok, attr) (hnext _)
    exact ⟨a, (.ok, attr), w, ⟨⟨rfl, rfl, rfl, rfl⟩, rfl⟩, ha⟩

theorem exec_pbCreate_new (nn : NameNode D) (habsolute : path.head? = some slash) (hbase : baseName path ≠ [])
    {createParent : Bool} (hwalk : (NameNode.descend createParent 1 (NameNode.parents path)).Gives
      (World.table t) w (.ok d) w) (hnew : w.files.entry? d (cStr (baseName path)) = none)
    (hfree : ∀ id, w.lock id = none) :
    (∃ r w', (nn.pbCreate path createParent).Exec (World.table t) w r w') ∧
      ∀ r w', (nn.pbCreate path createParent).Exec (World.table t) w r w' → (∃ info, r.1 = .ok info) ∧
        w'.files = (w.files.add .file d (cStr (baseName path))).2 := by
  have hlast := NameNode.lastName_eq_baseName habsolute
  have hcreate := NameNode.gives_create hnew hfree t d
  unfold NameNode.pbCreate
  simp only [if_pos habsolute, Prog.exec_bind_of_iff hwalk, hlast, if_neg hbase,
    Prog.exec_bind_of_iff hcreate]
  have hcalls : ∀ ino, (NameNode.pbGetFileInfoFromInum ino).All NotCreate :=
    fun ino => NameNode.all_pbGetFileInfoFromInum (K := NotCreate) ino trivial
  constructor
  · obtain ⟨info, hinfo⟩ := exists_run (t := t) (NameNode.all_pbGetFileInfoFromInum _ ⟨_, rfl⟩) _
    exact ⟨_, _, Prog.exec_bind.2 ⟨info, _, (exec_table (hcalls _)).2 hinfo, rfl, rfl⟩⟩
  · intro r w' hexec
    obtain ⟨info, w₁, hinfo, rfl, rfl⟩ := Prog.exec_bind.1 hexec
    exact ⟨⟨info, rfl⟩, (NameNode.leads_pbGetFileInfoFromInum _ _).result ((exec_table (hcalls _)).1 hinfo)⟩

theorem gives_pbMkdirs_new (habsolute : path.head? = some slash) (hbase : baseName path ≠ [])
    {createParent : Bool} (hwalk : (NameNode.descend createParent 1 (NameNode.parents path)).Gives
      (World.table t) w (.ok d) w) (hnew : w.files.entry? d (cStr (baseName path)) = none)
    (hfree : ∀ id, w.lock id = none) :
    (NameNode.pbMkdirs path createParent).Gives (World.table t) w (.ok true)
      { w with files := (w.files.add .dir d (cStr (baseName path))).2 } := by
  have hlast := NameNode.lastName_eq_baseName habsolute
  have hmkdir := NameNode.gives_mkdir hnew (hfree d) t d
  unfold NameNode.pbMkdirs
  rw [if_pos habsolute]
  apply hwalk.bind
  dsimp only
  rw [hlast, if_neg hbase]
  exact hmkdir.bind (Prog.gives_pure _ _)

theorem gives_of_walk_fail (habsolute : path.head? = some slash) {createParent : Bool} {e : HdfsException}
    (nn : NameNode D) (hwalk : (NameNode.descend createParent 1 (NameNode.parents path)).Gives
      (World.table t) w (.error e) w') :
    (NameNode.pbMkdirs path createParent).Gives (World.table t) w (.error e) w' ∧
      (nn.pbCreate path createParent).Gives (World.table t) w (.error e, nn) w' := by
  unfold NameNode.pbMkdirs NameNode.pbCreate
  rw [if_pos habsolute, if_pos habsolute]
  exact ⟨hwalk.bind (Prog.gives_pure _ _), hwalk.bind (Prog.gives_pure _ _)⟩

/-- A path is made exactly if only its last component is missing and an inode is free. -/
theorem make_path_iff (nn : NameNode D) (hbuilt : WellBuilt w.files) (hfree : ∀ id, w.lock id = none)
    (h : Missing w.files path pre c post d) :
    (MkdirsMakes t w path ↔ post = [] ∧ w.files.firstFree ≠ none) ∧
      (CreateMakes t nn w path ↔ post = [] ∧ w.files.firstFree ≠ none) := by
  by_cases hpost : post = []
  · subst hpost
    rw [and_iff_right rfl]
    obtain ⟨hwalk, rfl⟩ := h.gives_descend (t := t) true
    have hnew : w.files.entry? d (cStr (baseName path)) = none := Option.map_eq_none_iff.1 h.entry
    have hmkdirs := gives_pbMkdirs_new h.absolute h.base hwalk hnew hfree
    obtain ⟨hruns, hcreate⟩ := exec_pbCreate_new nn h.absolute h.base hwalk hnew hfree
    constructor
    · constructor
      · intro hmakes
        exact (h.made_iff hbuilt .dir rfl).1 (hmakes.2 _ _ hmkdirs.exec).2
      · intro hroom
        refine ⟨⟨_, _, hmkdirs.exec⟩, fun r w' hexec => ?_⟩
        obtain ⟨rfl, rfl⟩ := (hmkdirs r w').1 hexec
        exact ⟨rfl, (h.made_iff hbuilt .dir rfl).2 hroom⟩
    · constructor
      · intro hmakes
        obtain ⟨r, w', hexec⟩ := hruns
        exact (h.made_iff hbuilt .file (hcreate r w' hexec).2).1 (hmakes.2 r w' hexec).2
      · intro hroom
        refine ⟨hruns, fun r w' hexec => ?_⟩
        obtain ⟨hinfo, hfiles⟩ := hcreate r w' hexec
        exact ⟨hinfo, (h.made_iff hbuilt .file hfiles).2 hroom⟩
  · obtain ⟨hmkdirs, hcreate⟩ := gives_of_walk_fail h.absolute nn (h.gives_descend_fail (t := t) hpost true)
    refine ⟨iff_of_false (fun hmakes => ?_) (fun hroom => hpost hroom.1),
      iff_of_false (fun hmakes => ?_) (fun hroom => hpost hroom.1)⟩
    · cases (hmakes.2 _ _ hmkdirs.exec).1
    · obtain ⟨info, hok⟩ := (hmakes.2 _ _ hcreate.exec).1
      cases hok

end

private theorem wellBuilt_twoLevels : WellBuilt twoLevels.files where
  texts := by
    intro id text hdir
    rw [Files.dir_eq_some] at hdir
    simp only [twoLevels] at hdir
    split_ifs at hdir
    · cases hdir
      exact ⟨_, rfl, by simp [semi]⟩
    · cases hdir
      exact ⟨_, rfl, by simp [semi]⟩
    · have htype : FileType.file.code = FileType.dir.code := congrArg Prod.fst (Option.some.inj hdir)
      exact absurd htype (by decide)
  zero := rfl

/-- `/d/b`, in a directory that is there. -/
theorem make_path_iff_nested : Missing twoLevels.files [slash, 100, slash, 98] [[100]] [98] [] 2 ∧
    MkdirsMakes () twoLevels [slash, 100, slash, 98] ∧
    CreateMakes () (NameNode.init ℕ) twoLevels [slash, 100, slash, 98] := by
  have hmissing : Missing twoLevels.files [slash, 100, slash, 98] [[100]] [98] [] 2 :=
    ⟨rfl, by decide, by decide, by decide, by decide, by decide, by decide⟩
  have hroom : twoLevels.files.firstFree ≠ none := by decide +kernel
  obtain ⟨hmkdirs, hcreate⟩ :=
    make_path_iff (t := ()) (NameNode.init ℕ) wellBuilt_twoLevels (fun _ => rfl) hmissing
  exact ⟨hmissing, hmkdirs.2 ⟨rfl, hroom⟩, hcreate.2 ⟨rfl, hroom⟩⟩

/-- `/a/b` in an empty root directory: the missing `a` ends the walk. -/
theorem make_path_inner_missing : Missing emptyRoot.files [slash, 97, slash, 98] [] [97] [[98]] 1 ∧
    (NameNode.pbMkdirs [slash, 97, slash, 98] true).Exec (World.table ()) emptyRoot (.error .traverseFailed)
      emptyRoot ∧ ¬MkdirsMakes () emptyRoot [slash, 97, slash, 98] := by
  have hmissing : Missing emptyRoot.files [slash, 97, slash, 98] [] [97] [[98]] 1 :=
    ⟨rfl, by decide, by decide, by decide, rfl, rfl, rfl⟩
  have hwalk := hmissing.gives_descend_fail (t := ()) (List.cons_ne_nil _ _) true
  have hrun := (gives_of_walk_fail rfl (NameNode.init ℕ) hwalk).1.exec
  refine ⟨hmissing, hrun, fun hmakes => ?_⟩
  cases (hmakes.2 _ _ hrun).1

end Yfs.Hdfs
