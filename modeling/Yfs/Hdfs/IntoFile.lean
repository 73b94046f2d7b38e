import Yfs.Hdfs.MakePath

/-! Requests for an entry in something that is not a directory. -/
namespace Yfs.Hdfs
open Yfs.Lib Yfs.Extent Yfs.Client

def Longer (files files' : Files) : Prop := ∀ id, (text (files id)).length ≤ (text (files' id)).length

section
variable {files files' files'' : Files} {parent f : UInt64} {name : Str} {type : FileType}

theorem Longer.trans (h : Longer files files') (h' : Longer files' files'') : Longer files files'' :=
  fun id => (h id).trans (h' id)

theorem length_lt_addEntry (dirList : Str) (e : Str × Str) :
    dirList.length < (addEntry dirList e).length := by
  have hentry := length_entry e
  unfold addEntry
  split_ifs with hnil
  · rw [hnil, List.length_nil]
    omega
  · rw [List.length_append, List.length_cons]
    omega

theorem text_enter (h : files f ≠ none) (e : Str × Str) :
    text (files.enter f e f) = addEntry (text (files f)) e := by
  obtain ⟨file, hfile⟩ := Option.ne_none_iff_exists'.1 h
  rw [Files.enter, Files.put, Function.update_self, hfile]
  rfl

theorem longer_enter (files : Files) (parent : UInt64) (e : Str × Str) :
    Longer files (files.enter parent e) := by
  intro id
  by_cases hid : id = parent
  · subst hid
    cases hfile : files id with
    | none => exact Nat.zero_le _
    | some file =>
      rw [← hfile, text_enter (by rw [hfile]; exact Option.some_ne_none file)]
      exact (length_lt_addEntry _ e).le
  · rw [Files.enter, Files.put, Function.update_of_ne hid]

private theorem longer_alloc (files : Files) (type : UInt32) : Longer files (files.alloc type).2 := by
  intro id
  unfold Files.alloc
  cases hfree : files.firstFree with
  | none => exact le_rfl
  | some ino =>
    by_cases hid : id = ino
    · rw [hid, Files.dead_of_firstFree hfree]
      exact Nat.zero_le _
    · dsimp only
      rw [Function.update_of_ne hid]

theorem longer_add (files : Files) (type : FileType) (parent : UInt64) (name : Str) :
    Longer files (files.add type parent name).2 :=
  (longer_alloc files type.code).trans (longer_enter _ parent _)

private theorem alloc_of_live (h : files f ≠ none) (type : UInt32) : (files.alloc type).2 f = files f := by
  unfold Files.alloc
  cases hfree : files.firstFree with
  | none => rfl
  | some ino =>
    have hne : f ≠ ino := fun heq => h (heq ▸ Files.dead_of_firstFree hfree)
    exact Function.update_of_ne hne _ _

theorem entry_of_nonDir (h : files.dir f = none) (name : Str) : files.entry? f name = none := by
  rw [Files.entry?, h]
  rfl

theorem length_lt_add (h : files f ≠ none) (type : FileType) (name : Str) :
    (text (files f)).length < (text ((files.add type f name).2 f)).length := by
  have hsame := alloc_of_live h type.code
  rw [Files.add]
  dsimp only
  rw [text_enter (by rw [hsame]; exact h), hsame]
  exact length_lt_addEntry _ _

end

namespace NameNode
section
variable {T D : Type} {t : T} {w : World T} {ino : UInt64}

theorem gives_mkdir_longer (hfree : ∀ id, w.lock id = none) (t : T) (parent : UInt64) (name : Str)
    (out : UInt64) :
    ∃ r files', (mkdir parent name out).Gives (World.table t) w r ⟨files', w.lock⟩ ∧
      Longer w.files files' := by
  cases hentry : w.files.entry? parent (cStr name) with
  | none => exact ⟨_, _, gives_mkdir hentry (hfree parent) t out, longer_add _ _ _ _⟩
  | some e =>
    have hcall : (Maker.mkdir.call parent (cStr name) out).Gives (World.table t) w _ w :=
      gives_maker_exist hentry (hfree parent) t out
    exact ⟨_, _, hcall.bind (Prog.gives_pure _ _), fun _ => le_rfl⟩

theorem gives_create_longer (hfree : ∀ id, w.lock id = none) (t : T) (parent : UInt64) (name : Str)
    (out : UInt64) :
    ∃ r w', (create parent name out).Gives (World.table t) w r w' ∧ Longer w.files w'.files := by
  cases hentry : w.files.entry? parent (cStr name) with
  | none => exact ⟨_, _, gives_create hentry hfree t out, longer_add _ _ _ _⟩
  | some e =>
    have hcall : (Maker.create.call parent (cStr name) out).Gives (World.table t) w _ w :=
      gives_maker_exist hentry (hfree parent) t out
    exact ⟨_, _, hcall.bind (Prog.gives_pure _ _), fun _ => le_rfl⟩

theorem gives_descend_nonDir {c : Str} {l : List Str} (t : T) (hdir : w.files.dir ino = none) :
    (descend false ino (c :: l)).Gives (World.table t) w (.error .parentNotExists) w := by
  have hlookup := gives_lookup t w ino (cStr c) false ino
  rw [lookup_eq, hdir] at hlookup
  exact hlookup.bind (Prog.gives_pure _ _)

theorem gives_descend_enter {c : Str} {l : List Str} {r : Except HdfsException UInt64} {w' : World T}
    (hfree : w.lock ino = none) (hdir : w.files.dir ino = none)
    (hrest : (descend true (w.files.add .dir ino (cStr c)).1 l).Gives (World.table t)
      { w with files := (w.files.add .dir ino (cStr c)).2 } r w') :
    (descend true ino (c :: l)).Gives (World.table t) w r w' := by
  have hlookup := gives_lookup t w ino (cStr c) false ino
  rw [lookup_eq, hdir] at hlookup
  exact hlookup.bind ((gives_mkdir (entry_of_nonDir hdir (cStr c)) hfree t ino).bind hrest)

/-- The walk of `PBMkdirs` and `PBCreate` can only add bytes. -/
theorem gives_descend_longer (hfree : ∀ id, w.lock id = none) (t : T) (ino : UInt64) (l : List Str) :
    ∃ r files', (descend true ino l).Gives (World.table t) w r ⟨files', w.lock⟩ ∧ Longer w.files files' := by
  induction l generalizing w ino with
  | nil => exact ⟨_, _, Prog.gives_pure _ _, fun _ => le_rfl⟩
  | cons c l ih =>
    cases hentry : entryOf (w.files.dir ino) (cStr c) with
    | some next =>
      obtain ⟨r, files', hrest, hlonger⟩ := ih hfree next
      have hfound : resolve w.files.dir ino [c] = some next := by rw [resolve, hentry]; rfl
      exact ⟨r, files', gives_descend_append hfound hrest, hlonger⟩
    | none =>
      cases hdir : w.files.dir ino with
      | some text =>
        have hmissing : (descend true ino (c :: l)).Gives (World.table t) w _ w :=
          gives_descend_missing t (hdir ▸ rfl) hentry
        exact ⟨_, _, hmissing, fun _ => le_rfl⟩
      | none =>
        obtain ⟨r, files', hrest, hlonger⟩ := ih (w := { w with files := (w.files.add .dir ino (cStr c)).2 })
          hfree (w.files.add .dir ino (cStr c)).1
        exact ⟨r, files', gives_descend_enter (hfree ino) hdir hrest, (longer_add _ _ _ _).trans hlonger⟩

end
end NameNode

/-- A component before the last one of an absolute path leads to a regular file. -/
def InnerFile (files : Files) (path : Str) : Prop :=
  path.head? = some slash ∧ ∃ front post f content, names path = front ++ post ∧ front ≠ [] ∧ post ≠ [] ∧
    resolve files.dir 1 front = some f ∧ files f = some (FileType.file.code, content)

inductive EntryRequest where
  | client (maker : Maker) (parent : UInt64) (name : Str) (out : UInt64)
  | pbMkdirs (src : Str) (createParent : Bool)
  | pbCreate (src : Str) (createParent : Bool)

namespace EntryRequest

def call {D : Type} (nn : NameNode D) : EntryRequest → M Bool
  | .client maker parent name out => do
    let (r, _) ← maker.call parent name out
    pure (r = .ok)
  | .pbMkdirs src createParent => do
    let r ← NameNode.pbMkdirs src createParent
    pure r.isOk
  | .pbCreate src createParent => do
    let (r, _) ← nn.pbCreate src createParent
    pure r.isOk

/-- The name is to be entered into something that is not a directory. -/
def IntoFile (files : Files) : EntryRequest → Prop
  | .client _ parent _ _ => files.dir parent = none
  | .pbMkdirs src _ => InnerFile files src
  | .pbCreate src _ => InnerFile files src

/-- No success is reported, and all inodes stay as they are. -/
def Refused {T D : Type} (t : T) (nn : NameNode D) (w : World T) (request : EntryRequest) : Prop :=
  (∃ r w', (request.call nn).Exec (World.table t) w r w') ∧
    ∀ r w', (request.call nn).Exec (World.table t) w r w' → r = false ∧ w'.files = w.files

/-- A directory of the path is missing and not to be made. -/
def Stops (files : Files) : EntryRequest → Prop
  | .client _ _ _ _ => False
  | .pbMkdirs src createParent => createParent = false ∧ resolve files.dir 1 (NameNode.parents src) = none
  | .pbCreate src createParent => createParent = false ∧ resolve files.dir 1 (NameNode.parents src) = none

end EntryRequest

section
variable {T D : Type} {t : T} {w : World T} {path : Str}

theorem resolve_of_nonDir {dir : UInt64 → Option Str} {f : UInt64} (h : dir f = none) (l : List Str) :
    resolve dir f l = none ↔ l ≠ [] := by
  cases l with
  | nil => simp [resolve]
  | cons c l => simp [resolve, h, entryOf]

theorem InnerFile.walk (h : InnerFile w.files path) : ∃ f front post, w.files f ≠ none ∧
    w.files.dir f = none ∧ resolve w.files.dir 1 front = some f ∧ NameNode.parents path = front ++ post ∧
    (post = [] → baseName path ≠ []) := by
  obtain ⟨habsolute, front, post, f, content, hsplit, -, hpost, hfront, hfile⟩ := h
  have hlive : w.files f ≠ none := by rw [hfile]; exact Option.some_ne_none _
  have hdir : w.files.dir f = none := by rw [Files.dir, hfile]; rfl
  rw [NameNode.names_eq_parents habsolute] at hsplit
  split_ifs at hsplit with hbase
  · rw [List.append_nil] at hsplit
    exact ⟨f, front, post, hlive, hdir, hfront, hsplit, fun hnil => absurd hnil hpost⟩
  · obtain ⟨post', last, rfl⟩ := List.eq_nil_or_concat post |>.resolve_left hpost
    rw [List.concat_eq_append, ← List.append_assoc] at hsplit
    exact ⟨f, front, post', hlive, hdir, hfront, (List.append_inj' hsplit rfl).1, fun _ => hbase⟩

theorem exec_inParent_longer {α : Type} {fail : HdfsException → α} {body : UInt64 → M α}
    (habsolute : path.head? = some slash) {r : Except HdfsException UInt64} {files : Files}
    (hwalk : (NameNode.descend true 1 (NameNode.parents path)).Gives (World.table t) w r ⟨files, w.lock⟩)
    (hbody : ∀ parent, ∃ r w', (body parent).Exec (World.table t) ⟨files, w.lock⟩ r w' ∧
      Longer files w'.files) :
    ∃ r w', (NameNode.inParent path true fail body).Exec (World.table t) w r w' ∧ Longer files w'.files := by
  unfold NameNode.inParent
  rw [if_pos habsolute]
  simp only [Prog.exec_bind_of_iff hwalk]
  cases r with
  | error e => exact ⟨_, _, Prog.exec_pure.2 ⟨rfl, rfl⟩, fun _ => le_rfl⟩
  | ok parent =>
    dsimp only
    split_ifs
    · exact ⟨_, _, Prog.exec_pure.2 ⟨rfl, rfl⟩, fun _ => le_rfl⟩
    · exact hbody parent

theorem exec_pbMkdirs_longer (habsolute : path.head? = some slash) (hfree : ∀ id, w.lock id = none)
    {r : Except HdfsException UInt64} {files : Files}
    (hwalk : (NameNode.descend true 1 (NameNode.parents path)).Gives (World.table t) w r ⟨files, w.lock⟩) :
    ∃ r w', (NameNode.pbMkdirs path true).Exec (World.table t) w r w' ∧ Longer files w'.files := by
  rw [NameNode.pbMkdirs_eq_inParent]
  refine exec_inParent_longer habsolute hwalk fun parent => ?_
  obtain ⟨r, files', hmkdir, hlonger⟩ := NameNode.gives_mkdir_longer
    (w := ⟨files, w.lock⟩) hfree t parent (NameNode.lastName path) parent
  simp only [Prog.exec_bind_of_iff hmkdir]
  split_ifs
  · exact ⟨_, _, Prog.exec_pure.2 ⟨rfl, rfl⟩, hlonger⟩
  · exact ⟨_, _, Prog.exec_pure.2 ⟨rfl, rfl⟩, hlonger⟩

theorem exec_pbCreate_longer (nn : NameNode D) (habsolute : path.head? = some slash)
    (hfree : ∀ id, w.lock id = none) {r : Except HdfsException UInt64} {files : Files}
    (hwalk : (NameNode.descend true 1 (NameNode.parents path)).Gives (World.table t) w r ⟨files, w.lock⟩) :
    ∃ r w', (nn.pbCreate path true).Exec (World.table t) w r w' ∧ Longer files w'.files := by
  rw [NameNode.pbCreate_eq_inParent]
  refine exec_inParent_longer habsolute hwalk fun parent => ?_
  obtain ⟨r, w₁, hcreate, hlonger⟩ := NameNode.gives_create_longer
    (w := ⟨files, w.lock⟩) hfree t parent (NameNode.lastName path) parent
  simp only [Prog.exec_bind_of_iff hcreate]
  split_ifs
  · have hcalls := NameNode.all_pbGetFileInfoFromInum (K := NotCreate) r.2 trivial
    obtain ⟨info, hinfo⟩ := exists_run (t := t) (NameNode.all_pbGetFileInfoFromInum r.2 ⟨r.2, rfl⟩) w₁
    exact ⟨_, w₁, Prog.exec_bind.2 ⟨info, w₁, (exec_table hcalls).2 hinfo, rfl, rfl⟩, hlonger⟩
  · exact ⟨_, _, Prog.exec_pure.2 ⟨rfl, rfl⟩, hlonger⟩

private theorem refused_of_gives {nn : NameNode D} {request : EntryRequest}
    (h : (request.call nn).Gives (World.table t) w false w) : request.Refused t nn w := by
  refine ⟨⟨false, w, h.exec⟩, fun r w' hrun => ?_⟩
  obtain ⟨rfl, rfl⟩ := (h r w').1 hrun
  exact ⟨rfl, rfl⟩

namespace InnerFile

theorem refused_iff (h : InnerFile w.files path) (nn : NameNode D) (hfree : ∀ id, w.lock id = none)
    (createParent : Bool) :
    ((EntryRequest.pbMkdirs path createParent).Refused t nn w ↔
      createParent = false ∧ resolve w.files.dir 1 (NameNode.parents path) = none) ∧
    ((EntryRequest.pbCreate path createParent).Refused t nn w ↔
      createParent = false ∧ resolve w.files.dir 1 (NameNode.parents path) = none) := by
  have habsolute := h.1
  obtain ⟨f, front, post, hlive, hdir, hfront, hparents, hbase⟩ := h.walk
  rw [hparents, resolve_append, hfront, Option.bind_some, resolve_of_nonDir hdir]
  cases post with
  | nil =>
    -- the name goes right into the file
    have hwalk : (NameNode.descend createParent 1 (NameNode.parents path)).Gives (World.table t) w
        (.ok f) w := hparents ▸ NameNode.gives_descend_append hfront (Prog.gives_pure _ _)
    have hnew := entry_of_nonDir hdir (cStr (baseName path))
    have hmkdirs := (gives_pbMkdirs_new habsolute (hbase rfl) hwalk hnew hfree).exec
    obtain ⟨⟨r, w', hcreate⟩, hok⟩ := exec_pbCreate_new nn habsolute (hbase rfl) hwalk hnew hfree
    obtain ⟨⟨info, hinfo⟩, -⟩ := hok r w' hcreate
    refine ⟨iff_of_false (fun href => ?_) (fun hstop => hstop.2 rfl),
      iff_of_false (fun href => ?_) (fun hstop => hstop.2 rfl)⟩
    · cases (href.2 _ _ (Prog.exec_bind.2 ⟨_, _, hmkdirs, rfl, rfl⟩)).1
    · have hfalse := (href.2 _ _ (Prog.exec_bind.2 ⟨_, _, hcreate, rfl, rfl⟩)).1
      rw [hinfo] at hfalse
      cases hfalse
  | cons c post =>
    cases createParent with
    | false =>
      have hwalk : (NameNode.descend false 1 (NameNode.parents path)).Gives (World.table t) w _ w :=
        hparents ▸ NameNode.gives_descend_append hfront (NameNode.gives_descend_nonDir t hdir)
      obtain ⟨hmkdirs, hcreate⟩ := gives_of_walk_fail habsolute nn hwalk
      have hpost : c :: post ≠ [] := List.cons_ne_nil c post
      exact ⟨iff_of_true (refused_of_gives (hmkdirs.bind (Prog.gives_pure _ _))) ⟨rfl, hpost⟩,
        iff_of_true (refused_of_gives (hcreate.bind (Prog.gives_pure _ _))) ⟨rfl, hpost⟩⟩
    | true =>
      -- the missing directory is made in the file
      obtain ⟨r, files, hrest, hlonger⟩ := NameNode.gives_descend_longer (t := t)
        (w := { w with files := (w.files.add .dir f (cStr c)).2 }) hfree (w.files.add .dir f (cStr c)).1 post
      have hwalk : (NameNode.descend true 1 (NameNode.parents path)).Gives (World.table t) w r
          ⟨files, w.lock⟩ := hparents ▸
        NameNode.gives_descend_append hfront (NameNode.gives_descend_enter (hfree f) hdir hrest)
      have hgrown : (text (w.files f)).length < (text (files f)).length :=
        (length_lt_add hlive .dir (cStr c)).trans_le (hlonger f)
      obtain ⟨r₁, w₁, hmkdirs, hlonger₁⟩ := exec_pbMkdirs_longer habsolute hfree hwalk
      obtain ⟨r₂, w₂, hcreate, hlonger₂⟩ := exec_pbCreate_longer nn habsolute hfree hwalk
      refine ⟨iff_of_false (fun href => ?_) (fun hstop => Bool.noConfusion hstop.1),
        iff_of_false (fun href => ?_) (fun hstop => Bool.noConfusion hstop.1)⟩
      · have hsame := (href.2 _ _ (Prog.exec_bind.2 ⟨_, _, hmkdirs, rfl, rfl⟩)).2
        exact (hgrown.trans_le (hlonger₁ f)).ne (by rw [hsame])
      · have hsame := (href.2 _ _ (Prog.exec_bind.2 ⟨_, _, hcreate, rfl, rfl⟩)).2
        exact (hgrown.trans_le (hlonger₂ f)).ne (by rw [hsame])

end InnerFile

/-- An entry in a non-directory is refused only where a directory on the way is missing and not to be made. -/
theorem entry_refused_iff (nn : NameNode D) (hfree : ∀ id, w.lock id = none) {request : EntryRequest}
    (h : request.IntoFile w.files) : request.Refused t nn w ↔ request.Stops w.files := by
  cases request with
  | client maker parent name out =>
    have hnew := entry_of_nonDir h (maker.key name)
    have hcall := (gives_maker hnew (hfree parent) t out).exec
    refine iff_of_false (fun href => ?_) id
    cases (href.2 _ _ (Prog.exec_bind.2 ⟨_, _, hcall, rfl, rfl⟩)).1
  | pbMkdirs src createParent => exact (InnerFile.refused_iff h nn hfree createParent).1
  | pbCreate src createParent => exact (InnerFile.refused_iff h nn hfree createParent).2

end

/-- `/a/b/c`, where `a` is a file, without `createparent`. -/
def stopsAtB : EntryRequest := .pbMkdirs [slash, 97, slash, 98, slash, 99] false

theorem entry_refused_iff_stops : stopsAtB.IntoFile (rootOf [([97], 2)]).files ∧
    stopsAtB.Refused () (NameNode.init ℕ) (rootOf [([97], 2)]) := by
  have hinto : stopsAtB.IntoFile (rootOf [([97], 2)]).files :=
    ⟨rfl, [[97]], [[98], [99]], 2, [], by decide, by decide, by decide, by decide, rfl⟩
  have hstops : stopsAtB.Stops (rootOf [([97], 2)]).files := ⟨rfl, by decide⟩
  exact ⟨hinto, (entry_refused_iff (NameNode.init ℕ) (fun _ => rfl) hinto).2 hstops⟩

/-- The file `a` gets the entry `b;3`. -/
theorem create_enters_file : (rootOf [([97], 2)]).files.dir 2 = none ∧
    (∃ w', (create 2 [98] 0).Exec (World.table ()) (rootOf [([97], 2)]) (.ok, 3) w' ∧
      text (w'.files 2) = [98, semi, 51] ∧ w'.files 3 = some (FileType.file.code, [])) ∧
    ¬(EntryRequest.client .create 2 [98] 0).Refused () (NameNode.init ℕ) (rootOf [([97], 2)]) := by
  have hnew : Files.entry? (rootOf [([97], 2)]).files 2 (Maker.create.key [98]) = none := rfl
  have hcall := (gives_maker hnew rfl () 0).exec
  have hfree : (rootOf [([97], 2)]).files.firstFree = some 3 := by decide
  rw [Maker.enter, add_of_some hfree] at hcall
  refine ⟨rfl, ⟨_, hcall, ?_, rfl⟩, fun href => ?_⟩
  · rw [text_enter (Option.some_ne_none _)]
    decide
  · cases (href.2 _ _ (Prog.exec_bind.2 ⟨_, _, hcall, rfl, rfl⟩)).1

end Yfs.Hdfs
