import Yfs.Client.Tree
import Yfs.Hdfs.Making
import Yfs.Hdfs.Names

/-! The requests of the namenode keep the directories free of cycles, and what is not deleted
reachable, as long as nothing is moved below itself and the text edits hit the entry that is meant. -/
namespace Yfs.Hdfs
open Yfs.Lib Yfs.Extent Yfs.Client Relation

/-- The requests that change the namespace. -/
inductive PathOp where
  | pbMkdirs (src : Str) (createParent : Bool)
  | pbCreate (src : Str) (createParent : Bool)
  | pbDelete (depth : ℕ) (src : Str) (recursive : Bool)
  | pbRename (src dst : Str)

def ValidPath (path : Str) : Prop := path.head? = some slash ∧ semi ∉ path

namespace PathOp
variable {D : Type}

def call (nn : NameNode D) : PathOp → M (NameNode D)
  | .pbMkdirs src createParent => do
    let _ ← NameNode.pbMkdirs src createParent
    pure nn
  | .pbCreate src createParent => do
    let (_, nn) ← nn.pbCreate src createParent
    pure nn
  | .pbDelete depth src recursive => do
    let _ ← NameNode.pbDelete depth src recursive
    pure nn
  | .pbRename src dst => do
    let _ ← NameNode.pbRename src dst
    pure nn

def Valid : PathOp → Prop
  | .pbMkdirs src _ | .pbCreate src _ | .pbDelete _ src _ => ValidPath src
  | .pbRename src dst => ValidPath src ∧ ValidPath dst

end PathOp

/-- The entry of that name is the last one. -/
def LastEntry (dirList name : Str) : Prop :=
  ((entries dirList).takeWhile fun e => e.1 ≠ name).length + 1 = (entries dirList).length

/-- `Unlink(parent, name)` cuts out the entry that it finds. -/
def UnlinkHits (files : Files) (parent : UInt64) (name : Str) : Prop :=
  files.entry? parent name ≠ none →
    FindsOwn (text (files parent)) name ∧ (text (files parent)).length < 2 ^ 64

/-- `Rename` cuts out the entry that it finds, and puts it into a directory that is not below it. -/
def RenameHits (files : Files) (srcDir : UInt64) (srcName : Str) (dstDir : UInt64) : Prop :=
  ∀ e, files.entry? srcDir srcName = some e →
    FindsOwn (text (files srcDir)) srcName ∧ LastEntry (text (files srcDir)) srcName ∧
      (text (files srcDir)).length < 2 ^ 32 - 1 ∧ files.dir dstDir ≠ none ∧
        ¬ReflTransGen files.Child (n2i e.2) dstDir

/-- The requests that keep the namespace free of cycles. -/
def PathOp.Careful (files : Files) : PathOp → Prop
  | .pbMkdirs src _ | .pbCreate src _ => (0 : UInt8) ∉ src
  | .pbDelete _ src _ => (0 : UInt8) ∉ src ∧
      ∀ ino parent, resolveLast files.dir 1 1 (NameNode.components src) = some (ino, parent) →
        UnlinkHits files parent (baseName src)
  | .pbRename src dst => (0 : UInt8) ∉ src ∧ (0 : UInt8) ∉ dst ∧ baseName dst ≠ [] ∧
      ∀ srcDir dstDir, resolvePath files.dir (upToSlash (stripSlashes src)) = some srcDir →
        resolvePath files.dir (upToSlash (stripSlashes dst)) = some dstDir →
          RenameHits files srcDir (baseName src) dstDir

/-- One request, on the namenode and the files. -/
def PathStep {D : Type} (ok : Files → PathOp → Prop) (s s' : NameNode D × World Unit) : Prop :=
  ∃ op : PathOp, op.Valid ∧ ok s.2.files op ∧ (op.call s.1).Exec (World.serve ()) s.2 s'.1 s'.2

section
variable {files : Files} {path : Str}

theorem neatName_of_mem_splitOn {c : Str} (hsemi : semi ∉ path) (hzero : (0 : UInt8) ∉ path) (hne : c ≠ [])
    (h : c ∈ (path.drop 1).splitOn slash) : NeatName c := by
  have hsub : c ⊆ path := fun x hx => List.mem_of_mem_drop (subset_of_mem_splitOn h hx)
  exact ⟨hne, fun hmem => hsemi (hsub hmem), fun hmem => hzero (hsub hmem)⟩

theorem neatName_of_mem_parents {c : Str} (hsemi : semi ∉ path) (hzero : (0 : UInt8) ∉ path)
    (h : c ∈ NameNode.parents path) : NeatName c := by
  obtain ⟨hmem, hne⟩ := List.mem_filter.1 h
  exact neatName_of_mem_splitOn hsemi hzero (of_decide_eq_true hne) (List.dropLast_subset _ hmem)

theorem neatName_lastName (hsemi : semi ∉ path) (hzero : (0 : UInt8) ∉ path)
    (hne : NameNode.lastName path ≠ []) : NeatName (NameNode.lastName path) := by
  refine neatName_of_mem_splitOn hsemi hzero hne ?_
  rw [NameNode.lastName, getLast?_splitOn, Option.getD_some]
  exact List.mem_of_getLast? (getLast?_splitOn _)

theorem child_of_entryOf {dir ino : UInt64} {name : Str} (h : entryOf (files.dir dir) name = some ino) :
    files.Child dir ino := by
  obtain ⟨e, hentry, rfl⟩ := Option.map_eq_some_iff.1 h
  obtain ⟨dirList, hdir, hfind⟩ := Option.bind_eq_some_iff.1 hentry
  rw [Files.Child, Files.children, Files.listing, hdir, Option.getD_some, List.map_map]
  exact List.mem_map_of_mem (List.mem_of_find?_eq_some hfind)

theorem below_of_resolve {ino ino' : UInt64} {l : List Str} (h : resolve files.dir ino l = some ino') :
    ReflTransGen files.Child ino ino' := by
  induction l generalizing ino with
  | nil =>
    cases h
    exact .refl
  | cons c l ih =>
    obtain ⟨next, hentry, hrest⟩ := Option.bind_eq_some_iff.1 h
    exact .head (child_of_entryOf hentry) (ih hrest)

theorem reach_of_resolvePath {ino : UInt64} (h : resolvePath files.dir path = some ino) :
    Reach files ino := by
  unfold resolvePath at h
  split_ifs at h
  exact below_of_resolve h

theorem orderly_added {type : FileType} {parent : UInt64} {name : Str} {r : YfsStatus × UInt64}
    {files' : Files} (h : Orderly files) (hparent : parent ∈ files.live) (hname : NeatName name)
    (hadded : Added files type parent (cStr name) r files') :
    Orderly files' ∧ Grows files files' ∧ (r.1 = .ok → r.2 ∈ files'.live) := by
  rw [cStr_eq_self hname.2.2] at hadded
  rcases hadded with ⟨_, _, hexist, rfl⟩ | ⟨_, hfree, _, rfl⟩
  · refine ⟨h, Grows.refl _, fun hok => ?_⟩
    rw [hexist] at hok
    cases hok
  · obtain ⟨horderly, hgrows, hlive⟩ := h.add hparent hname hfree type
    exact ⟨horderly, hgrows, fun _ => hlive⟩

namespace NameNode

theorem leads_descend (createParent : Bool) {ino : UInt64} {l : List Str} (h : Orderly files)
    (hino : ino ∈ files.live) (hl : ∀ c ∈ l, NeatName c) :
    Leads (fun r files' => Orderly files' ∧ Grows files files' ∧ ∀ parent, r = .ok parent →
      parent ∈ files'.live) (descend createParent ino l) files := by
  induction l generalizing files ino with
  | nil =>
    refine Prog.wp_pure ⟨h, Grows.refl files, fun parent heq => ?_⟩
    cases heq
    exact hino
  | cons c l ih =>
    have hneat := hl c List.mem_cons_self
    have hrest := fun c' hc' => hl c' (List.mem_cons_of_mem c hc')
    have hstop : ∀ e : HdfsException, Orderly files ∧ Grows files files ∧
        ∀ parent, (Except.error e : Except HdfsException UInt64) = .ok parent → parent ∈ files.live := by
      refine fun e => ⟨h, Grows.refl files, fun parent heq => ?_⟩
      cases heq
    refine (leads_nlockLookup files ino (cStr c) ino).bind_returns ?_
    rw [Files.lookup]
    cases hentry : files.entry? ino (cStr c) with
    | some e =>
      have hchild : files.Child ino (n2i e.2) :=
        child_of_entryOf (show entryOf (files.dir ino) (cStr c) = some (n2i e.2) from congrArg _ hentry)
      exact ih h (h.forest.mem_live ino _ hchild) hrest
    | none =>
      dsimp only
      by_cases hdir : (files.dir ino).isSome = true
      · rw [if_pos hdir, if_pos (by decide)]
        exact Prog.wp_pure (hstop .traverseFailed)
      · rw [if_neg hdir, if_neg (by decide), if_neg Bool.false_ne_true]
        cases createParent with
        | false => exact Prog.wp_pure (hstop .parentNotExists)
        | true =>
          -- `ino` is no directory: the component is made there all the same
          refine (leads_mkdir files ino c ino).bind fun r files₁ hr => ?_
          obtain ⟨made, child⟩ := r
          obtain ⟨status, hmade, hadded⟩ := hr
          obtain ⟨horderly, hgrows, hlive⟩ := orderly_added h hino hneat hadded
          cases made with
          | false =>
            refine Prog.wp_pure ⟨horderly, hgrows, fun parent heq => ?_⟩
            cases heq
          | true =>
            have hok : status = .ok := of_decide_eq_true hmade.symm
            refine (ih horderly (hlive hok) hrest).mono fun r files₂ hr => ?_
            obtain ⟨horderly₂, hgrows₂, hlive₂⟩ := hr
            exact ⟨horderly₂, hgrows.trans hgrows₂, hlive₂⟩

/-- The walk keeps the order, and what comes behind it has a name and a parent to work with. -/
theorem leads_inParent {α : Type} {fail : HdfsException → α} {body : UInt64 → M α} (createParent : Bool)
    (h : Orderly files) (hsemi : semi ∉ path) (hzero : (0 : UInt8) ∉ path)
    (hbody : ∀ parent files₁, Orderly files₁ → parent ∈ files₁.live → NeatName (lastName path) →
      Leads (fun _ files' => Orderly files' ∧ Grows files₁ files') (body parent) files₁) :
    Leads (fun _ files' => Orderly files' ∧ Grows files files') (inParent path createParent fail body)
      files := by
  unfold inParent
  by_cases habsolute : path.head? = some slash
  · rw [if_pos habsolute]
    refine (leads_descend createParent h (mem_live_of_dir h.root) fun c hc =>
      neatName_of_mem_parents hsemi hzero hc).bind fun r files₁ hr => ?_
    obtain ⟨h₁, hgrows, hlive⟩ := hr
    cases r with
    | error e => exact Prog.wp_pure ⟨h₁, hgrows⟩
    | ok parent =>
      dsimp only
      split_ifs with hnil
      · exact Prog.wp_pure ⟨h₁, hgrows⟩
      · refine (hbody parent files₁ h₁ (hlive parent rfl) (neatName_lastName hsemi hzero hnil)).mono
          fun _ files₂ hr => ?_
        exact ⟨hr.1, hgrows.trans hr.2⟩
  · rw [if_neg habsolute]
    exact Prog.wp_pure ⟨h, Grows.refl files⟩

theorem leads_pbMkdirs (createParent : Bool) (h : Orderly files) (hsemi : semi ∉ path)
    (hzero : (0 : UInt8) ∉ path) :
    Leads (fun _ files' => Orderly files' ∧ Grows files files') (pbMkdirs path createParent) files := by
  rw [pbMkdirs_eq_inParent]
  refine leads_inParent createParent h hsemi hzero fun parent files₁ h₁ hlive hneat => ?_
  refine (leads_mkdir files₁ parent _ parent).bind fun r files₂ hr => ?_
  obtain ⟨status, -, hadded⟩ := hr
  obtain ⟨h₂, hgrows, -⟩ := orderly_added h₁ hlive hneat hadded
  split_ifs
  · exact Prog.wp_pure ⟨h₂, hgrows⟩
  · exact Prog.wp_pure ⟨h₂, hgrows⟩

theorem leads_pbCreate {D : Type} (nn : NameNode D) (createParent : Bool) (h : Orderly files)
    (hsemi : semi ∉ path) (hzero : (0 : UInt8) ∉ path) :
    Leads (fun _ files' => Orderly files' ∧ Grows files files') (nn.pbCreate path createParent) files := by
  rw [pbCreate_eq_inParent]
  refine leads_inParent createParent h hsemi hzero fun parent files₁ h₁ hlive hneat => ?_
  refine (leads_create files₁ parent _ parent).bind fun r files₂ hr => ?_
  obtain ⟨status, -, hadded⟩ := hr
  obtain ⟨h₂, hgrows, -⟩ := orderly_added h₁ hlive hneat hadded
  split_ifs
  · refine (leads_pbGetFileInfoFromInum files₂ r.2).bind_state fun info => ?_
    exact Prog.wp_pure ⟨h₂, hgrows⟩
  · exact Prog.wp_pure ⟨h₂, hgrows⟩

end NameNode

private theorem eq_nil_of_lastEntry {pre post : List (Str × UInt64)} {e : Str × UInt64}
    (hneat : ∀ a ∈ pre ++ e :: post, NeatName a.1) (hpre : ∀ a ∈ pre, a.1 ≠ e.1)
    (h : LastEntry (lines (pre ++ e :: post)) e.1) : post = [] := by
  rw [LastEntry, entries_lines hneat, List.map_append, List.map_cons,
    List.takeWhile_append_of_pos fun a ha => ?_, List.takeWhile_cons_of_neg (by simp)] at h
  · simp at h
    exact h
  · obtain ⟨a', ha', rfl⟩ := List.mem_map.1 ha
    simpa using hpre a' ha'

theorem orderly_renamed {srcDir dstDir : UInt64} {srcName dstName : Str} {r : Option Bool} {files' : Files}
    (h : Orderly files) (hzero : (0 : UInt8) ∉ srcName) (hname : NeatName dstName) (hdst : Reach files dstDir)
    (hhits : RenameHits files srcDir srcName dstDir)
    (hrenamed : Renamed files srcDir srcName dstDir dstName r files') :
    Orderly files' ∧ Grows files files' := by
  unfold Renamed at hrenamed
  rw [cStr_eq_self hzero] at hrenamed
  cases hentry : files.entry? srcDir srcName with
  | none =>
    rw [hentry] at hrenamed
    rw [hrenamed.2]
    exact ⟨h, Grows.refl files⟩
  | some e' =>
    obtain ⟨hfind, hlast, hlen, hdir, hnot⟩ := hhits e' hentry
    obtain ⟨pre, e, post, hlist, rfl, rfl, hpre⟩ := h.split hentry
    have hneat := h.neat srcDir
    rw [hlist] at hneat
    rw [hentry] at hrenamed
    dsimp only [Option.bind_some] at hrenamed
    rw [FindsOwn, text_of_listing h hlist] at hfind
    rw [text_of_listing h hlist] at hlast hlen hrenamed
    obtain rfl := eq_nil_of_lastEntry hneat hpre hlast
    rw [n2i_filename] at hnot
    rw [renameText_lines hneat hpre hfind hlen, n2i_filename] at hrenamed
    rw [hrenamed.2]
    exact h.move hlist hname hdir hdst hnot

/-- What is left after `RecursiveDelete` of `ino`: all that is not below it, and no entries in it if
it has succeeded. -/
structure Deleted (files : Files) (ino : UInt64) (r : Option Bool) (files' : Files) : Prop where
  orderly : Orderly files'
  shrinks : Shrinks files files'
  outside : ∀ id, ¬ReflTransGen files.Child ino id → files' id = files id
  emptied : r = some true → files'.children ino = []

namespace NameNode

theorem leads_unlink_first {ino : UInt64} {e : Str × UInt64} {l : List (Str × UInt64)} (h : Orderly files)
    (hlist : files.listing ino = [] ++ e :: l) (hleaf : files.children e.2 = []) :
    Leads (fun r files' => r = some true ∧ Orderly files' ∧ Shrinks files files' ∧ files'.listing ino = l ∧
      ∀ id, id ≠ ino → id ≠ e.2 → files' id = files id) (unlink ino e.1) files := by
  have hneat := h.neat ino
  rw [hlist] at hneat
  refine (leads_unlink files ino e.1).mono fun r files' ⟨status, hr, hunlinked⟩ => ?_
  rw [cStr_eq_self (hneat e List.mem_cons_self).2.2] at hunlinked
  have hfind : find (text (files ino)) e.1 0 = some (ownStart (text (files ino)) e.1) := by
    rw [text_of_listing h hlist, ownStart_lines hneat (by simp)]
    exact find_first _ _
  obtain ⟨hstatus, hfiles⟩ := unlinked_eq h hlist (by simp) hfind (.inl rfl) hunlinked
  obtain ⟨horderly, hshrinks⟩ := h.unlink hlist hleaf
  rw [List.nil_append] at hfiles horderly hshrinks
  have hne : ino ≠ e.2 := by
    intro heq
    have hchild : files.Child ino e.2 := by
      rw [Files.Child, children_of_listing hlist]
      exact List.mem_cons_self
    exact h.forest.acyclic ino (.single (heq ▸ hchild))
  rw [hr, hstatus, hfiles]
  refine ⟨rfl, horderly, hshrinks, ?_, fun id hid hid' => ?_⟩
  · rw [Files.listing, Files.dir_drop, if_neg hne, ← Files.listing]
    exact listing_put_self (dir_of_listing hlist) (neat_of_listing h hlist)
  · rw [Files.drop, Function.update_of_ne hid', Files.put, Function.update_of_ne hid]

/-- The loop of `RecursiveDelete`. At each turn the entry is the first one of the directory. -/
theorem leads_deleteEntries {delete : UInt64 → M (Option Bool)}
    (hdelete : ∀ {files} child, Orderly files → Leads (Deleted files child) (delete child) files)
    {ino : UInt64} {l : List (Str × UInt64)} (h : Orderly files) (hlist : files.listing ino = l) :
    Leads (Deleted files ino) (deleteEntries delete ino (l.map fun e => ⟨e.1, e.2⟩)) files := by
  induction l generalizing files with
  | nil =>
    refine Prog.wp_pure ⟨h, Shrinks.refl files, fun _ _ => rfl, fun _ => ?_⟩
    rw [Files.children, hlist]
    rfl
  | cons e l ih =>
    have hchild : files.Child ino e.2 := by
      rw [Files.Child, Files.children, hlist]
      exact List.mem_cons_self
    refine (leads_acquire files e.2).bind_state fun _ => ?_
    refine (hdelete e.2 h).bind fun r₁ files₁ hdel => ?_
    have hfailed : ∀ r, r ≠ some true → Deleted files ino r files₁ := by
      intro r hr
      exact ⟨hdel.orderly, hdel.shrinks, fun id hnot => hdel.outside id fun hbelow =>
        hnot (.head hchild hbelow), fun htrue => absurd htrue hr⟩
    rcases r₁ with - | - | -
    · exact Prog.wp_pure (hfailed none (by decide))
    · refine (leads_release files₁ e.2).bind_state fun _ => ?_
      exact Prog.wp_pure (hfailed _ (by decide))
    · -- the child is gone: its entry is taken out and the rest follows
      have hkeep : files₁ ino = files ino := hdel.outside ino (h.forest.acyclic.not_above hchild)
      have hlist₁ : files₁.listing ino = [] ++ e :: l := by
        rw [listing_congr hkeep, hlist]
        rfl
      refine (leads_unlink_first hdel.orderly hlist₁ (hdel.emptied rfl)).bind fun r₂ files₂ hunlinked => ?_
      obtain ⟨rfl, horderly₂, hshrinks₂, hlist₂, houtside₂⟩ := hunlinked
      refine (leads_release files₂ e.2).bind_state fun _ => ?_
      refine (ih horderly₂ hlist₂).mono fun r files₃ hrest => ?_
      have hshrinks : Shrinks files files₂ := hdel.shrinks.trans hshrinks₂
      refine ⟨hrest.orderly, hshrinks.trans hrest.shrinks, fun id hnot => ?_, hrest.emptied⟩
      rw [hrest.outside id fun hbelow => hnot (ReflTransGen.mono hshrinks.child _ _ hbelow),
        houtside₂ id (fun heq => hnot (heq ▸ .refl)) fun heq => hnot (heq ▸ .single hchild)]
      exact hdel.outside id fun hbelow => hnot (.head hchild hbelow)

theorem leads_recursiveDelete (n : ℕ) (ino : UInt64) (h : Orderly files) :
    Leads (Deleted files ino) (recursiveDelete n ino) files := by
  induction n generalizing files ino with
  | zero =>
    refine Prog.wp_pure ⟨h, Shrinks.refl files, fun _ _ => rfl, fun htrue => ?_⟩
    cases htrue
  | succ n ih =>
    refine (leads_nlockIsdir files ino).bind_at fun isDir hdir => ?_
    cases isDir with
    | false =>
      refine Prog.wp_pure ⟨h, Shrinks.refl files, fun _ _ => rfl, fun _ => ?_⟩
      have hnone : files.dir ino = none := by simpa using hdir.symm
      rw [Files.children, listing_of_none hnone]
      rfl
    | true =>
      refine (leads_readdir files ino).bind fun r _ h' => ?_
      obtain ⟨hr, heq⟩ := h'
      have hlist : ((entries ((files.dir ino).getD [])).map fun e => (⟨e.1, n2i e.2⟩ : Dirent)) =
          (files.listing ino).map fun e => ⟨e.1, e.2⟩ := by
        rw [Files.listing, List.map_map]
        rfl
      rw [heq, hr, hlist]
      exact leads_deleteEntries (fun child h => ih child h) h rfl

end NameNode

/-- What `PBDelete` has looked up is what its `Unlink` finds, unless that finds nothing. -/
def Aimed (files : Files) (src : Str) (ino parent : UInt64) : Prop :=
  UnlinkHits files parent (baseName src) ∧ ∀ e, files.entry? parent (baseName src) = some e → n2i e.2 = ino

theorem aimed_of_outside {src : Str} {ino parent : UInt64} {files₁ : Files} (h : Orderly files)
    (hvalid : ValidPath src) (hzero : (0 : UInt8) ∉ src)
    (hresolve : resolveLast files.dir 1 1 (NameNode.components src) = some (ino, parent))
    (hhits : UnlinkHits files parent (baseName src)) (h₁ : Orderly files₁)
    (houtside : ∀ id, ¬ReflTransGen files.Child ino id → files₁ id = files id) :
    Aimed files₁ src ino parent := by
  by_cases hnil : baseName src = []
  · -- a path that ends with `/`
    have hnone := h₁.entry?_nil parent
    rw [← hnil] at hnone
    refine ⟨fun hlisted => absurd hnone hlisted, fun e hentry => ?_⟩
    rw [hnone] at hentry
    cases hentry
  · have hlast := NameNode.getLast?_components hvalid.1 hnil
    rcases entryOf_of_resolveLast hresolve with ⟨hempty, -⟩ | ⟨c, hc, hentryOf⟩
    · rw [hempty] at hlast
      cases hlast
    · rw [hlast, Option.some.injEq] at hc
      subst hc
      rw [cStr_eq_self fun hmem => hzero (baseName_subset src hmem)] at hentryOf
      have hkeep : files₁ parent = files parent :=
        houtside parent (h.forest.acyclic.not_above (child_of_entryOf hentryOf))
      have hentry₁ : files₁.entry? parent (baseName src) = files.entry? parent (baseName src) := by
        rw [Files.entry?, Files.dir, hkeep, Files.entry?, Files.dir]
      refine ⟨?_, fun e hentry => ?_⟩
      · rw [UnlinkHits, hentry₁, hkeep]
        exact hhits
      · obtain ⟨e', hentry', rfl⟩ := Option.map_eq_some_iff.1 hentryOf
        have hsame : some e = some e' := by rw [← hentry, hentry₁, ← hentry', Files.entry?]
        rw [Option.some.inj hsame]

namespace NameNode

private theorem leads_unlink_aimed {src : Str} {ino parent : UInt64} (h : Orderly files)
    (hzero : (0 : UInt8) ∉ baseName src)
    (haimed : Aimed files src ino parent) (hleaf : files.children ino = []) :
    Leads (fun _ files' => Orderly files' ∧ Shrinks files files') (unlink parent (baseName src)) files := by
  refine (leads_unlink files parent (baseName src)).mono fun r files' ⟨status, _, hunlinked⟩ => ?_
  rw [cStr_eq_self hzero] at hunlinked
  cases hentry : files.entry? parent (baseName src) with
  | none =>
    rw [Unlinked, hentry] at hunlinked
    rw [hunlinked.2]
    exact ⟨h, Shrinks.refl files⟩
  | some e' =>
    obtain ⟨hfind, hlen⟩ := haimed.1 (by rw [hentry]; exact Option.some_ne_none e')
    have htarget := haimed.2 e' hentry
    obtain ⟨pre, e, post, hlist, rfl, hname, hpre⟩ := h.split hentry
    rw [n2i_filename] at htarget
    rw [← hname] at hpre hfind hunlinked
    obtain ⟨-, rfl⟩ := unlinked_eq h hlist hpre hfind (.inr hlen) hunlinked
    exact h.unlink hlist (htarget ▸ hleaf)

private theorem leads_deleteEmpty {src : Str} {ino parent : UInt64} (h : Orderly files)
    (hzero : (0 : UInt8) ∉ baseName src) (haimed : Aimed files src ino parent) :
    Leads (fun _ files' => Orderly files' ∧ Shrinks files files') (deleteEmpty src ino parent) files := by
  refine (leads_nlockIsdir files ino).bind_at fun isDir hdir => ?_
  cases isDir with
  | false =>
    have hnone : files.dir ino = none := by simpa using hdir.symm
    apply leads_unlink_aimed h hzero haimed
    rw [Files.children, listing_of_none hnone]
    rfl
  | true =>
    refine (leads_readdir files ino).bind_returns ?_
    dsimp only
    split_ifs with hempty
    · apply leads_unlink_aimed h hzero haimed
      rw [Files.children, Files.listing, List.map_eq_nil_iff.1 hempty.2]
      rfl
    · exact Prog.wp_pure ⟨h, Shrinks.refl files⟩

theorem leads_pbDelete (n : ℕ) {src : Str} (recursive : Bool) (h : Orderly files) (hvalid : ValidPath src)
    (hok : (PathOp.pbDelete n src recursive).Careful files) :
    Leads (fun _ files' => Orderly files' ∧ Shrinks files files') (pbDelete n src recursive) files := by
  have hsub : (0 : UInt8) ∉ baseName src := fun hmem => hok.1 (baseName_subset src hmem)
  refine (leads_recursiveLookupLast files hvalid.1).bind_at fun found hfound => ?_
  match found with
  | none => exact Prog.wp_pure ⟨h, Shrinks.refl files⟩
  | some (ino, parent) =>
    have hhits := hok.2 ino parent hfound.symm
    refine (leads_dualLock files ino parent).bind_state fun _ => ?_
    have hall : Leads (fun _ files' => Orderly files' ∧ Shrinks files files')
        (deleteAll n src recursive ino parent) files := by
      unfold deleteAll
      cases recursive with
      | false =>
        exact leads_deleteEmpty h hsub
          (aimed_of_outside h hvalid hok.1 hfound.symm hhits h fun _ _ => rfl)
      | true =>
        refine (leads_recursiveDelete n ino h).bind fun r files₁ hdeleted => ?_
        have haimed := aimed_of_outside h hvalid hok.1 hfound.symm hhits hdeleted.orderly hdeleted.outside
        match r with
        | none => exact Prog.wp_pure ⟨hdeleted.orderly, hdeleted.shrinks⟩
        | some false => exact Prog.wp_pure ⟨hdeleted.orderly, hdeleted.shrinks⟩
        | some true =>
          refine (leads_deleteEmpty hdeleted.orderly hsub haimed).mono fun _ files₂ ⟨h₂, hshrinks₂⟩ => ?_
          exact ⟨h₂, hdeleted.shrinks.trans hshrinks₂⟩
    refine hall.bind fun r files₁ h₁ => ?_
    cases r with
    | none => exact Prog.wp_pure h₁
    | some r =>
      refine (leads_dualUnlock files₁ ino parent).bind_state fun _ => ?_
      exact Prog.wp_pure h₁

theorem leads_pbRename {src dst : Str} (h : Orderly files) (hvalid : (PathOp.pbRename src dst).Valid)
    (hok : (PathOp.pbRename src dst).Careful files) :
    Leads (fun _ files' => Orderly files' ∧ Grows files files') (pbRename src dst) files := by
  obtain ⟨hsrcZero, hdstZero, hnil, hhits⟩ := hok
  refine (leads_recursiveLookup files _).bind_at fun srcDir hsrc => ?_
  cases srcDir with
  | none => exact Prog.wp_pure ⟨h, Grows.refl files⟩
  | some srcDir =>
    refine (leads_recursiveLookup files _).bind_at fun dstDir hdst => ?_
    cases dstDir with
    | none => exact Prog.wp_pure ⟨h, Grows.refl files⟩
    | some dstDir =>
      have hname : NeatName (baseName dst) :=
        ⟨hnil, fun hmem => hvalid.2.2 (baseName_subset dst hmem), fun hmem =>
          hdstZero (baseName_subset dst hmem)⟩
      refine (leads_rename files srcDir (baseName src) dstDir (baseName dst)).mono fun r files' hrenamed => ?_
      exact orderly_renamed h (fun hmem => hsrcZero (baseName_subset src hmem)) hname
        (reach_of_resolvePath hdst.symm) (hhits srcDir dstDir hsrc.symm hdst.symm) hrenamed

end NameNode

/-- What is reachable stays so unless it is deleted. -/
def KeepsReach (files files' : Files) : Prop := ∀ id, Reach files id → files' id ≠ none → Reach files' id

theorem PathOp.leads {D : Type} {op : PathOp} (nn : NameNode D) (h : Orderly files) (hvalid : op.Valid)
    (hok : op.Careful files) : Leads (fun _ files' => Orderly files' ∧ KeepsReach files files')
    (op.call nn) files := by
  cases op with
  | pbMkdirs src createParent =>
    refine (NameNode.leads_pbMkdirs createParent h hvalid.2 hok).bind fun _ files' ⟨h', hgrows⟩ => ?_
    exact Prog.wp_pure ⟨h', fun id hid _ => hgrows.reach id hid⟩
  | pbCreate src createParent =>
    refine (NameNode.leads_pbCreate nn createParent h hvalid.2 hok).bind fun _ files' ⟨h', hgrows⟩ => ?_
    exact Prog.wp_pure ⟨h', fun id hid _ => hgrows.reach id hid⟩
  | pbDelete depth src recursive =>
    refine (NameNode.leads_pbDelete depth recursive h hvalid hok).bind fun _ files' ⟨h', hshrinks⟩ => ?_
    exact Prog.wp_pure ⟨h', hshrinks.reach⟩
  | pbRename src dst =>
    refine (NameNode.leads_pbRename h hvalid hok).bind fun _ files' ⟨h', hgrows⟩ => ?_
    exact Prog.wp_pure ⟨h', fun id hid _ => hgrows.reach id hid⟩

theorem PathStep.orderly {D : Type} {s s' : NameNode D × World Unit} (h : Orderly s.2.files)
    (hstep : PathStep (fun files op => op.Careful files) s s') :
    Orderly s'.2.files ∧ KeepsReach s.2.files s'.2.files := by
  obtain ⟨op, hvalid, hok, hexec⟩ := hstep
  exact (PathOp.leads s.1 h hvalid hok).result hexec

theorem orderly_rootFiles : Orderly rootFiles := by
  have hlisting : ∀ id, rootFiles.listing id = [] := by
    intro id
    rw [Files.listing, dir_rootFiles]
    split_ifs <;> rfl
  have hroot : rootFiles.dir 1 ≠ none := by
    rw [dir_rootFiles]
    decide
  refine ⟨hroot, fun id dirList hdir => ?_, fun id e he => ?_, ?_⟩
  · rw [dir_rootFiles] at hdir
    split_ifs at hdir
    rw [hlisting, ← Option.some.inj hdir]
    rfl
  · rw [hlisting] at he
    cases he
  · apply Forest.of_nil _ (mem_live_of_dir hroot)
    intro id
    rw [Files.children, hlisting]
    rfl

end

/-- Requests that all hit what they mean, and move nothing below itself, keep the namespace free of
cycles and everything reachable that is not deleted. -/
theorem namespace_acyclic {D : Type} {nn : NameNode D} {s : NameNode D × World Unit}
    (hrun : ReflTransGen (PathStep fun files op => op.Careful files) (nn, ⟨rootFiles, fun _ => none⟩) s) :
    (∀ id, ¬TransGen s.2.files.Child id id) ∧
      ∀ id s', ReflTransGen (fun a b => PathStep (fun files op => op.Careful files) a b ∧
        b.2.files id ≠ none) s s' → Reach s.2.files id → Reach s'.2.files id := by
  have horderly : Orderly s.2.files := by
    induction hrun with
    | refl => exact orderly_rootFiles
    | tail _ hstep ih => exact (PathStep.orderly ih hstep).1
  refine ⟨horderly.forest.acyclic, fun id s' hlater hreach => ?_⟩
  have hboth : Orderly s'.2.files ∧ Reach s'.2.files id := by
    induction hlater with
    | refl => exact ⟨horderly, hreach⟩
    | tail _ hstep ih =>
      obtain ⟨horderly', hkeeps⟩ := PathStep.orderly ih.1 hstep.1
      exact ⟨horderly', hkeeps id ih.2 hstep.2⟩
  exact hboth.2

instance (dirList name : Str) : Decidable (LastEntry dirList name) :=
  inferInstanceAs (Decidable (((entries dirList).takeWhile fun e => e.1 ≠ name).length + 1 =
    (entries dirList).length))

theorem PathStep.of_run {ok : Files → PathOp → Prop} {s s' : NameNode ℕ × World Unit} {op : PathOp}
    (hvalid : op.Valid) (hok : ok s.2.files op) (hrun : (op.call s.1).run (World.reply ()) s.2 = some s') :
    PathStep ok s s' := ⟨op, hvalid, hok, World.exec_of_run hrun⟩

/-- `/b` becomes `/a/c`, and can still be reached. -/
theorem namespace_acyclic_move : ∃ s s' : NameNode ℕ × World Unit,
    ReflTransGen (PathStep fun files op => op.Careful files) (NameNode.init ℕ, ⟨rootFiles, fun _ => none⟩) s ∧
      (3 : UInt64) ∈ s.2.files.children 1 ∧ (3 : UInt64) ∈ s'.2.files.children 2 ∧
        (∀ id, ¬TransGen s.2.files.Child id id) ∧ Reach s'.2.files 3 := by
  have hrun : ((PathOp.pbMkdirs [47, 97] false).call (NameNode.init ℕ) |>.run (World.reply ())
      ⟨rootFiles, fun _ => none⟩).any
      (fun s₁ => ((PathOp.pbMkdirs [47, 98] false).call s₁.1 |>.run (World.reply ()) s₁.2).any fun s₂ =>
        ((PathOp.pbRename [47, 98] [47, 97, 47, 99]).call s₂.1 |>.run (World.reply ()) s₂.2).any fun s₃ =>
          resolvePath s₂.2.files.dir (upToSlash (stripSlashes [47, 98])) = some 1 ∧
          resolvePath s₂.2.files.dir (upToSlash (stripSlashes [47, 97, 47, 99])) = some 2 ∧
          s₂.2.files.entry? 1 [98] = some ([98], [51]) ∧
          (FindsOwn (text (s₂.2.files 1)) [98] ∧ LastEntry (text (s₂.2.files 1)) [98] ∧
            (text (s₂.2.files 1)).length < 2 ^ 32 - 1 ∧ s₂.2.files.dir 2 ≠ none) ∧
          s₂.2.files.children 3 = [] ∧ (3 : UInt64) ∈ s₂.2.files.children 1 ∧ s₃.2.files 3 ≠ none ∧
          (3 : UInt64) ∈ s₃.2.files.children 2) = true := by
    decide +kernel
  obtain ⟨s₁, hrun₁, hrest⟩ := (Option.any_eq_true _ _).1 hrun
  obtain ⟨s₂, hrun₂, hrest⟩ := (Option.any_eq_true _ _).1 hrest
  obtain ⟨s₃, hrun₃, hcheck⟩ := (Option.any_eq_true _ _).1 hrest
  obtain ⟨hsrc, hdst, hentry, ⟨hfind, hlast, hlen, hdir⟩, hleaf, hmem, hlive, hmoved⟩ :=
    of_decide_eq_true hcheck
  have hvalid : ∀ path : Str, path.head? = some slash → semi ∉ path → ValidPath path := fun _ h h' => ⟨h, h'⟩
  have hreach : ReflTransGen (PathStep fun files op => op.Careful files)
      (NameNode.init ℕ, ⟨rootFiles, fun _ => none⟩) s₂ := by
    refine (ReflTransGen.single (PathStep.of_run ?_ ?_ hrun₁)).tail (PathStep.of_run ?_ ?_ hrun₂)
    · exact hvalid _ rfl (by decide)
    · exact (by decide : (0 : UInt8) ∉ ([47, 97] : Str))
    · exact hvalid _ rfl (by decide)
    · exact (by decide : (0 : UInt8) ∉ ([47, 98] : Str))
  have hhits : RenameHits s₂.2.files 1 [98] 2 := by
    intro e he
    rw [hentry] at he
    cases he
    refine ⟨hfind, hlast, hlen, hdir, fun hbelow => ?_⟩
    have hthree : n2i [51] = 3 := by decide
    rw [hthree] at hbelow
    have heq := eq_of_leaf (fun b hb => by rw [Files.Child, hleaf] at hb; cases hb) hbelow
    exact absurd heq (by decide)
  have hcareful : (PathOp.pbRename [47, 98] [47, 97, 47, 99]).Careful s₂.2.files := by
    refine ⟨by decide, by decide, by decide, fun srcDir dstDir hsrc' hdst' => ?_⟩
    rw [hsrc, Option.some.injEq] at hsrc'
    rw [hdst, Option.some.injEq] at hdst'
    subst hsrc' hdst'
    exact hhits
  have hstep : PathStep (fun files op => op.Careful files) s₂ s₃ := by
    refine PathStep.of_run ?_ hcareful hrun₃
    exact ⟨hvalid _ rfl (by decide), hvalid _ rfl (by decide)⟩
  obtain ⟨hacyclic, hkeeps⟩ := namespace_acyclic hreach
  exact ⟨s₂, s₃, hreach, hmem, hmoved, hacyclic, hkeeps 3 s₃ (.single ⟨hstep, hlive⟩) (.single hmem)⟩

/-- `/a` becomes `/a/b/c`: the directories 2 and 3 list each other, and the root lists nothing. -/
theorem namespace_cycle : ∃ s : NameNode ℕ × World Unit,
    ReflTransGen (PathStep fun _ _ => True) (NameNode.init ℕ, ⟨rootFiles, fun _ => none⟩) s ∧
      TransGen s.2.files.Child 2 2 ∧ s.2.files.dir 2 ≠ none ∧ ¬Reach s.2.files 2 := by
  have hrun : ((PathOp.pbMkdirs [47, 97] false).call (NameNode.init ℕ) |>.run (World.reply ())
      ⟨rootFiles, fun _ => none⟩).any
      (fun s₁ => ((PathOp.pbMkdirs [47, 97, 47, 98] false).call s₁.1 |>.run (World.reply ()) s₁.2).any
        fun s₂ =>
        ((PathOp.pbRename [47, 97] [47, 97, 47, 98, 47, 99]).call s₂.1 |>.run (World.reply ()) s₂.2).any
        fun s₃ =>
          (3 : UInt64) ∈ s₃.2.files.children 2 ∧ (2 : UInt64) ∈ s₃.2.files.children 3 ∧
          s₃.2.files.dir 2 ≠ none ∧
            s₃.2.files.children 1 = []) = true := by
    decide +kernel
  obtain ⟨s₁, hrun₁, hrest⟩ := (Option.any_eq_true _ _).1 hrun
  obtain ⟨s₂, hrun₂, hrest⟩ := (Option.any_eq_true _ _).1 hrest
  obtain ⟨s₃, hrun₃, hcheck⟩ := (Option.any_eq_true _ _).1 hrest
  obtain ⟨hdown, hup, hdir, hroot⟩ := of_decide_eq_true hcheck
  refine ⟨s₃, ?_, (TransGen.single hdown).tail hup, hdir, fun hreach => ?_⟩
  · refine ((ReflTransGen.single (PathStep.of_run ?_ trivial hrun₁)).tail
      (PathStep.of_run ?_ trivial hrun₂)).tail (PathStep.of_run ?_ trivial hrun₃)
    · exact ⟨rfl, by decide⟩
    · exact ⟨rfl, by decide⟩
    · exact ⟨⟨rfl, by decide⟩, rfl, by decide⟩
  · have heq := eq_of_leaf (fun b hb => by rw [Files.Child, hroot] at hb; cases hb) hreach
    exact absurd heq (by decide)

end Yfs.Hdfs
