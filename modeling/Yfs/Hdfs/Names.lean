import Yfs.Hdfs.Effects
import Yfs.Hdfs.Paths

/-! The names in a directory stay distinct as long as nothing is renamed to a name that is in use
and the searches of `unlink` and `Rename` find the entry that is meant. -/
namespace Yfs.Hdfs
open Yfs.Lib Yfs.Extent Yfs.Client

/-- The operations that edit directories. -/
inductive NameOp where
  | create (parent : UInt64) (name : Str) (out : UInt64)
  | mkdir (parent : UInt64) (name : Str) (out : UInt64)
  | createlink (parent : UInt64) (linkName targetName : Str) (out : UInt64)
  | unlink (parent : UInt64) (name : Str)
  | rename (srcDir : UInt64) (srcName : Str) (dstDir : UInt64) (dstName : Str)

def ValidName (name : Str) : Prop := name ≠ [] ∧ semi ∉ name ∧ slash ∉ name ∧ 0 ∉ name

namespace NameOp

def call : NameOp → M Unit
  | .create parent name out => do let _ ← Client.create parent name out
  | .mkdir parent name out => do let _ ← Client.mkdir parent name out
  | .createlink parent linkName targetName out => do let _ ← Client.createlink parent linkName targetName out
  | .unlink parent name => do let _ ← Client.unlink parent name
  | .rename srcDir srcName dstDir dstName => do let _ ← NameNode.rename srcDir srcName dstDir dstName

def Valid : NameOp → Prop
  | .create _ name _ | .mkdir _ name _ | .unlink _ name => ValidName name
  | .createlink _ linkName _ _ => ValidName linkName
  | .rename _ srcName _ dstName => ValidName srcName ∧ ValidName dstName

end NameOp

/-- The search for a name finds the entry of that name. -/
def FindsOwn (dirList name : Str) : Prop := find dirList name 0 = some (ownStart dirList name)

/-- `unlink` finds the entry, and counts as many digits of its inum as there are. -/
def Unlinkable (dirList name : Str) (e : Str × Str) : Prop :=
  FindsOwn dirList name ∧ filename (n2i e.2) = e.2 ∧ dirList.length < 2 ^ 64

/-- `Rename` finds the entry, which is not the first of several. -/
def Cuttable (dirList name : Str) : Prop :=
  FindsOwn dirList name ∧ (ownStart dirList name = 0 → (entries dirList).length = 1) ∧
    dirList.length < 2 ^ 32 - 1

/-- The steps that keep names distinct. -/
def NameOp.Careful (files : Files) : NameOp → Prop
  | .unlink parent name => ∀ e ∈ files.entry? parent name, Unlinkable (text (files parent)) name e
  | .rename srcDir srcName dstDir dstName => files.entry? srcDir srcName ≠ none →
      Cuttable (text (files srcDir)) srcName ∧
        (files.entry? dstDir dstName ≠ none → dstDir = srcDir ∧ dstName = srcName)
  | _ => True

/-- The states that the operations lead to from an empty root, one at a time, if they meet `ok`. -/
inductive NameRun (ok : Files → NameOp → Prop) : World Unit → Prop
  | root : NameRun ok ⟨rootFiles, fun _ => none⟩
  | step {w w' : World Unit} {op : NameOp} {r : Unit} (h : NameRun ok w) (hvalid : op.Valid)
    (hok : ok w.files op)
      (hexec : op.call.Exec (World.serve ()) w r w') : NameRun ok w'

def TidyText (dirList : Str) : Prop :=
  ∃ l, dirList = render l ∧ (∀ e ∈ l, Plain e ∧ (0 : UInt8) ∉ e.1) ∧ (l.map Prod.fst).Nodup

def Tidy (files : Files) : Prop := ∀ id dirList, files.dir id = some dirList → TidyText dirList

section
variable {files : Files}

theorem TidyText.nodup {dirList : Str} (h : TidyText dirList) : ((entries dirList).map Prod.fst).Nodup := by
  obtain ⟨l, rfl, hplain, hnodup⟩ := h
  rw [entries_render fun e he => (hplain e he).1]
  exact hnodup

theorem TidyText.nil : TidyText [] := ⟨[], rfl, by simp, List.nodup_nil⟩

theorem TidyText.add {dirList name : Str} (h : TidyText dirList) (hsemi : semi ∉ name)
    (hzero : (0 : UInt8) ∉ name) (hnew : ∀ e ∈ entries dirList, e.1 ≠ name) (inum : UInt64) :
    TidyText (addEntry dirList (name, filename inum)) := by
  obtain ⟨l, rfl, hplain, hnodup⟩ := h
  rw [entries_render fun e he => (hplain e he).1] at hnew
  refine ⟨l ++ [(name, filename inum)], addEntry_render l _, fun e he => ?_, ?_⟩
  · rcases List.mem_append.1 he with he | he
    · exact hplain e he
    · rw [List.mem_singleton.1 he]
      exact ⟨⟨hsemi, semi_not_mem_filename inum, filename_ne_nil inum⟩, hzero⟩
  · rw [List.map_append, List.map_singleton, List.nodup_append_comm]
    refine List.nodup_cons.2 ⟨fun hmem => ?_, hnodup⟩
    obtain ⟨e, he, hname⟩ := List.mem_map.1 hmem
    exact hnew e he hname

theorem TidyText.unlink {dirList name : Str} {e : Str × Str} (h : TidyText dirList)
    (hfind : findEntry dirList name = some e) (hok : Unlinkable dirList name e) :
    ∃ dirList', unlinkText dirList name (n2i e.2) = some dirList' ∧ TidyText dirList' := by
  obtain ⟨l, rfl, hplain, hnodup⟩ := h
  obtain ⟨hown, hnum, hlen⟩ := hok
  obtain ⟨pre, post, rfl, rfl, hstart, -⟩ := split_of_findEntry (fun e he => (hplain e he).1) hfind
  have hrest : ∀ a ∈ pre ++ post, a ∈ pre ++ e :: post := by
    intro a ha
    rcases List.mem_append.1 ha with ha | ha
    · exact List.mem_append_left _ ha
    · exact List.mem_append_right _ (List.mem_cons_of_mem e ha)
  refine ⟨_, unlinkText_render (hown.trans (congrArg some hstart)) hnum (.inr hlen) fun a ha =>
      (hplain a (hrest a ha)).2, ?_⟩
  refine ⟨pre ++ post, rfl, fun a ha => hplain a (hrest a ha), ?_⟩
  refine hnodup.sublist (List.Sublist.map _ ?_)
  exact List.Sublist.append_left (List.sublist_cons_self e post) pre

/-- What is left has the other names, though an inum may have got a digit more. -/
theorem TidyText.cut {dirList name : Str} {e : Str × Str} (h : TidyText dirList)
    (hfind : findEntry dirList name = some e) (hok : Cuttable dirList name) :
    ∃ dirList', renameText dirList name = some dirList' ∧ TidyText dirList' ∧
      ∀ a ∈ entries dirList', a.1 ≠ name ∧ ∃ a' ∈ entries dirList, a'.1 = a.1 := by
  obtain ⟨l, rfl, hplain, hnodup⟩ := h
  obtain ⟨hown, hfirst, hlen⟩ := hok
  have hall : ∀ e ∈ l, Plain e := fun e he => (hplain e he).1
  rw [entries_render hall] at hfirst ⊢
  obtain ⟨pre, post, rfl, rfl, hstart, -⟩ := split_of_findEntry hall hfind
  have hsole : pre = [] → post = [] := by
    intro hpre
    have hlength := hfirst (by rw [hstart, hpre]; rfl)
    rw [hpre, List.nil_append, List.length_cons] at hlength
    exact List.length_eq_zero_iff.1 (by omega)
  obtain ⟨pre', hcut, hnames, hplain'⟩ := renameText_render (fun a ha => hall a (List.mem_append_left _ ha))
    (hall e (by simp)) (hown.trans (congrArg some hstart)) hlen hsole
  have hmap : (pre' ++ post).map Prod.fst = (pre ++ post).map Prod.fst := by
    rw [List.map_append, hnames, ← List.map_append]
  have hkept : ∀ a ∈ pre' ++ post, ∃ a' ∈ pre ++ post, a'.1 = a.1 := by
    intro a ha
    have hmem : a.1 ∈ (pre' ++ post).map Prod.fst := List.mem_map_of_mem ha
    rw [hmap] at hmem
    exact List.mem_map.1 hmem
  have hplain₁ : ∀ a ∈ pre' ++ post, Plain a := by
    intro a ha
    rcases List.mem_append.1 ha with ha | ha
    · exact hplain' a ha
    · exact hall a (by simp [ha])
  have hperm : (pre ++ e :: post).map Prod.fst |>.Perm (e.1 :: (pre ++ post).map Prod.fst) :=
    List.perm_middle.map Prod.fst
  obtain ⟨hnew, hnodup'⟩ := List.nodup_cons.1 (hperm.nodup hnodup)
  refine ⟨_, hcut, ⟨pre' ++ post, rfl, fun a ha => ⟨hplain₁ a ha, ?_⟩, hmap ▸ hnodup'⟩, ?_⟩
  · obtain ⟨a', ha', hname⟩ := hkept a ha
    rw [← hname]
    exact (hplain a' (List.perm_middle.symm.subset (List.mem_cons_of_mem e ha'))).2
  · rw [entries_render hplain₁]
    intro a ha
    obtain ⟨a', ha', hname⟩ := hkept a ha
    refine ⟨fun heq => hnew ?_, a', ?_, hname⟩
    · rw [← heq, ← hname]
      exact List.mem_map_of_mem ha'
    · exact List.perm_middle.symm.subset (List.mem_cons_of_mem e ha')

theorem Tidy.put {id : UInt64} {buf : Str} (h : Tidy files)
    (hbuf : ∀ dirList, files.dir id = some dirList → TidyText buf) :
    Tidy (files.put id buf) := by
  intro id' dirList hdir
  rw [Files.dir_put] at hdir
  split_ifs at hdir
  · obtain ⟨dirList', hdir', rfl⟩ := Option.map_eq_some_iff.1 hdir
    exact hbuf dirList' hdir'
  · exact h id' dirList hdir

theorem Tidy.grow (h : Tidy files) (id : UInt64) (type : FileType) : Tidy (files.grow id type) := by
  intro id' dirList hdir
  rw [Files.dir_grow] at hdir
  split_ifs at hdir
  · rw [← Option.some.inj hdir]
    exact TidyText.nil
  · exact h id' dirList hdir

theorem Tidy.drop (h : Tidy files) (id : UInt64) : Tidy (files.drop id) := by
  intro id' dirList hdir
  rw [Files.dir_drop] at hdir
  split_ifs at hdir
  exact h id' dirList hdir

theorem Tidy.enter {parent : UInt64} {name : Str} (h : Tidy files) (hname : ValidName name)
    (hnew : ∀ dirList, files.dir parent = some dirList → ∀ e ∈ entries dirList, e.1 ≠ name) (inum : UInt64) :
    Tidy (files.enter parent (name, filename inum)) := by
  apply h.put
  intro dirList hdir
  rw [Files.dir_eq_text hdir]
  exact (h parent dirList hdir).add hname.2.1 hname.2.2.2 (hnew dirList hdir) inum

theorem Tidy.add {parent ino : UInt64} {name : Str} (h : Tidy files) (hname : ValidName name)
    (hentry : files.entry? parent name = none) (type : FileType) :
    Tidy ((files.grow ino type).enter parent (name, filename ino)) := by
  refine (h.grow ino type).enter hname (fun dirList hdir => ?_) ino
  rw [Files.dir_grow] at hdir
  split_ifs at hdir
  · rw [← Option.some.inj hdir]
    exact fun e he => nomatch he
  · exact Files.entry?_eq_none hentry hdir

theorem Tidy.added {type : FileType} {parent : UInt64} {name : Str} {r : YfsStatus × UInt64} {files' : Files}
    (h : Tidy files) (hname : ValidName name) (hadded : Added files type parent name r files') :
    Tidy files' := by
  rcases hadded with ⟨_, _, _, rfl⟩ | ⟨hentry, _, _, rfl⟩
  · exact h
  · exact h.add hname hentry type

theorem Tidy.linked {parent : UInt64} {linkName targetName : Str} {r : YfsStatus × UInt64} {files' : Files}
    (h : Tidy files) (hname : ValidName linkName)
    (hlinked : Linked files parent linkName targetName r files') : Tidy files' := by
  have hwhole : (cStr linkName) = linkName := cStr_eq_self hname.2.2.2
  rw [Linked, hwhole] at hlinked
  rcases hlinked with ⟨_, _, _, rfl⟩ | ⟨hentry, _, _, rfl⟩
  · exact h
  · -- the link itself is no directory
    refine (h.add hname hentry .symlink).put fun dirList hdir => ?_
    have hlink : (files.grow r.2 .symlink).dir r.2 = none := by
      rw [Files.dir_grow, if_pos rfl]
      rfl
    rw [Files.dir_enter] at hdir
    split_ifs at hdir with hparent
    · rw [← hparent, hlink] at hdir
      cases hdir
    · rw [hlink] at hdir
      cases hdir

theorem Tidy.unlinked {parent : UInt64} {name : Str} {r : Option YfsStatus} {files' : Files} (h : Tidy files)
    (hok : (NameOp.unlink parent name).Careful files)
    (hunlinked : Unlinked files parent name r files') : Tidy files' := by
  unfold Unlinked at hunlinked
  cases hentry : files.entry? parent name with
  | none =>
    rw [hentry] at hunlinked
    exact hunlinked.2 ▸ h
  | some e =>
    obtain ⟨dirList, hdir, hfind⟩ := Option.bind_eq_some_iff.1 hentry
    have hable := hok e hentry
    rw [Files.dir_eq_text hdir] at hable
    obtain ⟨dirList', htext, htidy⟩ := (h parent dirList hdir).unlink hfind hable
    rw [hentry] at hunlinked
    dsimp only at hunlinked
    rw [Files.dir_eq_text hdir, htext] at hunlinked
    rw [hunlinked.2]
    exact (h.put fun _ _ => htidy).drop _

theorem Tidy.renamed {srcDir dstDir : UInt64} {srcName dstName : Str} {r : Option Bool} {files' : Files}
    (h : Tidy files) (hvalid : (NameOp.rename srcDir srcName dstDir dstName).Valid)
    (hok : (NameOp.rename srcDir srcName dstDir dstName).Careful files)
    (hrenamed : Renamed files srcDir srcName dstDir dstName r files') : Tidy files' := by
  unfold Renamed at hrenamed
  rw [cStr_eq_self hvalid.1.2.2.2] at hrenamed
  cases hentry : files.entry? srcDir srcName with
  | none =>
    rw [hentry] at hrenamed
    exact hrenamed.2 ▸ h
  | some e =>
    obtain ⟨dirList, hdir, hfind⟩ := Option.bind_eq_some_iff.1 hentry
    obtain ⟨hcuttable, hfree⟩ := hok (by rw [hentry]; exact Option.some_ne_none e)
    rw [Files.dir_eq_text hdir] at hcuttable
    obtain ⟨dirList', htext, htidy, hleft⟩ := (h srcDir dirList hdir).cut hfind hcuttable
    rw [hentry] at hrenamed
    dsimp only [Option.bind_some] at hrenamed
    rw [Files.dir_eq_text hdir, htext] at hrenamed
    rw [hrenamed.2]
    refine (h.put fun _ _ => htidy).enter hvalid.2 (fun dstList hdst a ha heq => ?_) _
    rw [Files.dir_put] at hdst
    split_ifs at hdst with hsame
    · -- within one directory: the name was in use, so it is the one that was cut out
      rw [hdir, Option.map_some, Option.some.injEq] at hdst
      subst hdst
      obtain ⟨hne, a', ha', hname⟩ := hleft a ha
      obtain ⟨-, hsrc⟩ := hfree fun hnone =>
        Files.entry?_eq_none hnone (hsame ▸ hdir) a' ha' (hname.trans heq)
      exact hne (heq.trans hsrc)
    · have hused : files.entry? dstDir dstName ≠ none := fun hnone => Files.entry?_eq_none hnone hdst a ha heq
      exact hsame (hfree hused).1

theorem tidy_rootFiles : Tidy rootFiles := by
  intro id dirList hdir
  rw [dir_rootFiles] at hdir
  split_ifs at hdir
  rw [← Option.some.inj hdir]
  exact TidyText.nil

theorem Tidy.leads {op : NameOp} (h : Tidy files) (hvalid : op.Valid) (hok : op.Careful files) :
    Leads (fun _ => Tidy) op.call files := by
  cases op with
  | create parent name out =>
    refine (leads_locked (leads_nlockAdd files .file parent name out)).bind fun r files' hadded => ?_
    exact Prog.wp_pure (h.added hvalid hadded)
  | mkdir parent name out =>
    refine (leads_locked (leads_nlockAdd files .dir parent name out)).bind fun r files' hadded => ?_
    exact Prog.wp_pure (h.added hvalid hadded)
  | createlink parent linkName targetName out =>
    refine (leads_locked (leads_nlockCreatelink files parent linkName targetName out)).bind
      fun r files' hlinked => ?_
    exact Prog.wp_pure (h.linked hvalid hlinked)
  | unlink parent name =>
    refine (leads_unlink files parent name).bind fun r files' hunlinked => ?_
    exact Prog.wp_pure (h.unlinked hok hunlinked)
  | rename srcDir srcName dstDir dstName =>
    refine (NameNode.leads_rename files srcDir srcName dstDir dstName).bind fun r files' hrenamed => ?_
    exact Prog.wp_pure (h.renamed hvalid hok hrenamed)

theorem NameRun.tidy {w : World Unit} (h : NameRun (fun files op => op.Careful files) w) : Tidy w.files := by
  induction h with
  | root => exact tidy_rootFiles
  | step _ hvalid hok hexec ih => exact (ih.leads hvalid hok).result hexec

end

/-- A directory lists no name twice if all operations before were careful ones. -/
theorem readdir_names_nodup {w w' : World Unit} (h : NameRun (fun files op => op.Careful files) w)
    {dir : UInt64} {r : YfsStatus} {list : List Dirent}
    (hread : (Client.readdir dir).Exec (World.serve ()) w (r, list) w') : (list.map Dirent.name).Nodup := by
  have hleads : Leads _ (Client.readdir dir) w.files := leads_locked (leads_nlockReaddir w.files dir)
  have hlist := (hleads.result hread).1
  cases hlist
  rw [List.map_map]
  cases hdir : w.files.dir dir with
  | none => exact List.nodup_nil
  | some dirList => exact (h.tidy dir dirList hdir).nodup

section
variable (files : Files)

instance (name : Str) : Decidable (ValidName name) :=
  inferInstanceAs (Decidable (name ≠ [] ∧ semi ∉ name ∧ slash ∉ name ∧ 0 ∉ name))

instance (dirList name : Str) : Decidable (FindsOwn dirList name) :=
  inferInstanceAs (Decidable (find dirList name 0 = some (ownStart dirList name)))

instance (dirList name : Str) (e : Str × Str) : Decidable (Unlinkable dirList name e) :=
  inferInstanceAs (Decidable (FindsOwn dirList name ∧ filename (n2i e.2) = e.2 ∧ dirList.length < 2 ^ 64))

instance (dirList name : Str) : Decidable (Cuttable dirList name) :=
  inferInstanceAs (Decidable (FindsOwn dirList name ∧
    (ownStart dirList name = 0 → (entries dirList).length = 1) ∧ dirList.length < 2 ^ 32 - 1))

instance : (op : NameOp) → Decidable op.Valid
  | .create _ name _ | .mkdir _ name _ | .unlink _ name => inferInstanceAs (Decidable (ValidName name))
  | .createlink _ linkName _ _ => inferInstanceAs (Decidable (ValidName linkName))
  | .rename _ srcName _ dstName => inferInstanceAs (Decidable (ValidName srcName ∧ ValidName dstName))

instance : (op : NameOp) → Decidable (op.Careful files)
  | .create _ _ _ | .mkdir _ _ _ | .createlink _ _ _ _ => .isTrue trivial
  | .unlink parent name =>
    inferInstanceAs (Decidable (∀ e ∈ files.entry? parent name, Unlinkable (text (files parent)) name e))
  | .rename srcDir srcName dstDir dstName =>
    inferInstanceAs (Decidable (files.entry? srcDir srcName ≠ none → Cuttable (text (files srcDir)) srcName ∧
      (files.entry? dstDir dstName ≠ none → dstDir = srcDir ∧ dstName = srcName)))

end

def runNames (ok : Files → NameOp → Prop) [∀ files op, Decidable (ok files op)] :
    List NameOp → World Unit → Option (World Unit)
  | [], w => some w
  | op :: l, w =>
    if op.Valid ∧ ok w.files op then
      (op.call.run (World.reply ()) w).bind fun q => runNames ok l q.2
    else none

theorem nameRun_of_runNames {ok : Files → NameOp → Prop} [∀ files op, Decidable (ok files op)]
    {l : List NameOp}
    {w w' : World Unit} (h : NameRun ok w) (hrun : runNames ok l w = some w') : NameRun ok w' := by
  induction l generalizing w with
  | nil =>
    cases hrun
    exact h
  | cons op l ih =>
    unfold runNames at hrun
    split_ifs at hrun with hop
    obtain ⟨⟨r, w₁⟩, hexec, hrest⟩ := Option.bind_eq_some_iff.1 hrun
    exact ih (h.step hop.1 hop.2 (World.exec_of_run hexec)) hrest

/-- Operations of each kind: the root ends up with a directory `d`, a link `l` and a file `c`. -/
theorem readdir_names_nodup_kinds : ∃ w, NameRun (fun files op => op.Careful files) w ∧ ∃ list w',
    (Client.readdir 1).Exec (World.serve ()) w (.ok, list) w' ∧
      list.map Dirent.name = [[100], [108], [99]] ∧ (list.map Dirent.name).Nodup := by
  have hrun : ((runNames (fun files op => op.Careful files)
      [.create 1 [97] 0, .mkdir 1 [100] 0, .create 3 [98] 0, .createlink 1 [108] [97] 0, .unlink 1 [97],
        .rename 3 [98] 1 [99]] ⟨rootFiles, fun _ => none⟩).any fun w =>
      ((Client.readdir 1).run (World.reply ()) w).any fun q =>
        q.1.1 = .ok ∧ q.1.2.map Dirent.name = [[100], [108], [99]]) = true := by
    decide +kernel
  obtain ⟨w, hw, hread⟩ := (Option.any_eq_true _ _).1 hrun
  obtain ⟨⟨⟨r, list⟩, w'⟩, hlist, hcheck⟩ := (Option.any_eq_true _ _).1 hread
  obtain ⟨hr, hnames⟩ := of_decide_eq_true hcheck
  dsimp only at hr hnames
  have hreach := nameRun_of_runNames .root hw
  have hexec := World.exec_of_run hlist
  exact ⟨w, hreach, list, w', hr ▸ hexec, hnames, readdir_names_nodup hreach hexec⟩

/-- `b` is renamed to the name of `a`. -/
theorem readdir_names_twice : ∃ w, NameRun (fun _ _ => True) w ∧ ∃ list w',
    (Client.readdir 1).Exec (World.serve ()) w (.ok, list) w' ∧ ¬(list.map Dirent.name).Nodup := by
  have hrun : ((runNames (fun _ _ => True) [.create 1 [97] 0, .create 1 [98] 0, .rename 1 [98] 1 [97]]
      ⟨rootFiles, fun _ => none⟩).any fun w => ((Client.readdir 1).run (World.reply ()) w).any fun q =>
        q.1.1 = .ok ∧ ¬(q.1.2.map Dirent.name).Nodup) = true := by
    decide +kernel
  obtain ⟨w, hw, hread⟩ := (Option.any_eq_true _ _).1 hrun
  obtain ⟨⟨⟨r, list⟩, w'⟩, hlist, hcheck⟩ := (Option.any_eq_true _ _).1 hread
  obtain ⟨hr, htwice⟩ := of_decide_eq_true hcheck
  dsimp only at hr htwice
  exact ⟨w, nameRun_of_runNames .root hw, list, w', hr ▸ World.exec_of_run hlist, htwice⟩

end Yfs.Hdfs
