import Yfs.Client.Effects
import Yfs.Hdfs.Lookup
import Yfs.Hdfs.Namespace

/-! What the requests of the namenode make of the files. -/
namespace Yfs.Hdfs
open Yfs.Lib Yfs.Extent Yfs.Client

theorem dir_rootFiles (id : UInt64) : rootFiles.dir id = if id = 1 then some [] else none := by
  unfold rootFiles Files.dir
  by_cases hid : id = 1
  · rw [hid]
    rfl
  · simp only [if_neg hid]
    rfl

/-- What `Rename` makes of the files. The name is looked up to its first zero byte, and then as a
whole. -/
def Renamed (files : Files) (srcDir : UInt64) (srcName : Str) (dstDir : UInt64) (dstName : Str)
    (r : Option Bool) (files' : Files) : Prop :=
  match (files.entry? srcDir (cStr srcName)).bind fun _ => files.entry? srcDir srcName with
  | none => r = some false ∧ files' = files
  | some e => match renameText (text (files srcDir)) srcName with
    | none => r = none ∧ files' = files
    | some srcEntry => r = some true ∧
        files' = (files.put srcDir srcEntry).enter dstDir (dstName, filename (n2i e.2))

def resolveLast (dir : UInt64 → Option Str) (ino last : UInt64) : List Str → Option (UInt64 × UInt64)
  | [] => some (ino, last)
  | c :: l => (entryOf (dir ino) (cStr c)).bind fun ino' => resolveLast dir ino' ino l

theorem entryOf_of_resolveLast {dir : UInt64 → Option Str} {ino last ino' parent : UInt64} {l : List Str}
    (h : resolveLast dir ino last l = some (ino', parent)) :
    l = [] ∧ (ino', parent) = (ino, last) ∨
      ∃ c, l.getLast? = some c ∧ entryOf (dir parent) (cStr c) = some ino' := by
  induction l generalizing ino last with
  | nil =>
    cases h
    exact .inl ⟨rfl, rfl⟩
  | cons c l ih =>
    obtain ⟨next, hentry, hrest⟩ := Option.bind_eq_some_iff.1 h
    right
    rcases ih hrest with ⟨rfl, heq⟩ | ⟨c', hc', hentry'⟩
    · cases heq
      exact ⟨c, rfl, hentry⟩
    · refine ⟨c', ?_, hentry'⟩
      rw [List.getLast?_cons, hc', Option.getD_some]

def Reading : Call → Prop
  | .get _ => True
  | .getattr _ => True
  | _ => False

theorem all_walk {K : Call → Prop} (hattr : ∀ id, K (.getattr id)) (hget : ∀ id, K (.get id)) (l : List Str)
    (ino : UInt64) : (NameNode.walk ino l).All K := by
  induction l generalizing ino with
  | nil => trivial
  | cons c l ih =>
    refine Prog.all_bind (all_nlockLookup (hattr ino) (hget ino) (cStr c) false ino) fun r => ?_
    dsimp only
    split_ifs
    · exact ih r.2.2
    · trivial

theorem all_recursiveLookup {K : Call → Prop} (hattr : ∀ id, K (.getattr id)) (hget : ∀ id, K (.get id))
    (path : Str) : (NameNode.recursiveLookup path).All K := by
  unfold NameNode.recursiveLookup
  split_ifs
  · exact all_walk hattr hget _ 1
  · trivial

namespace NameNode
variable {files : Files}

private theorem leads_walk (files : Files) (ino : UInt64) (l : List Str) :
    Leads (fun r files' => r = resolve files.dir ino l ∧ files' = files) (walk ino l) files := by
  induction l generalizing ino with
  | nil => exact Prog.wp_pure ⟨rfl, rfl⟩
  | cons c l ih =>
    refine (leads_nlockLookup files ino (cStr c) ino).bind fun r _ ⟨hr, heq⟩ => ?_
    have hentry : entryOf (files.dir ino) (cStr c) = (files.entry? ino (cStr c)).map fun e => n2i e.2 := rfl
    rw [heq, hr, resolve, hentry, Files.lookup]
    cases files.entry? ino (cStr c) with
    | none =>
      dsimp only [Option.map_none, Option.bind_none]
      rw [if_neg fun h => Bool.false_ne_true h.2]
      exact Prog.wp_pure ⟨rfl, rfl⟩
    | some e => exact ih (n2i e.2)

theorem leads_recursiveLookup (files : Files) (path : Str) :
    Leads (fun r files' => r = resolvePath files.dir path ∧ files' = files) (recursiveLookup path) files := by
  unfold recursiveLookup resolvePath
  split_ifs
  · exact leads_walk files 1 (components path)
  · exact Prog.wp_pure ⟨rfl, rfl⟩

private theorem leads_walkLast (files : Files) (ino last : UInt64) (l : List Str) :
    Leads (fun r files' => r = resolveLast files.dir ino last l ∧ files' = files)
    (walkLast ino last l) files := by
  induction l generalizing ino last with
  | nil => exact Prog.wp_pure ⟨rfl, rfl⟩
  | cons c l ih =>
    refine (leads_nlockLookup files ino (cStr c) ino).bind fun r _ ⟨hr, heq⟩ => ?_
    have hentry : entryOf (files.dir ino) (cStr c) = (files.entry? ino (cStr c)).map fun e => n2i e.2 := rfl
    rw [heq, hr, resolveLast, hentry, Files.lookup]
    cases files.entry? ino (cStr c) with
    | none =>
      dsimp only [Option.map_none, Option.bind_none]
      rw [if_neg fun h => Bool.false_ne_true h.2]
      exact Prog.wp_pure ⟨rfl, rfl⟩
    | some e => exact ih (n2i e.2) ino

theorem leads_recursiveLookupLast (files : Files) {path : Str} (habsolute : path.head? = some slash) :
    Leads (fun r files' => r = resolveLast files.dir 1 1 (components path) ∧ files' = files)
      (recursiveLookupLast path) files := by
  rw [recursiveLookupLast, if_pos habsolute]
  exact leads_walkLast files 1 1 (components path)

theorem all_pbGetFileInfoFromInum {K : Call → Prop} (ino : UInt64) (hK : K (.getattr ino)) :
    (pbGetFileInfoFromInum ino).All K := by
  have his : ∀ type, (nlockIs type ino).All K :=
    fun type => Prog.all_bind (Prog.all_perform.2 hK) fun _ => trivial
  have hinfo : ∀ {α : Type} (info : Attr → α), (getInfo info ino).All K :=
    fun info => Prog.all_bind (Prog.all_perform.2 hK) fun _ => trivial
  refine Prog.all_bind (his .file) fun isFile => ?_
  cases isFile with
  | true =>
    refine Prog.all_bind (hinfo fileInfo) fun info => ?_
    cases info <;> trivial
  | false =>
    refine Prog.all_bind (his .dir) fun isDir => ?_
    cases isDir with
    | true =>
      refine Prog.all_bind (hinfo dirInfo) fun info => ?_
      cases info <;> trivial
    | false => trivial

theorem leads_pbGetFileInfoFromInum (files : Files) (ino : UInt64) :
    Leads (fun _ files' => files' = files) (pbGetFileInfoFromInum ino) files := by
  have hinfo : ∀ {α : Type} (info : Attr → α),
      Leads (fun _ files' => files' = files) (getInfo info ino) files :=
    fun info => (leads_getattr files ino).bind fun _ _ h => Prog.wp_pure h.2.2
  refine (leads_nlockIs files .file ino).bind_at fun isFile _ => ?_
  cases isFile with
  | true =>
    refine (hinfo fileInfo).bind_state fun info => ?_
    cases info with
    | none => exact Prog.wp_pure rfl
    | some info => exact Prog.wp_pure rfl
  | false =>
    refine (leads_nlockIs files .dir ino).bind_at fun isDir _ => ?_
    cases isDir with
    | false => exact Prog.wp_pure rfl
    | true =>
      refine (hinfo dirInfo).bind_state fun info => ?_
      cases info with
      | none => exact Prog.wp_pure rfl
      | some info => exact Prog.wp_pure rfl

theorem leads_mkdir (files : Files) (parent : UInt64) (name : Str) (out : UInt64) :
    Leads (fun r files' => ∃ status, r.1 = decide (status = .ok) ∧
      Added files .dir parent (cStr name) (status, r.2) files') (mkdir parent name out) files := by
  refine (leads_locked (leads_nlockAdd files .dir parent (cStr name) out)).bind
    fun ⟨status, ino⟩ files' hadded => ?_
  exact Prog.wp_pure ⟨status, rfl, hadded⟩

theorem leads_create (files : Files) (parent : UInt64) (name : Str) (out : UInt64) :
    Leads (fun r files' => ∃ status, r.1 = decide (status = .ok) ∧
      Added files .file parent (cStr name) (status, r.2) files') (create parent name out) files := by
  refine (leads_locked (leads_nlockAdd files .file parent (cStr name) out)).bind
    fun ⟨status, ino⟩ files' hadded => ?_
  dsimp only
  split_ifs with hok
  · refine (leads_acquire files' ino).bind_state fun _ => ?_
    exact Prog.wp_pure ⟨status, by rw [hok]; rfl, hadded⟩
  · exact Prog.wp_pure ⟨status, (decide_eq_false hok).symm, hadded⟩

theorem leads_dualLock (files : Files) (a b : UInt64) :
    Leads (fun _ files' => files' = files) (dualLock a b) files := by
  have hone : ∀ lid, Leads (fun _ files' => files' = files) (do let _ ← perform (.acquire lid)) files :=
    fun lid => (leads_acquire files lid).bind fun _ _ heq => Prog.wp_pure heq
  have htwo : ∀ lid lid', Leads (fun _ files' => files' = files)
      (do let _ ← perform (.acquire lid); let _ ← perform (.acquire lid')) files := by
    intro lid lid'
    refine (leads_acquire files lid).bind_state fun _ => ?_
    exact hone lid'
  unfold dualLock
  split_ifs
  · exact htwo a b
  · exact htwo b a
  · exact hone a

theorem leads_dualUnlock (files : Files) (a b : UInt64) :
    Leads (fun _ files' => files' = files) (dualUnlock a b) files := by
  have hone : ∀ lid, Leads (fun _ files' => files' = files) (do let _ ← perform (.release lid)) files :=
    fun lid => (leads_release files lid).bind fun _ _ heq => Prog.wp_pure heq
  unfold dualUnlock
  split_ifs
  · exact hone a
  · refine (leads_release files a).bind_state fun _ => ?_
    exact hone b

theorem leads_readdir (files : Files) (ino : UInt64) :
    Leads (fun r files' => r = (true, (entries ((files.dir ino).getD [])).map fun e => ⟨e.1, n2i e.2⟩) ∧
      files' = files) (readdir ino) files := by
  refine (leads_nlockReaddir files ino).bind fun r _ ⟨hr, heq⟩ => ?_
  rw [hr]
  exact Prog.wp_pure ⟨rfl, heq⟩

theorem leads_unlink (files : Files) (parent : UInt64) (name : Str) :
    Leads (fun r files' => ∃ status, r = status.map (fun r => decide (r = .ok)) ∧
      Unlinked files parent (cStr name) status files') (unlink parent name) files := by
  refine (leads_nlockUnlink files parent (cStr name)).bind fun status files' hunlinked => ?_
  exact Prog.wp_pure ⟨status, rfl, hunlinked⟩

private theorem leads_dstEntry {srcDir : UInt64} {srcEntry : Str} (hsrc : text (files srcDir) = srcEntry)
    (dstDir : UInt64) :
    Leads (fun r files' => r = (true, text (files dstDir)) ∧ files' = files)
    (dstEntry srcDir srcEntry dstDir) files := by
  unfold dstEntry
  split_ifs with hdir
  · rw [← hdir, hsrc]
    exact Prog.wp_pure ⟨rfl, rfl⟩
  · refine (leads_get files dstDir).bind_returns ?_
    exact Prog.wp_pure ⟨rfl, rfl⟩

theorem leads_rename (files : Files) (srcDir : UInt64) (srcName : Str) (dstDir : UInt64) (dstName : Str) :
    Leads (Renamed files srcDir srcName dstDir dstName) (rename srcDir srcName dstDir dstName) files := by
  refine (leads_nlockLookup files srcDir (cStr srcName) 0).bind_returns ?_
  unfold Files.lookup Renamed
  cases hfound : files.entry? srcDir (cStr srcName) with
  | none => exact Prog.wp_pure ⟨rfl, rfl⟩
  | some _ =>
    obtain ⟨dirList, hdir, -⟩ := Option.bind_eq_some_iff.1 hfound
    refine (leads_nlockReaddir files srcDir).bind_returns ?_
    refine (leads_get files srcDir).bind_returns ?_
    have hlist : ((entries ((files.dir srcDir).getD [])).map fun e => (⟨e.1, n2i e.2⟩ : Dirent)).find?
        (fun e => e.name = srcName) = (files.entry? srcDir srcName).map fun e => ⟨e.1, n2i e.2⟩ := by
      rw [List.find?_map, Files.entry?, hdir]
      rfl
    dsimp only [Option.bind_some]
    rw [hlist, if_pos rfl]
    cases files.entry? srcDir srcName with
    | none => exact Prog.wp_pure ⟨rfl, rfl⟩
    | some e =>
      dsimp only [Option.map_some]
      cases renameText (text (files srcDir)) srcName with
      | none => exact Prog.wp_pure ⟨rfl, rfl⟩
      | some srcEntry =>
        refine (leads_put files srcDir srcEntry).bind_state fun _ => ?_
        have hsrc : text ((files.put srcDir srcEntry) srcDir) = srcEntry := by
          rw [Files.put_of_live (Files.dir_eq_some.1 hdir), Function.update_self]
          rfl
        refine (leads_dstEntry hsrc dstDir).bind_returns ?_
        refine (leads_put _ dstDir _).bind fun _ _ heq => ?_
        exact Prog.wp_pure ⟨rfl, heq⟩

end NameNode
end Yfs.Hdfs
