import Yfs.Client.CutRename
import Yfs.Client.Unlink
import Yfs.Hdfs.Effects

/-! `Rename` in a world in which nobody else acts: when it moves one entry from a directory to another,
or to the end of the same one. -/
namespace Yfs.Hdfs
open Yfs.Lib Yfs.Extent Yfs.Client

namespace NameNode

section
variable {T : Type} {t : T} {w w' : World T} {srcDir dstDir : UInt64} {srcName dstName dirList srcEntry : Str}

private theorem shows_dstEntry (hsrc : text (w.files srcDir) = srcEntry) (t : T) (dstDir : UInt64) :
    Shows t (dstEntry srcDir srcEntry dstDir) w (true, text (w.files dstDir)) := by
  unfold dstEntry
  split_ifs with hdir
  · rw [← hdir, hsrc]
    exact shows_pure t w _
  · apply (shows_get t w dstDir).bind
    exact shows_pure t w _

/-- A name that is found, up to its first zero byte and as a whole, is moved in one way only. -/
theorem exec_rename {e e₀ : Str × Str} (hdir : w.files.dir srcDir = some dirList)
    (hfound : findEntry dirList (cStr srcName) = some e₀) (hentry : findEntry dirList srcName = some e)
    (hcut : renameText dirList srcName = some srcEntry) {r : Option Bool} :
    (rename srcDir srcName dstDir dstName).Exec (World.serve t) w r w' ↔ r = some true ∧
      w' = { w with files := (w.files.put srcDir srcEntry).enter dstDir (dstName, filename (n2i e.2)) } := by
  have hlookup : Shows t (nlockLookup srcDir (cStr srcName) false 0) w _ :=
    shows_lookup t w srcDir (cStr srcName) false 0
  rw [Files.lookup, Files.entry?, hdir, Option.bind_some, hfound] at hlookup
  have hlist : ((entries dirList).map fun e => (⟨e.1, n2i e.2⟩ : Dirent)).find? (fun e => e.name = srcName) =
      some ⟨e.1, n2i e.2⟩ := by
    rw [List.find?_map]
    exact congrArg (Option.map _) hentry
  have hsrc : text ((w.files.put srcDir srcEntry) srcDir) = srcEntry := by
    rw [Files.put_of_live (Files.dir_eq_some.1 hdir), Function.update_self]
    rfl
  unfold rename
  rw [Prog.exec_bind_of_iff hlookup]
  dsimp only
  rw [if_pos rfl, Prog.exec_bind_of_iff (shows_nlockReaddir hdir t)]
  dsimp only
  rw [Prog.exec_bind_of_iff (shows_get t w srcDir), Files.dir_eq_text hdir]
  dsimp only
  rw [hlist, if_pos rfl]
  dsimp only
  rw [hcut]
  dsimp only
  rw [Prog.exec_bind_of_iff fun _ _ => exec_put,
    Prog.exec_bind_of_iff (shows_dstEntry (w := ⟨w.files.put srcDir srcEntry, w.lock⟩) hsrc t dstDir)]
  dsimp only
  rw [Prog.exec_bind_of_iff fun _ _ => exec_put]
  exact Prog.exec_pure

end

/-- What is seen of an operation that moves the entry `e`, which is missing in `left`, to the end of a
directory that held `dst`. -/
structure Moved {T : Type} (t : T) (w w' : World T) (srcDir dstDir : UInt64) (left dst : List (Str × UInt64))
    (new : Str × UInt64) (r : Option Bool) : Prop where
  returns : r = some true
  source : srcDir ≠ dstDir → Shows t (Client.readdir srcDir) w' (.ok, left.map toDirent)
  destination : Shows t (Client.readdir dstDir) w'
    (.ok, ((if srcDir = dstDir then left else dst) ++ [new]).map toDirent)
  others : ∀ id, id ≠ srcDir → id ≠ dstDir → w'.files id = w.files id

/-- `Rename` can run, and only with that effect. -/
def Moves {T : Type} (t : T) (w : World T) (srcDir : UInt64) (srcName : Str) (dstDir : UInt64) (dstName : Str)
    (left dst : List (Str × UInt64)) (inum : UInt64) : Prop :=
  (∃ r w', (rename srcDir srcName dstDir dstName).Exec (World.serve t) w r w') ∧
    ∀ r w', (rename srcDir srcName dstDir dstName).Exec (World.serve t) w r w' →
      Moved t w w' srcDir dstDir left dst (dstName, inum) r

section
variable {T : Type} {t : T} {w w' : World T} {srcDir dstDir : UInt64} {dstName srcEntry : Str}
  {pre post dst left : List (Str × UInt64)} {e new : Str × UInt64}

theorem moved_iff (hsrc : w.files.dir srcDir = some (Client.build (pre ++ e :: post)))
    (hdst : w.files.dir dstDir = some (Client.build dst)) (hfree : ∀ id, w'.lock id = none)
    (hfiles : w'.files = (w.files.put srcDir srcEntry).enter dstDir (written new)) :
    Moved t w w' srcDir dstDir left dst new (some true) ↔ (srcDir ≠ dstDir → Reads srcEntry left) ∧
      Reads (addEntry (if srcDir = dstDir then srcEntry else Client.build dst) (written new))
        ((if srcDir = dstDir then left else dst) ++ [new]) := by
  have hdst' : w'.files.dir dstDir =
      some (addEntry (if srcDir = dstDir then srcEntry else Client.build dst) (written new)) := by
    rw [hfiles, Files.dir_enter, if_pos rfl, Files.dir_put]
    split_ifs with h h' h'
    · rw [hsrc, Option.map_some, Option.map_some]
    · exact absurd h.symm h'
    · exact absurd h'.symm h
    · rw [hdst, Option.map_some]
  have hsrc' : srcDir ≠ dstDir → w'.files.dir srcDir = some srcEntry := by
    intro hne
    rw [hfiles, Files.dir_enter, if_neg hne, Files.dir_put, if_pos rfl, hsrc, Option.map_some]
  constructor
  · intro h
    constructor
    · exact fun hne => (shows_readdir_iff (hsrc' hne) (hfree srcDir)).1 (h.source hne)
    · exact (shows_readdir_iff hdst' (hfree dstDir)).1 h.destination
  · rintro ⟨hleft, hnew⟩
    constructor
    · rfl
    · exact fun hne => (shows_readdir_iff (hsrc' hne) (hfree srcDir)).2 (hleft hne)
    · exact (shows_readdir_iff hdst' (hfree dstDir)).2 hnew
    · intro id hid hid'
      rw [hfiles]
      exact (Function.update_of_ne hid' _ _).trans (Function.update_of_ne hid _ _)

/-- The texts hold the right entries exactly if the new name can be written and the old one is cut out. -/
theorem reads_moved_iff (h : Named (pre ++ e :: post)) (hdst : Named dst) (habsent : ∀ a ∈ dst, a.1 ≠ dstName)
    (hsame : srcDir = dstDir → dst = pre ++ e :: post)
    (hlen : (Client.build (pre ++ e :: post)).length < 2 ^ 32 - 1)
    (hcut : renameText (Client.build (pre ++ e :: post)) e.1 = some srcEntry) :
    ((srcDir ≠ dstDir → Reads srcEntry (pre ++ post)) ∧
      Reads (addEntry (if srcDir = dstDir then srcEntry else Client.build dst) (written (dstName, e.2)))
        ((if srcDir = dstDir then pre ++ post else dst) ++ [(dstName, e.2)])) ↔
    semi ∉ dstName ∧ find (Client.build (pre ++ e :: post)) e.1 0 = some (startOf (pre.map written)) ∧
      KeepsBefore pre e post := by
  have hplain : ∀ {text : Str} {l : List (Str × UInt64)}, Reads text (l ++ [(dstName, e.2)]) →
      semi ∉ dstName :=
    fun hread => hread.plain (dstName, e.2) (by simp)
  by_cases hdir : srcDir = dstDir
  · obtain rfl := hsame hdir
    rw [if_pos hdir, if_pos hdir]
    have hiff : semi ∉ dstName → (Reads (addEntry srcEntry (written (dstName, e.2)))
        ((pre ++ post) ++ [(dstName, e.2)]) ↔
        find (Client.build (pre ++ e :: post)) e.1 0 = some (startOf (pre.map written)) ∧
        KeepsBefore pre e post) := by
      intro hsemi
      have hnew : Clear (pre ++ e :: (post ++ [(dstName, e.2)])) := by
        rw [← List.cons_append, ← List.append_assoc]
        exact h.toClear.concat hsemi habsent
      obtain ⟨r, hr, hread⟩ := h.renameText_iff hnew hlen
      obtain rfl := Option.some.inj (hcut.symm.trans hr)
      rw [List.append_assoc]
      exact hread
    constructor
    · rintro ⟨-, hread⟩
      exact ⟨hplain hread, (hiff (hplain hread)).1 hread⟩
    · rintro ⟨hsemi, hright⟩
      exact ⟨fun hne => absurd hdir hne, (hiff hsemi).2 hright⟩
  · rw [if_neg hdir, if_neg hdir]
    have hclear : Clear (pre ++ e :: (post ++ [])) := by
      rw [List.append_nil]
      exact h.toClear
    obtain ⟨r, hr, hread⟩ := h.renameText_iff hclear hlen
    obtain rfl := Option.some.inj (hcut.symm.trans hr)
    rw [List.append_nil] at hread
    rw [← hread, written, addEntry_build, and_comm]
    constructor
    · rintro ⟨hnew, hold⟩
      exact ⟨hplain hnew, hold hdir⟩
    · rintro ⟨hsemi, hold⟩
      exact ⟨reads_build (hdst.toClear.concat hsemi habsent).plain, fun _ => hold⟩

private theorem exists_of_rename {l : List (Str × UInt64)} {srcName : Str} {r : Option Bool}
    (hsrc : w.files.dir srcDir = some (Client.build l)) (h : Clear l)
    (hrun : (rename srcDir srcName dstDir dstName).Exec (World.serve t) w r w') (hr : r = some true) :
    ∃ a ∈ l, a.1 = cStr srcName := by
  have hrenamed := (leads_rename w.files srcDir srcName dstDir dstName).result hrun
  unfold Renamed at hrenamed
  cases hentry : w.files.entry? srcDir (cStr srcName) with
  | none =>
    rw [hentry, Option.bind_none] at hrenamed
    rw [hrenamed.1] at hr
    cases hr
  | some e =>
    rw [Files.entry?, hsrc, Option.bind_some, findEntry, entries_build h.plain] at hentry
    obtain ⟨a, ha, rfl⟩ := List.mem_map.1 (List.mem_of_find?_eq_some hentry)
    have hname := List.find?_some hentry
    exact ⟨a, ha, of_decide_eq_true hname⟩

/-- `Rename` moves just the entry exactly if its name, up to the first zero byte, is found; the new name can
be written; the search finds the entry itself; and no digit of it is left behind. -/
theorem rename_iff (hsrc : w.files.dir srcDir = some (Client.build (pre ++ e :: post)))
    (hdst : w.files.dir dstDir = some (Client.build dst)) (h : Named (pre ++ e :: post)) (hnames : Named dst)
    (habsent : ∀ a ∈ dst, a.1 ≠ dstName) (hlen : (Client.build (pre ++ e :: post)).length < 2 ^ 32 - 1)
    (hfree : ∀ id, w.lock id = none) :
    Moves t w srcDir e.1 dstDir dstName (pre ++ post) dst e.2 ↔
      (∃ a ∈ pre ++ e :: post, a.1 = cStr e.1) ∧ semi ∉ dstName ∧
      find (Client.build (pre ++ e :: post)) e.1 0 = some (startOf (pre.map written)) ∧
      KeepsBefore pre e post := by
  have hclear : Clear (pre ++ e :: (post ++ [])) := by
    rw [List.append_nil]
    exact h.toClear
  obtain ⟨srcEntry, hcut, -⟩ := h.renameText_iff hclear hlen
  have hsame : srcDir = dstDir → dst = pre ++ e :: post := by
    rintro rfl
    exact hnames.build_inj h.toClear (Option.some.inj (hdst.symm.trans hsrc))
  -- what `Rename` does if the name is found, and what is seen of that
  have hexec : (∃ a ∈ pre ++ e :: post, a.1 = cStr e.1) → ∀ r w',
      (rename srcDir e.1 dstDir dstName).Exec (World.serve t) w r w' ↔ r = some true ∧
        w' = { w with files := (w.files.put srcDir srcEntry).enter dstDir (dstName, filename e.2) } := by
    rintro ⟨a, ha, hname⟩ r w'
    have hfound := h.findEntry_of_mem ha
    rw [hname] at hfound
    rw [exec_rename hsrc hfound (h.findEntry_of_mem (by simp)) hcut, written, n2i_filename]
  have hseen : ∀ w',
      w' = { w with files := (w.files.put srcDir srcEntry).enter dstDir (dstName, filename e.2) } →
      (Moved t w w' srcDir dstDir (pre ++ post) dst (dstName, e.2) (some true) ↔ semi ∉ dstName ∧
        find (Client.build (pre ++ e :: post)) e.1 0 = some (startOf (pre.map written)) ∧
        KeepsBefore pre e post) := by
    intro w' hw
    rw [moved_iff hsrc hdst (by rw [hw]; exact hfree) (congrArg World.files hw)]
    exact reads_moved_iff h hnames habsent hsame hlen hcut
  constructor
  · rintro ⟨⟨r, w', hrun⟩, heffect⟩
    have hmoved := heffect r w' hrun
    have hfound := exists_of_rename hsrc h.toClear hrun hmoved.returns
    obtain ⟨rfl, hw⟩ := (hexec hfound r w').1 hrun
    exact ⟨hfound, (hseen w' hw).1 hmoved⟩
  · rintro ⟨hfound, hright⟩
    refine ⟨⟨_, _, (hexec hfound _ _).2 ⟨rfl, rfl⟩⟩, fun r w' hrun => ?_⟩
    obtain ⟨rfl, hw⟩ := (hexec hfound r w').1 hrun
    exact (hseen w' hw).2 hright

end

def aThenB : List (Str × UInt64) := [([97], 2), ([98], 3)]

/-- `b`, the last of two entries, is renamed to `c`. -/
theorem rename_iff_last : Named aThenB ∧ (∀ a ∈ aThenB, a.1 ≠ [99]) ∧
    Moves () (rootOf aThenB) 1 [98] 1 [99] [([97], 2)] aThenB 3 := by
  have hnames : Named ([([97], 2)] ++ ([98], 3) :: []) := ⟨⟨by simp, by simp [semi]⟩, by simp⟩
  have habsent : ∀ a ∈ aThenB, a.1 ≠ [99] := by simp [aThenB]
  refine ⟨hnames, habsent, ?_⟩
  apply (rename_iff (dir_rootOf _) (dir_rootOf _) hnames hnames habsent (by decide) fun _ => rfl).2
  exact ⟨⟨([98], 3), by simp, rfl⟩, by decide, by decide +kernel, .inl rfl⟩

/-- `a` is renamed to `c`. The `;` behind its number stays at the start of the text,
and what was a name is read as a number. -/
theorem rename_leaves_semi : Named aThenB ∧ ∃ w',
    (rename 1 [97] 1 [99]).Exec (World.serve ()) (rootOf aThenB) (some true) w' ∧
      Shows () (Client.readdir 1) w' (.ok, [⟨[], 0⟩, ⟨[51], 0⟩]) ∧
      ¬Moves () (rootOf aThenB) 1 [97] 1 [99] [([98], 3)] aThenB 2 := by
  have hentry : findEntry (Client.build aThenB) [97] = some ([97], [50]) := by decide +kernel
  have hcut : renameText (Client.build aThenB) [97] = some [semi, 98, semi, 51] := by decide +kernel
  have hfound : findEntry (Client.build aThenB) (cStr [97]) = some ([97], [50]) := by decide +kernel
  have hexec : (rename 1 [97] 1 [99]).Exec (World.serve ()) (rootOf aThenB) (some true) _ :=
    (exec_rename (dir_rootOf aThenB) hfound hentry hcut).2 ⟨rfl, rfl⟩
  have hdir : Files.dir (World.files (T := Unit)
      ⟨((rootOf aThenB).files.put 1 [semi, 98, semi, 51]).enter 1 ([99], filename (n2i [50])),
        (rootOf aThenB).lock⟩) 1 =
      some [semi, 98, semi, 51, semi, 99, semi, 50] := by decide +kernel
  have hread : Shows () (Client.readdir 1) _ (.ok, [⟨[], 0⟩, ⟨[51], 0⟩]) := shows_readdir hdir () rfl
  refine ⟨⟨⟨by simp [aThenB], by simp [aThenB, semi]⟩, by simp [aThenB]⟩, _, hexec, hread, fun h => ?_⟩
  cases (h.2 _ _ hexec).destination.unique hread

end NameNode
end Yfs.Hdfs
