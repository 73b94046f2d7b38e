import Yfs.Client.Created
import Yfs.Client.Cut

/-! `unlink` and `nlock_unlink` in a world in which nobody else acts: when they take one entry out of
a directory and remove the inode of that entry. -/
namespace Yfs.Client
open Yfs.Lib Yfs.Extent

section
variable {T : Type} {t : T} {w w' : World T} {parent id : UInt64} {name dirList : Str}

theorem exec_remove {r : Status} : (perform (.remove id)).Exec (World.serve t) w r w' ↔
    r = .ok ∧ w' = { w with files := w.files.drop id } := by
  rw [Prog.exec_perform]
  constructor
  · rintro ⟨⟨hr, hfiles⟩, hlock⟩
    exact ⟨hr, by cases w; cases w'; simp_all [Files.drop]⟩
  · rintro ⟨hr, rfl⟩
    exact ⟨⟨hr, rfl⟩, rfl⟩

theorem exec_guarded {α : Type} {p : M (Option α)} {r : Option α} :
    (guarded id p).Exec (World.serve t) w r w' ↔ w.lock id = none ∧ ∃ a w₁,
      p.Exec (World.serve t) { w with lock := Function.update w.lock id (some t) } a w₁ ∧ match a with
      | none => r = none ∧ w' = w₁
      | some a => w₁.lock id = some t ∧ r = some a ∧
        w' = { w₁ with lock := Function.update w₁.lock id none } := by
  unfold guarded
  rw [Prog.exec_bind]
  constructor
  · rintro ⟨_, w₀, hacquire, h⟩
    obtain ⟨hfree, rfl⟩ := Prog.exec_perform.1 hacquire
    obtain ⟨a, w₁, hp, h⟩ := Prog.exec_bind.1 h
    cases a with
    | none => exact ⟨hfree, none, w₁, hp, Prog.exec_pure.1 h⟩
    | some a =>
      obtain ⟨_, w₂, hrelease, rfl, rfl⟩ := Prog.exec_bind.1 h
      obtain ⟨hheld, rfl⟩ := Prog.exec_perform.1 hrelease
      exact ⟨hfree, some a, w₁, hp, hheld, rfl, rfl⟩
  · rintro ⟨hfree, a, w₁, hp, h⟩
    refine ⟨(), _, Prog.exec_perform.2 ⟨hfree, rfl⟩, Prog.exec_bind.2 ⟨a, w₁, hp, ?_⟩⟩
    cases a with
    | none => exact Prog.exec_pure.2 h
    | some a =>
      obtain ⟨hheld, rfl, rfl⟩ := h
      exact Prog.exec_bind.2 ⟨(), _, Prog.exec_perform.2 ⟨hheld, rfl⟩, rfl, rfl⟩

theorem exec_unlinkWith {remove : UInt64 → M Unit} {e : Str × Str} {text : Str} {w₁ : World T}
    (hdir : w.files.dir parent = some dirList) (hentry : findEntry dirList name = some e)
    (hcut : unlinkText dirList name (n2i e.2) = some text) {r : Option YfsStatus} :
    (unlinkWith remove parent name).Exec (World.serve t) w r w₁ ↔ r = some .ok ∧
      (remove (n2i e.2)).Exec (World.serve t) { w with files := w.files.put parent text } () w₁ := by
  have hlookup : Shows t (nlockLookup parent name false 0) w _ := shows_lookup t w parent name false 0
  rw [Files.lookup, Files.entry?, hdir, Option.bind_some, hentry] at hlookup
  unfold unlinkWith
  rw [Prog.exec_bind_of_iff hlookup]
  dsimp only
  rw [if_pos rfl, Prog.exec_bind_of_iff (shows_get t w parent), Files.dir_eq_text hdir]
  dsimp only
  rw [if_pos rfl, hcut]
  dsimp only
  rw [Prog.exec_bind_of_iff fun _ _ => exec_put, Prog.exec_bind]
  constructor
  · rintro ⟨_, w₂, hremove, rfl, rfl⟩
    exact ⟨rfl, hremove⟩
  · rintro ⟨rfl, hremove⟩
    exact ⟨(), w₁, hremove, rfl, rfl⟩

theorem exec_removeOnly {a : Unit} : (do let _ ← perform (.remove id) : M Unit).Exec (World.serve t) w a w' ↔
    w' = { w with files := w.files.drop id } := by
  rw [Prog.exec_bind_of_iff fun _ _ => exec_remove]
  exact Prog.exec_pure.trans (and_iff_right rfl)

theorem exec_nlockUnlink {e : Str × Str} {text : Str} (hdir : w.files.dir parent = some dirList)
    (hentry : findEntry dirList name = some e) (hcut : unlinkText dirList name (n2i e.2) = some text)
    {r : Option YfsStatus} : (nlockUnlink parent name).Exec (World.serve t) w r w' ↔
      r = some .ok ∧ w' = { w with files := (w.files.put parent text).drop (n2i e.2) } := by
  unfold nlockUnlink
  rw [exec_unlinkWith hdir hentry hcut, exec_removeOnly]

theorem exec_unlink {e : Str × Str} {text : Str} (hdir : w.files.dir parent = some dirList)
    (hentry : findEntry dirList name = some e) (hcut : unlinkText dirList name (n2i e.2) = some text)
    (hfree : ∀ id, w.lock id = none) {r : Option YfsStatus} :
    (unlink parent name).Exec (World.serve t) w r w' ↔
      n2i e.2 ≠ parent ∧ r = some .ok ∧
        w' = { w with files := (w.files.put parent text).drop (n2i e.2) } := by
  -- the part between the calls for the lock of the directory
  have hpart : ∀ (remove : UInt64 → M Unit) a w₁, (unlinkWith remove parent name).Exec (World.serve t)
      { w with lock := Function.update w.lock parent (some t) } a w₁ ↔ a = some .ok ∧
      (remove (n2i e.2)).Exec (World.serve t)
        ⟨w.files.put parent text, Function.update w.lock parent (some t)⟩ () w₁ := by
    intro remove a w₁
    apply exec_unlinkWith _ hentry hcut
    exact hdir
  -- and between those for the lock of the entry
  have hlocked : n2i e.2 ≠ parent → ∀ r w', (locked (n2i e.2) (do let _ ← perform (.remove (n2i e.2)))).Exec
      (World.serve t) ⟨w.files.put parent text, Function.update w.lock parent (some t)⟩ r w' ↔ r = () ∧
      w' = ⟨(w.files.put parent text).drop (n2i e.2), Function.update w.lock parent (some t)⟩ := by
    intro hne r w'
    apply exec_locked_of_iff
    · exact (Function.update_of_ne hne _ _).trans (hfree _)
    · exact fun _ _ => exec_removeOnly.trans (and_iff_right rfl).symm
  unfold unlink
  rw [exec_guarded, and_iff_right (hfree parent)]
  constructor
  · rintro ⟨a, w₁, hp, ha⟩
    obtain ⟨rfl, hremove⟩ := (hpart _ _ _).1 hp
    have hne : n2i e.2 ≠ parent := by
      intro heq
      have hlock := (exec_locked.1 hremove).1
      rw [heq] at hlock
      dsimp only at hlock
      rw [Function.update_self] at hlock
      exact Option.some_ne_none t hlock
    obtain ⟨-, rfl⟩ := (hlocked hne _ _).1 hremove
    obtain ⟨-, rfl, rfl⟩ := ha
    exact ⟨hne, rfl, by rw [update_back (hfree parent)]⟩
  · rintro ⟨hne, rfl, rfl⟩
    refine ⟨some .ok, _, (hpart _ _ _).2 ⟨rfl, (hlocked hne _ _).2 ⟨rfl, rfl⟩⟩, ?_, rfl, ?_⟩
    · exact Function.update_self _ _ _
    · rw [update_back (hfree parent)]

end

/-- What is seen of an operation that takes an entry out of a directory and removes its inode. -/
structure TookOut {T : Type} (t : T) (w w' : World T) (parent : UInt64) (l : List (Str × UInt64))
    (target : UInt64) (r : Option YfsStatus) : Prop where
  ok : r = some .ok
  readdir : Shows t (readdir parent) w' (.ok, l.map toDirent)
  removed : w'.files target = none
  others : ∀ id, id ≠ parent → id ≠ target → w'.files id = w.files id

/-- The operation can run, and only with that effect. -/
def TakesOut {T : Type} (t : T) (w : World T) (parent : UInt64) (l : List (Str × UInt64)) (target : UInt64)
    (p : M (Option YfsStatus)) : Prop :=
  (∃ r w', p.Exec (World.serve t) w r w') ∧
    ∀ r w', p.Exec (World.serve t) w r w' → TookOut t w w' parent l target r

section
variable {T : Type} {t : T} {w : World T} {parent : UInt64} {pre post : List (Str × UInt64)}
  {e : Str × UInt64}

private theorem toDirent_injective : Function.Injective toDirent := by
  intro a b h
  exact Prod.ext (congrArg Dirent.name h) (congrArg Dirent.inum h)

theorem Named.findEntry_of_mem {l : List (Str × UInt64)} (h : Named l) (he : e ∈ l) :
    findEntry (build l) e.1 = some (written e) := by
  obtain ⟨pre, post, rfl⟩ := List.append_of_mem he
  rw [findEntry, entries_build h.plain, List.map_append, List.map_cons, List.find?_append,
    List.find?_eq_none.2, Option.none_or, List.find?_cons_of_pos (by simp [written])]
  intro a ha
  obtain ⟨c, hc, rfl⟩ := List.mem_map.1 ha
  have hne : (written c).1 ≠ e.1 := h.ne_of_mem (List.mem_append_left post hc)
  simpa using hne

theorem shows_readdir_iff {l : List (Str × UInt64)} {text : Str} (hdir : w.files.dir parent = some text)
    (hfree : w.lock parent = none) :
    Shows t (readdir parent) w (.ok, l.map toDirent) ↔ Reads text l := by
  have hread := shows_readdir hdir t hfree
  rw [map_dirent] at hread
  constructor
  · intro h
    exact toDirent_injective.list_map (congrArg Prod.snd (hread.unique h))
  · intro h
    rw [← h]
    exact hread

/-- `unlink` and `nlock_unlink` take out the entry and remove its inode exactly if the search for the name
leads to the right cut, no zero byte stands at the start of what is left, and the entry is not the directory
itself. The name is a `const char *`, so that it is the whole name of the entry only if that has no zero
byte. -/
theorem unlinks_iff (hdir : w.files.dir parent = some (build (pre ++ e :: post)))
    (h : Named (pre ++ e :: post)) (hnul : 0 ∉ e.1)
    (hlen : (build (pre ++ e :: post)).length < 2 ^ 64) (hfree : ∀ id, w.lock id = none) :
    TakesOut t w parent (pre ++ post) e.2 (unlink parent (cStr e.1)) ∧
      TakesOut t w parent (pre ++ post) e.2 (nlockUnlink parent (cStr e.1)) ↔
    e.2 ≠ parent ∧ (build (pre ++ post)).head? ≠ some 0 ∧
      ∃ b, find (build (pre ++ e :: post)) e.1 0 = some b ∧ CutsRight pre e b := by
  rw [cStr_eq_self hnul]
  obtain ⟨b, text, hfind, hcut, htext⟩ := h.unlinkText_iff hlen
  have hentry := h.findEntry_of_mem (List.mem_append_right pre List.mem_cons_self)
  have hnum : n2i (written e).2 = e.2 := n2i_filename e.2
  rw [← hnum] at hcut
  have hunlink : ∀ r w', (unlink parent e.1).Exec (World.serve t) w r w' ↔ _ := fun r w' =>
    exec_unlink hdir hentry hcut hfree
  have hnlock : ∀ r w', (nlockUnlink parent e.1).Exec (World.serve t) w r w' ↔ _ := fun r w' =>
    exec_nlockUnlink hdir hentry hcut
  rw [hnum] at hunlink hnlock
  -- what both leave behind
  have hshows : e.2 ≠ parent → (Shows t (readdir parent)
      { w with files := (w.files.put parent text).drop e.2 } (.ok, (pre ++ post).map toDirent) ↔
      Reads text (pre ++ post)) := by
    intro hne
    apply shows_readdir_iff
    · rw [Files.dir_drop, if_neg hne.symm, Files.dir_put, if_pos rfl, hdir, Option.map_some]
    · exact hfree parent
  constructor
  · rintro ⟨⟨⟨r, w', hexec⟩, heffect⟩, -⟩
    have htook := heffect r w' hexec
    obtain ⟨hne, -, rfl⟩ := (hunlink r w').1 hexec
    have hread := (hshows hne).1 htook.readdir
    obtain ⟨hhead, hright⟩ := htext.1 hread
    exact ⟨hne, hhead, b, hfind, hright⟩
  · rintro ⟨hne, hhead, b', hfind', hright⟩
    obtain rfl : b = b' := Option.some.inj (hfind.symm.trans hfind')
    have htook : TookOut t w { w with files := (w.files.put parent text).drop e.2 } parent (pre ++ post) e.2
        (some .ok) := by
      constructor
      · rfl
      · exact (hshows hne).2 (htext.2 ⟨hhead, hright⟩)
      · exact Function.update_self _ _ _
      · intro id hparent htarget
        exact (Function.update_of_ne htarget _ _).trans (Function.update_of_ne hparent _ _)
    constructor
    · refine ⟨⟨_, _, (hunlink _ _).2 ⟨hne, rfl, rfl⟩⟩, fun r w' hexec => ?_⟩
      obtain ⟨-, rfl, rfl⟩ := (hunlink r w').1 hexec
      exact htook
    · refine ⟨⟨_, _, (hnlock _ _).2 ⟨rfl, rfl⟩⟩, fun r w' hexec => ?_⟩
      obtain ⟨rfl, rfl⟩ := (hnlock r w').1 hexec
      exact htook

end

def rootOf (l : List (Str × UInt64)) : World Unit :=
  ⟨fun id => if id = 1 then some (FileType.dir.code, build l)
    else if id ∈ l.map Prod.snd then some (FileType.file.code, []) else none, fun _ => none⟩

theorem dir_rootOf (l : List (Str × UInt64)) : (rootOf l).files.dir 1 = some (build l) := rfl

def threeFiles : List (Str × UInt64) := [([98, 97], 3), ([97], 3), ([99], 4)]

/-- The search for `a` finds it in `ba`, and the cut is right because both entries have the same inum. -/
theorem unlinks_iff_three : Named threeFiles ∧
    TakesOut () (rootOf threeFiles) 1 [([98, 97], 3), ([99], 4)] 3 (unlink 1 [97]) ∧
    TakesOut () (rootOf threeFiles) 1 [([98, 97], 3), ([99], 4)] 3 (nlockUnlink 1 [97]) := by
  have hnames : Named threeFiles := ⟨⟨by simp [threeFiles], by simp [threeFiles, semi]⟩, by simp [threeFiles]⟩
  refine ⟨hnames, ?_⟩
  have hdir : (rootOf threeFiles).files.dir 1 =
      some (build ([([98, 97], 3)] ++ ([97], 3) :: [([99], 4)])) := dir_rootOf threeFiles
  have hiff := unlinks_iff (t := ()) hdir hnames (by decide) (by decide +kernel) fun _ => rfl
  exact hiff.2 ⟨by decide, by decide +kernel, 1, by decide +kernel,
    .inr ⟨[], ([98, 97], 3), rfl, .inl ⟨[98], rfl, rfl, rfl⟩⟩⟩

def abThenB : List (Str × UInt64) := [([97, 98], 2), ([98], 3)]

/-- The search for `b` finds it in `ab`: `unlink` returns `OK`, removes inum 3 and leaves `ab` for it. -/
theorem unlink_wrong_inum : Named abThenB ∧
    ∃ w', (unlink 1 [98]).Exec (World.serve ()) (rootOf abThenB) (some .ok) w' ∧
      Shows () (readdir 1) w' (.ok, [⟨[97, 98], 3⟩]) ∧ w'.files 3 = none ∧
      ¬TakesOut () (rootOf abThenB) 1 [([97, 98], 2)] 3 (unlink 1 [98]) := by
  have hentry : findEntry (build abThenB) [98] = some ([98], [51]) := by decide +kernel
  have hcut : unlinkText (build abThenB) [98] (n2i [51]) = some [97, 98, semi, 51] := by decide +kernel
  have hexec := (exec_unlink (t := ()) (dir_rootOf abThenB) hentry hcut fun _ => rfl).2 ⟨by decide, rfl, rfl⟩
  have hdir : Files.dir (World.files (T := Unit)
      ⟨((rootOf abThenB).files.put 1 [97, 98, semi, 51]).drop (n2i [51]), (rootOf abThenB).lock⟩) 1 =
      some [97, 98, semi, 51] := rfl
  have hread : Shows () (readdir 1) _ (.ok, [⟨[97, 98], 3⟩]) := shows_readdir hdir () rfl
  refine ⟨⟨⟨by simp [abThenB], by simp [abThenB, semi]⟩, by simp [abThenB]⟩, _, hexec, hread, rfl,
    fun h => ?_⟩
  cases (h.2 _ _ hexec).readdir.unique hread

end Yfs.Client
