import Yfs.Client.World
import Yfs.Lib.Hoare

/-! What each operation of a single client makes of the files, whatever it does with locks. -/
namespace Yfs.Client
open Yfs.Lib Yfs.Extent

def Files.act : (c : Call) → Files → Reply c → Files → Prop
  | .acquire _, files, _, files' => files' = files
  | .release _, files, _, files' => files' = files
  | c, files, r, files' => Files.serve c files r files'

theorem Files.act_of_serve {T : Type} {t : T} (c : Call) (w : World T) (r : Reply c) (w' : World T)
    (h : World.serve t c w r w') : Files.act c w.files r w'.files := by
  cases c with
  | acquire lid => rw [h.2, Files.act]
  | release lid => rw [h.2, Files.act]
  | _ => exact h.1

/-- From these files the program can only come to a result and files that `Q` holds of. -/
abbrev Leads {α : Type} (Q : α → Files → Prop) (p : M α) (files : Files) : Prop :=
  p.Wp (fun _ _ => True) Files.act Q files

theorem Leads.result {T α : Type} {t : T} {Q : α → Files → Prop} {p : M α} {w w' : World T} {a : α}
    (h : Leads Q p w.files) (hexec : p.Exec (World.serve t) w a w') : Q a w'.files :=
  Prog.Wp.result World.files Files.act_of_serve h hexec

def Files.dir (files : Files) (id : UInt64) : Option Str :=
  if typeOf (files id) = FileType.dir.code then some (text (files id)) else none

def Files.entry? (files : Files) (parent : UInt64) (name : Str) : Option (Str × Str) :=
  (files.dir parent).bind fun dirList => findEntry dirList name

def Files.grow (files : Files) (id : UInt64) (type : FileType) : Files :=
  Function.update files id (some (type.code, []))

def Files.drop (files : Files) (id : UInt64) : Files := Function.update files id none

def Files.enter (files : Files) (parent : UInt64) (e : Str × Str) : Files :=
  files.put parent (addEntry (text (files parent)) e)

section
variable {files : Files}

theorem leads_getattr (files : Files) (id : UInt64) :
    Leads (fun r files' => r.1 = .ok ∧ r.2.type = typeOf (files id) ∧ files' = files)
    (perform (.getattr id)) files :=
  Prog.wp_perform trivial fun _ _ h => ⟨h.1, h.2.1, h.2.2.2⟩

theorem leads_get (files : Files) (id : UInt64) :
    Leads (fun (r : Reply (.get id)) files' => r = (.ok, text (files id)) ∧ files' = files)
    (perform (.get id)) files :=
  Prog.wp_perform trivial fun _ _ h => ⟨h.1, h.2⟩

theorem leads_put (files : Files) (id : UInt64) (buf : Str) :
    Leads (fun _ files' => files' = files.put id buf) (perform (.put id buf)) files :=
  Prog.wp_perform trivial fun _ _ h => h.2

theorem leads_create (files : Files) (type : FileType) :
    Leads (fun r files' => files r.2 = none ∧ files' = files.grow r.2 type)
    (perform (.create type.code)) files :=
  Prog.wp_perform trivial fun _ _ h => h.2

theorem leads_remove (files : Files) (id : UInt64) :
    Leads (fun _ files' => files' = files.drop id) (perform (.remove id)) files :=
  Prog.wp_perform trivial fun _ _ h => h.2

theorem leads_acquire (files : Files) (lid : UInt64) :
    Leads (fun _ files' => files' = files) (perform (.acquire lid)) files :=
  Prog.wp_perform trivial fun _ _ h => h

theorem leads_release (files : Files) (lid : UInt64) :
    Leads (fun _ files' => files' = files) (perform (.release lid)) files :=
  Prog.wp_perform trivial fun _ _ h => h

theorem leads_locked {α : Type} {lid : UInt64} {p : M α} {Q : α → Files → Prop} (h : Leads Q p files) :
    Leads Q (locked lid p) files := by
  refine (leads_acquire files lid).bind_state fun _ => ?_
  refine h.bind fun a files₁ hQ => ?_
  refine (leads_release files₁ lid).bind_state fun _ => ?_
  exact Prog.wp_pure hQ

theorem leads_guarded {α : Type} {lid : UInt64} {p : M (Option α)} {Q : Option α → Files → Prop}
    (h : Leads Q p files) : Leads Q (guarded lid p) files := by
  refine (leads_acquire files lid).bind_state fun _ => ?_
  refine h.bind fun a files₁ hQ => ?_
  cases a with
  | none => exact Prog.wp_pure hQ
  | some a =>
    refine (leads_release files₁ lid).bind_state fun _ => ?_
    exact Prog.wp_pure hQ

theorem leads_nlockIs (files : Files) (type : FileType) (inum : UInt64) :
    Leads (fun b files' => b = decide (typeOf (files inum) = type.code) ∧ files' = files)
    (nlockIs type inum) files := by
  refine (leads_getattr files inum).bind fun ⟨r, a⟩ files' ⟨hok, htype, heq⟩ => ?_
  refine Prog.wp_pure ⟨?_, heq⟩
  dsimp only at hok htype ⊢
  rw [hok, htype]
  rfl

theorem leads_nlockIsdir (files : Files) (inum : UInt64) :
    Leads (fun b files' => b = (files.dir inum).isSome ∧ files' = files) (nlockIsdir inum) files := by
  refine (leads_nlockIs files .dir inum).mono fun b files' ⟨hb, heq⟩ => ⟨?_, heq⟩
  rw [hb, Files.dir]
  split_ifs with hdir <;> simp [hdir]

theorem Files.dir_eq_some {id : UInt64} {dirList : Str} :
    files.dir id = some dirList ↔ files id = some (FileType.dir.code, dirList) := by
  unfold Files.dir
  cases files id with
  | none =>
    rw [if_neg (by decide)]
    simp
  | some f =>
    obtain ⟨type, content⟩ := f
    by_cases htype : type = FileType.dir.code
    · rw [if_pos (by simpa [typeOf] using htype), htype]
      simp [text]
    · rw [if_neg (by simpa [typeOf] using htype)]
      simp [htype]

theorem Files.dir_eq_text {id : UInt64} {dirList : Str} (h : files.dir id = some dirList) :
    text (files id) = dirList := by
  rw [Files.dir_eq_some.1 h]
  rfl

def Files.lookup (files : Files) (parent : UInt64) (name : Str) (out : UInt64) : YfsStatus × Bool × UInt64 :=
  match files.entry? parent name with
  | some e => (.ok, true, n2i e.2)
  | none => (if (files.dir parent).isSome then .noent else .ok, false, out)

theorem leads_nlockLookup (files : Files) (parent : UInt64) (name : Str) (out : UInt64) :
    Leads (fun r files' => r = files.lookup parent name out ∧ files' = files)
      (nlockLookup parent name false out) files := by
  refine (leads_nlockIsdir files parent).bind_at fun isDir hdir => ?_
  unfold Files.lookup Files.entry?
  cases htext : files.dir parent with
  | none =>
    rw [htext] at hdir
    subst hdir
    exact Prog.wp_pure ⟨rfl, rfl⟩
  | some dirList =>
    rw [htext] at hdir
    subst hdir
    refine (leads_get files parent).bind_returns ?_
    rw [Files.dir_eq_text htext]
    dsimp only [Option.bind_some]
    rw [if_pos rfl]
    cases findEntry dirList name with
    | none => exact Prog.wp_pure ⟨rfl, rfl⟩
    | some e => exact Prog.wp_pure ⟨rfl, rfl⟩

theorem leads_nlockReaddir (files : Files) (dir : UInt64) :
    Leads (fun r files' => r = (.ok, (entries ((files.dir dir).getD [])).map fun e => ⟨e.1, n2i e.2⟩) ∧
      files' = files) (nlockReaddir dir) files := by
  refine (leads_nlockIsdir files dir).bind_at fun isDir hdir => ?_
  cases htext : files.dir dir with
  | none =>
    rw [htext] at hdir
    subst hdir
    refine (leads_release files dir).bind fun _ _ heq => ?_
    exact Prog.wp_pure ⟨rfl, heq⟩
  | some dirList =>
    rw [htext] at hdir
    subst hdir
    refine (leads_get files dir).bind_returns ?_
    rw [Files.dir_eq_text htext]
    exact Prog.wp_pure ⟨rfl, rfl⟩

/-- What a new entry makes of the files: nothing if there is one of that name. -/
def Added (files : Files) (type : FileType) (parent : UInt64) (name : Str) (r : YfsStatus × UInt64)
    (files' : Files) : Prop :=
  (∃ e, files.entry? parent name = some e ∧ r.1 = .exist ∧ files' = files) ∨
    (files.entry? parent name = none ∧ files r.2 = none ∧ r.1 = .ok ∧
      files' = (files.grow r.2 type).enter parent (name, filename r.2))

theorem leads_nlockAdd (files : Files) (type : FileType) (parent : UInt64) (name : Str) (out : UInt64) :
    Leads (Added files type parent name) (nlockAdd type parent name out) files := by
  refine (leads_nlockLookup files parent name out).bind_returns ?_
  unfold Files.lookup
  cases hentry : files.entry? parent name with
  | some e => exact Prog.wp_pure (.inl ⟨e, hentry, rfl, rfl⟩)
  | none =>
    refine (leads_create files type).bind_at fun ⟨_, ino⟩ hfree => ?_
    refine (leads_get _ parent).bind_returns ?_
    refine (leads_put _ parent _).bind fun _ _ heq => ?_
    exact Prog.wp_pure (.inr ⟨hentry, hfree, rfl, heq⟩)

def Linked (files : Files) (parent : UInt64) (linkName targetName : Str) (r : YfsStatus × UInt64)
    (files' : Files) : Prop :=
  (∃ e, files.entry? parent (cStr linkName) = some e ∧ r.1 = .exist ∧ files' = files) ∨
    (files.entry? parent (cStr linkName) = none ∧ files r.2 = none ∧ r.1 = .ok ∧
      files' = ((files.grow r.2 .symlink).enter parent (linkName, filename r.2)).put r.2 targetName)

theorem leads_nlockCreatelink (files : Files) (parent : UInt64) (linkName targetName : Str) (out : UInt64) :
    Leads (Linked files parent linkName targetName) (nlockCreatelink parent linkName targetName out)
    files := by
  refine (leads_nlockLookup files parent _ out).bind_returns ?_
  unfold Files.lookup
  cases hentry : files.entry? parent (cStr linkName) with
  | some e => exact Prog.wp_pure (.inl ⟨e, hentry, rfl, rfl⟩)
  | none =>
    refine (leads_create files .symlink).bind_at fun ⟨_, ino⟩ hfree => ?_
    refine (leads_get _ parent).bind_returns ?_
    refine (leads_put _ parent _).bind_state fun _ => ?_
    refine (leads_put _ ino targetName).bind fun _ _ heq => ?_
    exact Prog.wp_pure (.inr ⟨hentry, hfree, rfl, heq⟩)

def Unlinked (files : Files) (parent : UInt64) (name : Str) (r : Option YfsStatus) (files' : Files) : Prop :=
  match files.entry? parent name with
  | none => r = some .noent ∧ files' = files
  | some e => match unlinkText (text (files parent)) name (n2i e.2) with
    | none => r = none ∧ files' = files
    | some dirList => r = some .ok ∧ files' = (files.put parent dirList).drop (n2i e.2)

theorem leads_unlinkWith {remove : UInt64 → M Unit}
    (hremove : ∀ files target, Leads (fun _ files' => files' = files.drop target) (remove target) files)
    (files : Files) (parent : UInt64) (name : Str) :
    Leads (Unlinked files parent name) (unlinkWith remove parent name) files := by
  refine (leads_nlockLookup files parent name 0).bind_returns ?_
  unfold Files.lookup Unlinked
  cases hentry : files.entry? parent name with
  | none => exact Prog.wp_pure ⟨rfl, rfl⟩
  | some e =>
    refine (leads_get files parent).bind_returns ?_
    dsimp only
    rw [if_pos rfl]
    cases unlinkText (text (files parent)) name (n2i e.2) with
    | none => exact Prog.wp_pure ⟨rfl, rfl⟩
    | some dirList =>
      refine (leads_put files parent dirList).bind_state fun _ => ?_
      refine (hremove _ (n2i e.2)).bind fun _ _ heq => ?_
      exact Prog.wp_pure ⟨rfl, heq⟩

theorem leads_nlockUnlink (files : Files) (parent : UInt64) (name : Str) :
    Leads (Unlinked files parent name) (nlockUnlink parent name) files := by
  apply leads_unlinkWith
  intro files target
  exact (leads_remove files target).bind fun _ _ heq => Prog.wp_pure heq

theorem leads_unlink (files : Files) (parent : UInt64) (name : Str) :
    Leads (Unlinked files parent name) (unlink parent name) files := by
  apply leads_guarded
  apply leads_unlinkWith
  intro files target
  apply leads_locked
  exact (leads_remove files target).bind fun _ _ heq => Prog.wp_pure heq

end

section
variable {files : Files} {id : UInt64}

theorem Files.dir_update_of_ne (files : Files) {id id' : UInt64} (h : id' ≠ id) (v : Option File) :
    Files.dir (Function.update files id v) id' = files.dir id' := by
  unfold Files.dir
  rw [Function.update_of_ne h]

theorem Files.dir_put (files : Files) (id : UInt64) (buf : Str) (id' : UInt64) :
    (files.put id buf).dir id' = if id' = id then (files.dir id).map fun _ => buf else files.dir id' := by
  by_cases hid : id' = id
  · rw [if_pos hid, hid, Files.dir, Files.put, Function.update_self, Files.dir]
    cases files id with
    | none => rfl
    | some f =>
      by_cases htype : f.1 = FileType.dir.code
      · rw [if_pos (by simpa [typeOf] using htype), if_pos (by simpa [typeOf] using htype)]
        rfl
      · rw [if_neg (by simpa [typeOf] using htype), if_neg (by simpa [typeOf] using htype)]
        rfl
  · rw [if_neg hid]
    exact files.dir_update_of_ne hid _

theorem Files.dir_grow (files : Files) (id : UInt64) (type : FileType) (id' : UInt64) :
    (files.grow id type).dir id' =
      if id' = id then (if type = .dir then some [] else none) else files.dir id' := by
  by_cases hid : id' = id
  · rw [if_pos hid, hid, Files.dir, Files.grow, Function.update_self]
    cases type <;> rfl
  · rw [if_neg hid]
    exact files.dir_update_of_ne hid _

theorem Files.dir_drop (files : Files) (id id' : UInt64) :
    (files.drop id).dir id' = if id' = id then none else files.dir id' := by
  by_cases hid : id' = id
  · rw [if_pos hid, hid, Files.dir, Files.drop, Function.update_self]
    rfl
  · rw [if_neg hid]
    exact files.dir_update_of_ne hid _

theorem Files.dir_enter (files : Files) (parent : UInt64) (e : Str × Str) (id : UInt64) :
    (files.enter parent e).dir id =
      if id = parent then (files.dir parent).map (addEntry · e) else files.dir id := by
  rw [Files.enter, Files.dir_put]
  cases hdir : files.dir parent with
  | none => rfl
  | some dirList => rw [Files.dir_eq_text hdir, Option.map_some, Option.map_some]

theorem Files.entry?_eq_none {parent : UInt64} {name dirList : Str} (h : files.entry? parent name = none)
    (hdir : files.dir parent = some dirList) : ∀ e ∈ entries dirList, e.1 ≠ name := by
  rw [Files.entry?, hdir] at h
  intro e he
  simpa using List.find?_eq_none.1 h e he

theorem split_of_findEntry {l : List (Str × Str)} {name : Str} {e : Str × Str} (hplain : ∀ e ∈ l, Plain e)
    (h : findEntry (render l) name = some e) : ∃ pre post, l = pre ++ e :: post ∧ e.1 = name ∧
      ownStart (render l) name = startOf pre ∧ ∀ a ∈ pre, a.1 ≠ name := by
  rw [findEntry, entries_render hplain] at h
  obtain ⟨hname, pre, post, rfl, hpre⟩ := List.find?_eq_some_iff_append.1 h
  have hname : e.1 = name := by simpa using hname
  have hpre : ∀ a ∈ pre, a.1 ≠ name := fun a ha => by simpa using hpre a ha
  refine ⟨pre, post, rfl, hname, ?_, hpre⟩
  subst hname
  exact ownStart_render hplain hpre

end

end Yfs.Client
