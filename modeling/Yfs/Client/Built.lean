import Yfs.Client.Created
import Yfs.Client.Tree

/-! The namespaces that `create`, `mkdir` and `createlink` make: what a directory lists has a type. -/
namespace Yfs.Client
open Yfs.Lib Yfs.Extent

def Files.kind (files : Files) (id : UInt64) : Option FileType :=
  [.dir, .file, .symlink].find? fun type => type.code = typeOf (files id)

/-- What calls of `create`, `mkdir` and `createlink` make of the empty root, with names that a directory
can hold. -/
inductive Built {T : Type} : World T → Prop where
  | root : Built ⟨rootFiles, fun _ => none⟩
  | call {w w' : World T} (t : T) (maker : Maker) (parent : UInt64) (name : Str) (out : UInt64)
      (r : YfsStatus × UInt64) (hw : Built w) (hname : semi ∉ name)
      (hexec : (maker.call parent name out).Exec (World.serve t) w r w') : Built w'

/-- Each directory encodes a list of entries, of inodes that have a type. -/
def Tidy (files : Files) : Prop :=
  ∀ id dirList, files.dir id = some dirList → ∃ l : List (Str × UInt64), dirList = build l ∧
    ∀ e ∈ l, semi ∉ e.1 ∧ files.kind e.2 ≠ none

def LockFree : Call → Prop
  | .acquire _ => False
  | .release _ => False
  | _ => True

section
variable {T : Type} {t : T} {w w' : World T} {files files' : Files} {id parent ino out : UInt64}
  {name : Str}

theorem Files.kind_eq_some {type : FileType} : files.kind id = some type ↔ typeOf (files id) = type.code := by
  unfold Files.kind
  constructor
  · intro h
    have hcode := List.find?_some h
    exact (of_decide_eq_true hcode).symm
  · intro h
    rw [h]
    cases type <;> decide

theorem Files.kind_congr (h : typeOf (files' id) = typeOf (files id)) : files'.kind id = files.kind id := by
  rw [Files.kind, h, Files.kind]

theorem Files.kind_put (files : Files) (id : UInt64) (buf : Str) : (files.put id buf).kind = files.kind := by
  funext id'
  apply Files.kind_congr
  unfold Files.put typeOf
  by_cases hid : id' = id
  · rw [hid, Function.update_self, Option.map_map]
    rfl
  · rw [Function.update_of_ne hid]

theorem Files.kind_grow_self (files : Files) (ino : UInt64) (type : FileType) :
    (files.grow ino type).kind ino = some type := by
  rw [Files.kind_eq_some, Files.grow, Function.update_self]
  rfl

theorem Files.kind_grow_of_ne (hne : id ≠ ino) (type : FileType) :
    (files.grow ino type).kind id = files.kind id := by
  apply Files.kind_congr
  rw [Files.grow, Function.update_of_ne hne]

theorem Tidy.root : Tidy rootFiles := by
  intro id dirList hdir
  refine ⟨[], ?_, fun e he => absurd he List.not_mem_nil⟩
  rw [Files.dir_eq_some, rootFiles] at hdir
  split_ifs at hdir
  cases hdir
  rfl

theorem Tidy.grow (h : Tidy files) (ino : UInt64) (type : FileType) : Tidy (files.grow ino type) := by
  intro id dirList hdir
  rw [Files.dir_grow] at hdir
  split_ifs at hdir
  · cases hdir
    exact ⟨[], rfl, fun e he => absurd he List.not_mem_nil⟩
  · obtain ⟨l, rfl, hl⟩ := h id dirList hdir
    refine ⟨l, rfl, fun e he => ⟨(hl e he).1, ?_⟩⟩
    by_cases hino : e.2 = ino
    · rw [hino, Files.kind_grow_self]
      exact Option.some_ne_none type
    · rw [Files.kind_grow_of_ne hino]
      exact (hl e he).2

theorem Tidy.enter (h : Tidy files) (hname : semi ∉ name) (hino : files.kind ino ≠ none) (parent : UInt64) :
    Tidy (files.enter parent (name, filename ino)) := by
  intro id dirList hdir
  rw [Files.enter, Files.kind_put]
  rw [Files.dir_enter] at hdir
  split_ifs at hdir
  · obtain ⟨old, hold, rfl⟩ := Option.map_eq_some_iff.1 hdir
    obtain ⟨l, rfl, hl⟩ := h parent old hold
    refine ⟨l ++ [(name, ino)], addEntry_build l name ino, fun e he => ?_⟩
    rcases List.mem_append.1 he with he | he
    · exact hl e he
    · rw [List.mem_singleton.1 he]
      exact ⟨hname, hino⟩
  · exact h id dirList hdir

theorem Tidy.put (h : Tidy files) (hdir : files.dir ino = none) (buf : Str) : Tidy (files.put ino buf) := by
  intro id dirList hid
  rw [Files.kind_put]
  rw [Files.dir_put, hdir] at hid
  split_ifs at hid
  · cases hid
  · exact h id dirList hid

theorem Tidy.add (h : Tidy files) (hname : semi ∉ name) (type : FileType) (ino parent : UInt64) :
    Tidy ((files.grow ino type).enter parent (name, filename ino)) := by
  apply (h.grow ino type).enter hname
  rw [Files.kind_grow_self]
  exact Option.some_ne_none type

theorem Tidy.added (h : Tidy files) (hname : semi ∉ name) {type : FileType} {r : YfsStatus × UInt64}
    (hadd : Added files type parent name r files') : Tidy files' := by
  rcases hadd with ⟨e, -, -, rfl⟩ | ⟨-, -, -, rfl⟩
  · exact h
  · exact h.add hname type r.2 parent

theorem Tidy.linked (h : Tidy files) (hname : semi ∉ name) {targetName : Str} {r : YfsStatus × UInt64}
    (hlink : Linked files parent name targetName r files') : Tidy files' := by
  rcases hlink with ⟨e, -, -, rfl⟩ | ⟨-, -, -, rfl⟩
  · exact h
  · apply (h.add hname .symlink r.2 parent).put
    -- the new link is no directory, also where it is its own parent
    have hnone : (files.grow r.2 .symlink).dir r.2 = none := by
      rw [Files.dir_grow, if_pos rfl]
      rfl
    rw [Files.dir_enter]
    split_ifs with hparent
    · rw [← hparent, hnone]
      rfl
    · exact hnone

theorem World.lock_of_lockFree {c : Call} {r : Reply c} (hc : LockFree c) (h : World.serve t c w r w') :
    w'.lock = w.lock := by
  cases c with
  | acquire lid => exact hc.elim
  | release lid => exact hc.elim
  | _ => exact h.2

theorem Maker.body_lockFree (maker : Maker) (parent : UInt64) (name : Str) (out : UInt64) :
    ∃ p : M (YfsStatus × UInt64), maker.call parent name out = locked parent p ∧ p.All LockFree := by
  have hadd : ∀ type, (nlockAdd type parent name out).All LockFree := fun type =>
    all_nlockAdd (K := LockFree) trivial (fun _ => trivial) trivial (fun _ => trivial) type name out
  cases maker with
  | create => exact ⟨_, rfl, hadd .file⟩
  | mkdir => exact ⟨_, rfl, hadd .dir⟩
  | createlink targetName =>
    obtain ⟨f, hf, hall⟩ := nlockCreatelink_eq_bind (K := LockFree) (fun _ => trivial)
      (trivial : LockFree (.get parent)) (fun _ _ => trivial) name targetName out
    refine ⟨_, rfl, ?_⟩
    rw [hf]
    exact Prog.all_bind (all_nlockLookup (K := LockFree) trivial trivial _ false out) hall

theorem lock_of_call {maker : Maker} {r : YfsStatus × UInt64} (hfree : ∀ id, w.lock id = none)
    (hexec : (maker.call parent name out).Exec (World.serve t) w r w') : ∀ id, w'.lock id = none := by
  obtain ⟨p, hcall, hp⟩ := maker.body_lockFree parent name out
  rw [hcall, exec_locked] at hexec
  obtain ⟨-, w₁, hbody, -, rfl⟩ := hexec
  have hkeep : w₁.lock = Function.update w.lock parent (some t) :=
    Prog.Triple.invariant (I := fun w₁ => w₁.lock = Function.update w.lock parent (some t)) hp
      (fun c s r s' hc hs hact => (World.lock_of_lockFree hc hact).trans hs) _ _ _ rfl hbody
  intro id
  dsimp only
  rw [hkeep, update_back (hfree parent)]
  exact hfree id

theorem Tidy.call (h : Tidy w.files) (hname : semi ∉ name) {maker : Maker} {r : YfsStatus × UInt64}
    (hexec : (maker.call parent name out).Exec (World.serve t) w r w') : Tidy w'.files := by
  cases maker with
  | create => exact h.added hname ((leads_locked (leads_nlockAdd w.files .file parent name out)).result hexec)
  | mkdir => exact h.added hname ((leads_locked (leads_nlockAdd w.files .dir parent name out)).result hexec)
  | createlink targetName =>
    exact h.linked hname
      ((leads_locked (leads_nlockCreatelink w.files parent name targetName out)).result hexec)

theorem Built.invariant (h : Built w) : Tidy w.files ∧ ∀ id, w.lock id = none := by
  induction h with
  | root => exact ⟨Tidy.root, fun _ => rfl⟩
  | call t maker parent name out r hw hname hexec ih =>
    exact ⟨ih.1.call hname hexec, lock_of_call ih.2 hexec⟩

theorem Tidy.kind_ne_none (h : Tidy files) {e : Str × UInt64} (he : e ∈ files.listing id) :
    files.kind e.2 ≠ none := by
  cases hdir : files.dir id with
  | none =>
    rw [listing_of_none hdir] at he
    cases he
  | some dirList =>
    obtain ⟨l, rfl, hl⟩ := h id dirList hdir
    have hlisting : files.listing id = l := by
      rw [Files.listing, hdir, Option.getD_some, entries_build fun e he => (hl e he).1]
      exact map_readBack_written l
    rw [hlisting] at he
    exact (hl e he).2

theorem shows_readdir_listing (hdir : w.files.dir id ≠ none) (t : T) (hfree : w.lock id = none) :
    Shows t (readdir id) w (.ok, (w.files.listing id).map toDirent) := by
  obtain ⟨dirList, hdir⟩ := Option.ne_none_iff_exists'.1 hdir
  have hread := shows_readdir hdir t hfree
  rwa [map_dirent, ← Option.getD_some (a := dirList) (b := []), ← hdir] at hread

end
end Yfs.Client
