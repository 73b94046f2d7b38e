import Yfs.Client.YfsClient
import Yfs.Lib.Pool

/-! Several clients at once: the extent server as a map from inums to files, served one call at a
time, and locks that exclude each other per inum. -/
namespace Yfs.Client
open Yfs.Lib Yfs.Extent

abbrev File := UInt32 × Str

abbrev Files := UInt64 → Option File

def rootFiles : Files := fun id => if id = 1 then some (FileType.dir.code, []) else none

def text (v : Option File) : Str := (v.map Prod.snd).getD []

def typeOf (v : Option File) : UInt32 := (v.map Prod.fst).getD 0

/-- The extent server as a map: `create` finds an inum that is not in use, `put` replaces the
bytes of a file that exists. -/
def Files.serve : (c : Call) → Files → Reply c → Files → Prop
  | .create type, w, r, w' => r.1 = .ok ∧ w r.2 = none ∧ w' = Function.update w r.2 (some (type, []))
  | .get id, w, r, w' => r = (.ok, text (w id)) ∧ w' = w
  | .getattr id, w, r, w' => r.1 = .ok ∧ r.2.type = typeOf (w id) ∧
      r.2.size = UInt32.ofNat (text (w id)).length ∧ w' = w
  | .put id buf, w, r, w' => r = .ok ∧ w' = Function.update w id ((w id).map fun f => (f.1, buf))
  | .remove id, w, r, w' => r = .ok ∧ w' = Function.update w id none
  | _, _, _, _ => False

/-- The files, and the holder of each lock. -/
structure World (T : Type) where
  files : Files
  lock : UInt64 → Option T

/-- One call of thread `t`. A lock is taken when it is free and given back by its holder. -/
def World.serve {T : Type} (t : T) : (c : Call) → World T → Reply c → World T → Prop
  | .acquire lid, w, _, w' => w.lock lid = none ∧
      w' = { w with lock := Function.update w.lock lid (some t) }
  | .release lid, w, _, w' => w.lock lid = some t ∧
      w' = { w with lock := Function.update w.lock lid none }
  | c, w, r, w' => Files.serve c w.files r w'.files ∧ w'.lock = w.lock

theorem all_nlockLookup {K : Call → Prop} {parent : UInt64} (hattr : K (.getattr parent))
    (hget : K (.get parent)) (name : Str) (found : Bool) (out : UInt64) :
    (nlockLookup parent name found out).All K := by
  unfold nlockLookup nlockIsdir nlockIs
  refine Prog.all_bind (Prog.all_bind (Prog.all_perform.2 hattr) fun _ => trivial) fun isDir => ?_
  cases isDir with
  | false => trivial
  | true =>
    refine Prog.all_bind (Prog.all_perform.2 hget) fun reply => ?_
    dsimp only
    split_ifs
    · cases findEntry reply.2 name <;> trivial
    · trivial

section
variable {K : Call → Prop} {parent ino : UInt64}

theorem all_nlockSetattr (hget : K (.get ino)) (hput : ∀ buf, K (.put ino buf)) (size : ℕ) :
    (nlockSetattr ino size).All K := by
  refine Prog.all_bind (Prog.all_perform.2 hget) fun r => ?_
  dsimp only
  split_ifs
  · exact Prog.all_bind (Prog.all_perform.2 (hput _)) fun _ => trivial
  · trivial

theorem all_nlockWrite (hget : K (.get ino)) (hput : ∀ buf, K (.put ino buf)) (off : ℕ) (data : Str) :
    (nlockWrite ino off data).All K := by
  refine Prog.all_bind (Prog.all_perform.2 hget) fun r => ?_
  by_cases hr : r.1 = .ok
  · simp only [if_pos hr]
    exact Prog.all_bind (Prog.all_perform.2 (hput _)) fun _ => trivial
  · simp only [if_neg hr]
    trivial

theorem nlockAdd_eq_bind (hcreate : ∀ code, K (.create code)) (hget : K (.get parent))
    (hput : ∀ buf, K (.put parent buf)) (type : FileType) (name : Str) (out : UInt64) :
    ∃ f, nlockAdd type parent name out = nlockLookup parent name false out >>= f ∧ ∀ r, (f r).All K := by
  refine ⟨_, rfl, fun r => ?_⟩
  dsimp only
  split_ifs
  · trivial
  · refine Prog.all_bind (Prog.all_perform.2 (hcreate _)) fun r => ?_
    refine Prog.all_bind (Prog.all_perform.2 hget) fun r => ?_
    split_ifs
    · exact Prog.all_bind (Prog.all_perform.2 (hput _)) fun _ => trivial
    · trivial

theorem nlockCreatelink_eq_bind (hcreate : ∀ code, K (.create code)) (hget : K (.get parent))
    (hput : ∀ id buf, K (.put id buf)) (linkName targetName : Str) (out : UInt64) :
    ∃ f, nlockCreatelink parent linkName targetName out =
        nlockLookup parent (cStr linkName) false out >>= f ∧ ∀ r, (f r).All K := by
  refine ⟨_, rfl, fun r => ?_⟩
  dsimp only
  split_ifs
  · trivial
  · refine Prog.all_bind (Prog.all_perform.2 (hcreate _)) fun r => ?_
    refine Prog.all_bind (Prog.all_perform.2 hget) fun r => ?_
    split_ifs
    · refine Prog.all_bind (Prog.all_perform.2 (hput _ _)) fun _ => ?_
      exact Prog.all_bind (Prog.all_perform.2 (hput _ _)) fun _ => trivial
    · exact Prog.all_bind (Prog.all_perform.2 (hput _ _)) fun _ => trivial

theorem all_nlockAdd (hattr : K (.getattr parent)) (hcreate : ∀ code, K (.create code))
    (hget : K (.get parent)) (hput : ∀ buf, K (.put parent buf)) (type : FileType) (name : Str)
    (out : UInt64) : (nlockAdd type parent name out).All K := by
  obtain ⟨f, hf, hall⟩ := nlockAdd_eq_bind hcreate hget hput type name out
  rw [hf]
  exact Prog.all_bind (all_nlockLookup hattr hget name false out) hall

end

/-- The inum that `alloc_inode` finds. -/
def Files.firstFree (w : Files) : Option UInt64 :=
  ((List.range' 1 (inodeNum - 1)).find? fun n => (w (UInt64.ofNat n)).isNone).map UInt64.ofNat

theorem Files.dead_of_firstFree {w : Files} {id : UInt64} (h : w.firstFree = some id) : w id = none := by
  obtain ⟨n, hfind, rfl⟩ := Option.map_eq_some_iff.1 h
  have hnone := List.find?_some hfind
  exact Option.isNone_iff_eq_none.1 hnone

def World.reply {T : Type} [DecidableEq T] (t : T) : (c : Call) → World T → Option (Reply c × World T)
  | .create type, w => w.files.firstFree.map fun id =>
      ((.ok, id), { w with files := Function.update w.files id (some (type, [])) })
  | .get id, w => some ((.ok, text (w.files id)), w)
  | .getattr id, w =>
      some ((.ok, ⟨typeOf (w.files id), 0, 0, 0, UInt32.ofNat (text (w.files id)).length⟩), w)
  | .put id buf, w =>
      some (.ok, { w with files := Function.update w.files id ((w.files id).map fun f => (f.1, buf)) })
  | .remove id, w => some (.ok, { w with files := Function.update w.files id none })
  | .acquire lid, w =>
      if w.lock lid = none then some ((), { w with lock := Function.update w.lock lid (some t) }) else none
  | .release lid, w =>
      if w.lock lid = some t then some ((), { w with lock := Function.update w.lock lid none }) else none
  | _, _ => none

theorem World.serve_of_reply {T : Type} [DecidableEq T] {t : T} {c : Call} {w w' : World T} {r : Reply c}
    (h : World.reply t c w = some (r, w')) : World.serve t c w r w' := by
  cases c with
  | create type =>
    obtain ⟨id, hfree, heq⟩ := Option.map_eq_some_iff.1 h
    cases heq
    exact ⟨⟨rfl, Files.dead_of_firstFree hfree, rfl⟩, rfl⟩
  | get id =>
    cases h
    exact ⟨⟨rfl, rfl⟩, rfl⟩
  | getattr id =>
    cases h
    exact ⟨⟨rfl, rfl, rfl, rfl⟩, rfl⟩
  | put id buf =>
    cases h
    exact ⟨⟨rfl, rfl⟩, rfl⟩
  | remove id =>
    cases h
    exact ⟨⟨rfl, rfl⟩, rfl⟩
  | acquire lid =>
    simp only [World.reply] at h
    split_ifs at h with hfree
    cases h
    exact ⟨hfree, rfl⟩
  | release lid =>
    simp only [World.reply] at h
    split_ifs at h with hheld
    cases h
    exact ⟨hheld, rfl⟩
  | _ => cases h

theorem World.exec_of_run {T α : Type} [DecidableEq T] {t : T} {p : M α} {w w' : World T} {a : α}
    (h : p.run (World.reply t) w = some (a, w')) : p.Exec (World.serve t) w a w' := by
  refine Prog.exec_of_run ?_ h
  intro c s r s' hreply
  exact World.serve_of_reply hreply

theorem World.run_of_play {T α : Type} [DecidableEq T] {l : List T} {p p' : Pool Call Reply T (World T) α}
    (h : Pool.play World.reply l p = some p') : Relation.ReflTransGen (Pool.Step World.serve) p p' := by
  refine Pool.run_of_play ?_ h
  intro t c w r w' hreply
  exact World.serve_of_reply hreply

section
variable {T : Type} {t : T} {w w' : World T} {id : UInt64}

theorem exec_get {r : Status × List UInt8} :
    (perform (.get id)).Exec (World.serve t) w r w' ↔ r = (.ok, text (w.files id)) ∧ w' = w := by
  rw [Prog.exec_perform]
  constructor
  · rintro ⟨⟨hr, hfiles⟩, hlock⟩
    exact ⟨hr, by cases w; cases w'; simp_all⟩
  · rintro ⟨hr, rfl⟩
    exact ⟨⟨hr, rfl⟩, rfl⟩

def Files.put (w : Files) (id : UInt64) (buf : Str) : Files :=
  Function.update w id ((w id).map fun f => (f.1, buf))

theorem Files.put_of_live {w : Files} {type : UInt32} {content : Str} (h : w id = some (type, content))
    (buf : Str) : w.put id buf = Function.update w id (some (type, buf)) := by
  rw [Files.put, h, Option.map_some]

theorem Files.put_put (w : Files) (id : UInt64) (buf buf' : Str) :
    (w.put id buf).put id buf' = w.put id buf' := by
  unfold Files.put
  rw [Function.update_self, Function.update_idem, Option.map_map]
  rfl

theorem exec_put {buf : Str} {r : Status} : (perform (.put id buf)).Exec (World.serve t) w r w' ↔
    r = .ok ∧ w' = { w with files := w.files.put id buf } := by
  rw [Prog.exec_perform]
  constructor
  · rintro ⟨⟨hr, hfiles⟩, hlock⟩
    exact ⟨hr, by cases w; cases w'; simp_all [Files.put]⟩
  · rintro ⟨hr, rfl⟩
    exact ⟨⟨hr, rfl⟩, rfl⟩

theorem exec_locked {α : Type} {p : M α} {a : α} : (locked id p).Exec (World.serve t) w a w' ↔
    w.lock id = none ∧ ∃ w₁, p.Exec (World.serve t)
    { w with lock := Function.update w.lock id (some t) } a w₁ ∧
      w₁.lock id = some t ∧ w' = { w₁ with lock := Function.update w₁.lock id none } := by
  unfold locked
  rw [Prog.exec_bind]
  constructor
  · rintro ⟨_, w₀, hacquire, h⟩
    obtain ⟨hfree, rfl⟩ := Prog.exec_perform.1 hacquire
    obtain ⟨a', w₁, hp, h⟩ := Prog.exec_bind.1 h
    obtain ⟨_, w₂, hrelease, rfl, rfl⟩ := Prog.exec_bind.1 h
    obtain ⟨hheld, rfl⟩ := Prog.exec_perform.1 hrelease
    exact ⟨hfree, w₁, hp, hheld, rfl⟩
  · rintro ⟨hfree, w₁, hp, hheld, rfl⟩
    refine ⟨(), _, Prog.exec_perform.2 ⟨hfree, rfl⟩, Prog.exec_bind.2 ⟨a, w₁, hp, ?_⟩⟩
    exact Prog.exec_bind.2 ⟨(), _, Prog.exec_perform.2 ⟨hheld, rfl⟩, rfl, rfl⟩

end

inductive Target where
  | dir | file
  deriving DecidableEq

def Target.inum (dir file : UInt64) : Target → UInt64
  | .dir => dir
  | .file => file

/-- The calls of an operation on a target between taking its lock and giving it back. -/
def OwnCall (dir file : UInt64) (l : Target) : Call → Prop
  | .create _ => l = .dir
  | .get id => id = l.inum dir file
  | .getattr id => id = l.inum dir file
  | .put id _ => id = l.inum dir file
  | _ => False

/-- The files as an operation on a target sees them. One on the file sees no other, and one on the
directory sees an empty file in the place of this one. -/
def Target.view (file : UInt64) (w : Files) : Target → Files
  | .dir => Function.update w file (some (FileType.file.code, []))
  | .file => fun id => if id = file then w id else none

def Files.Live (dir file : UInt64) (w : Files) : Prop := ∀ l : Target, w (l.inum dir file) ≠ none

section
variable {T : Type} {dir file : UInt64} {w w' : Files} {l l' : Target}

theorem Target.inum_injective (hne : dir ≠ file) : Function.Injective (Target.inum dir file) := by
  intro l l' h
  cases l <;> cases l'
  · rfl
  · exact absurd h hne
  · exact absurd h.symm hne
  · rfl

theorem Target.view_inum (hne : dir ≠ file) (w : Files) (l : Target) :
    l.view file w (l.inum dir file) = w (l.inum dir file) := by
  cases l with
  | dir => exact Function.update_of_ne hne _ _
  | file => exact if_pos rfl

private theorem view_update (hne : dir ≠ file) (w : Files) (v : Option File) (l : Target) :
    l.view file (Function.update w (l.inum dir file) v) =
      Function.update (l.view file w) (l.inum dir file) v := by
  cases l with
  | dir => exact Function.update_comm hne _ _ _
  | file =>
    funext id
    by_cases hid : id = file
    · simp [Target.view, Target.inum, hid]
    · simp [Target.view, Target.inum, hid]

private theorem view_update_of_ne (hne : dir ≠ file) (v : Option File) (hl : l' ≠ l) :
    l'.view file (Function.update w (l.inum dir file) v) = l'.view file w := by
  cases l with
  | dir =>
    cases l' with
    | dir => exact absurd rfl hl
    | file =>
      funext id
      by_cases hid : id = file
      · simp [Target.view, Target.inum, hid, hne.symm]
      · simp [Target.view, hid]
  | file =>
    cases l' with
    | dir => exact Function.update_idem _ _ _
    | file => exact absurd rfl hl

private theorem live_update {id : UInt64} {v : Option File} (hlive : w.Live dir file) (hv : v ≠ none) :
    Files.Live dir file (Function.update w id v) := by
  intro l
  by_cases hl : l.inum dir file = id
  · rw [hl, Function.update_self]
    exact hv
  · rw [Function.update_of_ne hl]
    exact hlive l

/-- A call of one's own is the same call in one's own view, and the other view stays. -/
theorem Files.serve_own (hne : dir ≠ file) {c : Call} {r : Reply c} (hown : OwnCall dir file l c)
    (hlive : w.Live dir file) (h : Files.serve c w r w') :
    w'.Live dir file ∧ Files.serve c (l.view file w) r (l.view file w') ∧
      ∀ l', l' ≠ l → l'.view file w' = l'.view file w := by
  cases c with
  | create type =>
    obtain rfl : l = .dir := hown
    obtain ⟨hok, hfree, rfl⟩ := h
    have hnew : r.2 ≠ file := by
      intro heq
      rw [heq] at hfree
      exact hlive .file hfree
    refine ⟨live_update hlive (Option.some_ne_none _), ⟨hok, ?_, Function.update_comm hnew _ _ _⟩, ?_⟩
    · rw [Target.view, Function.update_of_ne hnew]
      exact hfree
    · intro l' hl
      cases l' with
      | dir => exact absurd rfl hl
      | file =>
        funext id
        by_cases hid : id = file
        · simp [Target.view, hid, hnew.symm]
        · simp [Target.view, hid]
  | get id =>
    obtain rfl : id = l.inum dir file := hown
    obtain ⟨hr, rfl⟩ := h
    refine ⟨hlive, ⟨?_, rfl⟩, fun _ _ => rfl⟩
    rw [Target.view_inum hne]
    exact hr
  | getattr id =>
    obtain rfl : id = l.inum dir file := hown
    obtain ⟨hok, htype, hsize, rfl⟩ := h
    refine ⟨hlive, ⟨hok, ?_, ?_, rfl⟩, fun _ _ => rfl⟩
    · rw [Target.view_inum hne]
      exact htype
    · rw [Target.view_inum hne]
      exact hsize
  | put id buf =>
    obtain rfl : id = l.inum dir file := hown
    obtain ⟨hok, rfl⟩ := h
    refine ⟨live_update hlive ?_, ⟨hok, ?_⟩, fun l' hl => view_update_of_ne hne _ hl⟩
    · simpa using hlive l
    · rw [view_update hne, Target.view_inum hne]
  | _ => exact hown.elim

theorem World.serve_own {t : T} {c : Call} {w w' : World T} {r : Reply c}
    (hown : OwnCall dir file l c) (h : World.serve t c w r w') :
    Files.serve c w.files r w'.files ∧ w'.lock = w.lock := by
  cases c <;> first | exact hown.elim | exact h

/-- The locks of the two targets guard what the operations see of the files. -/
def locking (hne : dir ≠ file) : Locking (World.serve (T := T)) Target Files where
  acquire l := .acquire (l.inum dir file)
  release l := .release (l.inum dir file)
  holder w := w.lock ∘ Target.inum dir file
  view w := Target.view file w.files
  own := OwnCall dir file
  act := Files.serve
  valid w := w.files.Live dir file
  acquire_spec := by
    rintro t l w r w' hlive ⟨hfree, rfl⟩
    exact ⟨hlive, hfree, Function.update_comp_eq_of_injective _ (Target.inum_injective hne) l _, rfl⟩
  release_spec := by
    rintro t l w r w' hlive ⟨-, rfl⟩
    exact ⟨hlive, Function.update_comp_eq_of_injective _ (Target.inum_injective hne) l _, rfl⟩
  own_spec := by
    intro t l c w r w' hlive hown hserve
    obtain ⟨hfiles, hlock⟩ := World.serve_own hown hserve
    obtain ⟨hlive', hact, hothers⟩ := Files.serve_own hne hown hlive hfiles
    exact ⟨hlive', by rw [hlock], hact, hothers⟩

/-- The calls inside a section are answered as long as there is an inum for `create`. -/
theorem World.exists_serve {t : T} {c : Call} {w : World T} (hown : OwnCall dir file l c)
    (hfresh : ∃ id, w.files id = none) : ∃ r w', World.serve t c w r w' := by
  cases c with
  | create type =>
    obtain ⟨id, hid⟩ := hfresh
    exact ⟨(.ok, id), ⟨_, w.lock⟩, ⟨rfl, hid, rfl⟩, rfl⟩
  | get id => exact ⟨_, w, ⟨rfl, rfl⟩, rfl⟩
  | getattr id => exact ⟨(.ok, ⟨_, 0, 0, 0, _⟩), w, ⟨rfl, rfl, rfl, rfl⟩, rfl⟩
  | put id buf => exact ⟨_, ⟨_, w.lock⟩, ⟨rfl, rfl⟩, rfl⟩
  | _ => exact hown.elim

end
end Yfs.Client
