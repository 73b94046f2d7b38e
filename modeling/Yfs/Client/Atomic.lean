import Yfs.Client.Effects

/-! The operations of `yfs_client` that work on one inode: what each does between taking the lock of the inode
and giving it back. -/
namespace Yfs.Client.Atomic
open Yfs.Lib Yfs.Extent

/-- An operation and its arguments; `out` is what `ino_out` holds before. -/
inductive Op where
  | is (type : FileType) (ino : UInt64)
  | getfile (ino : UInt64)
  | getdir (ino : UInt64)
  | setattr (ino : UInt64) (size : ℕ)
  | write (ino : UInt64) (off : ℕ) (data : Str)
  | read (ino size : UInt64) (off : Int64)
  | readdir (ino : UInt64)
  | readlink (ino : UInt64)
  | lookup (parent : UInt64) (name : Str) (out : UInt64)
  | create (parent : UInt64) (name : Str) (out : UInt64)
  | mkdir (parent : UInt64) (name : Str) (out : UInt64)

inductive Out where
  | flag (b : Bool)
  | file (r : YfsStatus × Option FileInfo)
  | dir (r : YfsStatus × Option DirInfo)
  | status (r : YfsStatus)
  | count (r : YfsStatus × ℕ)
  | bytes (r : Option (YfsStatus × Str))
  | list (r : YfsStatus × List Dirent)
  | target (r : YfsStatus × Str)
  | found (r : YfsStatus × Bool × UInt64)
  | made (r : YfsStatus × UInt64)

namespace Op

def ino : Op → UInt64
  | .is _ ino | .getfile ino | .getdir ino | .setattr ino _ | .write ino _ _ | .read ino _ _ | .readdir ino
  | .readlink ino | .lookup ino _ _ | .create ino _ _ | .mkdir ino _ _ => ino

def call : Op → M Out
  | .is .file ino => .flag <$> isfile ino
  | .is .dir ino => .flag <$> isdir ino
  | .is .symlink ino => .flag <$> islink ino
  | .getfile ino => .file <$> Client.getfile ino
  | .getdir ino => .dir <$> Client.getdir ino
  | .setattr ino size => .status <$> Client.setattr ino size
  | .write ino off data => .count <$> Client.write ino off data
  | .read ino size off => .bytes <$> Client.read ino size off
  | .readdir ino => .list <$> Client.readdir ino
  | .readlink ino => .target <$> Client.readlink ino
  | .lookup parent name out => .found <$> Client.lookup parent name false out
  | .create parent name out => .made <$> Client.create parent name out
  | .mkdir parent name out => .made <$> Client.mkdir parent name out

/-- What the operation does under its lock. `lookup` takes none. -/
def body : Op → M Out
  | .is type ino => .flag <$> nlockIs type ino
  | .getfile ino => .file <$> do
    let (r, a) ← perform (.getattr ino)
    if r = .ok then pure (.ok, some (fileInfo a)) else pure (.ioerr, none)
  | .getdir ino => .dir <$> do
    let (r, a) ← perform (.getattr ino)
    if r = .ok then pure (.ok, some (dirInfo a)) else pure (.ioerr, none)
  | .setattr ino size => .status <$> nlockSetattr ino size
  | .write ino off data => .count <$> nlockWrite ino off data
  | .read ino size off => .bytes <$> do
    let (r, content) ← perform (.get ino)
    if r = .ok then pure ((readAt content size off).map fun data => (.ok, data))
    else pure (some (.ioerr, []))
  | .readdir ino => .list <$> nlockReaddir ino
  | .readlink ino => .target <$> do
    let (r, linkName) ← perform (.get ino)
    if r = .ok then pure (.ok, linkName) else pure (.ioerr, [])
  | .lookup parent name out => .found <$> nlockLookup parent name false out
  | .create parent name out => .made <$> nlockCreate parent name out
  | .mkdir parent name out => .made <$> nlockAdd .dir parent name out

/-- What is left of the operation when its body is done: the lock is given back, unless there was an
exception. -/
def fin (op : Op) : Out → M Out
  | .bytes none => pure (.bytes none)
  | o => .call (.release op.ino) fun _ => .pure o

/-- What the callers see to: only directories are listed. -/
def Fits (files : Files) : Op → Prop
  | .readdir ino => typeOf (files ino) = FileType.dir.code
  | _ => True

def Locks : Op → Prop
  | .lookup _ _ _ => False
  | _ => True

private theorem map_locked {α : Type} {lid : UInt64} {f : α → Out} {fin : Out → M Out}
    (h : ∀ a, fin (f a) = .call (.release lid) fun _ => .pure (f a)) (p : M α) :
    f <$> locked lid p = .call (.acquire lid) fun _ => (f <$> p).bind fin := by
  refine congrArg (Prog.call (Call.acquire lid)) (funext fun _ => ?_)
  have hleft := Prog.bind_assoc p (fun a => .call (.release lid) fun _ => .pure a) fun a => .pure (f a)
  have hright := Prog.bind_assoc p (fun a => .pure (f a)) fin
  refine hleft.trans (Eq.trans ?_ hright.symm)
  exact congrArg p.bind (funext fun a => (h a).symm)

private theorem map_guarded {α : Type} {lid : UInt64} {f : Option α → Out} {fin : Out → M Out}
    (h : ∀ a, fin (f (some a)) = .call (.release lid) fun _ => .pure (f (some a)))
    (hnone : fin (f none) = .pure (f none)) (p : M (Option α)) :
    f <$> guarded lid p = .call (.acquire lid) fun _ => (f <$> p).bind fin := by
  refine congrArg (Prog.call (Call.acquire lid)) (funext fun _ => ?_)
  refine (Prog.bind_assoc p _ fun a => .pure (f a)).trans
    (Eq.trans ?_ (Prog.bind_assoc p (fun a => .pure (f a)) fin).symm)
  refine congrArg p.bind (funext fun a => ?_)
  cases a with
  | none => exact hnone.symm
  | some a => exact (h a).symm

theorem call_eq {op : Op} (h : op.Locks) :
    op.call = .call (.acquire op.ino) fun _ => op.body.bind op.fin := by
  cases op with
  | is type ino => cases type <;> exact map_locked (fun _ => rfl) _
  | getfile ino => exact map_locked (fun _ => rfl) _
  | getdir ino => exact map_locked (fun _ => rfl) _
  | setattr ino size => exact map_locked (fun _ => rfl) _
  | write ino off data => exact map_locked (fun _ => rfl) _
  | read ino size off =>
    exact map_guarded (fun a => (rfl : fin (.read ino size off) (.bytes (some a)) = _)) rfl _
  | readdir ino => exact map_locked (fun _ => rfl) _
  | readlink ino => exact map_locked (fun _ => rfl) _
  | lookup parent name out => exact h.elim
  | create parent name out => exact map_locked (fun _ => rfl) _
  | mkdir parent name out => exact map_locked (fun _ => rfl) _

end Op

/-- What is left of a body, while the file holds `v`: it reads that file, it makes inodes, and if it writes
the file then last. -/
def Quiet (ino : UInt64) (v : Option File) : M Out → Prop
  | .pure _ => True
  | .call (.get id) next => id = ino ∧ Quiet ino v (next (.ok, text v))
  | .call (.getattr id) next => id = ino ∧
      ∀ a : Attr, a.type = typeOf v → a.size = UInt32.ofNat (text v).length → Quiet ino v (next (.ok, a))
  | .call (.create _) next => ∀ id, Quiet ino v (next (.ok, id))
  | .call (.put id _) next => id = ino ∧ ∃ out, next .ok = .pure out
  | _ => False

section
variable {files files' g : Files} {ino : UInt64} {v : Option File} {op : Op} {q : M Out} {u : Files}

theorem quiet_is {type : FileType} {f : Bool → M Out} (h : Quiet ino v (f (decide (typeOf v = type.code)))) :
    Quiet ino v (nlockIs type ino >>= f) := by
  refine ⟨rfl, fun a htype _ => ?_⟩
  rw [← htype] at h
  exact h

theorem quiet_lookup {f : YfsStatus × Bool × UInt64 → M Out} (h : ∀ r, Quiet ino v (f r)) (name : Str)
    (out : UInt64) : Quiet ino v (nlockLookup ino name false out >>= f) := by
  unfold nlockLookup
  rw [bind_assoc]
  refine quiet_is ?_
  split_ifs
  · rw [bind_assoc]
    refine ⟨rfl, ?_⟩
    cases hfind : findEntry (text v) name with
    | none =>
      simp only [hfind, Prog.bind, if_true]
      exact h _
    | some e =>
      simp only [hfind, Prog.bind, if_true]
      exact h _
  · exact h _

private theorem quiet_add (type : FileType) (name : Str) (out : UInt64) :
    Quiet ino v (.made <$> nlockAdd type ino name out) := by
  unfold nlockAdd
  rw [map_eq_pure_bind, bind_assoc]
  refine quiet_lookup (fun r => ?_) name out
  obtain ⟨_, found, id⟩ := r
  dsimp only
  split_ifs
  · trivial
  · exact fun new => ⟨rfl, rfl, _, rfl⟩

theorem quiet_body (h : op.Fits files) : Quiet op.ino (files op.ino) op.body := by
  cases op with
  | is type ino => exact ⟨rfl, fun _ _ _ => trivial⟩
  | getfile ino => exact ⟨rfl, fun _ _ _ => trivial⟩
  | getdir ino => exact ⟨rfl, fun _ _ _ => trivial⟩
  | setattr ino size => exact ⟨rfl, rfl, _, rfl⟩
  | write ino off data => exact ⟨rfl, rfl, _, rfl⟩
  | read ino size off => exact ⟨rfl, trivial⟩
  | readdir ino =>
    have hdir : typeOf (files ino) = FileType.dir.code := h
    change Quiet ino (files ino) (Out.list <$> nlockReaddir ino)
    unfold nlockReaddir
    rw [map_eq_pure_bind, bind_assoc]
    refine quiet_is ?_
    rw [decide_eq_true hdir]
    exact ⟨rfl, trivial⟩
  | readlink ino => exact ⟨rfl, trivial⟩
  | lookup parent name out =>
    change Quiet parent _ (Out.found <$> nlockLookup parent name false out)
    rw [map_eq_pure_bind]
    refine quiet_lookup (fun r => ?_) name out
    trivial
  | create parent name out => exact quiet_add .file name out
  | mkdir parent name out => exact quiet_add .dir name out

def joined (g u : Files) : Files := fun k => (u k).or (g k)

theorem joined_of_none {k : UInt64} (h : u k = none) : joined g u k = g k := by
  rw [joined, h, Option.none_or]

theorem joined_of_ne_none {k : UInt64} (h : u k ≠ none) : joined g u k = u k := by
  obtain ⟨x, hx⟩ := Option.ne_none_iff_exists'.1 h
  rw [joined, hx, Option.some_or]

private theorem joined_empty (g : Files) : joined g (fun _ => none) = g := funext fun _ => joined_of_none rfl

theorem joined_update (g u : Files) (k : UInt64) (x : File) :
    joined g (Function.update u k (some x)) = Function.update (joined g u) k (some x) := by
  funext j
  by_cases hj : j = k
  · subst hj
    rw [Function.update_self, joined, Function.update_self, Option.some_or]
  · rw [Function.update_of_ne hj, joined, Function.update_of_ne hj, joined]

/-- What a client has done under its lock so far: the file is still `v`, and the inodes in `u` are its own
and nobody else knows them. Whatever the rest does, the whole body does it at once, on any files that have
`v` and have room for `u`. -/
def Inside (op : Op) (q : M Out) (v : Option File) (u : Files) : Prop :=
  ∀ g : Files, g op.ino = v → (∀ k, u k ≠ none → g k = none) → ∀ a g',
    q.Exec Files.serve (joined g u) a g' → op.body.Exec Files.serve g a g'

theorem inside_body (op : Op) (v : Option File) : Inside op op.body v fun _ => none := by
  intro g _ _ a g' hexec
  rwa [joined_empty] at hexec

theorem joined_ino (hv : v ≠ none) (hg : g ino = v) (hu : ∀ k, u k ≠ none → g k = none) :
    joined g u ino = v := by
  have hnone : u ino = none := by
    by_contra hne
    exact hv (hg.symm.trans (hu ino hne))
  rw [joined_of_none hnone, hg]

theorem Inside.get {next : Reply (.get op.ino) → M Out} (h : Inside op (.call (.get op.ino) next) v u)
    (hv : v ≠ none) : Inside op (next (.ok, text v)) v u := by
  intro g hg hu a g' hexec
  refine h g hg hu a g' ⟨_, joined g u, ⟨?_, rfl⟩, hexec⟩
  rw [joined_ino hv hg hu]

theorem Inside.getattr {next : Reply (.getattr op.ino) → M Out} {a : Attr}
    (h : Inside op (.call (.getattr op.ino) next) v u) (hv : v ≠ none) (htype : a.type = typeOf v)
    (hsize : a.size = UInt32.ofNat (text v).length) : Inside op (next (.ok, a)) v u := by
  intro g hg hu o g' hexec
  refine h g hg hu o g' ⟨(.ok, a), joined g u, ⟨rfl, ?_, ?_, rfl⟩, hexec⟩
  · rw [joined_ino hv hg hu]
    exact htype
  · rw [joined_ino hv hg hu]
    exact hsize

theorem Inside.create {type : UInt32} {next : Reply (.create type) → M Out} {id : UInt64}
    (h : Inside op (.call (.create type) next) v u) (hid : u id = none) :
    Inside op (next (.ok, id)) v (Function.update u id (some (type, []))) := by
  intro g hg hu a g' hexec
  have hnew : g id = none := hu id (by rw [Function.update_self]; exact Option.some_ne_none _)
  have hold : ∀ k, u k ≠ none → g k = none := by
    intro k hk
    have hne : k ≠ id := by
      rintro rfl
      exact hk hid
    refine hu k ?_
    rwa [Function.update_of_ne hne]
  refine h g hg hold a g' ⟨(.ok, id), _, ⟨rfl, ?_, rfl⟩, ?_⟩
  · rw [joined_of_none hid, hnew]
  · rw [← joined_update]
    exact hexec

end

end Yfs.Client.Atomic
