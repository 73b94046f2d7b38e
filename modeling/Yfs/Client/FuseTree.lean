import Yfs.Client.Content
import Yfs.Client.Fuse
import Yfs.Client.Unlink

/-! What the file system is for: a tree of files, directories and links, and how it answers the requests of
the kernel. The extent server keeps a directory as a text; here it is a list of entries. -/
namespace Yfs.Client.Fuse
open Yfs.Lib Yfs.Extent

inductive Node where
  | file (content : Str)
  | dir (entries : List (Str × UInt64))
  | link (target : Str)

namespace Node

def type : Node → FileType
  | .file _ => .file
  | .dir _ => .dir
  | .link _ => .symlink

def bytes : Node → Str
  | .file content => content
  | .dir l => build l
  | .link target => target

def mode : Node → UInt32
  | .file _ => regularMode
  | .dir _ => directoryMode
  | .link _ => linkMode

def nlink : Node → ℕ
  | .dir _ => 2
  | _ => 1

def size : Node → ℕ
  | .file content => content.length
  | .dir _ => 0
  | .link target => target.length

end Node

abbrev Tree := UInt64 → Option Node

namespace Tree

def files (tree : Tree) : Files := fun id => (tree id).map fun node => (node.type.code, node.bytes)

def set (tree : Tree) (id : UInt64) (node : Node) : Tree := Function.update tree id (some node)

def cut (tree : Tree) (id : UInt64) : Tree := Function.update tree id none

def Lists (tree : Tree) (d : UInt64) (e : Str × UInt64) : Prop := ∃ l, tree d = some (.dir l) ∧ e ∈ l

def find (tree : Tree) (parent : UInt64) (name : Str) : Option UInt64 :=
  match tree parent with
  | some (.dir l) => (l.find? fun e => e.1 = name).map Prod.snd
  | _ => none

def enter (tree : Tree) (parent : UInt64) (l : List (Str × UInt64)) (name : Str) (ino : UInt64)
    (node : Node) : Tree := (tree.set ino node).set parent (.dir (l ++ [(name, ino)]))

def remove (tree : Tree) (parent : UInt64) (l : List (Str × UInt64)) (name : Str) (ino : UInt64) : Tree :=
  (tree.set parent (.dir (l.filter fun e => e.1 ≠ name))).cut ino

end Tree

/-- The attributes of a node. The times are left open. -/
structure Stat.Describes (st : Stat) (ino : UInt64) (node : Node) : Prop where
  ino : st.ino = ino
  mode : st.mode = node.mode
  nlink : st.nlink = node.nlink
  size : st.size.toNat = node.size

def dirbuf (f : DirentFormat) (l : List (Str × UInt64)) : Str :=
  l.foldl (fun b e => dirbufAdd f b e.1 e.2) []

inductive Answers (f : DirentFormat) (tree : Tree) : Request → Answer → Tree → Prop
  | getattr {ino : UInt64} {node : Node} {st : Stat} (hnode : tree ino = some node)
      (hst : st.Describes ino node) : Answers f tree (.getattr ino) (.attr st) tree
  | statfs : Answers f tree .statfs (.statfs 512 255) tree
  | openFile {ino : UInt64} : Answers f tree (.openFile ino) .opened tree
  | readdir {ino : UInt64} {l : List (Str × UInt64)} {size : ℕ} {off : Int64}
      (hdir : tree ino = some (.dir l)) :
      Answers f tree (.readdir ino size off) (.buf (((dirbuf f l).drop off.toInt.toNat).take size)) tree
  | readdirOther {ino : UInt64} {size : ℕ} {off : Int64} (hdir : ∀ l, tree ino ≠ some (.dir l)) :
      Answers f tree (.readdir ino size off) (.err (some .enotdir)) tree
  | lookup {parent ino : UInt64} {name : Str} {node : Node} {st : Stat}
      (hfind : tree.find parent name = some ino) (hnode : tree ino = some node)
      (hst : st.Describes ino node) :
      Answers f tree (.lookup parent name) (.entry ⟨ino, st⟩) tree
  | lookupNone {parent : UInt64} {name : Str} (hfind : tree.find parent name = none) :
      Answers f tree (.lookup parent name) (.err (some .enoent)) tree
  | create {parent ino : UInt64} {name : Str} {l : List (Str × UInt64)} {st : Stat}
      (hdir : tree parent = some (.dir l)) (hfind : tree.find parent name = none) (hnew : tree ino = none)
      (hst : st.Describes ino (.file [])) :
      Answers f tree (.create parent name) (.create ⟨ino, st⟩) (tree.enter parent l name ino (.file []))
  | createExist {parent ino : UInt64} {name : Str} (hfind : tree.find parent name = some ino) :
      Answers f tree (.create parent name) (.err (some .eexist)) tree
  | mknod {parent ino : UInt64} {name : Str} {l : List (Str × UInt64)} {st : Stat}
      (hdir : tree parent = some (.dir l)) (hfind : tree.find parent name = none) (hnew : tree ino = none)
      (hst : st.Describes ino (.file [])) :
      Answers f tree (.mknod parent name) (.entry ⟨ino, st⟩) (tree.enter parent l name ino (.file []))
  | mknodExist {parent ino : UInt64} {name : Str} (hfind : tree.find parent name = some ino) :
      Answers f tree (.mknod parent name) (.err (some .eexist)) tree
  | mkdir {parent ino : UInt64} {name : Str} {l : List (Str × UInt64)} {st : Stat}
      (hdir : tree parent = some (.dir l)) (hfind : tree.find parent name = none) (hnew : tree ino = none)
      (hst : st.Describes ino (.dir [])) :
      Answers f tree (.mkdir parent name) (.entry ⟨ino, st⟩) (tree.enter parent l name ino (.dir []))
  | mkdirExist {parent ino : UInt64} {name : Str} (hfind : tree.find parent name = some ino) :
      Answers f tree (.mkdir parent name) (.err (some .eexist)) tree
  | symlink {parent ino : UInt64} {name target : Str} {l : List (Str × UInt64)} {st : Stat}
      (hdir : tree parent = some (.dir l)) (hfind : tree.find parent name = none) (hnew : tree ino = none)
      (hst : st.Describes ino (.link target)) :
      Answers f tree (.symlink target parent name) (.entry ⟨ino, st⟩)
        (tree.enter parent l name ino (.link target))
  | symlinkExist {parent ino : UInt64} {name target : Str} (hfind : tree.find parent name = some ino) :
      Answers f tree (.symlink target parent name) (.err (some .enotempty)) tree
  | read {ino size : UInt64} {off : Int64} {content : Str} (hfile : tree ino = some (.file content)) :
      Answers f tree (.read ino size off) (.buf ((content.drop off.toInt.toNat).take size.toNat)) tree
  | write {ino : UInt64} {data : Str} {off : ℕ} {content content' : Str}
      (hfile : tree ino = some (.file content))
      (hwrite : Image.ofContent content' = (Image.ofContent content).write off data) :
      -- the bytes of a gap are counted as written
      Answers f tree (.write ino data off) (.write (off - content.length + data.length))
        (tree.set ino (.file content'))
  | setattr {ino : UInt64} {size : ℕ} {toSet : UInt32} {content content' : Str} {st : Stat}
      (hset : setAttrSize &&& toSet ≠ 0) (hfile : tree ino = some (.file content))
      (hsize : Image.ofContent content' = (Image.ofContent content).truncate size)
      (hst : st.Describes ino (.file content')) :
      Answers f tree (.setattr ino size toSet) (.attr st) (tree.set ino (.file content'))
  | setattrOther {ino : UInt64} {size : ℕ} {toSet : UInt32} (hset : setAttrSize &&& toSet = 0) :
      Answers f tree (.setattr ino size toSet) (.err (some .enosys)) tree
  | unlink {parent ino : UInt64} {name : Str} {l : List (Str × UInt64)} (hdir : tree parent = some (.dir l))
      (hfind : tree.find parent name = some ino) :
      Answers f tree (.unlink parent name) (.err none) (tree.remove parent l name ino)
  | unlinkNone {parent : UInt64} {name : Str} (hfind : tree.find parent name = none) :
      Answers f tree (.unlink parent name) (.err (some .enoent)) tree
  | readlink {ino : UInt64} {target : Str} (hlink : tree ino = some (.link target)) :
      Answers f tree (.readlink ino) (.readlink target) tree

/-- The text of a directory can be read, a link is a C string, and an `int` can count all bytes. -/
def Node.Fits (node : Node) : Prop :=
  node.bytes.length < 2 ^ 31 ∧ match node with
    | .file _ => True
    | .dir l => Named l ∧ ∀ e ∈ l, (0 : UInt8) ∉ e.1
    | .link target => (0 : UInt8) ∉ target

/-- The inodes form a tree: what a directory lists is in use and listed nowhere else, and nobody lists
itself or the root. -/
structure Sound (tree : Tree) : Prop where
  root : ∃ l, tree 1 = some (.dir l)
  live : ∀ {d e}, tree.Lists d e → tree e.2 ≠ none
  once : ∀ {d d' e e'}, tree.Lists d e → tree.Lists d' e' → e.2 = e'.2 → d = d' ∧ e = e'
  apart : ∀ {d e}, tree.Lists d e → e.2 ≠ d ∧ e.2 ≠ 1
  fits : ∀ id node, tree id = some node → node.Fits

/-- A new entry for a directory: the name can be part of its text, there is an inum for it, and an `int` can
count the text with it. -/
structure Enterable (tree : Tree) (parent : UInt64) (name : Str) : Prop where
  dir : ∃ l, tree parent = some (.dir l) ∧ (build l).length + name.length + 22 < 2 ^ 31
  ne_nil : name ≠ []
  plain : semi ∉ name
  zero : (0 : UInt8) ∉ name
  free : ∃ ino, tree ino = none

/-- The requests that the tree has an answer to: the kernel asks for nodes that are there, and writes to and
reads from files, with sizes that an `int` can count. An `unlink` finds the name first at its own entry. -/
def Request.Valid (tree : Tree) : Request → Prop
  | .getattr ino => tree ino ≠ none
  | .statfs => True
  | .readdir ino _ off => tree ino ≠ none ∧ 0 ≤ off
  | .lookup _ _ => True
  | .create parent name => Enterable tree parent name
  | .mknod parent name => Enterable tree parent name
  | .openFile _ => True
  | .read ino _ off => (∃ content, tree ino = some (.file content)) ∧ 0 ≤ off ∧ off.toInt < 2 ^ 32
  | .write ino data off => (∃ content, tree ino = some (.file content)) ∧ off + data.length < 2 ^ 31
  | .setattr ino size toSet =>
    setAttrSize &&& toSet ≠ 0 → (∃ content, tree ino = some (.file content)) ∧ size < 2 ^ 31
  | .unlink parent name => ∀ l, tree parent = some (.dir l) → name ∈ l.map Prod.fst →
      Client.find (build l) name 0 = some (ownStart (build l) name)
  | .mkdir parent name => Enterable tree parent name
  | .symlink target parent name => Enterable tree parent name ∧ (0 : UInt8) ∉ target ∧ target.length < 2 ^ 31
  | .readlink ino => ∃ target, tree ino = some (.link target)

section
variable {tree : Tree} {id ino parent d : UInt64} {node node' : Node} {l : List (Str × UInt64)}
  {e : Str × UInt64} {name : Str}

def Node.empty : FileType → Node
  | .file => .file []
  | .dir => .dir []
  | .symlink => .link []

theorem Tree.files_of_some (h : tree id = some node) : tree.files id = some (node.type.code, node.bytes) := by
  rw [Tree.files, h, Option.map_some]

theorem Tree.files_eq_none : tree.files id = none ↔ tree id = none := Option.map_eq_none_iff

theorem Tree.set_self (tree : Tree) (id : UInt64) (node : Node) : tree.set id node id = some node :=
  Function.update_self _ _ _

theorem Tree.set_of_ne (tree : Tree) {id' : UInt64} (h : id' ≠ id) (node : Node) :
    tree.set id node id' = tree id' := Function.update_of_ne h _ _

theorem Tree.update_files (tree : Tree) (id : UInt64) (v : Option Node) :
    Function.update tree.files id (v.map fun node => (node.type.code, node.bytes)) =
      Tree.files (Function.update tree id v) := by
  funext k
  by_cases hk : k = id
  · rw [hk, Function.update_self, Tree.files, Function.update_self]
  · rw [Function.update_of_ne hk, Tree.files, Tree.files, Function.update_of_ne hk]

theorem Tree.files_put (h : tree id = some node) (node' : Node) (htype : node'.type = node.type) :
    tree.files.put id node'.bytes = (tree.set id node').files := by
  rw [Files.put_of_live (Tree.files_of_some h), ← htype]
  exact tree.update_files id (some node')

theorem Tree.files_grow (tree : Tree) (id : UInt64) (type : FileType) :
    tree.files.grow id type = (tree.set id (Node.empty type)).files := by
  refine Eq.trans ?_ (tree.update_files id (some (Node.empty type)))
  cases type <;> rfl

theorem Tree.files_cut (tree : Tree) (id : UInt64) : tree.files.drop id = (tree.cut id).files :=
  tree.update_files id none

theorem Tree.dir_files (h : tree id = some (.dir l)) : tree.files.dir id = some (build l) :=
  Files.dir_eq_some.2 (Tree.files_of_some h)

theorem Tree.dir_files_none (h : ∀ l, tree id ≠ some (.dir l)) : tree.files.dir id = none := by
  unfold Files.dir
  refine if_neg ?_
  cases hnode : tree id with
  | none =>
    rw [Tree.files_eq_none.2 hnode]
    decide
  | some node =>
    rw [Tree.files_of_some hnode]
    cases node with
    | file content => exact (by decide : FileType.file.code ≠ FileType.dir.code)
    | dir l => exact absurd hnode (h l)
    | link target => exact (by decide : FileType.symlink.code ≠ FileType.dir.code)

theorem Tree.find_of_dir (h : tree parent = some (.dir l)) (name : Str) :
    tree.find parent name = (l.find? fun e => e.1 = name).map Prod.snd := by
  rw [Tree.find, h]

theorem Tree.entry?_files (h : tree parent = some (.dir l)) (hl : ∀ e ∈ l, semi ∉ e.1) (name : Str) :
    tree.files.entry? parent name = (l.find? fun e => e.1 = name).map written := by
  rw [Files.entry?, Tree.dir_files h, Option.bind_some, findEntry_build hl]

theorem Tree.entry?_eq (hs : Sound tree) (parent : UInt64) (name : Str) :
    (tree.files.entry? parent name).map (fun e => n2i e.2) = tree.find parent name := by
  by_cases hdir : ∃ l, tree parent = some (.dir l)
  · obtain ⟨l, hl⟩ := hdir
    rw [Tree.entry?_files hl (hs.fits _ _ hl).2.1.plain, Tree.find_of_dir hl, Option.map_map]
    congr 1
    funext e
    exact n2i_filename e.2
  · have hnone : ∀ l, tree parent ≠ some (.dir l) := fun l hl => hdir ⟨l, hl⟩
    rw [Files.entry?, Tree.dir_files_none hnone, Option.bind_none, Option.map_none, Tree.find]
    split
    next l hl => exact absurd hl (hnone l)
    next => rfl

theorem Tree.lists_of_find (h : tree.find parent name = some ino) : tree.Lists parent (name, ino) := by
  unfold Tree.find at h
  split at h
  next l hl =>
    obtain ⟨e, he, rfl⟩ := Option.map_eq_some_iff.1 h
    have hname : e.1 = name := by simpa using List.find?_some he
    exact ⟨l, hl, hname ▸ List.mem_of_find?_eq_some he⟩
  next => cases h

theorem Tree.name_not_mem_of_find (hdir : tree parent = some (.dir l)) (h : tree.find parent name = none) :
    ∀ e ∈ l, e.1 ≠ name := by
  rw [Tree.find_of_dir hdir, Option.map_eq_none_iff, List.find?_eq_none] at h
  intro e he
  simpa using h e he

theorem Tree.lists_iff_mem (h : tree d = some (.dir l)) : tree.Lists d e ↔ e ∈ l := by
  constructor
  · rintro ⟨l', hl', he⟩
    rw [h] at hl'
    cases hl'
    exact he
  · intro he
    exact ⟨l, h, he⟩

theorem Tree.lists_set (h : ∀ l, tree id ≠ some (.dir l)) (h' : ∀ l, node ≠ .dir l) :
    (tree.set id node).Lists d e ↔ tree.Lists d e := by
  by_cases hd : d = id
  · subst hd
    refine iff_of_false ?_ ?_
    · rintro ⟨l, hl, -⟩
      rw [Tree.set_self] at hl
      exact h' l (Option.some.inj hl)
    · rintro ⟨l, hl, -⟩
      exact h l hl
  · unfold Tree.Lists
    rw [tree.set_of_ne hd]

theorem fits_set (h : ∀ k node, tree k = some node → node.Fits) (hfits : node.Fits) (id k : UInt64)
    (node' : Node) (hk : tree.set id node k = some node') : node'.Fits := by
  by_cases hid : k = id
  · rw [hid, Tree.set_self] at hk
    cases hk
    exact hfits
  · rw [tree.set_of_ne hid] at hk
    exact h k node' hk

theorem Sound.set_file (hs : Sound tree) {content content' : Str} (h : tree id = some (.file content))
    (hlen : content'.length < 2 ^ 31) : Sound (tree.set id (.file content')) := by
  have hold : ∀ l, tree id ≠ some (.dir l) := by
    intro l hl
    rw [h] at hl
    cases hl
  have hlists : ∀ {d e}, (tree.set id (.file content')).Lists d e ↔ tree.Lists d e :=
    Tree.lists_set hold fun l => Node.noConfusion
  constructor
  · obtain ⟨l, hl⟩ := hs.root
    have hne : (1 : UInt64) ≠ id := by
      rintro rfl
      exact hold l hl
    exact ⟨l, (tree.set_of_ne hne _).trans hl⟩
  · intro d e he
    by_cases hid : e.2 = id
    · rw [hid, Tree.set_self]
      exact Option.some_ne_none _
    · rw [tree.set_of_ne hid]
      exact hs.live (hlists.1 he)
  · exact fun he he' => hs.once (hlists.1 he) (hlists.1 he')
  · exact fun he => hs.apart (hlists.1 he)
  · have hfits : (Node.file content').Fits := ⟨hlen, trivial⟩
    exact fits_set hs.fits hfits id

theorem Tree.lists_enter (hdir : tree parent = some (.dir l)) (hnew : tree ino = none)
    (hempty : ∀ l', node = .dir l' → l' = []) :
    (tree.enter parent l name ino node).Lists d e ↔ tree.Lists d e ∨ d = parent ∧ e = (name, ino) := by
  have hne : ino ≠ parent := by
    rintro rfl
    rw [hnew] at hdir
    cases hdir
  by_cases hd : d = parent
  · subst hd
    have hself : tree.enter d l name ino node d = some (.dir (l ++ [(name, ino)])) := Tree.set_self _ _ _
    rw [Tree.lists_iff_mem hself, Tree.lists_iff_mem hdir, List.mem_append, List.mem_singleton,
      and_iff_right rfl]
  · have hother : tree.enter parent l name ino node d = tree.set ino node d := Tree.set_of_ne _ hd _
    rw [or_iff_left (fun h => hd h.1)]
    unfold Tree.Lists
    rw [hother]
    by_cases hino : d = ino
    · subst hino
      rw [Tree.set_self, hnew]
      refine iff_of_false ?_ ?_
      · rintro ⟨l', hl', he⟩
        rw [hempty l' (Option.some.inj hl')] at he
        cases he
      · rintro ⟨l', hl', -⟩
        cases hl'
    · rw [tree.set_of_ne hino]

private theorem length_build_concat_le (l : List (Str × UInt64)) (name : Str) (ino : UInt64) :
    (build (l ++ [(name, ino)])).length ≤ (build l).length + name.length + 22 := by
  have hnum := length_filename_le ino
  rw [← addEntry_build, addEntry]
  split_ifs
  · rw [length_entry]
    dsimp only
    omega
  · rw [List.length_append, List.length_cons, length_entry]
    dsimp only
    omega

theorem Sound.enter (hs : Sound tree) (he : Enterable tree parent name) (hdir : tree parent = some (.dir l))
    (hfind : tree.find parent name = none) (hnew : tree ino = none) (hfits : node.Fits)
    (hempty : ∀ l', node = .dir l' → l' = []) : Sound (tree.enter parent l name ino node) := by
  have hlists : ∀ {d e}, (tree.enter parent l name ino node).Lists d e ↔
      tree.Lists d e ∨ d = parent ∧ e = (name, ino) := Tree.lists_enter hdir hnew hempty
  have hne : ino ≠ parent := by
    rintro rfl
    rw [hnew] at hdir
    cases hdir
  have hlisted : ∀ {d e}, tree.Lists d e → e.2 ≠ ino := by
    intro d e hd heq
    exact hs.live hd (heq ▸ hnew)
  -- what is in use stays in use
  have hkeep : ∀ {k}, tree k ≠ none ∨ k = ino → tree.enter parent l name ino node k ≠ none := by
    intro k hk
    unfold Tree.enter Tree.set
    by_cases hp : k = parent
    · rw [hp, Function.update_self]
      exact Option.some_ne_none _
    · rw [Function.update_of_ne hp]
      by_cases hi : k = ino
      · rw [hi, Function.update_self]
        exact Option.some_ne_none _
      · rw [Function.update_of_ne hi]
        exact hk.resolve_right hi
  constructor
  · obtain ⟨l₁, hl₁⟩ := hs.root
    by_cases hp : (1 : UInt64) = parent
    · rw [hp]
      exact ⟨_, Tree.set_self _ _ _⟩
    · have hi : (1 : UInt64) ≠ ino := by
        rintro rfl
        rw [hnew] at hl₁
        cases hl₁
      exact ⟨l₁, (Tree.set_of_ne _ hp _).trans ((tree.set_of_ne hi _).trans hl₁)⟩
  · intro d e he
    rcases hlists.1 he with hold | ⟨-, rfl⟩
    · exact hkeep (.inl (hs.live hold))
    · exact hkeep (.inr rfl)
  · intro d d' e e' hd hd' heq
    rcases hlists.1 hd with hold | ⟨rfl, rfl⟩ <;> rcases hlists.1 hd' with hold' | ⟨rfl, rfl⟩
    · exact hs.once hold hold' heq
    · exact absurd heq (hlisted hold)
    · exact absurd heq.symm (hlisted hold')
    · exact ⟨rfl, rfl⟩
  · intro d e he
    rcases hlists.1 he with hold | ⟨rfl, rfl⟩
    · exact hs.apart hold
    · refine ⟨hne, ?_⟩
      rintro rfl
      obtain ⟨l₁, hl₁⟩ := hs.root
      rw [hnew] at hl₁
      cases hl₁
  · obtain ⟨l₁, hl₁, hroom⟩ := he.dir
    rw [hdir] at hl₁
    cases hl₁
    obtain ⟨-, hnamed, hzero⟩ := hs.fits _ _ hdir
    have hold := Tree.name_not_mem_of_find hdir hfind
    have hlist : (Node.dir (l ++ [(name, ino)])).Fits := by
      refine ⟨?_, ⟨hnamed.concat he.plain hold, ?_⟩, ?_⟩
      · exact (length_build_concat_le l name ino).trans_lt hroom
      · exact List.forall_mem_append.2 ⟨hnamed.ne_nil, List.forall_mem_singleton.2 he.ne_nil⟩
      · exact List.forall_mem_append.2 ⟨hzero, List.forall_mem_singleton.2 he.zero⟩
    exact fits_set (fits_set hs.fits hfits ino) hlist parent

theorem length_render_le {l₁ l₂ : List (Str × Str)} (h : l₁.Sublist l₂) :
    (render l₁).length ≤ (render l₂).length := by
  have hcons : ∀ a (l : List (Str × Str)), (render (a :: l)).length =
      (entry a).length + if l = [] then 0 else (render l).length + 1 := by
    intro a l
    split_ifs with hl
    · rw [hl, render, Nat.add_zero]
    · rw [render_cons a hl, List.length_append, List.length_cons]
  induction h with
  | slnil => exact le_rfl
  | @cons l₁ l₂ a h ih =>
    rw [hcons]
    split_ifs with hl
    · rw [hl] at ih
      exact ih.trans (Nat.zero_le _)
    · omega
  | @cons_cons l₁ l₂ a h ih =>
    rw [hcons, hcons]
    split_ifs with h₁ h₂ h₂
    · exact le_rfl
    · omega
    · rw [h₂] at h
      exact absurd (List.sublist_nil.1 h) h₁
    · omega

theorem Node.Fits.filter (h : (Node.dir l).Fits) (name : Str) :
    (Node.dir (l.filter fun e => e.1 ≠ name)).Fits := by
  obtain ⟨hlen, hnamed, hzero⟩ := h
  have hsub : (l.filter fun e => e.1 ≠ name).Sublist l := List.filter_sublist
  refine ⟨?_, ⟨⟨hnamed.distinct.sublist (hsub.map _), ?_⟩, ?_⟩, ?_⟩
  · refine lt_of_le_of_lt ?_ hlen
    change (build _).length ≤ (build l).length
    rw [build_eq_render, build_eq_render]
    exact length_render_le (hsub.map _)
  · exact fun e he => hnamed.plain e (hsub.subset he)
  · exact fun e he => hnamed.ne_nil e (hsub.subset he)
  · exact fun e he => hzero e (hsub.subset he)

theorem Tree.lists_remove (hdir : tree parent = some (.dir l)) :
    (tree.remove parent l name ino).Lists d e ↔
      d ≠ ino ∧ tree.Lists d e ∧ ¬(d = parent ∧ e.1 = name) := by
  by_cases hino : d = ino
  · refine iff_of_false ?_ fun h => h.1 hino
    rintro ⟨l', hl', -⟩
    rw [hino, Tree.remove, Tree.cut, Function.update_self] at hl'
    cases hl'
  · rw [and_iff_right hino]
    have hcut : tree.remove parent l name ino d =
        tree.set parent (.dir (l.filter fun e => e.1 ≠ name)) d := Function.update_of_ne hino _ _
    by_cases hd : d = parent
    · subst hd
      rw [Tree.set_self] at hcut
      rw [Tree.lists_iff_mem hcut, Tree.lists_iff_mem hdir, List.mem_filter]
      simp
    · rw [tree.set_of_ne hd] at hcut
      rw [and_iff_left fun h => hd h.1]
      unfold Tree.Lists
      rw [hcut]

theorem Sound.remove (hs : Sound tree) (hdir : tree parent = some (.dir l))
    (hlist : tree.Lists parent (name, ino)) : Sound (tree.remove parent l name ino) := by
  have hlists : ∀ {d e}, (tree.remove parent l name ino).Lists d e ↔
      d ≠ ino ∧ tree.Lists d e ∧ ¬(d = parent ∧ e.1 = name) := Tree.lists_remove hdir
  -- what is in use stays in use, the removed inode apart
  have hkeep : ∀ {k}, k ≠ ino → tree k ≠ none → tree.remove parent l name ino k ≠ none := by
    intro k hk hlive
    unfold Tree.remove Tree.cut
    rw [Function.update_of_ne hk]
    by_cases hp : k = parent
    · rw [hp, Tree.set_self]
      exact Option.some_ne_none _
    · rwa [tree.set_of_ne hp]
  constructor
  · obtain ⟨l₁, hl₁⟩ := hs.root
    have hroot : (1 : UInt64) ≠ ino := (hs.apart hlist).2.symm
    unfold Tree.remove Tree.cut
    rw [Function.update_of_ne hroot]
    by_cases hp : (1 : UInt64) = parent
    · rw [hp]
      exact ⟨_, Tree.set_self _ _ _⟩
    · exact ⟨l₁, (tree.set_of_ne hp _).trans hl₁⟩
  · intro d e he
    obtain ⟨-, hold, hother⟩ := hlists.1 he
    refine hkeep (fun heq => hother ?_) (hs.live hold)
    obtain ⟨hd, hename⟩ := hs.once hold hlist heq
    exact ⟨hd, congrArg Prod.fst hename⟩
  · exact fun he he' => hs.once (hlists.1 he).2.1 (hlists.1 he').2.1
  · exact fun he => hs.apart (hlists.1 he).2.1
  · intro k node hk
    unfold Tree.remove Tree.cut at hk
    by_cases hi : k = ino
    · rw [hi, Function.update_self] at hk
      cases hk
    · rw [Function.update_of_ne hi] at hk
      exact fits_set hs.fits ((hs.fits _ _ hdir).filter name) parent k node hk

end
end Yfs.Client.Fuse
