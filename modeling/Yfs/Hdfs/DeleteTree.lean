import Yfs.Client.Unlink
import Yfs.Hdfs.Paths

/-! `RecursiveDelete` on a finite tree of directories. It takes the names out one by one, as C strings: the
first one with a zero byte is not found, and what was taken out before it stays so. -/
namespace Yfs.Hdfs
open Yfs.Lib Yfs.Extent Yfs.Client

/-- A finite tree of inodes. A leaf is whatever is not a directory. -/
inductive DirTree where
  | leaf (ino : UInt64)
  | dir (ino : UInt64) (entries : List (Str × DirTree))

namespace DirTree

def ino : DirTree → UInt64
  | .leaf ino => ino
  | .dir ino _ => ino

mutual

def descendants : DirTree → List UInt64
  | .leaf _ => []
  | .dir _ l => inumsOf l

def inumsOf : List (Str × DirTree) → List UInt64
  | [] => []
  | (_, tree) :: l => tree.ino :: (tree.descendants ++ inumsOf l)

end

def inums (tree : DirTree) : List UInt64 := tree.ino :: tree.descendants

mutual

def height : DirTree → ℕ
  | .leaf _ => 1
  | .dir _ l => heightOf l + 1

def heightOf : List (Str × DirTree) → ℕ
  | [] => 0
  | (_, tree) :: l => max tree.height (heightOf l)

end

mutual

/-- The names below, in the order in which they are taken out. -/
def order : DirTree → List Str
  | .leaf _ => []
  | .dir _ l => orderOf l

def orderOf : List (Str × DirTree) → List Str
  | [] => []
  | (name, tree) :: l => tree.order ++ name :: orderOf l

end

mutual

/-- No name with a zero byte is, up to that byte, the name of a later entry of its directory. -/
def Clean : DirTree → Prop
  | .leaf _ => True
  | .dir _ l => AllClean l

def AllClean : List (Str × DirTree) → Prop
  | [] => True
  | (name, tree) :: l => ((0 : UInt8) ∈ name → ∀ e ∈ l, e.1 ≠ cStr name) ∧ tree.Clean ∧ AllClean l

end

def listing (l : List (Str × DirTree)) : List (Str × UInt64) := l.map fun e => (e.1, e.2.ino)

mutual

/-- The texts of the directories encode the tree, with names of some kind. -/
def StoredIn (files : Files) (ok : Str → Prop) : DirTree → Prop
  | .leaf ino => files.dir ino = none
  | .dir ino l => files.dir ino = some (Client.build (listing l)) ∧ AllStoredIn files ok l

def AllStoredIn (files : Files) (ok : Str → Prop) : List (Str × DirTree) → Prop
  | [] => True
  | (name, tree) :: l => ok name ∧ tree.StoredIn files ok ∧ AllStoredIn files ok l

end

end DirTree

/-- A name that can stand in a directory text and be passed on as a C string. -/
def PlainName (name : Str) : Prop := semi ∉ name ∧ (0 : UInt8) ∉ name

def clear (files : Files) (ino : UInt64) (below : List UInt64) : Files := fun id =>
  if id = ino then (files ino).map fun f => (f.1, []) else if id ∈ below then none else files id

def DirTree.cleared (files : Files) : DirTree → Files
  | .leaf _ => files
  | .dir ino l => clear files ino (inumsOf l)

section
variable {files files' : Files} {ok : Str → Prop}

namespace DirTree

theorem clear_nil {ino : UInt64} (h : files.dir ino = some []) : clear files ino [] = files := by
  funext id
  by_cases hid : id = ino
  · rw [clear, if_pos hid, hid, Files.dir_eq_some.1 h]
    rfl
  · rw [clear, if_neg hid, if_neg List.not_mem_nil]

theorem dir_clear {ino : UInt64} {text : Str} (h : files.dir ino = some text) (below : List UInt64) :
    (clear files ino below).dir ino = some [] := by
  rw [Files.dir_eq_some, clear, if_pos rfl, Files.dir_eq_some.1 h]
  rfl

theorem inumsOf_cons (name : Str) (tree : DirTree) (l : List (Str × DirTree)) :
    inumsOf ((name, tree) :: l) = tree.inums ++ inumsOf l := rfl

theorem dir_congr {id : UInt64} (h : files' id = files id) : files'.dir id = files.dir id := by
  rw [Files.dir, h, Files.dir]

mutual

theorem StoredIn.congr : ∀ {tree : DirTree}, (∀ id ∈ tree.inums, files' id = files id) →
    tree.StoredIn files ok → tree.StoredIn files' ok
  | .leaf ino, h, hstored => (dir_congr (h ino List.mem_cons_self)).trans hstored
  | .dir ino _, h, hstored =>
    ⟨(dir_congr (h ino List.mem_cons_self)).trans hstored.1,
      AllStoredIn.congr (fun id hid => h id (List.mem_cons_of_mem ino hid)) hstored.2⟩

theorem AllStoredIn.congr : ∀ {l : List (Str × DirTree)}, (∀ id ∈ inumsOf l, files' id = files id) →
    AllStoredIn files ok l → AllStoredIn files' ok l
  | [], _, _ => trivial
  | (_, tree) :: _, h, hstored =>
    ⟨hstored.1, StoredIn.congr (fun id hid => h id (List.mem_append_left _ hid)) hstored.2.1,
      AllStoredIn.congr (fun id hid => h id (List.mem_append_right tree.inums hid)) hstored.2.2⟩

end

theorem height_pos (tree : DirTree) : 0 < tree.height := by
  cases tree with
  | leaf => exact Nat.one_pos
  | dir => exact Nat.succ_pos _

theorem height_le_heightOf {e : Str × DirTree} {l : List (Str × DirTree)} (h : e ∈ l) :
    e.2.height ≤ heightOf l := by
  induction l with
  | nil => cases h
  | cons a l ih =>
    rcases List.mem_cons.1 h with rfl | h
    · exact Nat.le_max_left _ _
    · exact (ih h).trans (Nat.le_max_right _ _)

theorem orderOf_cons_ne_nil (e : Str × DirTree) (l : List (Str × DirTree)) : orderOf (e :: l) ≠ [] :=
  List.append_ne_nil_of_right_ne_nil _ (List.cons_ne_nil _ _)

theorem AllStoredIn.names {l : List (Str × DirTree)} (h : AllStoredIn files ok l) :
    ∀ e ∈ listing l, ok e.1 := by
  induction l with
  | nil => simp [listing]
  | cons e l ih =>
    intro a ha
    rcases List.mem_cons.1 ha with rfl | ha
    · exact h.1
    · exact ih h.2.2 a ha

end DirTree

section
variable {T : Type} {t : T} {w : World T} {ino : UInt64}

/-- What `unlink` stores when `l` is left. A text that begins with a zero byte is replaced. -/
def leftText (l : List (Str × UInt64)) : Str :=
  if (Client.build l).head? = some 0 then [] else Client.build l

theorem leftText_plain {l : List (Str × UInt64)} (h : ∀ e ∈ l, (0 : UInt8) ∉ e.1) :
    leftText l = Client.build l := by
  refine if_neg ?_
  rw [build_eq_render]
  apply head_render
  intro a ha
  obtain ⟨b, hb, rfl⟩ := List.mem_map.1 ha
  exact h b hb

theorem gives_unlink_first {e : Str × UInt64} {l : List (Str × UInt64)}
    (hdir : w.files.dir ino = some (Client.build (e :: l))) (hplain : ∀ a ∈ e :: l, semi ∉ a.1)
    (hzero : (0 : UInt8) ∉ e.1) :
    (NameNode.unlink ino e.1).Gives (World.serve t) w (some true)
      { w with files := (w.files.put ino (leftText l)).drop e.2 } := by
  have hentry : findEntry (Client.build (e :: l)) e.1 = some (written e) := by
    rw [findEntry_build hplain, List.find?_cons_of_pos (by simp), Option.map_some]
  have hnum : n2i (written e).2 = e.2 := n2i_filename e.2
  have hcut : unlinkText (Client.build (e :: l)) e.1 (n2i (written e).2) = some (leftText l) := by
    rw [leftText, build_eq_render, build_eq_render]
    exact unlinkText_found (e := written e) (find_first _ _) (by rw [hnum]; rfl) (.inl rfl)
  have hcall : (nlockUnlink ino e.1).Gives (World.serve t) w (some .ok)
      { w with files := (w.files.put ino (leftText l)).drop e.2 } := by
    intro r w'
    rw [exec_nlockUnlink hdir hentry hcut, hnum]
  unfold NameNode.unlink
  rw [cStr_eq_self hzero]
  exact hcall.bind (Prog.gives_pure _ _)

theorem shows_readdir_build {l : List (Str × UInt64)} (hdir : w.files.dir ino = some (Client.build l))
    (hplain : ∀ e ∈ l, semi ∉ e.1) (t : T) :
    Shows t (NameNode.readdir ino) w (true, l.map toDirent) := by
  have hread := shows_nlockReaddir hdir t
  rw [entries_build hplain, map_dirent, map_readBack_written] at hread
  exact hread.bind (shows_pure t w _)

theorem shows_unlink_absent {name : Str} (h : w.files.entry? ino (cStr name) = none) (t : T) :
    Shows t (NameNode.unlink ino name) w (some false) := by
  have hlookup : Shows t (nlockLookup ino (cStr name) false 0) w _ := shows_lookup t w ino (cStr name) false 0
  rw [Files.lookup, h] at hlookup
  have hcall : Shows t (nlockUnlink ino (cStr name)) w (some .noent) := hlookup.bind (shows_pure t w _)
  exact hcall.bind (shows_pure t w _)

theorem cleared_of_ne {tree : DirTree} {id : UInt64} (h : id ≠ tree.ino) (files : Files) :
    tree.cleared files id = if id ∈ tree.inums then none else files id := by
  have hmem : id ∈ tree.inums ↔ id ∈ tree.descendants := List.mem_cons.trans (or_iff_right h)
  simp only [hmem]
  cases tree with
  | leaf i => rfl
  | dir i l => exact if_neg h

theorem cleared_of_not_mem {tree : DirTree} {id : UInt64} (h : id ∉ tree.inums) (files : Files) :
    tree.cleared files id = files id := by
  have hne : id ≠ tree.ino := fun heq => h (heq ▸ List.mem_cons_self)
  rw [cleared_of_ne hne, if_neg h]

def DirTree.detach (files : Files) (ino : UInt64) (buf : Str) (tree : DirTree) : Files :=
  ((tree.cleared files).put ino buf).drop tree.ino

theorem detach_apply {tree : DirTree} (hnot : ino ∉ tree.inums) (buf : Str) (id : UInt64) :
    tree.detach files ino buf id =
      if id = ino then (files ino).map fun f => (f.1, buf)
      else if id ∈ tree.inums then none else files id := by
  have hne : ino ≠ tree.ino := fun heq => hnot (heq ▸ List.mem_cons_self)
  rw [DirTree.detach, Files.drop]
  by_cases hid : id = tree.ino
  · have hmem : tree.ino ∈ tree.inums := List.mem_cons_self
    rw [hid, Function.update_self, if_neg hne.symm, if_pos hmem]
  · rw [Function.update_of_ne hid, Files.put]
    by_cases hid' : id = ino
    · rw [hid', Function.update_self, if_pos rfl, cleared_of_not_mem hnot]
    · rw [Function.update_of_ne hid', if_neg hid', cleared_of_ne hid]

theorem dir_detach {tree : DirTree} (hnot : ino ∉ tree.inums) {text : Str}
    (hdir : files.dir ino = some text) (buf : Str) :
    Files.dir (tree.detach files ino buf) ino = some buf := by
  rw [Files.dir_eq_some, detach_apply hnot, if_pos rfl, Files.dir_eq_some.1 hdir]
  rfl

theorem clear_detach {tree : DirTree} (hnot : ino ∉ tree.inums) (buf : Str) (l : List UInt64) :
    clear (tree.detach files ino buf) ino l = clear files ino (tree.inums ++ l) := by
  funext id
  by_cases hid : id = ino
  · rw [clear, clear, if_pos hid, if_pos hid, detach_apply hnot, if_pos rfl]
    cases files ino <;> rfl
  · simp only [clear, detach_apply hnot, List.mem_append, if_neg hid]
    split_ifs <;> tauto

theorem gives_release_back {id : UInt64} (hfree : w.lock id = none) (files' : Files) :
    (perform (.release id)).Gives (World.serve t) ⟨files', Function.update w.lock id (some t)⟩ ()
      ⟨files', w.lock⟩ := by
  have hrelease := gives_release (t := t) (w := ⟨files', Function.update w.lock id (some t)⟩)
    (Function.update_self id (some t) w.lock)
  dsimp only at hrelease
  rwa [update_back hfree] at hrelease

/-- What holds of the first child of a directory while the others are still there. -/
structure FirstChild (t : T) (w : World T) (ino : UInt64) (tree : DirTree) (l : List (Str × DirTree)) :
    Prop where
  not_mem : ino ∉ tree.inums
  nodup : tree.inums.Nodup
  free : w.lock tree.ino = none
  below : ∀ id ∈ tree.descendants, Function.update w.lock tree.ino (some t) id = none
  same : ∀ buf, ∀ id ∈ DirTree.inumsOf l, tree.detach w.files ino buf id = w.files id
  rest : (ino :: DirTree.inumsOf l).Nodup
  locks : ∀ id ∈ DirTree.inumsOf l, w.lock id = none

theorem firstChild_of_nodup {name : Str} {tree : DirTree} {l : List (Str × DirTree)}
    (hnodup : (ino :: DirTree.inumsOf ((name, tree) :: l)).Nodup)
    (hlocks : ∀ id ∈ DirTree.inumsOf ((name, tree) :: l), w.lock id = none) (t : T) :
    FirstChild t w ino tree l := by
  rw [DirTree.inumsOf_cons] at hnodup hlocks
  obtain ⟨hino, hinums⟩ := List.nodup_cons.1 hnodup
  rw [List.mem_append, not_or] at hino
  obtain ⟨hown, hothers, hdisjoint⟩ := List.nodup_append.1 hinums
  refine ⟨hino.1, hown, hlocks _ (List.mem_append_left _ List.mem_cons_self), fun id hid => ?_,
    fun buf id hid => ?_, List.nodup_cons.2 ⟨hino.2, hothers⟩,
    fun id hid => hlocks id (List.mem_append_right _ hid)⟩
  · have hne : id ≠ tree.ino := fun heq => (List.nodup_cons.1 hown).1 (heq ▸ hid)
    exact (Function.update_of_ne hne _ _).trans
      (hlocks id (List.mem_append_left _ (List.mem_cons_of_mem _ hid)))
  · have hne : id ≠ ino := fun heq => hino.2 (heq ▸ hid)
    rw [detach_apply hino.1, if_neg hne, if_neg fun hmem => hdisjoint id hmem id hid rfl]

theorem gives_deleteEntries_cons {delete : UInt64 → M (Option Bool)} {name : Str} {tree : DirTree}
    {l : List (Str × DirTree)} (hnot : ino ∉ tree.inums) (hfree : w.lock tree.ino = none)
    (hdir : w.files.dir ino = some (Client.build (DirTree.listing ((name, tree) :: l))))
    (hplain : ∀ e ∈ DirTree.listing ((name, tree) :: l), semi ∉ e.1) (hzero : (0 : UInt8) ∉ name)
    (hdelete : (delete tree.ino).Gives (World.serve t)
      ⟨w.files, Function.update w.lock tree.ino (some t)⟩ (some true)
      ⟨tree.cleared w.files, Function.update w.lock tree.ino (some t)⟩) {r : Option Bool} {w' : World T}
    (hrest : (NameNode.deleteEntries delete ino ((DirTree.listing l).map toDirent)).Gives (World.serve t)
      ⟨tree.detach w.files ino (leftText (DirTree.listing l)), w.lock⟩ r w') :
    (NameNode.deleteEntries delete ino ((DirTree.listing ((name, tree) :: l)).map toDirent)).Gives
      (World.serve t) w r w' := by
  have hkeep : tree.cleared w.files ino = w.files ino := cleared_of_not_mem hnot w.files
  have hunlink := gives_unlink_first (t := t) (e := (name, tree.ino)) (l := DirTree.listing l)
    (w := ⟨tree.cleared w.files, Function.update w.lock tree.ino (some t)⟩)
    ((DirTree.dir_congr hkeep).trans hdir) hplain hzero
  exact (gives_acquire hfree).bind (hdelete.bind (hunlink.bind ((gives_release_back hfree _).bind hrest)))

/-- The loop of `RecursiveDelete`. At each turn the entry is the first one of the directory. -/
theorem gives_deleteEntries {delete : UInt64 → M (Option Bool)} {l : List (Str × DirTree)}
    (hdelete : ∀ e ∈ l, ∀ w : World T, e.2.StoredIn w.files PlainName → e.2.inums.Nodup →
      (∀ id ∈ e.2.descendants, w.lock id = none) → (delete e.2.ino).Gives (World.serve t) w (some true)
        { w with files := e.2.cleared w.files })
    (hdir : w.files.dir ino = some (Client.build (DirTree.listing l)))
    (hstored : DirTree.AllStoredIn w.files PlainName l) (hnodup : (ino :: DirTree.inumsOf l).Nodup)
    (hlocks : ∀ id ∈ DirTree.inumsOf l, w.lock id = none) :
    (NameNode.deleteEntries delete ino ((DirTree.listing l).map toDirent)).Gives (World.serve t) w (some true)
      { w with files := clear w.files ino (DirTree.inumsOf l) } := by
  induction l generalizing w with
  | nil =>
    rw [DirTree.inumsOf, DirTree.clear_nil hdir]
    exact Prog.gives_pure _ _
  | cons e l ih =>
    obtain ⟨name, tree⟩ := e
    obtain ⟨hname, htree, hrest⟩ := id hstored
    have hfirst := firstChild_of_nodup hnodup hlocks t
    have hchild := hdelete (name, tree) List.mem_cons_self
      ⟨w.files, Function.update w.lock tree.ino (some t)⟩ htree hfirst.nodup hfirst.below
    -- the other children are as before when the child is deleted and its entry is gone
    have hlater := ih (w := ⟨tree.detach w.files ino (Client.build (DirTree.listing l)), w.lock⟩)
      (fun e he => hdelete e (List.mem_cons_of_mem _ he)) (dir_detach hfirst.not_mem hdir _)
      (hrest.congr (hfirst.same _)) hfirst.rest hfirst.locks
    dsimp only at hlater
    rw [clear_detach hfirst.not_mem, ← leftText_plain fun e he => (hrest.names e he).2] at hlater
    exact gives_deleteEntries_cons hfirst.not_mem hfirst.free hdir (fun e he => (hstored.names e he).1)
      hname.2 hchild hlater

theorem gives_recursiveDelete {n : ℕ} {tree : DirTree} (hheight : tree.height ≤ n)
    (hstored : tree.StoredIn w.files PlainName) (hnodup : tree.inums.Nodup)
    (hlocks : ∀ id ∈ tree.descendants, w.lock id = none) :
    (NameNode.recursiveDelete n tree.ino).Gives (World.serve t) w (some true)
      { w with files := tree.cleared w.files } := by
  induction n generalizing tree w with
  | zero => exact absurd hheight (Nat.not_le.2 tree.height_pos)
  | succ n ih =>
    cases tree with
    | leaf ino =>
      have hisdir := shows_nlockIsdir t w ino
      rw [show w.files.dir ino = none from hstored] at hisdir
      exact Prog.Gives.bind hisdir (Prog.gives_pure _ _)
    | dir ino l =>
      obtain ⟨hdir, hall⟩ := hstored
      have hisdir := shows_nlockIsdir t w ino
      rw [hdir] at hisdir
      have hread := shows_readdir_build hdir (fun e he => (hall.names e he).1) t
      refine Prog.Gives.bind hisdir (Prog.Gives.bind hread ?_)
      apply gives_deleteEntries _ hdir hall hnodup hlocks
      intro e he w₁ htree hown hfree
      apply ih _ htree hown hfree
      exact (DirTree.height_le_heightOf he).trans (Nat.le_of_succ_le_succ hheight)

end

section
variable {T : Type} {t : T} {w : World T} {ino : UInt64}

theorem not_mem_cStr (name : Str) : (0 : UInt8) ∉ cStr name := by
  intro h
  have hne := List.mem_takeWhile_imp h
  simp at hne

mutual

theorem DirTree.StoredIn.plain : ∀ {tree : DirTree}, tree.StoredIn files (fun name => semi ∉ name) →
    (∀ name ∈ tree.order, (0 : UInt8) ∉ name) → tree.StoredIn files PlainName
  | .leaf _, h, _ => h
  | .dir _ _, h, hzero => ⟨h.1, DirTree.AllStoredIn.plain h.2 hzero⟩

theorem DirTree.AllStoredIn.plain : ∀ {l : List (Str × DirTree)},
    DirTree.AllStoredIn files (fun name => semi ∉ name) l →
    (∀ name ∈ DirTree.orderOf l, (0 : UInt8) ∉ name) → DirTree.AllStoredIn files PlainName l
  | [], _, _ => trivial
  | (name, tree) :: _, h, hzero =>
    ⟨⟨h.1, hzero name (List.mem_append_right tree.order List.mem_cons_self)⟩,
      DirTree.StoredIn.plain h.2.1 fun a ha => hzero a (List.mem_append_left _ ha),
      DirTree.AllStoredIn.plain h.2.2 fun a ha =>
        hzero a (List.mem_append_right tree.order (List.mem_cons_of_mem name ha))⟩

end

def weight (files : Files) (id : UInt64) : ℕ := ((files id).map fun f => f.2.length + 1).getD 0

/-- Nothing outside of `inums` has changed and nothing has grown. If the first name has a zero byte all is as
it was, and else something is gone. -/
structure PartDeleted (files files' : Files) (inums : List UInt64) (order : List Str) : Prop where
  others : ∀ id, id ∉ inums → files' id = files id
  le : ∀ id, weight files' id ≤ weight files id
  same : (∀ name ∈ order.head?, (0 : UInt8) ∈ name) → files' = files
  less : (∃ name ∈ order.head?, (0 : UInt8) ∉ name) → ∃ id, weight files' id < weight files id

theorem PartDeleted.weaken {files' : Files} {inums inums' : List UInt64} {order order' : List Str}
    (h : PartDeleted files files' inums order) (hinums : inums ⊆ inums')
    (hhead : order'.head? = order.head?) :
    PartDeleted files files' inums' order' where
  others := fun id hid => h.others id fun hmem => hid (hinums hmem)
  le := h.le
  same := by rw [hhead]; exact h.same
  less := by rw [hhead]; exact h.less

theorem length_build_pos (e : Str × UInt64) (l : List (Str × UInt64)) :
    (Client.build l).length < (Client.build (e :: l)).length := by
  rw [build_eq_render, build_eq_render, List.map_cons]
  cases l with
  | nil => simp [render, entry]
  | cons a l =>
    rw [List.map_cons, render]
    simp only [List.length_append, List.length_cons, entry]
    omega

private theorem weight_cleared_le (tree : DirTree) (id : UInt64) :
    weight (tree.cleared files) id ≤ weight files id := by
  cases tree with
  | leaf i => exact le_rfl
  | dir i l =>
    rw [weight, DirTree.cleared, clear]
    split_ifs with hid hmem
    · subst hid
      cases hfile : files id with
      | none => rw [weight, hfile]; rfl
      | some f =>
        rw [weight, hfile]
        exact Nat.succ_le_succ (Nat.zero_le _)
    · exact Nat.zero_le _
    · exact le_rfl

theorem partDeleted_cleared {tree : DirTree} (hstored : tree.StoredIn files (fun name => semi ∉ name))
    (hplain : ∀ name ∈ tree.order, (0 : UInt8) ∉ name) :
    PartDeleted files (tree.cleared files) tree.inums tree.order where
  others := fun id hid => cleared_of_not_mem hid files
  le := weight_cleared_le tree
  same := by
    intro hhead
    cases tree with
    | leaf i => rfl
    | dir i l =>
      cases l with
      | nil => exact DirTree.clear_nil hstored.1
      | cons e l =>
        have hname := List.head?_eq_some_head (DirTree.orderOf_cons_ne_nil e l)
        exact absurd (hhead _ hname) (hplain _ (List.mem_of_mem_head? hname))
  less := by
    rintro ⟨name, hname, -⟩
    cases tree with
    | leaf i => cases hname
    | dir i l =>
      cases l with
      | nil => cases hname
      | cons e l =>
        have hfile := Files.dir_eq_some.1 hstored.1
        have hlonger := length_build_pos (e.1, e.2.ino) (DirTree.listing l)
        refine ⟨i, ?_⟩
        rw [weight, weight, DirTree.cleared, clear, if_pos rfl, hfile]
        exact Nat.succ_lt_succ (Nat.zero_lt_of_lt hlonger)

theorem length_leftText_le (l : List (Str × UInt64)) : (leftText l).length ≤ (Client.build l).length := by
  rw [leftText]
  split_ifs
  · exact Nat.zero_le _
  · exact le_rfl

/-- Taking out an entry makes its directory smaller, and nothing larger. -/
theorem weight_detach {tree : DirTree} (hnot : ino ∉ tree.inums) {e : Str × UInt64} {l : List (Str × UInt64)}
    (hdir : files.dir ino = some (Client.build (e :: l))) :
    weight (tree.detach files ino (leftText l)) ino < weight files ino ∧
      ∀ id, weight (tree.detach files ino (leftText l)) id ≤ weight files id := by
  have hless : weight (tree.detach files ino (leftText l)) ino < weight files ino := by
    rw [weight, weight, detach_apply hnot, if_pos rfl, Files.dir_eq_some.1 hdir]
    exact Nat.succ_lt_succ ((length_leftText_le l).trans_lt (length_build_pos e l))
  refine ⟨hless, fun id => ?_⟩
  by_cases hid : id = ino
  · exact hid ▸ hless.le
  · rw [weight, detach_apply hnot, if_neg hid]
    split_ifs
    · exact Nat.zero_le _
    · exact le_rfl

/-- A tree without zero bytes is deleted, and then the name of its entry, which has one, is not found. -/
theorem partDeleted_absent {tree : DirTree} {name : Str}
    (hstored : tree.StoredIn files (fun name => semi ∉ name))
    (hplain : ∀ name ∈ tree.order, (0 : UInt8) ∉ name) (hzero : (0 : UInt8) ∈ name) (inums : List UInt64)
    (order : List Str) :
    PartDeleted files (tree.cleared files) (ino :: (tree.inums ++ inums)) (tree.order ++ name :: order) := by
  have hpart := partDeleted_cleared hstored hplain
  cases horder : tree.order with
  | nil =>
    rw [horder] at hpart
    rw [hpart.same fun a ha => by cases ha]
    refine ⟨fun _ _ => rfl, fun _ => le_rfl, fun _ => rfl, ?_⟩
    rintro ⟨a, ha, hnot⟩
    cases ha
    exact absurd hzero hnot
  | cons a order =>
    refine hpart.weaken (fun id hid => List.mem_cons_of_mem _ (List.mem_append_left _ hid)) ?_
    rw [horder]
    rfl

theorem partDeleted_detach {tree : DirTree} (hnot : ino ∉ tree.inums) {name : Str}
    {e : Str × UInt64} {l : List (Str × UInt64)} (hdir : files.dir ino = some (Client.build (e :: l)))
    (hplain : ∀ name ∈ tree.order, (0 : UInt8) ∉ name) (hzero : (0 : UInt8) ∉ name) {files' : Files}
    {inums : List UInt64} {order : List Str}
    (hpart : PartDeleted (tree.detach files ino (leftText l)) files' (ino :: inums) order) :
    PartDeleted files files' (ino :: (tree.inums ++ inums)) (tree.order ++ name :: order) := by
  obtain ⟨hless, hle⟩ := weight_detach hnot hdir
  constructor
  · intro id hid
    rw [List.mem_cons, List.mem_append, not_or, not_or] at hid
    rw [hpart.others id (by rw [List.mem_cons, not_or]; exact ⟨hid.1, hid.2.2⟩), detach_apply hnot,
      if_neg hid.1, if_neg hid.2.1]
  · exact fun id => (hpart.le id).trans (hle id)
  · -- the first name has no zero byte
    intro hall
    cases horder : tree.order with
    | nil =>
      rw [horder] at hall
      exact absurd (hall name rfl) hzero
    | cons a order =>
      rw [horder] at hall
      exact absurd (hall a rfl) (hplain a (horder ▸ List.mem_cons_self))
  · exact fun _ => ⟨ino, (hpart.le ino).trans_lt hless⟩

theorem gives_deleteEntries_failed {delete : UInt64 → M (Option Bool)} {tree : DirTree} {files' : Files}
    (hfree : w.lock tree.ino = none) (hdelete : (delete tree.ino).Gives (World.serve t)
      ⟨w.files, Function.update w.lock tree.ino (some t)⟩ (some false)
      ⟨files', Function.update w.lock tree.ino (some t)⟩) (name : Str) (l : List (Str × DirTree)) :
    (NameNode.deleteEntries delete ino ((DirTree.listing ((name, tree) :: l)).map toDirent)).Gives
      (World.serve t) w (some false) ⟨files', w.lock⟩ := by
  exact (gives_acquire hfree).bind
    (hdelete.bind ((gives_release_back hfree files').bind (Prog.gives_pure _ _)))

theorem gives_deleteEntries_absent {delete : UInt64 → M (Option Bool)} {tree : DirTree} {files' : Files}
    (hfree : w.lock tree.ino = none) (hdelete : (delete tree.ino).Gives (World.serve t)
      ⟨w.files, Function.update w.lock tree.ino (some t)⟩ (some true)
      ⟨files', Function.update w.lock tree.ino (some t)⟩) {name : Str}
    (habsent : files'.entry? ino (cStr name) = none) (l : List (Str × DirTree)) :
    (NameNode.deleteEntries delete ino ((DirTree.listing ((name, tree) :: l)).map toDirent)).Gives
      (World.serve t) w (some false) ⟨files', w.lock⟩ := by
  have hunlink : Shows t (NameNode.unlink ino name)
      ⟨files', Function.update w.lock tree.ino (some t)⟩ (some false) := shows_unlink_absent habsent t
  exact (gives_acquire hfree).bind (hdelete.bind (Prog.Gives.bind hunlink
    ((gives_release_back hfree files').bind (Prog.gives_pure _ _))))

def TextOf (text : Str) (l : List (Str × UInt64)) : Prop :=
  text = Client.build l ∨ text = [] ∧ (Client.build l).head? = some 0

theorem textOf_leftText (l : List (Str × UInt64)) : TextOf (leftText l) l := by
  rw [leftText]
  split_ifs with hhead
  · exact .inr ⟨rfl, hhead⟩
  · exact .inl rfl

private theorem findEntry_of_zero {text : Str} {e : Str × UInt64} {l : List (Str × UInt64)}
    (htext : TextOf text (e :: l))
    (hplain : ∀ a ∈ e :: l, semi ∉ a.1) (hzero : (0 : UInt8) ∈ e.1) (hclean : ∀ a ∈ l, a.1 ≠ cStr e.1) :
    findEntry text (cStr e.1) = none := by
  rcases htext with rfl | ⟨rfl, -⟩
  · rw [findEntry_build hplain, Option.map_eq_none_iff, List.find?_eq_none]
    intro a ha
    rcases List.mem_cons.1 ha with rfl | ha
    · have hne : a.1 ≠ cStr a.1 := fun heq => not_mem_cStr a.1 (heq ▸ hzero)
      simpa using hne
    · simpa using hclean a ha
  · rfl

theorem TextOf.eq_build {text : Str} {e : Str × UInt64} {l : List (Str × UInt64)} (h : TextOf text (e :: l))
    (hzero : (0 : UInt8) ∉ e.1) : text = Client.build (e :: l) := by
  rcases h with h | ⟨-, hhead⟩
  · exact h
  · rw [build_eq_render, List.map_cons] at hhead
    exact absurd hhead (head_render_cons hzero _)

/-- The loop of `RecursiveDelete` where some name has a zero byte: it stops at the first one. -/
theorem gives_deleteEntries_zero {delete : UInt64 → M (Option Bool)} {l : List (Str × DirTree)}
    (hdelete : ∀ e ∈ l, ∀ w : World T, e.2.StoredIn w.files PlainName → e.2.inums.Nodup →
      (∀ id ∈ e.2.descendants, w.lock id = none) → (delete e.2.ino).Gives (World.serve t) w (some true)
        { w with files := e.2.cleared w.files })
    (hzero : ∀ e ∈ l, ∀ w : World T, e.2.StoredIn w.files (fun name => semi ∉ name) → e.2.inums.Nodup →
      e.2.Clean → (∀ id ∈ e.2.descendants, w.lock id = none) → (∃ name ∈ e.2.order, (0 : UInt8) ∈ name) →
      ∃ files', (delete e.2.ino).Gives (World.serve t) w (some false) ⟨files', w.lock⟩ ∧
        PartDeleted w.files files' e.2.inums e.2.order)
    {text : Str} (hdir : w.files.dir ino = some text) (htext : TextOf text (DirTree.listing l))
    (hstored : DirTree.AllStoredIn w.files (fun name => semi ∉ name) l)
    (hnodup : (ino :: DirTree.inumsOf l).Nodup) (hclean : DirTree.AllClean l)
    (hlocks : ∀ id ∈ DirTree.inumsOf l, w.lock id = none)
    (hsome : ∃ name ∈ DirTree.orderOf l, (0 : UInt8) ∈ name) :
    ∃ files', (NameNode.deleteEntries delete ino ((DirTree.listing l).map toDirent)).Gives (World.serve t) w
        (some false) ⟨files', w.lock⟩ ∧
      PartDeleted w.files files' (ino :: DirTree.inumsOf l) (DirTree.orderOf l) := by
  induction l generalizing w text with
  | nil =>
    obtain ⟨name, hname, -⟩ := hsome
    cases hname
  | cons e l ih =>
    obtain ⟨name, tree⟩ := e
    obtain ⟨hname, htree, hrest⟩ := id hstored
    obtain ⟨hlater, htreeClean, hrestClean⟩ := hclean
    have hfirst := firstChild_of_nodup hnodup hlocks t
    rw [DirTree.inumsOf_cons]
    by_cases htreeZero : ∃ name ∈ tree.order, (0 : UInt8) ∈ name
    · -- the child is not deleted
      obtain ⟨files', hchild, hpart⟩ := hzero (name, tree) List.mem_cons_self
        ⟨w.files, Function.update w.lock tree.ino (some t)⟩ htree hfirst.nodup htreeClean
        hfirst.below htreeZero
      refine ⟨files', gives_deleteEntries_failed hfirst.free hchild name l, hpart.weaken ?_ ?_⟩
      · exact fun id hid => List.mem_cons_of_mem _ (List.mem_append_left _ hid)
      · obtain ⟨a, ha, -⟩ := htreeZero
        exact List.head?_append_of_ne_nil _ (List.ne_nil_of_mem ha)
    · have htreePlain : ∀ name ∈ tree.order, (0 : UInt8) ∉ name := fun a ha hin => htreeZero ⟨a, ha, hin⟩
      have hchild := hdelete (name, tree) List.mem_cons_self
        ⟨w.files, Function.update w.lock tree.ino (some t)⟩ (htree.plain htreePlain) hfirst.nodup
        hfirst.below
      have hplain : ∀ e ∈ DirTree.listing ((name, tree) :: l), semi ∉ e.1 := hstored.names
      by_cases hnameZero : (0 : UInt8) ∈ name
      · -- the child is deleted, but its name is not found
        have habsent : Files.entry? (tree.cleared w.files) ino (cStr name) = none := by
          rw [Files.entry?, DirTree.dir_congr (cleared_of_not_mem hfirst.not_mem w.files), hdir,
            Option.bind_some]
          refine findEntry_of_zero htext hplain hnameZero fun a ha => ?_
          obtain ⟨e, he, rfl⟩ := List.mem_map.1 ha
          exact hlater hnameZero e he
        exact ⟨_, gives_deleteEntries_absent hfirst.free hchild habsent l,
          partDeleted_absent htree htreePlain hnameZero _ _⟩
      · -- the entry is taken out, and the loop goes on
        rw [htext.eq_build hnameZero] at hdir
        have hsome' : ∃ name ∈ DirTree.orderOf l, (0 : UInt8) ∈ name := by
          obtain ⟨a, ha, hin⟩ := hsome
          rw [DirTree.orderOf, List.mem_append, List.mem_cons] at ha
          rcases ha with ha | rfl | ha
          · exact absurd hin (htreePlain a ha)
          · exact absurd hin hnameZero
          · exact ⟨a, ha, hin⟩
        obtain ⟨files', hloop, hpart⟩ := ih
          (w := ⟨tree.detach w.files ino (leftText (DirTree.listing l)), w.lock⟩)
          (fun e he => hdelete e (List.mem_cons_of_mem _ he))
          (fun e he => hzero e (List.mem_cons_of_mem _ he))
          (dir_detach hfirst.not_mem hdir _) (textOf_leftText _) (hrest.congr (hfirst.same _)) hfirst.rest
          hrestClean hfirst.locks hsome'
        exact ⟨files',
          gives_deleteEntries_cons hfirst.not_mem hfirst.free hdir hplain hnameZero hchild hloop,
          partDeleted_detach hfirst.not_mem hdir htreePlain hnameZero hpart⟩

theorem gives_recursiveDelete_zero {n : ℕ} {tree : DirTree} (hheight : tree.height ≤ n)
    (hstored : tree.StoredIn w.files (fun name => semi ∉ name)) (hnodup : tree.inums.Nodup)
    (hclean : tree.Clean) (hlocks : ∀ id ∈ tree.descendants, w.lock id = none)
    (hsome : ∃ name ∈ tree.order, (0 : UInt8) ∈ name) :
    ∃ files', (NameNode.recursiveDelete n tree.ino).Gives (World.serve t) w (some false) ⟨files', w.lock⟩ ∧
      PartDeleted w.files files' tree.inums tree.order := by
  induction n generalizing tree w with
  | zero => exact absurd hheight (Nat.not_le.2 tree.height_pos)
  | succ n ih =>
    cases tree with
    | leaf ino =>
      obtain ⟨name, hname, -⟩ := hsome
      cases hname
    | dir ino l =>
      obtain ⟨hdir, hall⟩ := hstored
      have hdeep : ∀ e ∈ l, e.2.height ≤ n := fun e he =>
        (DirTree.height_le_heightOf he).trans (Nat.le_of_succ_le_succ hheight)
      have hisdir := shows_nlockIsdir t w ino
      rw [hdir] at hisdir
      have hread := shows_readdir_build hdir hall.names t
      obtain ⟨files', hloop, hpart⟩ := gives_deleteEntries_zero
        (fun e he w₁ htree hown hfree => gives_recursiveDelete (hdeep e he) htree hown hfree)
        (fun e he w₁ htree hown hcl hfree hz => ih (hdeep e he) htree hown hcl hfree hz)
        hdir (.inl rfl) hall hnodup hclean hlocks hsome
      exact ⟨files', Prog.Gives.bind hisdir (Prog.Gives.bind hread hloop), hpart⟩

end
end

/-- A directory was emptied: `below` is removed and nothing else has changed. -/
structure Emptied {T : Type} (w w' : World T) (ino : UInt64) (below : List UInt64) : Prop where
  content : w'.files.dir ino = some []
  removed : ∀ id ∈ below, w'.files id = none
  others : ∀ id, id ≠ ino → id ∉ below → w'.files id = w.files id
  locks : w'.lock = w.lock

private theorem emptied_clear {T : Type} {w : World T} {ino : UInt64} {below : List UInt64} {text : Str}
    (hdir : w.files.dir ino = some text) (h : ino ∉ below) :
    Emptied w { w with files := clear w.files ino below } ino below where
  content := DirTree.dir_clear hdir below
  removed := by
    intro id hid
    have hne : id ≠ ino := fun heq => h (heq ▸ hid)
    dsimp only
    rw [clear, if_neg hne, if_pos hid]
  others := by
    intro id hne hid
    dsimp only
    rw [clear, if_neg hne, if_neg hid]
  locks := rfl

/-- `RecursiveDelete` empties the directory and removes what is below it. It needs the locks of what it
removes and a recursion as deep as the tree. -/
theorem recursiveDelete_empties {T : Type} {t : T} {w : World T} {ino : UInt64} {l : List (Str × DirTree)}
    (hstored : (DirTree.dir ino l).StoredIn w.files PlainName) (hnodup : (DirTree.dir ino l).inums.Nodup)
    (hlocks : ∀ id ∈ DirTree.inumsOf l, w.lock id = none) {n : ℕ} (hn : (DirTree.dir ino l).height ≤ n) :
    ∃ w', (NameNode.recursiveDelete n ino).Gives (World.serve t) w (some true) w' ∧
      Emptied w w' ino (DirTree.inumsOf l) := by
  refine ⟨_, gives_recursiveDelete hn hstored hnodup hlocks, ?_⟩
  exact emptied_clear hstored.1 (List.nodup_cons.1 hnodup).1

def nested : DirTree := .dir 1 [([97], .dir 2 [([98], .leaf 3)])]

def nestedWorld : World Unit :=
  ⟨fun id => if id = 1 then some (FileType.dir.code, Client.build [([97], 2)])
    else if id = 2 then some (FileType.dir.code, Client.build [([98], 3)])
    else if id = 3 then some (FileType.file.code, [120]) else none, fun _ => none⟩

private theorem storedIn_nested : nested.StoredIn nestedWorld.files PlainName :=
  ⟨rfl, by simp [PlainName, semi], ⟨rfl, by simp [PlainName, semi], rfl, trivial⟩, trivial⟩

private theorem nodup_nested : nested.inums.Nodup := by decide

theorem recursiveDelete_empties_nested : nested.StoredIn nestedWorld.files PlainName ∧ nested.inums.Nodup ∧
    ∃ w', (NameNode.recursiveDelete 3 1).Gives (World.serve ()) nestedWorld (some true) w' ∧
      Emptied nestedWorld w' 1 [2, 3] := by
  refine ⟨storedIn_nested, nodup_nested, ?_⟩
  exact recursiveDelete_empties storedIn_nested nodup_nested (fun _ _ => rfl) (by decide)

def zeroByte : List (Str × UInt64) := [([97, 0, 98], 2)]

theorem gives_recursiveDelete_zeroByte (n : ℕ) : (NameNode.recursiveDelete (n + 2) 1).Gives (World.serve ())
    (rootOf zeroByte) (some false) (rootOf zeroByte) := by
  have hstored : (DirTree.dir 1 [([97, 0, 98], .leaf 2)]).StoredIn (rootOf zeroByte).files
      (fun name => semi ∉ name) := ⟨rfl, by decide, rfl, trivial⟩
  have hclean : (DirTree.dir 1 [([97, 0, 98], .leaf 2)]).Clean :=
    ⟨fun _ e he => absurd he List.not_mem_nil, trivial, trivial⟩
  obtain ⟨files', hdelete, hpart⟩ := gives_recursiveDelete_zero (t := ())
    (show (DirTree.dir 1 [([97, 0, 98], .leaf 2)]).height ≤ n + 2 from Nat.le_add_left 2 n) hstored
    (by decide) hclean (fun _ _ => rfl) ⟨[97, 0, 98], List.mem_cons_self, by decide⟩
  have hsame : files' = (rootOf zeroByte).files := hpart.same fun name hname => by
    cases hname
    decide
  rwa [hsame] at hdelete

theorem recursiveDelete_zero_byte :
    (DirTree.dir 1 [([97, 0, 98], .leaf 2)]).StoredIn (rootOf zeroByte).files (fun name => semi ∉ name) ∧
    (DirTree.dir 1 [([97, 0, 98], .leaf 2)]).inums.Nodup ∧
    ∀ n, ¬∃ w', (NameNode.recursiveDelete (n + 2) 1).Gives (World.serve ()) (rootOf zeroByte) (some true) w' ∧
      Emptied (rootOf zeroByte) w' 1 [2] := by
  refine ⟨⟨rfl, by decide, rfl, trivial⟩, by decide, ?_⟩
  rintro n ⟨w', htrue, -⟩
  cases ((gives_recursiveDelete_zeroByte n _ _).1 htrue.exec).1

end Yfs.Hdfs
