import Yfs.Client.Effects
import Yfs.Lib.Forest

/-! The directories as a forest: what making, removing and moving an entry does to it. -/
namespace Yfs.Client
open Yfs.Lib Yfs.Extent Relation

def Files.listing (files : Files) (id : UInt64) : List (Str × UInt64) :=
  (entries ((files.dir id).getD [])).map fun e => (e.1, n2i e.2)

def Files.children (files : Files) (id : UInt64) : List UInt64 := (files.listing id).map Prod.snd

abbrev Files.Child (files : Files) (a b : UInt64) : Prop := b ∈ files.children a

def Files.live (files : Files) : Set UInt64 := {id | files id ≠ none}

/-- Inum `id` can be reached from the root. -/
def Reach (files : Files) (id : UInt64) : Prop := ReflTransGen files.Child 1 id

def lines (l : List (Str × UInt64)) : Str := render (l.map fun e => (e.1, filename e.2))

def NeatName (name : Str) : Prop := name ≠ [] ∧ semi ∉ name ∧ (0 : UInt8) ∉ name

/-- Directories list names that can be looked up and inums in digits, and form a forest. -/
structure Orderly (files : Files) : Prop where
  root : files.dir 1 ≠ none
  text_eq : ∀ id dirList, files.dir id = some dirList → dirList = lines (files.listing id)
  neat : ∀ id, ∀ e ∈ files.listing id, NeatName e.1
  forest : Forest files.children files.live 1

section
variable {files : Files} {id parent ino : UInt64} {l : List (Str × UInt64)} {name : Str}

theorem plain_line {e : Str × UInt64} (h : NeatName e.1) : Plain (e.1, filename e.2) :=
  ⟨h.2.1, semi_not_mem_filename e.2, filename_ne_nil e.2⟩

theorem plain_lines (h : ∀ e ∈ l, NeatName e.1) : ∀ e ∈ l.map fun e => (e.1, filename e.2), Plain e := by
  intro e he
  obtain ⟨e', he', rfl⟩ := List.mem_map.1 he
  exact plain_line (h e' he')

theorem entries_lines (h : ∀ e ∈ l, NeatName e.1) : entries (lines l) = l.map fun e => (e.1, filename e.2) :=
  entries_render (plain_lines h)

theorem listing_eq (hdir : files.dir id = some (lines l)) (h : ∀ e ∈ l, NeatName e.1) :
    files.listing id = l := by
  rw [Files.listing, hdir, Option.getD_some, entries_lines h, List.map_map]
  have hid : ((fun e : Str × Str => (e.1, n2i e.2)) ∘ fun e : Str × UInt64 => (e.1, filename e.2)) =
      fun e => e := by
    funext e
    exact Prod.ext rfl (n2i_filename e.2)
  rw [hid, List.map_id']

theorem listing_of_none (hdir : files.dir id = none) : files.listing id = [] := by
  rw [Files.listing, hdir]
  rfl

theorem listing_congr {files' : Files} (h : files' id = files id) : files'.listing id = files.listing id := by
  rw [Files.listing, Files.dir, h, Files.listing, Files.dir]

theorem dir_of_dead (h : files id = none) : files.dir id = none := by
  rw [Files.dir, h]
  rfl

theorem children_grow (hfree : files ino = none) (type : FileType) :
    (files.grow ino type).children = files.children := by
  funext id
  unfold Files.children Files.listing
  rw [Files.dir_grow]
  by_cases hid : id = ino
  · rw [if_pos hid, hid, dir_of_dead hfree]
    cases type <;> rfl
  · rw [if_neg hid]

theorem children_drop (hleaf : files.children ino = []) : (files.drop ino).children = files.children := by
  funext id
  by_cases hid : id = ino
  · rw [hid, hleaf, Files.children, listing_of_none (by rw [Files.dir_drop, if_pos rfl])]
    rfl
  · unfold Files.children Files.listing
    rw [Files.dir_drop, if_neg hid]

theorem listing_put_of_ne {id' : UInt64} (hne : id' ≠ id) (buf : Str) :
    (files.put id buf).listing id' = files.listing id' := by
  rw [Files.listing, Files.dir_put, if_neg hne, Files.listing]

theorem listing_put_self (hdir : files.dir id ≠ none) (h : ∀ e ∈ l, NeatName e.1) :
    (files.put id (lines l)).listing id = l := by
  obtain ⟨dirList, hdir⟩ := Option.ne_none_iff_exists'.1 hdir
  apply listing_eq _ h
  rw [Files.dir_put, if_pos rfl, hdir, Option.map_some]

theorem children_put (hdir : files.dir id ≠ none) (h : ∀ e ∈ l, NeatName e.1) :
    (files.put id (lines l)).children = Function.update files.children id (l.map Prod.snd) := by
  funext id'
  unfold Files.children
  by_cases hid : id' = id
  · rw [hid, Function.update_self, listing_put_self hdir h]
  · rw [Function.update_of_ne hid, listing_put_of_ne hid]

theorem live_put (files : Files) (id : UInt64) (buf : Str) : (files.put id buf).live = files.live := by
  ext id'
  unfold Files.live Files.put
  by_cases hid : id' = id
  · simp [hid]
  · simp [Function.update_of_ne hid]

theorem live_grow (files : Files) (ino : UInt64) (type : FileType) :
    (files.grow ino type).live = insert ino files.live := by
  ext id
  unfold Files.live Files.grow
  by_cases hid : id = ino
  · simp [hid]
  · simp [hid]

theorem live_drop (files : Files) (ino : UInt64) : (files.drop ino).live = files.live \ {ino} := by
  ext id
  unfold Files.live Files.drop
  by_cases hid : id = ino
  · simp [hid]
  · simp [hid]

theorem mem_live_of_dir (h : files.dir id ≠ none) : id ∈ files.live := fun hdead => h (dir_of_dead hdead)

theorem Orderly.congr {files' : Files} (h : Orderly files) (hdir : files'.dir = files.dir)
    (hlive : files'.live = files.live) : Orderly files' := by
  have hlisting : files'.listing = files.listing := by
    unfold Files.listing
    rw [hdir]
  have hchildren : files'.children = files.children := by
    unfold Files.children
    rw [hlisting]
  constructor
  · rw [hdir]
    exact h.root
  · rw [hdir, hlisting]
    exact h.text_eq
  · rw [hlisting]
    exact h.neat
  · rw [hchildren, hlive]
    exact h.forest

theorem Orderly.put (h : Orderly files) (hdir : files.dir id ≠ none) (hl : ∀ e ∈ l, NeatName e.1)
    (hforest : Forest (Function.update files.children id (l.map Prod.snd)) files.live 1) :
    Orderly (files.put id (lines l)) := by
  have hself := listing_put_self hdir hl
  obtain ⟨old, hold⟩ := Option.ne_none_iff_exists'.1 hdir
  constructor
  · rw [Files.dir_put]
    split_ifs
    · simp [hold]
    · exact h.root
  · intro id' dirList hdirList
    rw [Files.dir_put, hold] at hdirList
    split_ifs at hdirList with hid
    · rw [hid, hself]
      exact (Option.some.inj hdirList).symm
    · rw [listing_put_of_ne hid]
      exact h.text_eq id' dirList hdirList
  · intro id'
    by_cases hid : id' = id
    · rw [hid, hself]
      exact hl
    · rw [listing_put_of_ne hid]
      exact h.neat id'
  · rw [children_put hdir hl, live_put]
    exact hforest

theorem Orderly.grow (h : Orderly files) (hfree : files ino = none) (type : FileType) :
    Orderly (files.grow ino type) := by
  have hnil : ∀ dirList, (files.grow ino type).dir ino = some dirList → dirList = [] := by
    intro dirList hdir
    rw [Files.dir_grow, if_pos rfl] at hdir
    split_ifs at hdir
    exact (Option.some.inj hdir).symm
  have hlisting : ∀ id, (files.grow ino type).listing id = files.listing id := by
    intro id
    unfold Files.listing
    rw [Files.dir_grow]
    by_cases hid : id = ino
    · rw [if_pos hid, hid, dir_of_dead hfree]
      cases type <;> rfl
    · rw [if_neg hid]
  constructor
  · have hne : (1 : UInt64) ≠ ino := by
      rintro rfl
      exact h.root (dir_of_dead hfree)
    rw [Files.dir_grow, if_neg hne]
    exact h.root
  · intro id dirList hdir
    rw [hlisting]
    by_cases hid : id = ino
    · subst hid
      rw [hnil dirList hdir, listing_of_none (dir_of_dead hfree)]
      rfl
    · rw [Files.dir_grow, if_neg hid] at hdir
      exact h.text_eq id dirList hdir
  · intro id
    rw [hlisting]
    exact h.neat id
  · rw [children_grow hfree, live_grow]
    exact h.forest.grow ino

theorem Orderly.drop (h : Orderly files) (hleaf : files.children ino = [])
    (hfree : ∀ a, ino ∉ files.children a) (hroot : ino ≠ 1) : Orderly (files.drop ino) := by
  have hlisting : ∀ id, id ≠ ino → (files.drop ino).listing id = files.listing id := by
    intro id hid
    rw [Files.listing, Files.dir_drop, if_neg hid, Files.listing]
  constructor
  · rw [Files.dir_drop, if_neg (Ne.symm hroot)]
    exact h.root
  · intro id dirList hdir
    rw [Files.dir_drop] at hdir
    split_ifs at hdir with hid
    rw [hlisting id hid]
    exact h.text_eq id dirList hdir
  · intro id e he
    by_cases hid : id = ino
    · rw [hid, listing_of_none (by rw [Files.dir_drop, if_pos rfl])] at he
      cases he
    · rw [hlisting id hid] at he
      exact h.neat id e he
  · rw [children_drop hleaf, live_drop]
    exact h.forest.drop hfree hroot

theorem Orderly.enter_eq (h : Orderly files) (hdir : files.dir parent ≠ none) (name : Str) (ino : UInt64) :
    files.enter parent (name, filename ino) =
      files.put parent (lines (files.listing parent ++ [(name, ino)])) := by
  obtain ⟨dirList, hdir⟩ := Option.ne_none_iff_exists'.1 hdir
  have htext : text (files parent) = lines (files.listing parent) := by
    rw [Files.dir_eq_text hdir]
    exact h.text_eq parent dirList hdir
  rw [Files.enter, htext, lines, addEntry_render, lines, List.map_append, List.map_singleton]

theorem neat_append {e : Str × UInt64} (hl : ∀ e ∈ l, NeatName e.1) (he : NeatName e.1) :
    ∀ e' ∈ l ++ [e], NeatName e'.1 := by
  intro e' he'
  rcases List.mem_append.1 he' with he' | he'
  · exact hl e' he'
  · rw [List.mem_singleton.1 he']
    exact he

theorem Orderly.children_enter (h : Orderly files) (hdir : files.dir parent ≠ none) (hname : NeatName name)
    (ino : UInt64) : (files.enter parent (name, filename ino)).children =
      Function.update files.children parent (files.children parent ++ [ino]) := by
  rw [h.enter_eq hdir, children_put hdir (neat_append (h.neat parent) hname), List.map_append,
    List.map_singleton]
  rfl

/-- An entry for an inode that has none; in a file that is no directory it is not one. -/
theorem Orderly.enter (h : Orderly files) (hname : NeatName name) (hlive : ino ∈ files.live) (hroot : ino ≠ 1)
    (hfree : ∀ a, ino ∉ files.children a) (hnot : ¬ReflTransGen files.Child ino parent) :
    Orderly (files.enter parent (name, filename ino)) := by
  by_cases hdir : files.dir parent = none
  · refine h.congr ?_ (live_put files parent _)
    funext id
    rw [Files.dir_enter]
    split_ifs with hid
    · rw [hid, hdir]
      rfl
    · rfl
  · rw [h.enter_eq hdir]
    apply h.put hdir (neat_append (h.neat parent) hname)
    rw [List.map_append, List.map_singleton]
    exact h.forest.attach hlive hroot hfree hnot

theorem Orderly.child_enter (h : Orderly files) (hname : NeatName name) {a b : UInt64}
    (hab : files.Child a b) : (files.enter parent (name, filename ino)).Child a b := by
  by_cases hdir : files.dir parent = none
  · rw [Files.Child, Files.children, Files.listing] at hab ⊢
    rw [Files.dir_enter]
    split_ifs with ha
    · rw [ha, hdir] at hab
      rw [hdir]
      exact hab
    · exact hab
  · rw [Files.Child, h.children_enter hdir hname, Forest.mem_update]
    by_cases ha : a = parent
    · exact .inl ⟨ha, List.mem_append_left _ (ha ▸ hab)⟩
    · exact .inr ⟨ha, hab⟩

/-- What stays when inodes and entries are added. -/
structure Grows (files files' : Files) : Prop where
  live : files.live ⊆ files'.live
  reach : ∀ id, Reach files id → Reach files' id

/-- What stays when inodes and entries are removed. -/
structure Shrinks (files files' : Files) : Prop where
  live : files'.live ⊆ files.live
  child : ∀ a b, files'.Child a b → files.Child a b
  reach : ∀ id, Reach files id → id ∈ files'.live → Reach files' id

theorem Grows.refl (files : Files) : Grows files files := ⟨subset_rfl, fun _ h => h⟩

theorem Grows.trans {files₁ files₂ : Files} (h : Grows files files₁) (h' : Grows files₁ files₂) :
    Grows files files₂ :=
  ⟨h.live.trans h'.live, fun id hid => h'.reach id (h.reach id hid)⟩

theorem Shrinks.refl (files : Files) : Shrinks files files := ⟨subset_rfl, fun _ _ h => h, fun _ h _ => h⟩

theorem Shrinks.trans {files₁ files₂ : Files} (h : Shrinks files files₁) (h' : Shrinks files₁ files₂) :
    Shrinks files files₂ :=
  ⟨h'.live.trans h.live, fun a b hab => h.child a b (h'.child a b hab),
    fun id hid hlive => h'.reach id (h.reach id hid (h'.live hlive)) hlive⟩

theorem Orderly.add (h : Orderly files) (hparent : parent ∈ files.live) (hname : NeatName name)
    (hfree : files ino = none) (type : FileType) :
    Orderly ((files.grow ino type).enter parent (name, filename ino)) ∧
      Grows files ((files.grow ino type).enter parent (name, filename ino)) ∧
        ino ∈ ((files.grow ino type).enter parent (name, filename ino)).live := by
  have hgrow := h.grow hfree type
  have hchildren := children_grow hfree type
  have hleaf : ∀ b, ¬(files.grow ino type).Child ino b := by
    intro b hb
    rw [Files.Child, hchildren, Files.children, listing_of_none (dir_of_dead hfree)] at hb
    cases hb
  have hlive : ((files.grow ino type).enter parent (name, filename ino)).live = insert ino files.live := by
    rw [Files.enter, live_put, live_grow]
  have hne : ino ≠ parent := by
    rintro rfl
    exact hparent hfree
  refine ⟨?_, ⟨by rw [hlive]; exact Set.subset_insert ino _, fun id hid => ?_⟩,
    by rw [hlive]; exact Set.mem_insert ino _⟩
  · apply hgrow.enter hname
    · rw [live_grow]
      exact Set.mem_insert ino _
    · rintro rfl
      exact h.root (dir_of_dead hfree)
    · intro a ha
      rw [hchildren] at ha
      exact h.forest.mem_live a ino ha hfree
    · intro habove
      exact hne (eq_of_leaf hleaf habove).symm
  · refine ReflTransGen.mono (fun a b hab => ?_) _ _ hid
    apply hgrow.child_enter hname
    rw [Files.Child, hchildren]
    exact hab

section
variable {pre post : List (Str × UInt64)} {e : Str × UInt64}

theorem neat_of_listing (h : Orderly files) (hlist : files.listing parent = pre ++ e :: post) :
    ∀ a ∈ pre ++ post, NeatName a.1 := by
  intro a ha
  apply h.neat parent
  rw [hlist]
  exact List.perm_middle.symm.subset (List.mem_cons_of_mem e ha)

theorem dir_of_listing (hlist : files.listing parent = pre ++ e :: post) : files.dir parent ≠ none := by
  intro hnone
  rw [listing_of_none hnone] at hlist
  simp at hlist

theorem children_of_listing (hlist : files.listing parent = pre ++ e :: post) :
    files.children parent = pre.map Prod.snd ++ e.2 :: post.map Prod.snd := by
  rw [Files.children, hlist, List.map_append, List.map_cons]

theorem Orderly.cut (h : Orderly files) (hlist : files.listing parent = pre ++ e :: post) :
    Orderly (files.put parent (lines (pre ++ post))) ∧
      (files.put parent (lines (pre ++ post))).children =
        Function.update files.children parent (pre.map Prod.snd ++ post.map Prod.snd) ∧
      ∀ a, e.2 ∉ (files.put parent (lines (pre ++ post))).children a := by
  have hneat := neat_of_listing h hlist
  have hdir := dir_of_listing hlist
  obtain ⟨hforest, hfree⟩ := h.forest.detach (children_of_listing hlist)
  have hchildren := children_put hdir hneat
  rw [List.map_append] at hchildren
  refine ⟨h.put hdir hneat ?_, hchildren, ?_⟩
  · rw [List.map_append]
    exact hforest
  · rw [hchildren]
    exact hfree

theorem child_of_cut {files' : Files} (hlist : files.listing parent = pre ++ e :: post)
    (hchildren : files'.children =
      Function.update files.children parent (pre.map Prod.snd ++ post.map Prod.snd)) {a b : UInt64}
    (hab : files'.Child a b) : files.Child a b := by
  rw [Files.Child, hchildren] at hab
  rcases Forest.mem_update.1 hab with ⟨rfl, hb⟩ | ⟨-, hb⟩
  · rw [Files.Child, children_of_listing hlist]
    exact List.perm_middle.symm.subset (List.mem_cons_of_mem e.2 hb)
  · exact hb

theorem Orderly.unlink (h : Orderly files) (hlist : files.listing parent = pre ++ e :: post)
    (hleaf : files.children e.2 = []) :
    Orderly ((files.put parent (lines (pre ++ post))).drop e.2) ∧
      Shrinks files ((files.put parent (lines (pre ++ post))).drop e.2) := by
  obtain ⟨hcut, hchildren, hfree⟩ := h.cut hlist
  have hmem : e.2 ∈ files.children parent := by
    rw [children_of_listing hlist]
    simp
  have hne : e.2 ≠ parent := by
    intro heq
    rw [heq] at hleaf
    rw [hleaf] at hmem
    cases hmem
  have hleaf' : (files.put parent (lines (pre ++ post))).children e.2 = [] := by
    rw [hchildren, Function.update_of_ne hne, hleaf]
  have hroot : e.2 ≠ 1 := fun heq => h.forest.root_not_mem parent (heq ▸ hmem)
  have hlive : ((files.put parent (lines (pre ++ post))).drop e.2).live = files.live \ {e.2} := by
    rw [live_drop, live_put]
  refine ⟨hcut.drop hleaf' hfree hroot, by rw [hlive]; exact Set.sdiff_subset, fun a b hab => ?_,
    fun id hid hlive' => ?_⟩
  · rw [Files.Child, children_drop hleaf'] at hab
    exact child_of_cut hlist hchildren hab
  · rw [hlive] at hlive'
    refine reach_drop (fun a b hab hb => ?_) (fun b hb => ?_) hid hlive'.2
    · rw [Files.Child, children_drop hleaf', hchildren]
      exact Forest.mem_detach (children_of_listing hlist) hab hb
    · rw [Files.Child, hleaf] at hb
      cases hb

/-- The last entry of a directory moves to a directory that is not below its inode. -/
theorem Orderly.move (h : Orderly files) {dst : UInt64} {dstName : Str}
    (hlist : files.listing parent = pre ++ [e])
    (hname : NeatName dstName) (hdir : files.dir dst ≠ none) (hdst : Reach files dst)
    (hnot : ¬ReflTransGen files.Child e.2 dst) :
    Orderly ((files.put parent (lines pre)).enter dst (dstName, filename e.2)) ∧
      Grows files ((files.put parent (lines pre)).enter dst (dstName, filename e.2)) := by
  obtain ⟨hcut, hchildren, hfree⟩ := h.cut hlist
  have hsub := fun a b (hab : (files.put parent (lines (pre ++ []))).Child a b) =>
    child_of_cut hlist hchildren hab
  rw [List.append_nil] at hcut hchildren hfree hsub
  have hmem : e.2 ∈ files.children parent := by
    rw [children_of_listing hlist]
    simp
  have hroot : e.2 ≠ 1 := fun heq => h.forest.root_not_mem parent (heq ▸ hmem)
  have hdir' : (files.put parent (lines pre)).dir dst ≠ none := by
    obtain ⟨dirList, hdir⟩ := Option.ne_none_iff_exists'.1 hdir
    rw [Files.dir_put]
    split_ifs with hid
    · rw [← hid, hdir]
      exact Option.some_ne_none _
    · rw [hdir]
      exact Option.some_ne_none _
  refine ⟨?_, ⟨?_, fun id hid => ?_⟩⟩
  · apply hcut.enter hname _ hroot hfree
    · intro habove
      exact hnot (ReflTransGen.mono hsub _ _ habove)
    · rw [live_put]
      exact h.forest.mem_live parent e.2 hmem
  · rw [Files.enter, live_put, live_put]
  · refine reach_move (fun a b hab hb => ?_) ?_ hdst hnot hid
    · apply hcut.child_enter hname
      rw [Files.Child, hchildren]
      exact Forest.mem_detach (children_of_listing hlist) hab hb
    · rw [Files.Child, hcut.children_enter hdir' hname, Function.update_self]
      simp

theorem Orderly.split (h : Orderly files) {e' : Str × Str} (hentry : files.entry? parent name = some e') :
    ∃ pre e post, files.listing parent = pre ++ e :: post ∧ e' = (e.1, filename e.2) ∧ e.1 = name ∧
      ∀ a ∈ pre, a.1 ≠ name := by
  obtain ⟨dirList, hdir, hfind⟩ := Option.bind_eq_some_iff.1 hentry
  rw [h.text_eq parent dirList hdir, findEntry, entries_lines (h.neat parent), List.find?_map] at hfind
  obtain ⟨e, hfirst, rfl⟩ := Option.map_eq_some_iff.1 hfind
  obtain ⟨hname, pre, post, hlist, hpre⟩ := List.find?_eq_some_iff_append.1 hfirst
  refine ⟨pre, e, post, hlist, rfl, by simpa using hname, fun a ha => by simpa using hpre a ha⟩

theorem Orderly.entry?_nil (h : Orderly files) (parent : UInt64) : files.entry? parent [] = none := by
  cases hentry : files.entry? parent [] with
  | none => rfl
  | some e' =>
    obtain ⟨pre, e, post, hlist, -, hnil, -⟩ := h.split hentry
    have hneat := h.neat parent e (by rw [hlist]; simp)
    exact absurd hnil hneat.1

theorem Orderly.entry?_eq (h : Orderly files) (hlist : files.listing parent = pre ++ e :: post)
    (hpre : ∀ a ∈ pre, a.1 ≠ e.1) : files.entry? parent e.1 = some (e.1, filename e.2) := by
  obtain ⟨dirList, hdir⟩ := Option.ne_none_iff_exists'.1 (dir_of_listing hlist)
  rw [Files.entry?, hdir, Option.bind_some, h.text_eq parent dirList hdir, findEntry,
    entries_lines (h.neat parent),
    List.find?_map, hlist, List.find?_append, List.find?_eq_none.2 fun a ha => by simpa using hpre a ha]
  simp

theorem text_of_listing (h : Orderly files) (hlist : files.listing parent = pre ++ e :: post) :
    text (files parent) = lines (pre ++ e :: post) := by
  obtain ⟨dirList, hdir⟩ := Option.ne_none_iff_exists'.1 (dir_of_listing hlist)
  rw [Files.dir_eq_text hdir, ← hlist]
  exact h.text_eq parent dirList hdir

theorem ownStart_lines (hneat : ∀ a ∈ pre ++ e :: post, NeatName a.1) (hpre : ∀ a ∈ pre, a.1 ≠ e.1) :
    ownStart (lines (pre ++ e :: post)) e.1 = startOf (pre.map fun e => (e.1, filename e.2)) := by
  have hplain := plain_lines hneat
  rw [List.map_append, List.map_cons] at hplain
  rw [lines, List.map_append, List.map_cons]
  apply ownStart_render hplain
  intro a ha
  obtain ⟨a', ha', rfl⟩ := List.mem_map.1 ha
  exact hpre a' ha'

private theorem unlinkText_lines (hneat : ∀ a ∈ pre ++ e :: post, NeatName a.1) (hpre : ∀ a ∈ pre, a.1 ≠ e.1)
    (hfind : find (lines (pre ++ e :: post)) e.1 0 = some (ownStart (lines (pre ++ e :: post)) e.1))
    (hlen : pre = [] ∨ (lines (pre ++ e :: post)).length < 2 ^ 64) :
    unlinkText (lines (pre ++ e :: post)) e.1 e.2 = some (lines (pre ++ post)) := by
  rw [ownStart_lines hneat hpre] at hfind
  rw [lines, List.map_append, List.map_cons] at hfind hlen ⊢
  rw [lines, List.map_append]
  refine unlinkText_render hfind rfl (hlen.imp (fun hnil => ?_) fun hlt => hlt) fun a ha => ?_
  · rw [hnil, List.map_nil]
  · rw [← List.map_append] at ha
    obtain ⟨a', ha', rfl⟩ := List.mem_map.1 ha
    exact (hneat a' (List.perm_middle.symm.subset (List.mem_cons_of_mem e ha'))).2.2

theorem renameText_lines (hneat : ∀ a ∈ pre ++ [e], NeatName a.1) (hpre : ∀ a ∈ pre, a.1 ≠ e.1)
    (hfind : find (lines (pre ++ [e])) e.1 0 = some (ownStart (lines (pre ++ [e])) e.1))
    (hlen : (lines (pre ++ [e])).length < 2 ^ 32 - 1) :
    renameText (lines (pre ++ [e])) e.1 = some (lines pre) := by
  rw [ownStart_lines hneat hpre] at hfind
  rw [lines, List.map_append, List.map_singleton] at hfind hlen ⊢
  exact renameText_last (plain_line (hneat e (by simp))) hfind hlen

theorem unlinked_eq (h : Orderly files) (hlist : files.listing parent = pre ++ e :: post)
    (hpre : ∀ a ∈ pre, a.1 ≠ e.1)
    (hfind : find (text (files parent)) e.1 0 = some (ownStart (text (files parent)) e.1))
    (hlen : pre = [] ∨ (text (files parent)).length < 2 ^ 64) {r : Option YfsStatus} {files' : Files}
    (hunlinked : Unlinked files parent e.1 r files') :
    r = some .ok ∧ files' = (files.put parent (lines (pre ++ post))).drop e.2 := by
  have hneat := h.neat parent
  rw [hlist] at hneat
  unfold Unlinked at hunlinked
  rw [text_of_listing h hlist] at hunlinked hfind hlen
  rw [h.entry?_eq hlist hpre] at hunlinked
  dsimp only at hunlinked
  rw [n2i_filename, unlinkText_lines hneat hpre hfind hlen] at hunlinked
  exact hunlinked

end

end
end Yfs.Client
