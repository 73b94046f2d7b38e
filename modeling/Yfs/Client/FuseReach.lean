import Yfs.Client.FuseSession
import Yfs.Client.Tree

/-! What a mount leaves on the extent server: the inodes in use are the ones that can be reached from the
root, each over one path. -/
namespace Yfs.Client.Fuse
open Yfs.Lib Yfs.Extent Relation

def Tree.Child (tree : Tree) (a b : UInt64) : Prop := ∃ name, tree.Lists a (name, b)

/-- Every node can be reached from the root. -/
def Spanned (tree : Tree) : Prop := ∀ id, tree id ≠ none → ReflTransGen tree.Child 1 id

/-- No directory is unlinked, as the kernel sees to it: there is no `rmdir` in `fuseserver_oper`. -/
def KeepsDirs (f : DirentFormat) (tree₀ : Tree) (log : List (Request × Answer)) : Prop :=
  ∀ before parent name a, before ++ [(.unlink parent name, a)] <+: log → ∀ tree ino l,
    Run f tree₀ before tree → tree.find parent name = some ino → tree ino ≠ some (.dir l)

section
variable {T : Type} {t : T} {f : DirentFormat} {tree tree' tree₀ : Tree} {q : Request} {a : Answer}
  {log : List (Request × Answer)} {w : World T} {id ino parent : UInt64} {node : Node}
  {l : List (Str × UInt64)} {name : Str}

/-- What an answer can do to the tree: nothing, a new content for a file, a new node with an entry, or the
end of a node and its entry. -/
theorem Answers.cases (h : Answers f tree q a tree') :
    tree' = tree ∨
    (∃ ino content content', tree ino = some (.file content) ∧ tree' = tree.set ino (.file content')) ∨
    (∃ parent l name ino node, tree parent = some (.dir l) ∧ tree.find parent name = none ∧
      tree ino = none ∧ (∀ l', node = .dir l' → l' = []) ∧ tree' = tree.enter parent l name ino node) ∨
    ∃ parent l name ino, q = .unlink parent name ∧ tree parent = some (.dir l) ∧
      tree.find parent name = some ino ∧ tree' = tree.remove parent l name ino := by
  cases h with
  | create hdir hfind hnew hst =>
    exact .inr (.inr (.inl ⟨_, _, _, _, _, hdir, hfind, hnew, fun l' => Node.noConfusion, rfl⟩))
  | mknod hdir hfind hnew hst =>
    exact .inr (.inr (.inl ⟨_, _, _, _, _, hdir, hfind, hnew, fun l' => Node.noConfusion, rfl⟩))
  | mkdir hdir hfind hnew hst =>
    refine .inr (.inr (.inl ⟨_, _, _, _, _, hdir, hfind, hnew, fun l' hl' => ?_, rfl⟩))
    exact (Node.dir.inj hl').symm
  | symlink hdir hfind hnew hst =>
    exact .inr (.inr (.inl ⟨_, _, _, _, _, hdir, hfind, hnew, fun l' => Node.noConfusion, rfl⟩))
  | write hfile hwrite => exact .inr (.inl ⟨_, _, _, hfile, rfl⟩)
  | setattr hset hfile hsize hst => exact .inr (.inl ⟨_, _, _, hfile, rfl⟩)
  | unlink hdir hfind => exact .inr (.inr (.inr ⟨_, _, _, _, rfl, hdir, hfind, rfl⟩))
  | _ => exact .inl rfl

theorem Spanned.set_file (h : Spanned tree) {content content' : Str}
    (hfile : tree ino = some (.file content)) : Spanned (tree.set ino (.file content')) := by
  have hold : ∀ l, tree ino ≠ some (.dir l) := by
    intro l hl
    rw [hfile] at hl
    cases hl
  have hchild : ∀ a b, tree.Child a b → (tree.set ino (.file content')).Child a b := by
    rintro a b ⟨name, hab⟩
    exact ⟨name, (Tree.lists_set hold fun l => Node.noConfusion).2 hab⟩
  intro id hid
  refine ReflTransGen.mono hchild 1 id (h id ?_)
  intro hnone
  by_cases heq : id = ino
  · rw [heq, hfile] at hnone
    cases hnone
  · exact hid ((tree.set_of_ne heq _).trans hnone)

theorem Spanned.enter (h : Spanned tree) (hdir : tree parent = some (.dir l)) (hnew : tree ino = none)
    (hempty : ∀ l', node = .dir l' → l' = []) (name : Str) : Spanned (tree.enter parent l name ino node) := by
  have hmono : ∀ id, ReflTransGen tree.Child 1 id →
      ReflTransGen (tree.enter parent l name ino node).Child 1 id := by
    intro id hid
    refine ReflTransGen.mono ?_ 1 id hid
    rintro a b ⟨name', hab⟩
    exact ⟨name', (Tree.lists_enter hdir hnew hempty).2 (.inl hab)⟩
  have hparent : ReflTransGen (tree.enter parent l name ino node).Child 1 parent := by
    refine hmono parent (h parent ?_)
    rw [hdir]
    exact Option.some_ne_none _
  intro id hid
  by_cases hino : id = ino
  · refine hparent.tail ⟨name, (Tree.lists_enter hdir hnew hempty).2 (.inr ⟨rfl, ?_⟩)⟩
    rw [hino]
  · by_cases hp : id = parent
    · rw [hp]
      exact hparent
    · refine hmono id (h id ?_)
      unfold Tree.enter at hid
      rwa [Tree.set_of_ne _ hp, Tree.set_of_ne _ hino] at hid

theorem Spanned.remove (h : Spanned tree) (hs : Sound tree) (hdir : tree parent = some (.dir l))
    (hfind : tree.find parent name = some ino) (hleaf : ∀ l', tree ino ≠ some (.dir l')) :
    Spanned (tree.remove parent l name ino) := by
  obtain ⟨-, hnamed, -⟩ := hs.fits _ _ hdir
  have hmem : (name, ino) ∈ l := (Tree.lists_iff_mem hdir).1 (Tree.lists_of_find hfind)
  have hnone : ∀ b, ¬tree.Child ino b := by
    rintro b ⟨name', l', hl', -⟩
    exact hleaf l' hl'
  have hkeep : ∀ a b, tree.Child a b → b ≠ ino → (tree.remove parent l name ino).Child a b := by
    rintro a b ⟨name', hab⟩ hb
    refine ⟨name', (Tree.lists_remove hdir).2 ⟨?_, hab, ?_⟩⟩
    · rintro rfl
      exact hnone b ⟨name', hab⟩
    · rintro ⟨rfl, rfl⟩
      have heq := List.inj_on_of_nodup_map hnamed.distinct ((Tree.lists_iff_mem hdir).1 hab) hmem rfl
      exact hb (congrArg Prod.snd heq)
  intro id hid
  have hne : id ≠ ino := by
    rintro rfl
    exact hid (Function.update_self _ _ _)
  refine reach_drop hkeep hnone (h id ?_) hne
  intro hdead
  refine hid ?_
  unfold Tree.remove Tree.cut
  rw [Function.update_of_ne hne]
  by_cases hp : id = parent
  · rw [hp, hdir] at hdead
    cases hdead
  · rwa [tree.set_of_ne hp]

theorem KeepsDirs.of_append {log' : List (Request × Answer)} (h : KeepsDirs f tree₀ (log ++ log')) :
    KeepsDirs f tree₀ log := by
  intro before parent name a hpre
  exact h before parent name a (hpre.trans (List.prefix_append log log'))

theorem Spanned.step (h : Spanned tree) (hs : Sound tree) (hans : Answers f tree q a tree')
    (hdirs : ∀ parent name, q = .unlink parent name → ∀ ino l, tree.find parent name = some ino →
      tree ino ≠ some (.dir l)) : Spanned tree' := by
  rcases hans.cases with rfl | ⟨ino, content, content', hfile, rfl⟩ |
    ⟨parent, l, name, ino, node, hdir, -, hnew, hempty, rfl⟩ | ⟨parent, l, name, ino, hq, hdir, hfind, rfl⟩
  · exact h
  · exact h.set_file hfile
  · exact h.enter hdir hnew hempty name
  · exact h.remove hs hdir hfind fun l' => hdirs parent name hq ino l' hfind

theorem listing_files (hs : Sound tree) (hdir : tree id = some (.dir l)) : tree.files.listing id = l := by
  rw [Files.listing, Tree.dir_files hdir, Option.getD_some, entries_build (hs.fits _ _ hdir).2.1.plain]
  exact map_readBack_written l

theorem child_files (hs : Sound tree) : tree.files.Child = tree.Child := by
  funext d b
  refine propext ?_
  rw [Files.Child, Files.children]
  by_cases hdir : ∃ l, tree d = some (.dir l)
  · obtain ⟨l, hdir⟩ := hdir
    rw [listing_files hs hdir, List.mem_map]
    constructor
    · rintro ⟨e, he, rfl⟩
      exact ⟨e.1, l, hdir, he⟩
    · rintro ⟨name, hlists⟩
      exact ⟨_, (Tree.lists_iff_mem hdir).1 hlists, rfl⟩
  · rw [listing_of_none (Tree.dir_files_none fun l hl => hdir ⟨l, hl⟩)]
    refine iff_of_false List.not_mem_nil ?_
    rintro ⟨name, l, hl, -⟩
    exact hdir ⟨l, hl⟩

private theorem nodup_children (hs : Sound tree) (d : UInt64) : (tree.files.children d).Nodup := by
  rw [Files.children]
  by_cases hdir : ∃ l, tree d = some (.dir l)
  · obtain ⟨l, hdir⟩ := hdir
    rw [listing_files hs hdir]
    refine List.Nodup.map_on ?_ (List.Nodup.of_map _ (hs.fits _ _ hdir).2.1.distinct)
    intro e he e' he' heq
    exact (hs.once ⟨l, hdir, he⟩ ⟨l, hdir, he'⟩ heq).2
  · rw [listing_of_none (Tree.dir_files_none fun l hl => hdir ⟨l, hl⟩)]
    exact List.nodup_nil

theorem forest_files (hs : Sound tree) (h : Spanned tree) :
    Forest tree.files.children tree.files.live 1 := by
  have hchild : ∀ {a b}, b ∈ tree.files.children a ↔ tree.Child a b := by
    intro a b
    exact Iff.of_eq (congrFun (congrFun (child_files hs) a) b)
  have honce : ∀ a a' b, tree.Child a b → tree.Child a' b → a = a' := by
    rintro a a' b ⟨name, hab⟩ ⟨name', hab'⟩
    exact (hs.once hab hab' rfl).1
  have hroot : ∀ a, ¬tree.Child a 1 := by
    rintro a ⟨name, ha⟩
    exact (hs.apart ha).2 rfl
  refine ⟨?_, fun a b hb => ?_, fun a ha => hroot a (hchild.1 ha), ?_, nodup_children hs, ?_⟩
  · obtain ⟨l, hl⟩ := hs.root
    intro hnone
    rw [Tree.files_eq_none, hl] at hnone
    cases hnone
  · obtain ⟨name, hab⟩ := hchild.1 hb
    exact fun hnone => hs.live hab (Tree.files_eq_none.1 hnone)
  · exact fun a a' b hb hb' => honce a a' b (hchild.1 hb) (hchild.1 hb')
  · intro x hx
    have hx' : TransGen tree.Child x x := TransGen.mono (fun a b => hchild.1) x x hx
    obtain ⟨b, ⟨name, l, hl, -⟩, -⟩ := TransGen.head'_iff.1 hx'
    refine not_cycle_of_reach honce hroot (h x ?_) hx'
    rw [hl]
    exact Option.some_ne_none _

/-- Behind every session in which no directory is unlinked, the directories on the extent server form one
tree, and the inodes in use are those that can be reached from its root: no entry dangles, no inode is
listed twice, and none is left behind. -/
theorem session_live_iff_reach (hs : Sound tree₀) (hspan : Spanned tree₀)
    (hsession : Session t f (mount T tree₀) log w) (hvalid : AllValid f tree₀ log)
    (hdirs : KeepsDirs f tree₀ log) :
    Forest w.files.children w.files.live 1 ∧ ∀ id, id ∈ w.files.live ↔ Reach w.files id := by
  obtain ⟨tree, -, rfl, htree, hI⟩ := hsession.keeps
    (I := fun log tree => KeepsDirs f tree₀ log → Spanned tree) hs (fun _ => hspan)
    (fun log q a tree tree' hrun htree hans ih hkeeps => by
      refine (ih hkeeps.of_append).step htree hans ?_
      rintro parent name rfl ino l
      exact hkeeps log parent name a (List.prefix_refl _) tree ino l hrun) hvalid
  have hspanned := hI hdirs
  have hforest := forest_files htree hspanned
  refine ⟨hforest, fun id => ⟨fun hlive => ?_, fun hreach => ?_⟩⟩
  · rw [Reach, child_files htree]
    exact hspanned id fun hnone => hlive (Tree.files_eq_none.2 hnone)
  · induction hreach with
    | refl => exact hforest.root_mem
    | tail _ hbc _ => exact hforest.mem_live _ _ hbc

end

private theorem spanned_rootTree : Spanned rootTree := by
  intro id hid
  unfold rootTree at hid
  split_ifs at hid with h
  · rw [h]
  · exact absurd rfl hid

theorem session_live_iff_reach_two : ∃ log w, log.map Prod.fst = [.mkdir 1 [97], .lookup 1 [97]] ∧
    Session () libfuse (mount Unit rootTree) log w ∧
    Forest w.files.children w.files.live 1 ∧ ∀ id, id ∈ w.files.live ↔ Reach w.files id := by
  obtain ⟨log, w, hlog, hsession, hvalid⟩ := exists_session_two (q := .lookup 1 [97]) fun _ _ _ => trivial
  refine ⟨log, w, hlog, hsession, session_live_iff_reach sound_rootTree spanned_rootTree hsession hvalid ?_⟩
  intro before parent name a hpre
  have hmem : Request.unlink parent name ∈ log.map Prod.fst :=
    List.mem_map_of_mem (hpre.subset (List.mem_append_right before (List.mem_singleton_self _)))
  rw [hlog] at hmem
  simp at hmem

end Yfs.Client.Fuse
