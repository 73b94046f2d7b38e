import Yfs.Client.FuseTree
import Yfs.Client.ReadWrite
import Yfs.Client.Settles

/-! The handlers of `fuse.cc` answer as the tree does: each of them, and a whole session of one mount. -/
namespace Yfs.Client.Fuse
open Yfs.Lib Yfs.Extent

def Follows (f : DirentFormat) (tree : Tree) (q : Request) (a : Option Answer) (files : Files) : Prop :=
  ∃ ans tree', a = some ans ∧ files = tree'.files ∧ Answers f tree q ans tree' ∧ Sound tree'

section
variable {T : Type} {t : T} {w : World T} {lock : UInt64 → Option T} {f : DirentFormat} {tree : Tree}
  {ino parent junk : UInt64} {node : Node} {l : List (Str × UInt64)} {name : Str}

private theorem toNat_size {n : ℕ} (h : n < 2 ^ 31) : (UInt32.ofNat n).toUInt64.toNat = n := by
  rw [UInt32.toNat_toUInt64, UInt32.toNat_ofNat', Nat.mod_eq_of_lt (by omega)]

theorem runs_fileStat (hlock : w.lock ino = none) (hlen : (text (w.files ino)).length < 2 ^ 31) (t : T)
    (mode : UInt32) :
    Runs t (fun r files => (∃ st : Stat, r = (.ok, st) ∧ st.ino = ino ∧ st.mode = mode ∧ st.nlink = 1 ∧
      st.size.toNat = (text (w.files ino)).length) ∧ files = w.files) (fileStat mode ino) w := by
  refine (runs_getInfo hlock t fileInfo).bind ?_
  rintro r files ⟨⟨a, rfl, -, hsize⟩, rfl⟩
  refine runs_pure ⟨⟨_, rfl, rfl, rfl, rfl, ?_⟩, rfl⟩
  change a.size.toUInt64.toNat = _
  rw [hsize, toNat_size hlen]

private theorem runs_dirStat (hlock : w.lock ino = none) (t : T) :
    Runs t (fun r files => (∃ st : Stat, r = (.ok, st) ∧ st.ino = ino ∧ st.mode = directoryMode ∧
      st.nlink = 2 ∧ st.size.toNat = 0) ∧ files = w.files) (dirStat ino) w := by
  refine (runs_getInfo hlock t dirInfo).bind ?_
  rintro r files ⟨⟨a, rfl, -, -⟩, rfl⟩
  exact runs_pure ⟨⟨_, rfl, rfl, rfl, rfl, rfl⟩, rfl⟩

theorem runs_stat (hs : Sound tree) (hnode : tree ino = some node) (hlock : lock ino = none) (t : T) :
    Runs t (fun r files => (∃ st : Stat, r = (.ok, st) ∧ st.Describes ino node) ∧ files = tree.files)
      (getattr ino) ⟨tree.files, lock⟩ := by
  have hfile := Tree.files_of_some hnode
  have hlen : (text (tree.files ino)).length < 2 ^ 31 := by
    rw [hfile]
    exact (hs.fits _ _ hnode).1
  have htype : typeOf (tree.files ino) = node.type.code := by
    rw [hfile]
    rfl
  have htext : text (tree.files ino) = node.bytes := by
    rw [hfile]
    rfl
  have his : ∀ type : FileType, Runs t (fun b files => b = decide (node.type = type) ∧ files = tree.files)
      (locked ino (nlockIs type ino)) ⟨tree.files, lock⟩ := by
    intro type
    refine (runs_is (w := ⟨tree.files, lock⟩) hlock t type).mono ?_
    rintro b files ⟨rfl, rfl⟩
    rw [htype]
    refine ⟨?_, rfl⟩
    cases node <;> cases type <;> rfl
  have hstat := fun mode => runs_fileStat (w := ⟨tree.files, lock⟩) hlock hlen t mode
  unfold getattr
  refine (his .file).bind_returns ((his .file).bind_returns ?_)
  cases node with
  | file content =>
    refine (hstat regularMode).mono ?_
    rintro r files ⟨⟨st, rfl, hino, hmode, hnlink, hsize⟩, rfl⟩
    exact ⟨⟨st, rfl, hino, hmode, hnlink, hsize.trans (congrArg List.length htext)⟩, rfl⟩
  | dir l =>
    refine (his .dir).bind_returns ((runs_dirStat (w := ⟨tree.files, lock⟩) hlock t).mono ?_)
    rintro r files ⟨⟨st, rfl, hino, hmode, hnlink, hsize⟩, rfl⟩
    exact ⟨⟨st, rfl, hino, hmode, hnlink, hsize⟩, rfl⟩
  | link target =>
    refine (his .dir).bind_returns ((hstat linkMode).mono ?_)
    rintro r files ⟨⟨st, rfl, hino, hmode, hnlink, hsize⟩, rfl⟩
    exact ⟨⟨st, rfl, hino, hmode, hnlink, hsize.trans (congrArg List.length htext)⟩, rfl⟩

abbrev mount (T : Type) (tree : Tree) : World T := ⟨tree.files, fun _ => none⟩

theorem runs_fuseserverGetattr (hs : Sound tree) (hv : tree ino ≠ none) (t : T) :
    Runs t (fun ans files => Follows f tree (.getattr ino) (some ans) files) (fuseserverGetattr ino)
      (mount T tree) := by
  obtain ⟨node, hnode⟩ := Option.ne_none_iff_exists'.1 hv
  refine (runs_stat hs hnode rfl t).bind ?_
  rintro r files ⟨⟨st, rfl, hst⟩, rfl⟩
  exact runs_pure ⟨.attr st, tree, rfl, rfl, .getattr hnode hst, hs⟩

theorem runs_fuseserverLookup (hs : Sound tree) (t : T) (junk : UInt64) :
    Runs t (fun ans files => Follows f tree (.lookup parent name) (some ans) files)
      (fuseserverLookup parent name junk) (mount T tree) := by
  refine (runs_nlockLookup t _ parent name junk).bind_returns ?_
  have hfind := Tree.entry?_eq hs parent name
  dsimp only
  rw [Files.lookup]
  cases hentry : tree.files.entry? parent name with
  | none =>
    rw [hentry] at hfind
    exact runs_pure ⟨_, tree, rfl, rfl, .lookupNone hfind.symm, hs⟩
  | some e =>
    rw [hentry] at hfind
    obtain ⟨node, hnode⟩ := Option.ne_none_iff_exists'.1 (hs.live (Tree.lists_of_find hfind.symm))
    refine (runs_stat hs hnode rfl t).bind ?_
    rintro r files ⟨⟨st, rfl, hst⟩, rfl⟩
    exact runs_pure ⟨_, tree, rfl, rfl, .lookup hfind.symm hnode hst, hs⟩

private theorem replyBufLimited_eq (buf : Str) {off : Int64} (hoff : 0 ≤ off) (size : ℕ) :
    replyBufLimited buf off size = (buf.drop off.toInt.toNat).take size := by
  rw [replyBufLimited, toNat_toUInt64 hoff]
  split_ifs with hlt
  · rw [← List.length_drop, List.take_eq_take_iff]
    omega
  · rw [List.drop_eq_nil_of_le (Nat.not_lt.1 hlt), List.take_nil]

theorem runs_fuseserverReaddir (hs : Sound tree) (hv : tree ino ≠ none) {off : Int64} (hoff : 0 ≤ off)
    (t : T) (size : ℕ) :
    Runs t (fun ans files => Follows f tree (.readdir ino size off) (some ans) files)
      (fuseserverReaddir f ino size off) (mount T tree) := by
  obtain ⟨node, hnode⟩ := Option.ne_none_iff_exists'.1 hv
  have htype : typeOf (tree.files ino) = node.type.code := by
    rw [Tree.files_of_some hnode]
    rfl
  refine (runs_is (w := mount T tree) rfl t .dir).bind_returns ?_
  dsimp only
  rw [htype]
  by_cases hdir : ∃ l, node = .dir l
  · obtain ⟨l, rfl⟩ := hdir
    refine (runs_readdir (w := mount T tree) (Tree.dir_files hnode) rfl t).bind_returns ?_
    refine runs_pure ⟨_, tree, rfl, rfl, ?_, hs⟩
    rw [entries_build (hs.fits _ _ hnode).2.1.plain, map_dirent, map_readBack_written, List.foldl_map,
      replyBufLimited_eq _ hoff]
    exact .readdir hnode
  · have hnot : node.type.code ≠ FileType.dir.code := by
      cases node with
      | file content => exact (by decide : FileType.file.code ≠ FileType.dir.code)
      | dir l => exact absurd ⟨l, rfl⟩ hdir
      | link target => exact (by decide : FileType.symlink.code ≠ FileType.dir.code)
    rw [decide_eq_false hnot]
    refine runs_pure ⟨_, tree, rfl, rfl, .readdirOther ?_, hs⟩
    intro l hl
    rw [hnode] at hl
    exact hdir ⟨l, Option.some.inj hl⟩

theorem files_enter (hdir : tree parent = some (.dir l)) (hnew : tree ino = none) (type : FileType)
    (name : Str) : (tree.files.grow ino type).enter parent (name, filename ino) =
      (tree.enter parent l name ino (Node.empty type)).files := by
  have hne : parent ≠ ino := by
    rintro rfl
    rw [hnew] at hdir
    cases hdir
  have hdir' : tree.set ino (Node.empty type) parent = some (.dir l) := (tree.set_of_ne hne _).trans hdir
  rw [tree.files_grow, Files.enter, Tree.files_of_some hdir']
  change Files.put _ parent (addEntry (build l) (name, filename ino)) = _
  rw [addEntry_build]
  exact Tree.files_put hdir' (.dir (l ++ [(name, ino)])) rfl

theorem Node.fits_empty (type : FileType) : (Node.empty type).Fits := by
  cases type with
  | dir => exact ⟨by decide, ⟨⟨List.nodup_nil, by simp⟩, by simp⟩, by simp⟩
  | file => exact ⟨by decide, trivial⟩
  | symlink => exact ⟨by decide, List.not_mem_nil⟩

theorem Node.empty_lists (type : FileType) (l' : List (Str × UInt64)) (h : Node.empty type = .dir l') :
    l' = [] := by
  cases type <;> cases h
  rfl

theorem Tree.added_cases (hs : Sound tree) (hdir : tree parent = some (.dir l)) {type : FileType}
    {r : YfsStatus × UInt64} {files : Files} (h : Added tree.files type parent name r files) :
    (∃ ino, tree.find parent name = some ino ∧ r.1 = .exist ∧ files = tree.files) ∨
      tree.find parent name = none ∧ tree r.2 = none ∧ r.1 = .ok ∧
        files = (tree.enter parent l name r.2 (Node.empty type)).files := by
  have hfind := Tree.entry?_eq hs parent name
  rcases h with ⟨e, hentry, hr, rfl⟩ | ⟨hentry, hnew, hr, rfl⟩
  · rw [hentry] at hfind
    exact .inl ⟨n2i e.2, hfind.symm, hr, rfl⟩
  · rw [hentry] at hfind
    have hnew := Tree.files_eq_none.1 hnew
    exact .inr ⟨hfind.symm, hnew, hr, files_enter hdir hnew type name⟩

theorem Enterable.exists_free (he : Enterable tree parent name) : ∃ id, tree.files id = none := by
  obtain ⟨id, hid⟩ := he.free
  exact ⟨id, Tree.files_eq_none.2 hid⟩

theorem Tree.enter_new (hdir : tree parent = some (.dir l)) (hnew : tree ino = none) (name : Str)
    (node : Node) : tree.enter parent l name ino node ino = some node := by
  have hne : ino ≠ parent := by
    rintro rfl
    rw [hnew] at hdir
    cases hdir
  exact (Tree.set_of_ne _ hne _).trans (tree.set_self ino node)

theorem runs_replyCreated {type : FileType} {q : Request} {reply : EntryParam → Answer} (hs : Sound tree)
    (he : Enterable tree parent name) (htype : type ≠ .symlink)
    (hexist : ∀ ino, tree.find parent name = some ino → Answers f tree q (.err (some .eexist)) tree)
    (hok : ∀ l ino st, tree parent = some (.dir l) → tree.find parent name = none → tree ino = none →
      st.Describes ino (Node.empty type) →
      Answers f tree q (reply ⟨ino, st⟩) (tree.enter parent l name ino (Node.empty type))) (t : T)
    (junk : UInt64) :
    Runs t (fun ans files => Follows f tree q (some ans) files) (replyCreated reply parent name type junk)
      (mount T tree) := by
  obtain ⟨l, hdir, -⟩ := he.dir
  have hadd : Runs t (Added tree.files type parent name)
      (if type = .file then create parent name junk else mkdir parent name junk) (mount T tree) := by
    cases type with
    | dir => exact runs_add (w := mount T tree) rfl he.exists_free t .dir name junk
    | file => exact runs_add (w := mount T tree) rfl he.exists_free t .file name junk
    | symlink => exact absurd rfl htype
  unfold replyCreated fuseserverCreatehelper
  rw [bind_assoc]
  refine hadd.bind ?_
  rintro ⟨r, ino⟩ files hadded
  rcases Tree.added_cases hs hdir hadded with ⟨old, hfind, hr, rfl⟩ | ⟨hfind, hnew, hr, rfl⟩
  · obtain rfl : r = .exist := hr
    exact runs_pure ⟨_, tree, rfl, rfl, hexist old hfind, hs⟩
  · obtain rfl : r = .ok := hr
    have hs' := hs.enter he hdir hfind hnew (Node.fits_empty type) (Node.empty_lists type)
    have hnode := Tree.enter_new hdir hnew name (Node.empty type)
    dsimp only
    rw [if_pos rfl, bind_assoc]
    refine (runs_stat hs' hnode rfl t).bind ?_
    rintro _ files ⟨⟨st, rfl, hst⟩, rfl⟩
    exact runs_pure ⟨_, _, rfl, rfl, hok l ino st hdir hfind hnew hst, hs'⟩

theorem runs_fuseserverCreate (hs : Sound tree) (he : Enterable tree parent name) (t : T) (junk : UInt64) :
    Runs t (fun ans files => Follows f tree (.create parent name) (some ans) files)
      (fuseserverCreate parent name junk) (mount T tree) :=
  runs_replyCreated hs he FileType.noConfusion (fun _ hfind => .createExist hfind)
    (fun _ _ _ hdir hfind hnew hst => .create hdir hfind hnew hst) t junk

theorem runs_fuseserverMknod (hs : Sound tree) (he : Enterable tree parent name) (t : T) (junk : UInt64) :
    Runs t (fun ans files => Follows f tree (.mknod parent name) (some ans) files)
      (fuseserverMknod parent name junk) (mount T tree) :=
  runs_replyCreated hs he FileType.noConfusion (fun _ hfind => .mknodExist hfind)
    (fun _ _ _ hdir hfind hnew hst => .mknod hdir hfind hnew hst) t junk

theorem runs_fuseserverMkdir (hs : Sound tree) (he : Enterable tree parent name) (t : T) (junk : UInt64) :
    Runs t (fun ans files => Follows f tree (.mkdir parent name) (some ans) files)
      (fuseserverMkdir parent name junk) (mount T tree) :=
  runs_replyCreated hs he FileType.noConfusion (fun _ hfind => .mkdirExist hfind)
    (fun _ _ _ hdir hfind hnew hst => .mkdir hdir hfind hnew hst) t junk

theorem Tree.enter_fill (hdir : tree parent = some (.dir l)) (hnew : tree ino = none) (name : Str)
    (node node' : Node) : (tree.enter parent l name ino node).set ino node' =
      tree.enter parent l name ino node' := by
  have hne : ino ≠ parent := by
    rintro rfl
    rw [hnew] at hdir
    cases hdir
  unfold Tree.enter Tree.set
  rw [Function.update_comm hne, Function.update_idem, Function.update_comm hne.symm]

theorem runs_fuseserverCreatelink {target : Str} (hs : Sound tree) (he : Enterable tree parent name)
    (hzero : (0 : UInt8) ∉ target) (hlen : target.length < 2 ^ 31) (t : T) (junk : UInt64) :
    Runs t (fun ans files => Follows f tree (.symlink target parent name) (some ans) files)
      (fuseserverCreatelink target parent name junk) (mount T tree) := by
  obtain ⟨l, hdir, -⟩ := he.dir
  have hfind := Tree.entry?_eq hs parent name
  have hkey : cStr name = name := cStr_eq_self he.zero
  refine (runs_createlink (w := mount T tree) rfl he.exists_free t name target junk).bind ?_
  rintro ⟨r, ino⟩ files hlinked
  unfold Linked at hlinked
  rw [hkey] at hlinked
  rcases hlinked with ⟨e, hentry, hr, rfl⟩ | ⟨hentry, hnew, hr, rfl⟩
  · obtain rfl : r = .exist := hr
    rw [hentry] at hfind
    exact runs_pure ⟨_, tree, rfl, rfl, .symlinkExist hfind.symm, hs⟩
  · obtain rfl : r = .ok := hr
    rw [hentry] at hfind
    have hnew : tree ino = none := Tree.files_eq_none.1 hnew
    have hfits : (Node.link target).Fits := ⟨hlen, hzero⟩
    have hs' := hs.enter he hdir hfind.symm hnew hfits fun l' => Node.noConfusion
    have hfiles : ((tree.files.grow ino .symlink).enter parent (name, filename ino)).put ino target =
        (tree.enter parent l name ino (.link target)).files := by
      rw [files_enter hdir hnew .symlink name,
        ← Tree.enter_fill hdir hnew name (Node.empty .symlink) (.link target)]
      exact Tree.files_put (Tree.enter_new hdir hnew name (Node.empty .symlink)) (.link target) rfl
    dsimp only at hfiles ⊢
    rw [hfiles, if_pos rfl]
    refine (runs_stat hs' (Tree.enter_new hdir hnew name _) rfl t).bind ?_
    rintro _ files ⟨⟨st, rfl, hst⟩, rfl⟩
    exact runs_pure ⟨_, _, rfl, rfl, .symlink hdir hfind.symm hnew hst, hs'⟩

theorem runs_fuseserverReadlink {target : Str} (hs : Sound tree) (hlink : tree ino = some (.link target))
    (t : T) : Runs t (fun ans files => Follows f tree (.readlink ino) (some ans) files)
      (fuseserverReadlink ino) (mount T tree) := by
  refine (runs_readlink (w := mount T tree) rfl t).bind_returns ?_
  have htext : text (tree.files ino) = target := by
    rw [Tree.files_of_some hlink]
    rfl
  refine runs_pure ⟨_, tree, rfl, rfl, ?_, hs⟩
  rw [htext, cStr_eq_self (hs.fits _ _ hlink).2]
  exact .readlink hlink

theorem runs_fuseserverRead {content : Str} {off : Int64} (hs : Sound tree)
    (hfile : tree ino = some (.file content)) (hoff : 0 ≤ off) (hlt : off.toInt < 2 ^ 32) (t : T)
    (size : UInt64) :
    Runs t (fun a files => Follows f tree (.read ino size off) a files) (fuseserverRead ino size off)
      (mount T tree) := by
  have htext : text (tree.files ino) = content := by
    rw [Tree.files_of_some hfile]
    rfl
  have hread : readAt (text (tree.files ino)) size off =
      some ((content.drop off.toInt.toNat).take size.toNat) := by
    have hlen : content.length < 2 ^ 31 := (hs.fits _ _ hfile).1
    rw [htext, readAt_eq_iff hlen size hoff, Nat.mod_eq_of_lt (by omega)]
    exact Nat.lt_or_ge _ _
  refine (runs_read (w := mount T tree) rfl hread t).bind_returns ?_
  exact runs_pure ⟨_, tree, rfl, rfl, .read hfile, hs⟩

private theorem length_writeAt (content : Str) (off : ℕ) (data : Str) :
    (writeAt content off data).length = max content.length (off + data.length) :=
  congrArg Image.size (Image.ofContent_writeAt content off data)

theorem runs_fuseserverWrite {content data : Str} {off : ℕ} (hs : Sound tree)
    (hfile : tree ino = some (.file content)) (hlt : off + data.length < 2 ^ 31) (t : T) :
    Runs t (fun ans files => Follows f tree (.write ino data off) (some ans) files)
      (fuseserverWrite ino data off) (mount T tree) := by
  have htext : text (tree.files ino) = content := by
    rw [Tree.files_of_some hfile]
    rfl
  have hlen : (writeAt content off data).length < 2 ^ 31 := by
    rw [length_writeAt]
    exact max_lt (hs.fits _ _ hfile).1 hlt
  refine (runs_write (w := mount T tree) rfl t off data).bind_returns ?_
  dsimp only
  rw [htext]
  refine runs_pure ⟨_, _, rfl, Tree.files_put hfile (.file (writeAt content off data)) rfl, ?_, ?_⟩
  · exact .write hfile (Image.ofContent_writeAt content off data)
  · exact hs.set_file hfile hlen

private theorem length_resize (content : Str) (size : ℕ) : (resize content size).length = size :=
  congrArg Image.size (Image.ofContent_resize content size)

theorem runs_fuseserverSetattr {size : ℕ} {toSet : UInt32} (hs : Sound tree)
    (hv : setAttrSize &&& toSet ≠ 0 → (∃ content, tree ino = some (.file content)) ∧ size < 2 ^ 31) (t : T) :
    Runs t (fun ans files => Follows f tree (.setattr ino size toSet) (some ans) files)
      (fuseserverSetattr ino size toSet) (mount T tree) := by
  unfold fuseserverSetattr
  by_cases hset : setAttrSize &&& toSet ≠ 0
  · obtain ⟨⟨content, hfile⟩, hlt⟩ := hv hset
    have htext : text (tree.files ino) = content := by
      rw [Tree.files_of_some hfile]
      rfl
    have hlen : (resize content size).length < 2 ^ 31 := (length_resize content size).trans_lt hlt
    have hs' := hs.set_file hfile hlen
    have hput : tree.files.put ino (resize content size) =
        (tree.set ino (.file (resize content size))).files :=
      Tree.files_put hfile (.file (resize content size)) rfl
    rw [if_pos hset]
    refine (runs_setattr (w := mount T tree) rfl t size).bind_returns ?_
    dsimp only
    rw [htext, hput]
    refine (runs_stat hs' (tree.set_self ino _) rfl t).bind ?_
    rintro _ files ⟨⟨st, rfl, hst⟩, rfl⟩
    refine runs_pure ⟨_, _, rfl, rfl, ?_, hs'⟩
    exact .setattr hset hfile (Image.ofContent_resize content size) hst
  · rw [if_neg hset]
    exact runs_pure ⟨_, tree, rfl, rfl, .setattrOther (not_not.1 hset), hs⟩

/-- What is cut out of the text is the entry that was meant. -/
theorem unlinkText_filter (hfits : (Node.dir l).Fits) (hmem : (name, ino) ∈ l)
    (hfind : Client.find (build l) name 0 = some (ownStart (build l) name)) :
    unlinkText (build l) name ino = some (build (l.filter fun e => e.1 ≠ name)) := by
  obtain ⟨hlen, hnamed, hzero⟩ := hfits
  obtain ⟨pre, post, rfl⟩ := List.append_of_mem hmem
  have hother : ∀ a ∈ pre ++ post, a.1 ≠ name := fun a ha => hnamed.ne_of_mem ha
  have hfilter : ((pre ++ (name, ino) :: post).filter fun e => e.1 ≠ name) = pre ++ post := by
    rw [List.filter_append, List.filter_cons_of_neg (by simp), ← List.filter_append, List.filter_eq_self]
    intro a ha
    simpa using hother a ha
  have hplain : ∀ a ∈ pre.map written ++ (name, filename ino) :: post.map written, Plain a := by
    have h := plain_map_written hnamed.plain
    rwa [List.map_append, List.map_cons] at h
  have hbuild : build (pre ++ (name, ino) :: post) =
      render (pre.map written ++ (name, filename ino) :: post.map written) := by
    rw [build_eq_render, List.map_append, List.map_cons]
    rfl
  have hown : ownStart (build (pre ++ (name, ino) :: post)) name = startOf (pre.map written) := by
    rw [hbuild]
    refine ownStart_render (e := (name, filename ino)) hplain ?_
    intro a ha
    obtain ⟨c, hc, rfl⟩ := List.mem_map.1 ha
    exact hother c (List.mem_append_left post hc)
  rw [hown, hbuild] at hfind
  have hlt : (render (pre.map written ++ (name, filename ino) :: post.map written)).length < 2 ^ 64 := by
    rw [← hbuild]
    exact hlen.trans (by norm_num)
  have hcut :
      unlinkText (render (pre.map written ++ (name, filename ino) :: post.map written)) name ino = _ :=
    unlinkText_found (e := (name, filename ino)) hfind rfl (.inr hlt)
  have hhead : (render (pre.map written ++ post.map written)).head? ≠ some 0 := by
    refine head_render ?_
    intro a ha
    rw [← List.map_append] at ha
    obtain ⟨c, hc, rfl⟩ := List.mem_map.1 ha
    exact hzero c ((List.Sublist.append_left (List.sublist_cons_self _ _) _).subset hc)
  rw [if_neg hhead, ← List.map_append, ← build_eq_render] at hcut
  rw [hfilter, hbuild]
  exact hcut

theorem runs_fuseserverUnlink (hs : Sound tree) (hv : ∀ l, tree parent = some (.dir l) →
      name ∈ l.map Prod.fst → Client.find (build l) name 0 = some (ownStart (build l) name)) (t : T) :
    Runs t (fun a files => Follows f tree (.unlink parent name) a files) (fuseserverUnlink parent name)
      (mount T tree) := by
  have hfind := Tree.entry?_eq hs parent name
  cases hentry : tree.files.entry? parent name with
  | none =>
    rw [hentry] at hfind
    refine (runs_unlink_none (w := mount T tree) rfl hentry t).bind_returns ?_
    exact runs_pure ⟨_, tree, rfl, rfl, .unlinkNone hfind.symm, hs⟩
  | some e =>
    rw [hentry] at hfind
    have hlist := Tree.lists_of_find hfind.symm
    obtain ⟨l, hdir, hmem⟩ := id hlist
    have htext : text (tree.files parent) = build l := by
      rw [Tree.files_of_some hdir]
      rfl
    have hcut := unlinkText_filter (hs.fits _ _ hdir) hmem (hv l hdir (List.mem_map_of_mem hmem))
    rw [← htext] at hcut
    have hput : tree.files.put parent (build (l.filter fun e => e.1 ≠ name)) =
        (tree.set parent (.dir (l.filter fun e => e.1 ≠ name))).files :=
      Tree.files_put hdir (.dir (l.filter fun e => e.1 ≠ name)) rfl
    have hne := (hs.apart hlist).1
    refine (runs_unlink_some (w := mount T tree) (fun _ => rfl) hentry hne hcut t).bind_returns ?_
    refine runs_pure ⟨_, _, rfl, ?_, .unlink hdir hfind.symm, hs.remove hdir hlist⟩
    dsimp only
    rw [hput, Tree.files_cut]
    rfl

/-- Every handler answers as the tree does, and leaves a tree. -/
theorem runs_fuseserverOper {q : Request} (hs : Sound tree) (hv : q.Valid tree) (t : T) (f : DirentFormat)
    (junk : UInt64) : Runs t (Follows f tree q) (fuseserverOper f junk q) (mount T tree) := by
  cases q with
  | getattr ino => exact (runs_fuseserverGetattr hs hv t).map
  | statfs => exact Runs.map (runs_pure ⟨_, tree, rfl, rfl, .statfs, hs⟩)
  | readdir ino size off => exact (runs_fuseserverReaddir hs hv.1 hv.2 t size).map
  | lookup parent name => exact (runs_fuseserverLookup hs t junk).map
  | create parent name => exact (runs_fuseserverCreate hs hv t junk).map
  | mknod parent name => exact (runs_fuseserverMknod hs hv t junk).map
  | openFile ino => exact Runs.map (runs_pure ⟨_, tree, rfl, rfl, .openFile, hs⟩)
  | read ino size off =>
    obtain ⟨⟨content, hfile⟩, hoff, hlt⟩ := hv
    exact runs_fuseserverRead hs hfile hoff hlt t size
  | write ino data off =>
    obtain ⟨⟨content, hfile⟩, hlt⟩ := hv
    exact (runs_fuseserverWrite hs hfile hlt t).map
  | setattr ino size toSet => exact (runs_fuseserverSetattr hs hv t).map
  | unlink parent name => exact runs_fuseserverUnlink hs hv t
  | mkdir parent name => exact (runs_fuseserverMkdir hs hv t junk).map
  | symlink target parent name =>
    obtain ⟨he, hzero, hlen⟩ := hv
    exact (runs_fuseserverCreatelink hs he hzero hlen t junk).map
  | readlink ino =>
    obtain ⟨target, hlink⟩ := hv
    exact (runs_fuseserverReadlink hs hlink t).map

end

/-- A session of one mount, one request after the other, as `fuse_session_loop` takes them. -/
inductive Session {T : Type} (t : T) (f : DirentFormat) (w₀ : World T) :
    List (Request × Answer) → World T → Prop
  | nil : Session t f w₀ [] w₀
  | snoc {log : List (Request × Answer)} {w w' : World T} {q : Request} {a : Answer} {junk : UInt64}
      (hlog : Session t f w₀ log w) (hexec : (fuseserverOper f junk q).Exec (World.serve t) w (some a) w') :
      Session t f w₀ (log ++ [(q, a)]) w'

inductive Run (f : DirentFormat) (tree₀ : Tree) : List (Request × Answer) → Tree → Prop
  | nil : Run f tree₀ [] tree₀
  | snoc {log : List (Request × Answer)} {tree tree' : Tree} {q : Request} {a : Answer}
      (hlog : Run f tree₀ log tree) (ha : Answers f tree q a tree') : Run f tree₀ (log ++ [(q, a)]) tree'

/-- Each request is valid for the tree that the answers before it tell of. -/
def AllValid (f : DirentFormat) (tree₀ : Tree) (log : List (Request × Answer)) : Prop :=
  ∀ before q a, before ++ [(q, a)] <+: log → ∀ tree, Run f tree₀ before tree → q.Valid tree

section
variable {T : Type} {t : T} {f : DirentFormat} {tree₀ : Tree} {log : List (Request × Answer)} {w : World T}

theorem AllValid.of_append {log' : List (Request × Answer)} (h : AllValid f tree₀ (log ++ log')) :
    AllValid f tree₀ log := by
  intro before q a hpre
  exact h before q a (hpre.trans (List.prefix_append log log'))

theorem AllValid.snoc {q : Request} {a : Answer} (h : AllValid f tree₀ log)
    (hq : ∀ tree, Run f tree₀ log tree → q.Valid tree) : AllValid f tree₀ (log ++ [(q, a)]) := by
  intro before q' a' hpre
  rcases List.prefix_concat_iff.1 hpre with heq | hpre
  · obtain ⟨rfl, hlast⟩ := List.append_inj' heq rfl
    cases hlast
    exact hq
  · exact h before q' a' hpre

theorem run_nil {tree : Tree} (h : Run f tree₀ [] tree) : tree = tree₀ := by
  generalize hlog : ([] : List (Request × Answer)) = log at h
  cases h with
  | nil => rfl
  | snoc => simp at hlog

/-- The rule for sessions: what each answer of the tree keeps holds behind a session. -/
theorem Session.keeps {I : List (Request × Answer) → Tree → Prop} (hs : Sound tree₀) (hnil : I [] tree₀)
    (hstep : ∀ log q a tree tree', Run f tree₀ log tree → Sound tree → Answers f tree q a tree' →
      I log tree → I (log ++ [(q, a)]) tree')
    (hsession : Session t f (mount T tree₀) log w) (hvalid : AllValid f tree₀ log) :
    ∃ tree, Run f tree₀ log tree ∧ w = mount T tree ∧ Sound tree ∧ I log tree := by
  induction hsession with
  | nil => exact ⟨tree₀, .nil, rfl, hs, hnil⟩
  | @snoc log w w' q a junk _ hexec ih =>
    obtain ⟨tree, hrun, rfl, htree, hI⟩ := ih hvalid.of_append
    have hv := hvalid log q a (List.prefix_refl _) tree hrun
    obtain ⟨⟨ans, tree', hans, hfiles, hanswers, hsound⟩, hlock⟩ :=
      (runs_fuseserverOper htree hv t f junk).result hexec
    cases hans
    refine ⟨tree', hrun.snoc hanswers, ?_, hsound, hstep log q a tree tree' hrun htree hanswers hI⟩
    cases w'
    dsimp only at hfiles hlock
    rw [hfiles, hlock]

theorem Session.follows (hs : Sound tree₀) (hsession : Session t f (mount T tree₀) log w)
    (hvalid : AllValid f tree₀ log) : ∃ tree, Run f tree₀ log tree ∧ w = mount T tree ∧ Sound tree := by
  obtain ⟨tree, hrun, hw, htree, -⟩ := hsession.keeps (I := fun _ _ => True) hs trivial
    (fun _ _ _ _ _ _ _ _ _ => trivial) hvalid
  exact ⟨tree, hrun, hw, htree⟩

/-- A mount answers every session as the tree does: the log of requests and answers is one of the tree, and
what the extent server keeps is that tree. Then every valid request is answered, without an exception and
as the tree answers it. -/
theorem session_refines (hs : Sound tree₀) (hsession : Session t f (mount T tree₀) log w)
    (hvalid : AllValid f tree₀ log) :
    ∃ tree, Run f tree₀ log tree ∧ w = mount T tree ∧ Sound tree ∧
      ∀ q junk, q.Valid tree →
        (∃ a w', (fuseserverOper f junk q).Exec (World.serve t) w a w') ∧
        ∀ a w', (fuseserverOper f junk q).Exec (World.serve t) w a w' →
          ∃ ans tree', a = some ans ∧ w' = mount T tree' ∧ Answers f tree q ans tree' := by
  obtain ⟨tree, hrun, rfl, htree⟩ := hsession.follows hs hvalid
  refine ⟨tree, hrun, rfl, htree, fun q junk hv => ?_⟩
  have hruns := runs_fuseserverOper htree hv t f junk
  constructor
  · obtain ⟨a, files, hexec, -⟩ := hruns.exists_exec
    exact ⟨a, _, hexec⟩
  · intro a w' hexec
    obtain ⟨⟨ans, tree', rfl, hfiles, hanswers, -⟩, hlock⟩ := hruns.result hexec
    refine ⟨ans, tree', rfl, ?_, hanswers⟩
    cases w'
    dsimp only at hfiles hlock
    rw [hfiles, hlock]

theorem Session.extend {q : Request} (hs : Sound tree₀) (hsession : Session t f (mount T tree₀) log w)
    (hvalid : AllValid f tree₀ log) (hq : ∀ tree, Run f tree₀ log tree → q.Valid tree) (junk : UInt64) :
    ∃ a w', Session t f (mount T tree₀) (log ++ [(q, a)]) w' ∧ AllValid f tree₀ (log ++ [(q, a)]) := by
  obtain ⟨tree, hrun, rfl, htree⟩ := hsession.follows hs hvalid
  obtain ⟨_, files, hexec, a, -, rfl, -⟩ :=
    (runs_fuseserverOper htree (hq tree hrun) t f junk).exists_exec
  exact ⟨a, _, hsession.snoc hexec, hvalid.snoc hq⟩

end

def rootTree : Tree := fun id => if id = 1 then some (.dir []) else none

theorem sound_rootTree : Sound rootTree := by
  have hdir : ∀ d node, rootTree d = some node → node = Node.empty .dir := by
    intro d node h
    unfold rootTree at h
    split_ifs at h
    exact (Option.some.inj h).symm
  have hlists : ∀ {d e}, ¬rootTree.Lists d e := by
    rintro d e ⟨l, hl, he⟩
    cases hdir d _ hl
    cases he
  exact ⟨⟨[], rfl⟩, fun h => absurd h hlists, fun h => absurd h hlists, fun h => absurd h hlists,
    fun d node h => hdir d node h ▸ Node.fits_empty .dir⟩

theorem allValid_nil (f : DirentFormat) (tree₀ : Tree) : AllValid f tree₀ [] := by
  intro before q a h
  simp at h

theorem enterable_rootTree {name : Str} (hne : name ≠ []) (hsemi : semi ∉ name) (hzero : (0 : UInt8) ∉ name)
    (hlen : name.length < 2 ^ 30) : Enterable rootTree 1 name := by
  refine ⟨⟨[], rfl, ?_⟩, hne, hsemi, hzero, 2, rfl⟩
  change 0 + name.length + 22 < 2 ^ 31
  omega

theorem exists_session_two {q : Request}
    (hq : ∀ a tree, Run libfuse rootTree [(.mkdir 1 [97], a)] tree → q.Valid tree) :
    ∃ log w, log.map Prod.fst = [.mkdir 1 [97], q] ∧
      Session () libfuse (mount Unit rootTree) log w ∧ AllValid libfuse rootTree log := by
  have hmkdir : Request.Valid rootTree (.mkdir 1 [97]) :=
    enterable_rootTree (by decide) (by decide) (by decide) (by decide)
  obtain ⟨a₁, w₁, h₁, hv₁⟩ := Session.extend (t := ()) (f := libfuse) sound_rootTree .nil
    (allValid_nil libfuse rootTree) (fun tree hrun => run_nil hrun ▸ hmkdir) 0
  obtain ⟨a₂, w₂, h₂, hv₂⟩ := h₁.extend sound_rootTree hv₁ (hq a₁) 0
  exact ⟨_, w₂, rfl, h₂, hv₂⟩

theorem session_refines_two : ∃ log w tree, log.map Prod.fst = [.mkdir 1 [97], .lookup 1 [97]] ∧
    Session () libfuse (mount Unit rootTree) log w ∧ Run libfuse rootTree log tree ∧ w = mount Unit tree := by
  obtain ⟨log, w, hlog, hsession, hvalid⟩ := exists_session_two (q := .lookup 1 [97]) fun _ _ _ => trivial
  obtain ⟨tree, hrun, hw, -⟩ := session_refines sound_rootTree hsession hvalid
  exact ⟨log, w, tree, hlog, hsession, hrun, hw⟩

end Yfs.Client.Fuse
