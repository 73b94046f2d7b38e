import Yfs.Client.FuseSession
import Yfs.Hdfs.OnDisk

/-! A mount over the disk of the extent server: the handlers of `fuse.cc`, `yfs_client`, the extent server,
and the inodes and blocks under it, as long as the disk has room. -/
namespace Yfs.Client.Fuse
open Yfs.Lib Yfs.Extent Yfs.Hdfs

/-- There is room for the call and the disk serves it as a map would (`ServedAsMap`): inums have 31 bits,
`create` finds an inode, `put` finds blocks and keeps within what `write_file` can store (`Roomy`), and
`remove` frees no block of another file (`RemoveSafe`). -/
def Room (s : Store) (c : Call) : Prop :=
  ServedAsMap s.disk c ∧ ∀ type, c = .create type → nextInode s.disk ≠ none

def Works (c : Call) (s : Store) (r : Reply c) (s' : Store) : Prop :=
  Owned s.disk ∧ Room s c ∧ Store.serve c s = some (r, s')

/-- A session of a mount over a disk that always has room. -/
inductive DiskSession (f : DirentFormat) (s₀ : Store) : List (Request × Answer) → Store → Prop
  | nil : DiskSession f s₀ [] s₀
  | snoc {log : List (Request × Answer)} {s s' : Store} {q : Request} {a : Answer} {junk : UInt64}
      (hlog : DiskSession f s₀ log s) (hexec : (fuseserverOper f junk q).Exec Works s (some a) s') :
      DiskSession f s₀ (log ++ [(q, a)]) s'

section
variable {α : Type} {s s' s₀ : Store} {c : Call} {r : Reply c} {p : M α} {f : DirentFormat}
  {tree tree₀ : Tree} {log : List (Request × Answer)}

theorem serve_of_works (h : Works c s r s') :
    World.serve () c (worldOf s) r (worldOf s') ∧ Owned s'.disk := by
  obtain ⟨hown, ⟨hserved, hinode⟩, hserve⟩ := h
  obtain ⟨htable, hown'⟩ := table_of_serve hown hserved hserve
  refine ⟨?_, hown'⟩
  cases c with
  | create type =>
    obtain ⟨n, hn⟩ := Option.ne_none_iff_exists'.1 (hinode type rfl)
    have hfree : (worldOf s).files.firstFree = some (UInt64.ofNat n) := by
      rw [worldOf, firstFree_filesOf, hn, Option.map_some]
    obtain ⟨hr, hw⟩ := htable
    rw [Files.alloc, hfree] at hr hw
    rw [hr, hw]
    exact ⟨⟨rfl, Files.dead_of_firstFree hfree, rfl⟩, rfl⟩
  | _ => exact htable

private theorem answered_works (hown : Owned s.disk) (hw : Prog.Answered (World.serve ()) c (worldOf s))
    (hroom : Room s c) : Prog.Answered Works c s := by
  obtain ⟨r, w', hserve⟩ := hw
  have hlock : ∀ lid, (c = .acquire lid → s.held lid = false) ∧ (c = .release lid → s.held lid = true) := by
    intro lid
    constructor
    · rintro rfl
      have hfree : (if s.held lid then some () else none) = none := hserve.1
      simpa using hfree
    · rintro rfl
      have hheld : (if s.held lid then some () else none) = some () := hserve.1
      simpa using hheld
  obtain ⟨r, s', -, -, hs'⟩ := exists_acts hown hroom.1 hlock
  exact ⟨r, s', hown, hroom, hs'⟩

/-- What holds of every run over the files holds of every run over the disk, and that one stops for want of
room only. -/
theorem wp_works {Q : α → World Unit → Prop} (hown : Owned s.disk)
    (h : p.Wp (Prog.Answered (World.serve ())) (World.serve ()) Q (worldOf s)) :
    p.Wp (fun c s => Room s c → Prog.Answered Works c s) Works
      (fun a s' => Q a (worldOf s') ∧ Owned s'.disk) s := by
  induction p generalizing s with
  | pure a => exact ⟨h, hown⟩
  | call c next ih =>
    refine ⟨answered_works hown h.1, fun r s' hworks => ?_⟩
    obtain ⟨hserve, hown'⟩ := serve_of_works hworks
    exact ih r hown' (h.2 r _ hserve)

theorem owned_of_exec {a : α} (hexec : p.Exec Works s a s') (hown : Owned s.disk) : Owned s'.disk := by
  induction p generalizing s with
  | pure b =>
    obtain ⟨-, rfl⟩ := hexec
    exact hown
  | call c next ih =>
    obtain ⟨r, s₁, hworks, hrest⟩ := hexec
    exact ih r hrest (serve_of_works hworks).2

theorem DiskSession.session (h : DiskSession f s₀ log s) (hown : Owned s₀.disk) :
    Session () f (worldOf s₀) log (worldOf s) ∧ Owned s.disk := by
  induction h with
  | nil => exact ⟨.nil, hown⟩
  | snoc _ hexec ih =>
    obtain ⟨hsession, hs⟩ := ih
    refine ⟨hsession.snoc (Prog.Exec.map worldOf ?_ hexec), owned_of_exec hexec hs⟩
    exact fun c s r s' hworks => (serve_of_works hworks).1

theorem held_of_lock {s : Store} {files : Files} (h : worldOf s = ⟨files, fun _ => none⟩) (id : UInt64) :
    s.held id = false := by
  have hlock : (if s.held id then some () else none) = none := congrFun (congrArg World.lock h) id
  simpa using hlock

/-- A mount over a disk that keeps a tree answers every session as the tree does. Behind it the files on the
disk are the tree, they own their blocks, and no lock is held. Then each valid request is answered as the
tree answers it, and stops at a call only if there is no room for that. -/
theorem disk_session_refines (hown : Owned s₀.disk) (hs₀ : worldOf s₀ = mount Unit tree₀) (hs : Sound tree₀)
    (hsession : DiskSession f s₀ log s) (hvalid : AllValid f tree₀ log) :
    ∃ tree, Run f tree₀ log tree ∧ filesOf s.disk = tree.files ∧ (∀ id, s.held id = false) ∧
      Owned s.disk ∧ Sound tree ∧
      ∀ q junk, q.Valid tree →
        (fuseserverOper f junk q).Wp (fun c s => Room s c → Prog.Answered Works c s) Works
          (fun a s' => ∃ ans tree', a = some ans ∧ filesOf s'.disk = tree'.files ∧
            (∀ id, s'.held id = false) ∧ Answers f tree q ans tree') s := by
  obtain ⟨hworld, hown'⟩ := hsession.session hown
  rw [hs₀] at hworld
  obtain ⟨tree, hrun, hw, htree⟩ := hworld.follows hs hvalid
  have hfiles : filesOf s.disk = tree.files := congrArg World.files hw
  refine ⟨tree, hrun, hfiles, held_of_lock hw, hown', htree, fun q junk hv => ?_⟩
  have hruns := runs_fuseserverOper htree hv () f junk
  rw [← hw] at hruns
  refine Prog.Wp.mono (wp_works hown' hruns) ?_
  rintro a s' ⟨⟨⟨ans, tree', rfl, hfiles', hanswers, -⟩, hlock⟩, -⟩
  refine ⟨ans, tree', rfl, hfiles', fun id => ?_, hanswers⟩
  rw [hw] at hlock
  have hnone : (if s'.held id then some () else none) = none := congrFun hlock id
  simpa using hnone

end

section
variable {α : Type} {f : DirentFormat} {s₀ s s' : Store} {files files' : Files} {k k' : ℕ} {p : M α}

abbrev FindsRoom (Q : α → Store → Prop) (p : M α) (s : Store) : Prop := p.Wp (fun c s => Room s c) Works Q s

private theorem exists_exec_of_room {Q Q' : α → Store → Prop}
    (h : p.Wp (fun c s => Room s c → Prog.Answered Works c s) Works Q s) (hroom : FindsRoom Q' p s) :
    ∃ a s', p.Exec Works s a s' ∧ Q a s' ∧ Q' a s' := by
  induction p generalizing s with
  | pure a => exact ⟨a, s, ⟨rfl, rfl⟩, h, hroom⟩
  | call c next ih =>
    obtain ⟨r, s₁, hworks⟩ := h.1 hroom.1
    obtain ⟨a, s', hexec, hQ⟩ := ih r (h.2 r s₁ hworks) (hroom.2 r s₁ hworks)
    exact ⟨a, s', ⟨r, s₁, hworks, hexec⟩, hQ⟩

theorem DiskSession.extend {Q : Option Answer → Store → Prop} {tree₀ : Tree} {log : List (Request × Answer)}
    {q : Request} {junk : UInt64} (hown : Owned s₀.disk) (hs₀ : worldOf s₀ = mount Unit tree₀)
    (hs : Sound tree₀) (hsession : DiskSession f s₀ log s) (hvalid : AllValid f tree₀ log)
    (hq : ∀ tree, Run f tree₀ log tree → q.Valid tree) (hroom : FindsRoom Q (fuseserverOper f junk q) s) :
    ∃ a s', DiskSession f s₀ (log ++ [(q, a)]) s' ∧ AllValid f tree₀ (log ++ [(q, a)]) ∧ Q (some a) s' := by
  obtain ⟨hworld, hown'⟩ := hsession.session hown
  rw [hs₀] at hworld
  obtain ⟨tree, hrun, hw, htree⟩ := hworld.follows hs hvalid
  have hruns := runs_fuseserverOper htree (hq tree hrun) () f junk
  rw [← hw] at hruns
  obtain ⟨_, s', hexec, ⟨⟨⟨a, -, rfl, -⟩, -⟩, -⟩, hQ⟩ := exists_exec_of_room (wp_works hown' hruns) hroom
  exact ⟨a, s', hsession.snoc hexec, hvalid.snoc hq, hQ⟩

def Spare (files : Files) (k : ℕ) (s : Store) : Prop :=
  filesOf s.disk = files ∧ k ≤ s.disk.freeBlocks.length

def Light : Call → Prop
  | .get id | .getattr id => id.toNat < 2 ^ 31
  | .acquire _ | .release _ => True
  | _ => False

theorem room_of_light {c : Call} (h : Light c) : Room s c := by
  refine ⟨?_, fun type heq => ?_⟩
  · cases c <;> first | exact h | exact h.elim
  · subst heq
    exact h.elim

theorem Spare.light {c : Call} {r : Reply c} (hs : Spare files k s) (hc : Light c) (h : Works c s r s') :
    Spare files k s' := by
  obtain ⟨hown, -, hserve⟩ := h
  cases c with
  | get id =>
    obtain ⟨s₁, hget, hsame⟩ := serve_get hown id
    cases hget.symm.trans hserve
    rw [Spare, hsame.touched.filesOf_eq hown, hsame.touched.freeBlocks]
    exact hs
  | getattr id =>
    cases hserve
    exact hs
  | acquire lid =>
    obtain ⟨-, heq⟩ := Option.ite_none_left_eq_some.1 hserve
    cases heq
    exact hs
  | release lid =>
    obtain ⟨-, heq⟩ := Option.ite_none_right_eq_some.1 hserve
    cases heq
    exact hs
  | _ => exact hc.elim

theorem room_light (hp : p.All Light) (hs : Spare files k s) : FindsRoom (fun _ => Spare files k) p s := by
  induction p generalizing s with
  | pure a => exact hs
  | call c next ih => exact ⟨room_of_light hp.1, fun r s' h => ih r (hp.2 r) (hs.light hp.1 h)⟩

theorem room_get {id : UInt64} (hid : id.toNat < 2 ^ 31) (hs : Spare files k s) :
    FindsRoom (fun (r : Reply (.get id)) s' => r = (.ok, text (files id)) ∧ Spare files k s')
      (perform (.get id)) s := by
  have hlight : Light (.get id) := hid
  refine Prog.wp_perform (room_of_light hlight) fun r s' h => ⟨?_, hs.light hlight h⟩
  obtain ⟨s₁, hget, -⟩ := serve_get h.1 id
  cases hget.symm.trans h.2.2
  rw [← hs.1, text_filesOf hid]

theorem room_nlockIsdir {id : UInt64} (hid : id.toNat < 2 ^ 31) (hs : Spare files k s) :
    FindsRoom (fun b s' => b = (files.dir id).isSome ∧ Spare files k s') (nlockIsdir id) s := by
  refine Prog.Wp.bind (Q := fun r s' => r.1 = .ok ∧ r.2.type = typeOf (files id) ∧ Spare files k s') ?_ ?_
  · have hlight : Light (.getattr id) := hid
    refine Prog.wp_perform (room_of_light hlight) fun r s' h => ?_
    have hspare := hs.light hlight h
    cases h.2.2
    refine ⟨rfl, ?_, hspare⟩
    rw [← hs.1]
    exact (getattr_filesOf hid).1
  · rintro ⟨r, a⟩ s' ⟨hok, htype, hspare⟩
    refine Prog.wp_pure ⟨?_, hspare⟩
    dsimp only at hok htype
    rw [hok, htype, Files.dir]
    split_ifs with hdir <;> simp [hdir]

theorem room_create {ino : UInt64} (type : FileType) (hfree : files.firstFree = some ino)
    (hs : Spare files k s) :
    FindsRoom (fun r s' => r.2 = ino ∧ Spare (files.grow ino type) k s') (perform (.create type.code)) s := by
  obtain ⟨rfl, hfree'⟩ := hs
  have hnext := firstFree_filesOf s.disk
  rw [hfree] at hnext
  obtain ⟨n, hn, rfl⟩ := Option.map_eq_some_iff.1 hnext.symm
  have hroom : Room s (.create type.code) := by
    refine ⟨⟨type, rfl⟩, fun _ _ => ?_⟩
    rw [hn]
    exact Option.some_ne_none n
  refine Prog.wp_perform hroom fun r s' h => ?_
  obtain ⟨hown, -, hserve⟩ := h
  have halloc := alloc_filesOf hown s.now type
  rw [Files.alloc, hfree] at halloc
  have hcreate : Store.serve (.create type.code) s = some ((.ok, (Server.create s.now type.code s.disk).1),
      s.next (Server.create s.now type.code s.disk).2) := rfl
  cases hcreate.symm.trans hserve
  obtain ⟨hino, hfiles⟩ := Prod.mk.inj halloc
  refine ⟨hino.symm, hfiles.symm, ?_⟩
  rw [Store.disk_next, freeBlocks_create s.now type.code hn]
  exact hfree'

theorem room_put {id : UInt64} {buf : Str} (hid : id.toNat < 2 ^ 31) (hlen : buf.length ≤ blockSize)
    (hs : Spare files (k + 1) s) :
    FindsRoom (fun _ => Spare (files.put id buf) k) (perform (.put id buf)) s := by
  obtain ⟨rfl, hfree⟩ := hs
  have hone : blockCount buf.length ≤ 1 := by
    rw [blockCount_le, Nat.one_mul]
    exact hlen
  have hdirect : blockCount buf.length ≤ nDirect := hone.trans (by decide)
  have hroomy : Roomy s.disk id buf :=
    Roomy.of_direct hdirect fun ino _ => (grownBy_le hdirect).trans (hone.trans (by omega))
  refine Prog.wp_perform ⟨⟨hid, hroomy⟩, fun _ heq => by cases heq⟩ fun r s' h => ?_
  obtain ⟨hown, -, hserve⟩ := h
  cases hserve
  refine ⟨filesOf_put hown s.now hid hroomy, ?_⟩
  have hle := (fileOf_put hown s.now hroomy).2.2 hdirect
  rw [Store.disk_next]
  omega

theorem room_locked {K : α → Prop} (lid : UInt64)
    (h : ∀ s, Spare files k s → FindsRoom (fun a s' => K a ∧ Spare files' k' s') p s) (hs : Spare files k s) :
    FindsRoom (fun a s' => K a ∧ Spare files' k' s') (locked lid p) s := by
  refine (room_light (p := perform (.acquire lid)) ⟨trivial, fun _ => trivial⟩ hs).bind fun _ s₁ hs₁ => ?_
  refine (h s₁ hs₁).bind fun a s₂ hs₂ => ?_
  refine (room_light (p := perform (.release lid)) ⟨trivial, fun _ => trivial⟩ hs₂.2).bind fun _ s₃ hs₃ => ?_
  exact Prog.wp_pure ⟨hs₂.1, hs₃⟩

section
variable {parent ino out : UInt64} {name dirList : Str} {type : FileType}

private theorem room_nlockLookup (hparent : parent.toNat < 2 ^ 31) (hdir : files.dir parent = some dirList)
    (hnew : findEntry dirList name = none) (hs : Spare files k s) :
    FindsRoom (fun r s' => r.2.1 = false ∧ Spare files k s') (nlockLookup parent name false out) s := by
  refine (room_nlockIsdir hparent hs).bind fun isDir s₁ h => ?_
  obtain ⟨rfl, hs₁⟩ := h
  rw [hdir]
  refine (room_get hparent hs₁).bind fun r s₂ h => ?_
  obtain ⟨rfl, hs₂⟩ := h
  rw [Files.dir_eq_text hdir]
  dsimp only [Option.isSome_some, ite_true]
  rw [hnew]
  exact Prog.wp_pure ⟨rfl, hs₂⟩

theorem room_nlockAdd (hparent : parent.toNat < 2 ^ 31) (hdir : files.dir parent = some dirList)
    (hnew : findEntry dirList name = none) (hfree : files.firstFree = some ino)
    (hlen : (addEntry dirList (name, filename ino)).length ≤ blockSize) (hs : Spare files (k + 1) s) :
    FindsRoom (fun r s' => r = (.ok, ino) ∧
        Spare ((files.grow ino type).enter parent (name, filename ino)) k s')
      (nlockAdd type parent name out) s := by
  have hgrow : text (files.grow ino type parent) = dirList := by
    have hne : parent ≠ ino := by
      rintro rfl
      rw [Files.dir_eq_some, Files.dead_of_firstFree hfree] at hdir
      cases hdir
    rw [Files.grow, Function.update_of_ne hne, Files.dir_eq_text hdir]
  refine (room_nlockLookup hparent hdir hnew hs).bind fun r s₁ h => ?_
  obtain ⟨status, found, _⟩ := r
  obtain ⟨rfl, hs₁⟩ := h
  refine (room_create type hfree hs₁).bind fun r s₂ h => ?_
  obtain ⟨status', ino'⟩ := r
  obtain ⟨rfl, hs₂⟩ := h
  refine (room_get hparent hs₂).bind fun r s₃ h => ?_
  obtain ⟨rfl, hs₃⟩ := h
  rw [hgrow]
  refine (room_put hparent hlen hs₃).bind fun _ s₄ hs₄ => ?_
  rw [Files.enter, hgrow]
  exact Prog.wp_pure ⟨rfl, hs₄⟩

theorem light_locked {lid : UInt64} (hp : p.All Light) : (locked lid p).All Light := by
  refine Prog.all_bind (Prog.all_perform.2 trivial) fun _ => Prog.all_bind hp fun _ => ?_
  exact Prog.all_bind (Prog.all_perform.2 trivial) fun _ => trivial

theorem light_nlockIs (hino : ino.toNat < 2 ^ 31) (type : FileType) : (nlockIs type ino).All Light :=
  Prog.all_bind (Prog.all_perform.2 hino) fun _ => trivial

theorem light_getattr (hino : ino.toNat < 2 ^ 31) : (getattr ino).All Light := by
  have hinfo : ∀ {β : Type} (info : Attr → β), (getInfo info ino).All Light := by
    intro β info
    refine light_locked (Prog.all_bind (Prog.all_perform.2 hino) fun r => ?_)
    dsimp only
    split_ifs <;> trivial
  have hfile : ∀ mode, (fileStat mode ino).All Light := by
    intro mode
    refine Prog.all_bind (hinfo fileInfo) fun r => ?_
    split <;> trivial
  have hdir : (dirStat ino).All Light := by
    refine Prog.all_bind (hinfo dirInfo) fun r => ?_
    split <;> trivial
  have his : ∀ type, (locked ino (nlockIs type ino)).All Light := fun type =>
    light_locked (light_nlockIs hino type)
  refine Prog.all_bind (his .file) fun _ => Prog.all_bind (his .file) fun isFile => ?_
  cases isFile with
  | true => exact hfile regularMode
  | false =>
    refine Prog.all_bind (his .dir) fun isDir => ?_
    cases isDir with
    | true => exact hdir
    | false => exact hfile linkMode

theorem light_fuseserverReaddir (hino : ino.toNat < 2 ^ 31) (f : DirentFormat) (size : ℕ) (off : Int64) :
    (fuseserverReaddir f ino size off).All Light := by
  have hread : (nlockReaddir ino).All Light := by
    refine Prog.all_bind (light_nlockIs hino .dir) fun b => ?_
    split_ifs
    · refine Prog.all_bind (Prog.all_perform.2 hino) fun r => ?_
      dsimp only
      split_ifs <;> trivial
    · exact Prog.all_bind (Prog.all_perform.2 trivial) fun _ => trivial
  refine Prog.all_bind (light_locked (light_nlockIs hino .dir)) fun b => ?_
  split_ifs
  · exact Prog.all_bind (light_locked hread) fun _ => trivial
  · trivial

theorem room_fuseserverCreate (hparent : parent.toNat < 2 ^ 31) (hino : ino.toNat < 2 ^ 31)
    (hdir : files.dir parent = some dirList) (hnew : findEntry dirList name = none)
    (hfree : files.firstFree = some ino) (hlen : (addEntry dirList (name, filename ino)).length ≤ blockSize)
    (junk : UInt64) (hs : Spare files (k + 1) s) :
    FindsRoom (fun _ => Spare ((files.grow ino .file).enter parent (name, filename ino)) k)
      (fuseserverCreate parent name junk) s := by
  have hadd : ∀ s, Spare files (k + 1) s → FindsRoom (fun r s' => r = (.ok, ino) ∧
      Spare ((files.grow ino .file).enter parent (name, filename ino)) k s')
      (nlockAdd .file parent name junk) s := fun s hs => room_nlockAdd hparent hdir hnew hfree hlen hs
  have hcreate := room_locked parent hadd hs
  refine Prog.Wp.bind (Q := fun _ => Spare ((files.grow ino .file).enter parent (name, filename ino)) k) ?_ ?_
  · refine hcreate.bind fun r s₁ h => ?_
    obtain ⟨rfl, hs₁⟩ := h
    refine (room_light (light_getattr hino) hs₁).bind fun r s₂ hs₂ => ?_
    exact Prog.wp_pure hs₂
  · intro r s' hs'
    dsimp only
    split_ifs
    · exact Prog.wp_pure hs'
    · exact Prog.wp_pure hs'
    · exact Prog.wp_pure hs'

theorem room_fuseserverWrite {data : Str} {off : ℕ} (hino : ino.toNat < 2 ^ 31)
    (hlen : (writeAt (text (files ino)) off data).length ≤ blockSize) (hs : Spare files (k + 1) s) :
    FindsRoom (fun _ => Spare (files.put ino (writeAt (text (files ino)) off data)) k)
      (fuseserverWrite ino data off) s := by
  have hwrite : ∀ s, Spare files (k + 1) s → FindsRoom (fun _ s' => True ∧
      Spare (files.put ino (writeAt (text (files ino)) off data)) k s') (nlockWrite ino off data) s := by
    intro s hs
    refine (room_get hino hs).bind fun r s₁ h => ?_
    obtain ⟨rfl, hs₁⟩ := h
    refine (room_put hino hlen hs₁).bind fun _ s₂ hs₂ => ?_
    exact Prog.wp_pure ⟨trivial, hs₂⟩
  refine (room_locked ino hwrite hs).bind fun r s' h => ?_
  dsimp only
  split_ifs
  · exact Prog.wp_pure h.2
  · exact Prog.wp_pure h.2

end

theorem FindsRoom.some {Q : Option Answer → Store → Prop} {p : M Answer}
    (h : FindsRoom (fun a => Q (.some a)) p s) : FindsRoom Q (Option.some <$> p) s := by
  rw [map_eq_pure_bind]
  exact h.bind fun a s' ha => Prog.wp_pure ha

end

theorem worldOf_freshStore : worldOf freshStore = mount Unit rootTree := by
  have hfiles : filesOf (Server.init quiet) = rootTree.files := by
    funext id
    rw [filesOf, fileOf_init, Tree.files, rootTree]
    by_cases hlt : id.toNat < 2 ^ 31
    · have hone : maskId id = 1 ↔ id = 1 := by
        rw [← maskId_inj hlt (by decide : (1 : UInt64).toNat < 2 ^ 31)]
        rfl
      rw [if_pos hlt]
      by_cases hid : id = 1
      · rw [if_pos (hone.2 hid), if_pos hid, Option.map_some, shownType_code]
        rfl
      · rw [if_neg (mt hone.1 hid), if_neg hid]
        rfl
    · have hid : id ≠ 1 := by
        rintro rfl
        exact hlt (by decide)
      rw [if_neg hlt, if_neg hid]
      rfl
  rw [worldOf, freshStore, hfiles]
  rfl

theorem run_snoc {f : DirentFormat} {tree₀ tree : Tree} (log : List (Request × Answer)) {q : Request}
    {a : Answer} (h : Run f tree₀ (log ++ [(q, a)]) tree) :
    ∃ before, Run f tree₀ log before ∧ Answers f before q a tree := by
  generalize hlog : log ++ [(q, a)] = log' at h
  cases h with
  | nil => simp at hlog
  | snoc hrun ha =>
    obtain ⟨rfl, hlast⟩ := List.append_inj' hlog rfl
    cases hlast
    exact ⟨_, hrun, ha⟩

theorem created_of_answers {f : DirentFormat} {tree tree' : Tree} {a : Answer} {parent : UInt64} {name : Str}
    (h : Answers f tree (.create parent name) a tree') (hfind : tree.find parent name = none) :
    ∃ ino st l, a = .create ⟨ino, st⟩ ∧ tree parent = some (.dir l) ∧ tree ino = none ∧
      tree' = tree.enter parent l name ino (.file []) := by
  cases h with
  | create hdir _ hnew _ => exact ⟨_, _, _, rfl, hdir, hnew, rfl⟩
  | createExist hsome =>
    rw [hfind] at hsome
    cases hsome

def createdFiles : Files := (rootFiles.grow 2 .file).enter 1 ([102], filename 2)

private theorem files_rootTree : rootTree.files = rootFiles := by
  funext id
  unfold Tree.files rootTree rootFiles
  split_ifs <;> rfl

private theorem room_create_fresh : FindsRoom (fun _ => Spare createdFiles 2)
    (fuseserverOper libfuse 0 (.create 1 [102])) freshStore := by
  have hfresh : Spare rootFiles 3 freshStore := by
    refine ⟨(congrArg World.files worldOf_freshStore).trans files_rootTree, ?_⟩
    rw [freshStore, freeBlocks_init, List.length_range']
    decide
  have hfree : rootFiles.firstFree = some 2 := by decide +kernel
  have hlen : (addEntry [] ([102], filename 2)).length ≤ blockSize := by decide
  exact FindsRoom.some (room_fuseserverCreate (by decide) (by decide) rfl rfl hfree hlen 0 hfresh)

theorem exists_session_byte : ∃ a b s,
    DiskSession libfuse freshStore [(.create 1 [102], a), (.write 2 [7] 0, b)] s ∧
    AllValid libfuse rootTree [(.create 1 [102], a), (.write 2 [7] 0, b)] ∧
    Spare (createdFiles.put 2 [7]) 1 s := by
  have hown : Owned freshStore.disk := owned_init quiet
  have hcreate : ∀ tree, Run libfuse rootTree [] tree → Request.Valid tree (.create 1 [102]) := by
    intro tree hrun
    rw [run_nil hrun]
    exact enterable_rootTree (by decide) (by decide) (by decide) (by decide)
  obtain ⟨a, s₁, hsession₁, hvalid₁, hs₁⟩ := DiskSession.extend hown worldOf_freshStore sound_rootTree .nil
    (allValid_nil libfuse rootTree) hcreate room_create_fresh
  have hrun₁ : ∀ {tree}, Run libfuse rootTree ([] ++ [(.create 1 [102], a)]) tree →
      ∃ ino st l, a = .create ⟨ino, st⟩ ∧ rootTree 1 = some (.dir l) ∧ rootTree ino = none ∧
        tree = rootTree.enter 1 l [102] ino (.file []) := by
    intro tree hrun
    obtain ⟨before, hnil, hanswers⟩ := run_snoc [] hrun
    rw [run_nil hnil] at hanswers
    exact created_of_answers hanswers rfl
  have hwrite : ∀ tree, Run libfuse rootTree ([] ++ [(.create 1 [102], a)]) tree →
      Request.Valid tree (.write 2 [7] 0) := by
    obtain ⟨hworld, -⟩ := hsession₁.session hown
    rw [worldOf_freshStore] at hworld
    obtain ⟨tree₁, hrun, hw, -⟩ := hworld.follows sound_rootTree hvalid₁
    obtain ⟨ino, st, l, rfl, -, hnew, rfl⟩ := hrun₁ hrun
    -- the inum of the answer is the one that the disk has given
    have hino : ino = 2 := by
      have hne : ino ≠ 1 := by
        rintro rfl
        cases hnew
      have hnode : rootTree.enter 1 l [102] ino (.file []) ino = some (.file []) := by
        rw [Tree.enter, Tree.set_of_ne _ hne, Tree.set_self]
      have hlive : createdFiles ino = some (FileType.file.code, []) := by
        have hfiles : filesOf s₁.disk = Tree.files _ := congrArg World.files hw
        rw [← hs₁.1, hfiles, Tree.files_of_some hnode]
        rfl
      by_contra hother
      have hdead : createdFiles ino = none := by
        rw [createdFiles, Files.enter, Files.put, Function.update_of_ne hne, Files.grow,
          Function.update_of_ne hother, rootFiles, if_neg hne]
      rw [hdead] at hlive
      cases hlive
    subst hino
    intro tree hrun'
    obtain ⟨ino', st', l', heq, -, -, rfl⟩ := hrun₁ hrun'
    cases heq
    exact ⟨⟨[], rfl⟩, by decide⟩
  have hshort : (writeAt (text (createdFiles 2)) 0 [7]).length ≤ blockSize := by decide
  have hroom : FindsRoom (fun _ => Spare (createdFiles.put 2 [7]) 1)
      (fuseserverOper libfuse 0 (.write 2 [7] 0)) s₁ :=
    FindsRoom.some (room_fuseserverWrite (by decide) hshort hs₁)
  obtain ⟨b, s₂, hsession₂, hvalid₂, hs₂⟩ :=
    hsession₁.extend hown worldOf_freshStore sound_rootTree hvalid₁ hwrite hroom
  exact ⟨a, b, s₂, hsession₂, hvalid₂, hs₂⟩

def byteTree : Tree := (rootTree.enter 1 [] [102] 2 (.file [])).set 2 (.file [7])

theorem run_byte {a b : Answer} {tree : Tree}
    (h : Run libfuse rootTree [(.create 1 [102], a), (.write 2 [7] 0, b)] tree) : tree = byteTree := by
  obtain ⟨before, hbefore, hwrite⟩ := run_snoc [(.create 1 [102], a)] h
  obtain ⟨_, hnil, hcreate⟩ := run_snoc [] hbefore
  rw [run_nil hnil] at hcreate
  obtain ⟨ino, st, l, -, hdir, hnew, rfl⟩ := created_of_answers hcreate rfl
  obtain rfl : [] = l := Node.dir.inj (Option.some.inj hdir)
  cases hwrite with
  | write hfile hwrite =>
    have hino : ino = 2 := by
      by_contra hne
      rw [Tree.enter, Tree.set_of_ne _ (by decide : (2 : UInt64) ≠ 1),
        Tree.set_of_ne _ (Ne.symm hne)] at hfile
      cases hfile
    subst hino
    cases hfile
    rw [← Image.ofContent_writeAt] at hwrite
    rw [Image.ofContent_injective hwrite]
    rfl

/-- The root is listed behind that session. -/
theorem disk_session_refines_three : ∃ log s,
    log.map Prod.fst = [.create 1 [102], .write 2 [7] 0, .readdir 1 4096 0] ∧
    DiskSession libfuse freshStore log s ∧ Run libfuse rootTree log byteTree ∧
    filesOf s.disk = byteTree.files ∧ Owned s.disk := by
  have hown : Owned freshStore.disk := owned_init quiet
  obtain ⟨a, b, s, hsession, hvalid, hs⟩ := exists_session_byte
  have hreaddir : ∀ tree, Run libfuse rootTree [(.create 1 [102], a), (.write 2 [7] 0, b)] tree →
      Request.Valid tree (.readdir 1 4096 0) := by
    intro tree hrun
    rw [run_byte hrun]
    exact ⟨Option.some_ne_none _, by decide⟩
  have hroom : FindsRoom (fun _ => Spare (createdFiles.put 2 [7]) 1)
      (fuseserverOper libfuse 0 (.readdir 1 4096 0)) s :=
    FindsRoom.some (room_light (light_fuseserverReaddir (by decide) libfuse 4096 0) hs)
  obtain ⟨c, s', hsession', hvalid', hs'⟩ :=
    hsession.extend hown worldOf_freshStore sound_rootTree hvalid hreaddir hroom
  obtain ⟨tree, hrun, hfiles, -, hown', -⟩ :=
    disk_session_refines hown worldOf_freshStore sound_rootTree hsession' hvalid'
  obtain ⟨before, hbefore, hanswers⟩ := run_snoc [(.create 1 [102], a), (.write 2 [7] 0, b)] hrun
  obtain rfl : tree = byteTree := by
    rw [run_byte hbefore] at hanswers
    cases hanswers <;> rfl
  exact ⟨_, s', rfl, hsession', hrun, hfiles, hown'⟩

end Yfs.Client.Fuse
