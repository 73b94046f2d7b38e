import Yfs.Client.Built
import Yfs.Hdfs.PathWalk
import Yfs.Hdfs.Retry

/-! `PBGetListing`: which entries of a directory it returns, and which directories it cannot list. -/
namespace Yfs.Hdfs
open Yfs.Lib Yfs.Extent Yfs.Client

/-- The exceptions of `PBGetListing` with their texts. -/
inductive ListingException where
  | readDirectoryFailed | getDirentInfoFailed
  deriving DecidableEq, Repr

def ListingException.what : ListingException → String
  | .readDirectoryFailed => "read directory failed"
  | .getDirentInfoFailed => "get dirent info failed"

/-- `LocatedBlocksProto`. `ConvertLocatedBlock` adds nothing but constants to a block. -/
structure LocatedBlocks (D : Type) where
  fileLength : UInt64
  underConstruction : Bool
  isLastBlockComplete : Bool
  blocks : List (LocatedBlock D)
  lastBlock : Option (LocatedBlock D)

/-- `HdfsFileStatusProto` as it is listed: with the name as its path, and locations if asked for. -/
structure DirEntry (D : Type) where
  path : Str
  status : FileStatus
  locations : Option (LocatedBlocks D)

structure DirListing (D : Type) where
  partialListing : List (DirEntry D)
  remainingEntries : Option UInt32

namespace NameNode
variable {D : Type} (nn : NameNode D)

def locatedBlocks (info : FileInfo) (blocks : List (LocatedBlock D)) : LocatedBlocks D :=
  ⟨info.size, false, true, blocks, blocks.getLast?⟩

/-- The locations of an entry; `none` where `getfile` fails, and the request with it. -/
def entryLocations (needLocation : Bool) (ino : UInt64) : M (Option (Option (LocatedBlocks D))) := do
  if needLocation then
    if ← Client.isfile ino then
      let (r, info) ← Client.getfile ino
      match r, info with
      | .ok, some info =>
        let blocks ← nn.getBlockLocations ino
        pure (some (some (locatedBlocks info blocks)))
      | _, _ => pure none
    else pure (some none)
  else pure (some none)

/-- The loop of `PBGetListing`. The number of remaining entries is set behind it. -/
def listEntries (needLocation : Bool) : List Dirent → M (Except ListingException (DirListing D))
  | [] => pure (.ok ⟨[], some 0⟩)
  | e :: l => do
    match ← pbGetFileInfoFromInum e.inum with
    | none => pure (.error .getDirentInfoFailed)
    | some status =>
      match ← nn.entryLocations needLocation e.inum with
      | none => pure (.ok ⟨[⟨e.name, status, none⟩], none⟩)
      | some locations =>
        match ← listEntries needLocation l with
        | .error exception => pure (.error exception)
        | .ok listing => pure (.ok ⟨⟨e.name, status, locations⟩ :: listing.partialListing,
            listing.remainingEntries⟩)

/-- Where the loop starts: at the entry named `startAfter`. -/
def startAt (startAfter : Str) (dir : List Dirent) : List Dirent :=
  if startAfter = [] then dir else dir.dropWhile fun e => e.name ≠ startAfter

/-- No listing comes back if the path does not exist. -/
def pbGetListing (src startAfter : Str) (needLocation : Bool) :
    M (Except ListingException (Option (DirListing D))) := do
  match ← recursiveLookup src with
  | none => pure (.ok none)
  | some ino =>
    let (r, dir) ← Client.readdir ino
    if r = .ok then
      match ← nn.listEntries needLocation (startAt startAfter dir) with
      | .error exception => pure (.error exception)
      | .ok listing => pure (.ok (some listing))
    else pure (.error .readDirectoryFailed)

end NameNode

def World.located {T : Type} (t : T) : (c : Call) → World T → Reply c → World T → Prop
  | .getBlockIds id, w, r, w' => w.files id ≠ none ∧ r.1 = .ok ∧ w' = w
  | c, w, r, w' => World.serve t c w r w'

/-- Each call of the program is answered, and it comes to a result and a world that `Q` holds of. -/
abbrev Ends {T α : Type} (t : T) (Q : α → World T → Prop) (p : M α) (w : World T) : Prop :=
  p.Wp (Prog.Answered (World.located t)) (World.located t) Q w

def FileStatus.fileType (status : FileStatus) : FileType := if status.isDir then .dir else .file

def DirListing.entries {D : Type} (listing : DirListing D) : List (Str × Option FileType) :=
  listing.partialListing.map fun e => (e.path, some e.status.fileType)

/-- The entries strictly after the one named `startAfter`, or all of them. -/
def following (startAfter : Str) (dir : List Dirent) : List Dirent :=
  if startAfter = [] then dir else (dir.dropWhile fun e => e.name ≠ startAfter).tail

/-- `PBGetListing` succeeds and returns what `readdir` shows after `startAfter`, with names and types. -/
def Lists {T D : Type} (t : T) (nn : NameNode D) (w : World T) (src : Str) (ino : UInt64) (startAfter : Str)
    (needLocation : Bool) : Prop :=
  ∃ dir, Shows t (Client.readdir ino) w (.ok, dir) ∧
    Ends t (fun r _ => ∃ listing, r = .ok (some listing) ∧
      listing.entries = (following startAfter dir).map fun e => (e.name, w.files.kind e.inum))
      (nn.pbGetListing src startAfter needLocation) w

section
variable {startAfter : Str} {dir : List Dirent}

theorem startAt_nil (dir : List Dirent) : NameNode.startAt [] dir = dir := if_pos rfl

theorem following_nil (dir : List Dirent) : following [] dir = dir := if_pos rfl

theorem following_eq_tail (h : startAfter ≠ []) (dir : List Dirent) :
    following startAfter dir = (NameNode.startAt startAfter dir).tail := by
  rw [following, NameNode.startAt, if_neg h, if_neg h]

theorem startAt_eq_nil_iff (h : startAfter ≠ []) (dir : List Dirent) :
    NameNode.startAt startAfter dir = [] ↔ ∀ e ∈ dir, e.name ≠ startAfter := by
  rw [NameNode.startAt, if_neg h, List.dropWhile_eq_nil_iff]
  simp only [decide_eq_true_eq]

/-- The loop starts one entry early, unless it lists nothing. -/
theorem length_startAt_eq_iff (h : startAfter ≠ []) :
    (NameNode.startAt startAfter dir).length = (following startAfter dir).length ↔
      NameNode.startAt startAfter dir = [] := by
  rw [following_eq_tail h, List.length_tail, ← List.length_eq_zero_iff]
  omega

end

section
variable {T D α : Type} {t : T} {nn : NameNode D} {w w' : World T} {id ino : UInt64} {src startAfter : Str}
  {needLocation : Bool} {l : List Dirent}

theorem World.located_of_reading {c : Call} (hc : Reading c) {r : Reply c} :
    World.located t c w r w' ↔ World.serve t c w r w' := by
  cases c <;> first | exact hc.elim | exact Iff.rfl

theorem answered_of_reading {c : Call} (hc : Reading c) (w : World T) :
    Prog.Answered (World.located t) c w := by
  cases c with
  | get id => exact ⟨(.ok, text (w.files id)), w, ⟨rfl, rfl⟩, rfl⟩
  | getattr id =>
    exact ⟨(.ok, ⟨typeOf (w.files id), 0, 0, 0, UInt32.ofNat (text (w.files id)).length⟩), w,
      ⟨rfl, rfl, rfl, rfl⟩, rfl⟩
  | _ => exact hc.elim

theorem ends_of_shows {p : M α} {a : α} (hp : p.All Reading) (h : Shows t p w a) :
    Ends t (fun r w' => r = a ∧ w' = w) p w := by
  apply (Prog.wp_of_all hp (fun c hc s => answered_of_reading hc s) w).of_exec
  have hserve : ∀ c, Reading c → ∀ w r w', World.located t c w r w' ↔
      ∃ w₁, w' = w₁ ∧ World.serve t c w r w₁ := by
    intro c hc w r w'
    rw [exists_eq_left', World.located_of_reading hc]
  intro r w' hexec
  obtain ⟨w₁, rfl, hexec⟩ := (Prog.exec_embed id hserve hp).1 hexec
  exact (h r w').1 hexec

theorem ends_getattr (t : T) (w : World T) (id : UInt64) :
    Ends t (fun r w' => r.1 = .ok ∧ w' = w) (perform (.getattr id)) w := by
  have hreads : Reading (.getattr id) := trivial
  refine Prog.wp_perform (answered_of_reading hreads w) fun r w' h => ?_
  obtain ⟨⟨hok, -, -, hfiles⟩, hlock⟩ := h
  refine ⟨hok, ?_⟩
  cases w
  cases w'
  simp_all

theorem ends_nlockIs (t : T) (w : World T) (type : FileType) (id : UInt64) :
    Ends t (fun b w' => b = decide (w.files.kind id = some type) ∧ w' = w) (nlockIs type id) w := by
  have hreads : (nlockIs type id).All Reading := Prog.all_bind (Prog.all_perform.2 trivial) fun _ => trivial
  have hshows := ends_of_shows hreads (shows_nlockIs t w type id)
  simpa only [Files.kind_eq_some] using hshows

theorem ends_locked {p : M α} {Q : α → Prop} (hfree : w.lock id = none)
    (h : ∀ w₁ : World T, w₁.files = w.files → Ends t (fun a w' => Q a ∧ w' = w₁) p w₁) :
    Ends t (fun a w' => Q a ∧ w' = w) (locked id p) w := by
  let w₁ : World T := { w with lock := Function.update w.lock id (some t) }
  have hacquire : Ends t (fun _ w' => w' = w₁) (perform (.acquire id)) w :=
    Prog.wp_perform ⟨(), w₁, hfree, rfl⟩ fun r w' h => h.2
  refine hacquire.bind_state fun _ => ?_
  refine (h w₁ rfl).bind_at fun a ha => ?_
  have hheld : w₁.lock id = some t := Function.update_self _ _ _
  have hrelease : Ends t (fun _ w' => w' = w) (perform (.release id)) w₁ := by
    refine Prog.wp_perform ⟨(), _, hheld, rfl⟩ fun r w' h => ?_
    rw [h.2, update_back hfree]
  exact hrelease.bind_state fun _ => Prog.wp_pure ⟨ha, rfl⟩

theorem ends_readdir (hdir : w.files.dir ino ≠ none) (t : T) (hfree : w.lock ino = none) :
    Ends t (fun r w' => r = (.ok, (w.files.listing ino).map toDirent) ∧ w' = w) (Client.readdir ino) w := by
  apply ends_locked hfree
  intro w₁ hfiles
  obtain ⟨dirList, hdir⟩ := Option.ne_none_iff_exists'.1 hdir
  have hkind : w₁.files.kind ino = some .dir := by
    rw [hfiles, Files.kind_eq_some, Files.dir_eq_some.1 hdir]
    rfl
  refine (ends_nlockIs t w₁ .dir ino).bind_returns ?_
  rw [decide_eq_true hkind, if_pos rfl]
  have hreads : (perform (.get ino)).All Reading := Prog.all_perform.2 trivial
  refine (ends_of_shows hreads (shows_get t w₁ ino)).bind_returns ?_
  apply Prog.wp_pure
  rw [hfiles, Files.dir_eq_text hdir, map_dirent, Files.listing, hdir]
  exact ⟨rfl, rfl⟩

theorem ends_pbGetFileInfoFromInum (t : T) (w : World T) (ino : UInt64) :
    Ends t (fun r w' => r.map FileStatus.fileType = (w.files.kind ino).filter (· ≠ .symlink) ∧ w' = w)
      (NameNode.pbGetFileInfoFromInum ino) w := by
  have hinfo : ∀ {β : Type} (info : Attr → β),
      Ends t (fun r w' => (∃ i, r = some i) ∧ w' = w) (NameNode.getInfo info ino) w := by
    intro β info
    refine (ends_getattr t w ino).bind_at fun r hr => Prog.wp_pure ⟨⟨info r.2, ?_⟩, rfl⟩
    rw [hr, if_pos rfl]
  refine (ends_nlockIs t w .file ino).bind_returns ?_
  by_cases hfile : w.files.kind ino = some .file
  · rw [decide_eq_true hfile, if_pos rfl, hfile]
    refine (hinfo fileInfo).bind_at fun r hr => ?_
    obtain ⟨info, rfl⟩ := hr
    exact Prog.wp_pure ⟨rfl, rfl⟩
  rw [decide_eq_false hfile, if_neg Bool.false_ne_true]
  refine (ends_nlockIs t w .dir ino).bind_returns ?_
  by_cases hdir : w.files.kind ino = some .dir
  · rw [decide_eq_true hdir, if_pos rfl, hdir]
    refine (hinfo dirInfo).bind_at fun r hr => ?_
    obtain ⟨info, rfl⟩ := hr
    exact Prog.wp_pure ⟨rfl, rfl⟩
  · rw [decide_eq_false hdir, if_neg Bool.false_ne_true]
    refine Prog.wp_pure ⟨?_, rfl⟩
    cases hkind : w.files.kind ino with
    | none => rfl
    | some type =>
      cases type with
      | file => exact absurd hkind hfile
      | dir => exact absurd hkind hdir
      | symlink => rfl

private theorem ends_getBlockLocations (nn : NameNode D) (t : T) (hlive : w.files ino ≠ none) :
    Ends t (fun _ w' => w' = w) (nn.getBlockLocations ino) w := by
  have hids : Ends t (fun _ w' => w' = w) (perform (.getBlockIds ino)) w :=
    Prog.wp_perform ⟨(.ok, []), w, hlive, rfl, rfl⟩ fun r w' h => h.2.2
  refine hids.bind_state fun r => ?_
  exact (ends_getattr t w ino).bind_at fun attr _ => Prog.wp_pure rfl

theorem ends_entryLocations (nn : NameNode D) (t : T) (hfree : w.lock ino = none) (needLocation : Bool) :
    Ends t (fun r w' => (∃ locations, r = some locations) ∧ w' = w) (nn.entryLocations needLocation ino)
      w := by
  cases needLocation with
  | false => exact Prog.wp_pure ⟨⟨none, rfl⟩, rfl⟩
  | true =>
    have hisfile : Ends t (fun b w' => b = decide (w.files.kind ino = some .file) ∧ w' = w)
        (Client.isfile ino) w := by
      apply ends_locked hfree
      intro w₁ hfiles
      rw [← hfiles]
      exact ends_nlockIs t w₁ .file ino
    refine hisfile.bind_returns ?_
    by_cases hfile : w.files.kind ino = some .file
    · rw [decide_eq_true hfile, if_pos rfl]
      have hlive : w.files ino ≠ none := by
        intro hdead
        rw [Files.kind_eq_some, hdead] at hfile
        cases hfile
      have hgetfile : Ends t (fun r w' => (∃ info, r = (.ok, some info)) ∧ w' = w)
          (Client.getfile ino) w := by
        apply ends_locked hfree
        intro w₁ hfiles
        refine (ends_getattr t w₁ ino).bind_at fun r hr => ?_
        dsimp only
        rw [if_pos hr]
        exact Prog.wp_pure ⟨⟨fileInfo r.2, rfl⟩, rfl⟩
      refine hgetfile.bind_at fun r hr => ?_
      obtain ⟨info, rfl⟩ := hr
      refine (ends_getBlockLocations nn t hlive).bind_state fun blocks => ?_
      exact Prog.wp_pure ⟨⟨_, rfl⟩, rfl⟩
    · rw [decide_eq_false hfile, if_neg Bool.false_ne_true]
      exact Prog.wp_pure ⟨⟨none, rfl⟩, rfl⟩

theorem ends_listEntries (nn : NameNode D) (t : T) (hfree : ∀ id, w.lock id = none) (needLocation : Bool)
    (h : ∀ e ∈ l, (w.files.kind e.inum).filter (· ≠ .symlink) ≠ none) :
    Ends t (fun r w' => (∃ listing, r = .ok listing ∧
      listing.entries = l.map fun e => (e.name, w.files.kind e.inum)) ∧ w' = w)
      (nn.listEntries needLocation l) w := by
  induction l with
  | nil => exact Prog.wp_pure ⟨⟨_, rfl, rfl⟩, rfl⟩
  | cons e l ih =>
    have hshown := h e List.mem_cons_self
    refine (ends_pbGetFileInfoFromInum t w e.inum).bind_at fun r hr => ?_
    cases r with
    | none => exact absurd hr.symm hshown
    | some status =>
      have hkind : w.files.kind e.inum = some status.fileType := (Option.filter_eq_some_iff.1 hr.symm).1
      refine (ends_entryLocations nn t (hfree e.inum) needLocation).bind_at fun r hr => ?_
      obtain ⟨locations, rfl⟩ := hr
      refine (ih fun e he => h e (List.mem_cons_of_mem _ he)).bind_at fun r hr => ?_
      obtain ⟨listing, rfl, hentries⟩ := hr
      refine Prog.wp_pure ⟨⟨_, rfl, ?_⟩, rfl⟩
      rw [List.map_cons, hkind, ← hentries]
      rfl

/-- One entry of another kind makes the request fail. -/
theorem ends_listEntries_fail (nn : NameNode D) (t : T) (hfree : ∀ id, w.lock id = none) (needLocation : Bool)
    (h : ∃ e ∈ l, (w.files.kind e.inum).filter (· ≠ .symlink) = none) :
    Ends t (fun r w' => r = .error .getDirentInfoFailed ∧ w' = w) (nn.listEntries needLocation l) w := by
  induction l with
  | nil =>
    obtain ⟨e, he, -⟩ := h
    cases he
  | cons e l ih =>
    refine (ends_pbGetFileInfoFromInum t w e.inum).bind_at fun r hr => ?_
    cases r with
    | none => exact Prog.wp_pure ⟨rfl, rfl⟩
    | some status =>
      have hrest : ∃ e ∈ l, (w.files.kind e.inum).filter (· ≠ .symlink) = none := by
        obtain ⟨e', he', hnone⟩ := h
        rcases List.mem_cons.1 he' with rfl | he'
        · rw [hnone] at hr
          cases hr
        · exact ⟨e', he', hnone⟩
      refine (ends_entryLocations nn t (hfree e.inum) needLocation).bind_at fun r hr => ?_
      obtain ⟨locations, rfl⟩ := hr
      exact (ih hrest).bind_returns (Prog.wp_pure ⟨rfl, rfl⟩)

theorem ends_pbGetListing {Q : Except ListingException (DirListing D) → Prop}
    (hsrc : resolvePath w.files.dir src = some ino) (hdir : w.files.dir ino ≠ none)
    (hfree : w.lock ino = none) (h : Ends t (fun r w' => Q r ∧ w' = w) (nn.listEntries needLocation
      (NameNode.startAt startAfter ((w.files.listing ino).map toDirent))) w) :
    Ends t (fun r w' => (∃ listed, Q listed ∧ r = listed.map some) ∧ w' = w)
      (nn.pbGetListing src startAfter needLocation) w := by
  have hreads := all_recursiveLookup (K := Reading) (fun _ => trivial) (fun _ => trivial) src
  have hlookup := shows_recursiveLookup t w src
  rw [hsrc] at hlookup
  refine (ends_of_shows hreads hlookup).bind_returns ?_
  refine (ends_readdir hdir t hfree).bind_returns ?_
  dsimp only
  rw [if_pos rfl]
  refine h.bind_at fun r hr => ?_
  cases r with
  | error exception => exact Prog.wp_pure ⟨⟨_, hr, rfl⟩, rfl⟩
  | ok listing => exact Prog.wp_pure ⟨⟨_, hr, rfl⟩, rfl⟩

theorem Ends.both {p : M α} {Q Q' : α → World T → Prop} (h : Ends t Q p w) (h' : Ends t Q' p w) :
    ∃ a w', Q a w' ∧ Q' a w' := by
  obtain ⟨a, w', hexec, hQ⟩ := h.exists_exec
  exact ⟨a, w', hQ, h'.result id (fun _ _ _ _ hact => hact) hexec⟩

/-- The loop must not start at `startAfter` itself, nor come to an entry that is neither file nor
directory. -/
theorem lists_iff_startAt (hsrc : resolvePath w.files.dir src = some ino) (hdir : w.files.dir ino ≠ none)
    (hfree : ∀ id, w.lock id = none) (t : T) (nn : NameNode D) (startAfter : Str) (needLocation : Bool) :
    Lists t nn w src ino startAfter needLocation ↔
      (NameNode.startAt startAfter ((w.files.listing ino).map toDirent)).length =
          (following startAfter ((w.files.listing ino).map toDirent)).length ∧
        ∀ e ∈ NameNode.startAt startAfter ((w.files.listing ino).map toDirent),
          (w.files.kind e.inum).filter (· ≠ .symlink) ≠ none := by
  have hread := shows_readdir_listing hdir t (hfree ino)
  constructor
  · rintro ⟨dir, hshows, hends⟩
    cases hread.unique hshows
    have hshown : ∀ e ∈ NameNode.startAt startAfter ((w.files.listing ino).map toDirent),
        (w.files.kind e.inum).filter (· ≠ .symlink) ≠ none := by
      intro e he hnone
      have hfail := ends_listEntries_fail nn t hfree needLocation ⟨e, he, hnone⟩
      obtain ⟨r, w', ⟨listing, hok, -⟩, ⟨listed, hlisted, hr⟩, -⟩ :=
        hends.both (ends_pbGetListing hsrc hdir (hfree ino) hfail)
      rw [hok, hlisted] at hr
      cases hr
    refine ⟨?_, hshown⟩
    have hloop := ends_listEntries nn t hfree needLocation hshown
    obtain ⟨r, w', ⟨listing, hok, hentries⟩, ⟨listed, ⟨listing', rfl, hentries'⟩, hr⟩, -⟩ :=
      hends.both (ends_pbGetListing hsrc hdir (hfree ino) hloop)
    rw [hok] at hr
    cases hr
    have hlength := congrArg List.length (hentries'.symm.trans hentries)
    rwa [List.length_map, List.length_map] at hlength
  · rintro ⟨hstart, hshown⟩
    refine ⟨_, hread, ?_⟩
    have hloop := ends_listEntries nn t hfree needLocation hshown
    refine (ends_pbGetListing hsrc hdir (hfree ino) hloop).mono fun r w' h => ?_
    obtain ⟨⟨listed, ⟨listing, rfl, hentries⟩, rfl⟩, -⟩ := h
    refine ⟨listing, rfl, hentries.trans ?_⟩
    by_cases hnil : startAfter = []
    · rw [hnil, startAt_nil, following_nil]
    · rw [following_eq_tail hnil, (length_startAt_eq_iff hnil).1 hstart, List.tail_nil]

private theorem filter_kind_ne_none {files : Files} (h : files.kind id ≠ none) :
    (files.kind id).filter (· ≠ .symlink) ≠ none ↔ files.kind id ≠ some .symlink := by
  obtain ⟨type, htype⟩ := Option.ne_none_iff_exists'.1 h
  rw [htype]
  cases type <;> decide

/-- A directory is listed as it should be exactly if all of it is asked for and it holds no link, or if
`startAfter` is not in it. -/
theorem lists_iff (hbuilt : Built w) (hsrc : resolvePath w.files.dir src = some ino)
    (hdir : w.files.dir ino ≠ none) (t : T) (nn : NameNode D) (startAfter : Str) (needLocation : Bool) :
    Lists t nn w src ino startAfter needLocation ↔
      (startAfter = [] ∧ ∀ e ∈ w.files.listing ino, w.files.kind e.2 ≠ some .symlink) ∨
        (startAfter ≠ [] ∧ ∀ e ∈ w.files.listing ino, e.1 ≠ startAfter) := by
  obtain ⟨htidy, hfree⟩ := hbuilt.invariant
  rw [lists_iff_startAt hsrc hdir hfree]
  by_cases hnil : startAfter = []
  · have hshown : ∀ e ∈ w.files.listing ino,
        ((w.files.kind e.2).filter (· ≠ .symlink) ≠ none ↔ w.files.kind e.2 ≠ some .symlink) :=
      fun e he => filter_kind_ne_none (htidy.kind_ne_none he)
    rw [hnil, startAt_nil, following_nil, and_iff_right rfl, List.forall_mem_map]
    rw [or_iff_left fun h => h.1 rfl, and_iff_right rfl]
    exact forall₂_congr hshown
  · rw [length_startAt_eq_iff hnil, or_iff_right fun h => hnil h.1, and_iff_right hnil]
    have hnone := startAt_eq_nil_iff hnil ((w.files.listing ino).map toDirent)
    rw [hnone, List.forall_mem_map]
    refine and_iff_left_of_imp fun h => ?_
    rw [hnone.2 (List.forall_mem_map.2 h)]
    exact fun e he => absurd he List.not_mem_nil

end

theorem exists_built (maker : Maker) (type : FileType)
    (hrun : ((maker.call 1 [97] 0).run (World.reply ()) emptyRoot).any (fun r => decide
      (r.2.files.listing 1 = [([97], 2)] ∧ r.2.files.kind 2 = some type ∧ r.2.files.dir 1 ≠ none ∧
        resolvePath r.2.files.dir [slash] = some 1)) = true) :
    ∃ w : World Unit, Built w ∧ w.files.listing 1 = [([97], 2)] ∧ w.files.kind 2 = some type ∧
      w.files.dir 1 ≠ none ∧ resolvePath w.files.dir [slash] = some 1 := by
  obtain ⟨⟨r, w⟩, hrun, hw⟩ := (Option.any_eq_true _ _).1 hrun
  have hbuilt : Built w := .call () maker 1 [97] 0 r .root (by decide) (World.exec_of_run hrun)
  exact ⟨w, hbuilt, of_decide_eq_true hw⟩

theorem lists_iff_directory : ∃ w : World Unit, Built w ∧ w.files.listing 1 = [([97], 2)] ∧
    w.files.kind 2 = some .dir ∧ Lists () (NameNode.init Unit) w [slash] 1 [] true := by
  obtain ⟨w, hbuilt, hlisting, hkind, hdir, hsrc⟩ := exists_built .mkdir .dir (by decide +kernel)
  have hnolink : ∀ e ∈ w.files.listing 1, w.files.kind e.2 ≠ some .symlink := by
    intro e he
    rw [hlisting] at he
    rw [List.mem_singleton.1 he, hkind]
    decide
  refine ⟨w, hbuilt, hlisting, hkind, ?_⟩
  exact (lists_iff hbuilt hsrc hdir () (NameNode.init Unit) [] true).2 (.inl ⟨rfl, hnolink⟩)

/-- After file `a`, the last one, file `a` is listed again; and a link `a` in the root makes every listing
fail that comes to it. -/
theorem listing_goes_wrong :
    (∃ w : World Unit, Built w ∧ w.files.listing 1 = [([97], 2)] ∧ w.files.kind 2 = some .file ∧
      Ends () (fun r _ => ∃ listing, r = .ok (some listing) ∧ listing.entries = [([97], some .file)])
        ((NameNode.init Unit).pbGetListing [slash] [97] false) w ∧
      ¬Lists () (NameNode.init Unit) w [slash] 1 [97] false) ∧
    ∃ w : World Unit, Built w ∧ w.files.listing 1 = [([97], 2)] ∧ w.files.kind 2 = some .symlink ∧
      Ends () (fun r _ => r = .error .getDirentInfoFailed)
        ((NameNode.init Unit).pbGetListing [slash] [] false) w ∧
      ¬Lists () (NameNode.init Unit) w [slash] 1 [] false := by
  constructor
  · obtain ⟨w, hbuilt, hlisting, hkind, hdir, hsrc⟩ := exists_built .create .file (by decide +kernel)
    have hfree := hbuilt.invariant.2
    have hstart : NameNode.startAt [97] ((w.files.listing 1).map toDirent) = [⟨[97], 2⟩] := by
      rw [hlisting]
      rfl
    refine ⟨w, hbuilt, hlisting, hkind, ?_, fun h => ?_⟩
    · have hloop := ends_listEntries (l := [⟨[97], 2⟩]) (NameNode.init Unit) () hfree false (by simp [hkind])
      rw [← hstart] at hloop
      refine (ends_pbGetListing hsrc hdir (hfree 1) hloop).mono fun r w' h => ?_
      obtain ⟨⟨listed, ⟨listing, rfl, hentries⟩, rfl⟩, -⟩ := h
      refine ⟨listing, rfl, hentries.trans ?_⟩
      rw [hstart, List.map_singleton, hkind]
    · have hlength := ((lists_iff_startAt hsrc hdir hfree () (NameNode.init Unit) [97] false).1 h).1
      rw [length_startAt_eq_iff (by decide), hstart] at hlength
      cases hlength
  · obtain ⟨w, hbuilt, hlisting, hkind, hdir, hsrc⟩ := exists_built (.createlink [98]) .symlink
      (by decide +kernel)
    have hfree := hbuilt.invariant.2
    have hlink : ∃ e ∈ NameNode.startAt [] ((w.files.listing 1).map toDirent),
        (w.files.kind e.inum).filter (· ≠ .symlink) = none := by
      rw [hlisting]
      exact ⟨⟨[97], 2⟩, List.mem_singleton_self _, by rw [hkind]; rfl⟩
    refine ⟨w, hbuilt, hlisting, hkind, ?_, fun h => ?_⟩
    · have hloop := ends_listEntries_fail (NameNode.init Unit) () hfree false hlink
      refine (ends_pbGetListing hsrc hdir (hfree 1) hloop).mono fun r w' h => ?_
      obtain ⟨⟨listed, rfl, rfl⟩, -⟩ := h
      rfl
    · obtain ⟨e, he, hnone⟩ := hlink
      exact ((lists_iff_startAt hsrc hdir hfree () (NameNode.init Unit) [] false).1 h).2 e he hnone

end Yfs.Hdfs
