import Yfs.Hdfs.Books
import Yfs.Hdfs.Effects
import Yfs.Hdfs.Making
import Yfs.Hdfs.WritePath
import Yfs.Lib.Hoare

/-! The pending writes of a namenode over whole runs of its requests: which files are pending, which
locks are held and how large the files are stay in step. -/
namespace Yfs.Hdfs
open Yfs.Lib Yfs.Extent Yfs.Client

/-- The entries of a directory lead to inodes in use, under their own numbers. -/
def NoDangling (d : Disk) (id : UInt64) : Prop :=
  ∀ text, dirText d id = some text → ∀ e ∈ entries text, Live d (n2i e.2)

/-- The calls that the server serves without damage: there are inodes and blocks, a file is completed
within its last block, and the directories that are read have no dangling entries. -/
def Good : Call → Store → Prop
  | .create _, s => nextInode s.disk ≠ none
  | .get id, s => NoDangling s.disk id
  | .put id buf, s => Request.Allowed s.disk (.put id buf) ∧ Request.Sound s.disk (.put id buf)
  | .appendBlock id, s => Request.Allowed s.disk (.appendBlock id)
  | .complete id size, s => Request.Allowed s.disk (.complete id size)
  | _, _ => True

def goodAct (c : Call) (s : Store) (r : Reply c) (s' : Store) : Prop :=
  Good c s ∧ Store.serve c s = some (r, s')

/-- Inside a request: the books, the locks that are held, and inums that are known to be in use. -/
structure At (pending : UInt64 → Option UInt32) (held : UInt64 → Bool) (known : Set UInt64)
    (s : Store) : Prop where
  books : Books pending s.disk
  held : s.held = held
  live : ∀ ino ∈ known, Live s.disk ino

section
variable {pending : UInt64 → Option UInt32} {held : UInt64 → Bool} {known known' : Set UInt64} {s s' : Store}

theorem At.mono (h : At pending held known s) (hsub : known' ⊆ known) : At pending held known' s :=
  ⟨h.books, h.held, fun ino hino => h.live ino (hsub hino)⟩

theorem At.insert (h : At pending held known s) {ino : UInt64} (hino : Live s.disk ino) :
    At pending held (insert ino known) s := by
  refine ⟨h.books, h.held, fun ino' hino' => ?_⟩
  rcases hino' with rfl | hino'
  · exact hino
  · exact h.live ino' hino'

theorem At.same (h : At pending held known s) (hsame : SameStore s s') : At pending held known s' :=
  ⟨h.books.touched hsame.touched, hsame.held.trans h.held, fun ino hino =>
    (h.live ino hino).touched hsame.touched⟩

theorem At.still (h : At pending held known s) (hdisk : s'.disk = s.disk) (hheld : s'.held = s.held) :
    At pending held known s' := by
  apply h.same
  constructor
  · rw [hdisk]
    exact Touched.refl s.disk
  · exact hheld

theorem at_getattr (id : UInt64) : Prog.Triple goodAct (At pending held known) (perform (.getattr id))
    fun r s => At pending held known s ∧ r = (.ok, Server.getattr id s.disk) := by
  apply Prog.Triple.perform
  intro s r s' hs hact
  cases hact.2
  exact ⟨hs.still rfl rfl, rfl⟩

theorem at_get (id : UInt64) : Prog.Triple goodAct (At pending held known) (perform (.get id))
    fun _ s => At pending held known s := by
  apply Prog.Triple.perform
  intro s r s' hs hact
  obtain ⟨s₁, hget, hsame⟩ := serve_get hs.books.owned id
  rw [hact.2] at hget
  cases hget
  exact hs.same hsame

theorem at_get_dir (id : UInt64) :
    Prog.Triple goodAct (fun s => At pending held known s ∧ true = (dirText s.disk id).isSome)
    (perform (.get id))
      fun r s => At pending held known s ∧ ∀ e ∈ entries r.2, Live s.disk (n2i e.2) := by
  apply Prog.Triple.perform
  intro s r s' hs hact
  obtain ⟨hgood, hserve⟩ := hact
  obtain ⟨hat, hdir⟩ := hs
  obtain ⟨s₁, hget, hsame⟩ := serve_get hat.books.owned id
  rw [hget] at hserve
  cases hserve
  refine ⟨hat.same hsame, fun e he => ?_⟩
  obtain ⟨text, htext⟩ := Option.isSome_iff_exists.1 hdir.symm
  have hbytes : bytesOf s.disk id = text := by
    rw [dirText_eq_fileOf] at htext
    obtain ⟨f, hf, hif⟩ := Option.bind_eq_some_iff.1 htext
    split_ifs at hif
    cases hif
    rw [bytesOf, hf]
    rfl
  rw [hbytes] at he
  exact (hgood text htext e he).touched hsame.touched

theorem run_of_goodAct {α : Type} {p : M α} {a : α} (h : p.Exec goodAct s a s') :
    p.run Store.serve s = some (a, s') :=
  Prog.run_of_exec (fun _ _ _ _ hact => hact.2) h

private theorem at_nlockIsdir (id : UInt64) : Prog.Triple goodAct (At pending held known) (nlockIsdir id)
    fun b s => At pending held known s ∧ b = (dirText s.disk id).isSome := by
  intro s b s' hs hexec
  have hrun := run_of_goodAct hexec
  rw [run_nlockIsdir] at hrun
  cases hrun
  exact ⟨hs.still rfl rfl, rfl⟩

/-- What a lookup finds is in use; otherwise it leaves its argument. -/
theorem at_nlockLookup (parent : UInt64) (name : Str) (out : UInt64) :
    Prog.Triple goodAct (At pending held known) (nlockLookup parent name false out)
      fun r s => At pending held known s ∧ (r.2.1 = true → Live s.disk r.2.2) ∧
      (r.2.1 = false → r.2.2 = out) := by
  refine Prog.Triple.bind (at_nlockIsdir parent) fun isDir => ?_
  cases isDir with
  | false => exact Prog.Triple.pure fun s hs => ⟨hs.1, fun h => (nomatch h), fun _ => rfl⟩
  | true =>
    refine Prog.Triple.bind (at_get_dir parent) fun r => ?_
    obtain ⟨r, dirList⟩ := r
    dsimp only [ite_true]
    split_ifs
    · cases hfind : findEntry dirList name with
      | none => exact Prog.Triple.pure fun s hs => ⟨hs.1, fun h => (nomatch h), fun _ => rfl⟩
      | some e =>
        refine Prog.Triple.pure fun s hs => ⟨hs.1, fun _ => ?_, fun h => (nomatch h)⟩
        exact hs.2 e (List.mem_of_find?_eq_some hfind)
    · exact Prog.Triple.pure fun s hs => ⟨hs.1, fun h => (nomatch h), fun _ => rfl⟩

private theorem at_walk (ino : UInt64) (l : List Str) :
    Prog.Triple goodAct (At pending held known) (NameNode.walk ino l) fun _ => At pending held known := by
  induction l generalizing ino with
  | nil => exact Prog.Triple.pure fun s hs => hs
  | cons component l ih =>
    refine Prog.Triple.bind (at_nlockLookup ino (cStr component) ino) fun ⟨r, found, ino'⟩ => ?_
    dsimp only
    split_ifs
    · exact (ih ino').strengthen fun s hs => hs.1
    · exact Prog.Triple.pure fun s hs => hs.1

theorem at_recursiveLookup (src : Str) :
    Prog.Triple goodAct (At pending held known) (NameNode.recursiveLookup src)
      fun _ => At pending held known := by
  unfold NameNode.recursiveLookup
  split_ifs
  · exact at_walk 1 _
  · exact Prog.Triple.pure fun s hs => hs

theorem at_create (type : FileType) : Prog.Triple goodAct (At pending held known)
    (perform (.create type.code))
    fun r s => (r.2 ∉ known ∧ pending r.2 = none) ∧
    At (opened type pending r.2) held (insert r.2 known) s := by
  apply Prog.Triple.perform
  intro s r s' hs hact
  obtain ⟨hgood, hserve⟩ := hact
  obtain ⟨n, hnext⟩ := Option.ne_none_iff_exists'.1 hgood
  obtain ⟨hcreate, hbooks, hnew, hnot, hlive⟩ := hs.books.create s.now type hnext
  have hserve' : Store.serve (.create type.code) s =
      some ((.ok, (UInt32.ofNat n).toUInt64), s.next (Server.create s.now type.code s.disk).2) := by
    rw [Store.serve, hcreate]
  rw [hserve'] at hserve
  cases hserve
  refine ⟨⟨fun hknown => hnot (hs.live _ hknown), ?_⟩, ?_⟩
  · cases hsize : pending (UInt32.ofNat n).toUInt64 with
    | none => rfl
    | some size => exact absurd (hs.books.live hsize) hnot
  · have hat : At (opened type pending (UInt32.ofNat n).toUInt64) held known
        (s.next (Server.create s.now type.code s.disk).2) :=
      ⟨hbooks, hs.held, fun ino hino => hlive ino (hs.live ino hino)⟩
    exact hat.insert hnew

private theorem at_put {id : UInt64} (hid : id ∈ known) (hpending : pending id = none) (buf : Str) :
    Prog.Triple goodAct (At pending held known) (perform (.put id buf)) fun _ => At pending held known := by
  apply Prog.Triple.perform
  intro s r s' hs hact
  obtain ⟨⟨ha, hsound⟩, hserve⟩ := hact
  cases hserve
  obtain ⟨inum, heq, hlive⟩ := hs.live id hid
  have hmask : (maskId id).toUInt64 = id := by rw [heq, maskId_of_getInode hlive]
  obtain ⟨hbooks, hkeep⟩ := hs.books.put s.now ha hsound (by rw [hmask, hpending])
  exact ⟨hbooks, hs.held, fun ino hino => hkeep ino (hs.live ino hino)⟩

theorem at_nlockAdd (type : FileType) {parent : UInt64} (hparent : parent ∈ known)
    (hpending : pending parent = none) (name : Str) (out : UInt64) :
    Prog.Triple goodAct (At pending held known) (nlockAdd type parent name out) fun r s =>
      if r.1 = .ok then pending r.2 = none ∧ At (opened type pending r.2) held (insert r.2 known) s
      else At pending held known s := by
  refine Prog.Triple.bind (at_nlockLookup parent name out) fun ⟨_, found, ino⟩ => ?_
  cases found with
  | true => exact Prog.Triple.pure fun s hs => hs.1
  | false =>
    refine Prog.Triple.strengthen (P := At pending held known) ?_ fun s hs => hs.1
    refine Prog.Triple.bind (at_create type) fun ⟨_, n⟩ => ?_
    refine Prog.Triple.of_and fun hnew => ?_
    refine Prog.Triple.bind (at_get parent) fun ⟨r, dirList⟩ => ?_
    have hne : parent ≠ n := fun heq => hnew.1 (heq ▸ hparent)
    have hput : opened type pending n parent = none := by
      unfold opened
      split_ifs
      · rw [Function.update_of_ne hne, hpending]
      · exact hpending
    dsimp only
    split_ifs
    · refine Prog.Triple.bind (at_put (Set.mem_insert_of_mem n hparent) hput _) fun _ => ?_
      exact Prog.Triple.pure fun s hs => ⟨hnew.2, hs⟩
    · exact Prog.Triple.pure fun s hs => ⟨hnew.2, hs⟩

theorem at_acquire (lid : UInt64) : Prog.Triple goodAct (At pending held known) (perform (.acquire lid))
    fun _ s => held lid = false ∧ At pending (Function.update held lid true) known s := by
  apply Prog.Triple.perform
  intro s r s' hs hact
  obtain ⟨-, hserve⟩ := hact
  simp only [Store.serve] at hserve
  split_ifs at hserve with hheld
  cases hserve
  rw [hs.held] at hheld
  refine ⟨Bool.eq_false_iff.2 hheld, hs.books, ?_, hs.live⟩
  rw [hs.held]

theorem at_release (lid : UInt64) : Prog.Triple goodAct (At pending held known) (perform (.release lid))
    fun _ s => At pending (Function.update held lid false) known s := by
  apply Prog.Triple.perform
  intro s r s' hs hact
  obtain ⟨-, hserve⟩ := hact
  simp only [Store.serve] at hserve
  split_ifs at hserve
  cases hserve
  refine ⟨hs.books, ?_, hs.live⟩
  rw [hs.held]

def locksOf (pending : UInt64 → Option UInt32) : UInt64 → Bool := fun ino => (pending ino).isSome

theorem locksOf_update (pending : UInt64 → Option UInt32) (ino : UInt64) (size : Option UInt32) :
    locksOf (Function.update pending ino size) = Function.update (locksOf pending) ino size.isSome :=
  Function.comp_update Option.isSome pending ino size

private theorem update_locksOf {lid : UInt64} (h : locksOf pending lid = false) :
    Function.update (Function.update (locksOf pending) lid true) lid false = locksOf pending := by
  rw [Function.update_idem, ← h, Function.update_eq_self]

/-- `create` and `mkdir`: a directory whose lock can be had is not pending. -/
theorem at_add (type : FileType) {parent : UInt64} (hparent : parent ∈ known) (name : Str) (out : UInt64) :
    Prog.Triple goodAct (At pending (locksOf pending) known) (locked parent (nlockAdd type parent name out))
      fun r s => if r.1 = .ok then pending r.2 = none ∧
      At (opened type pending r.2) (locksOf pending) (insert r.2 known) s
        else At pending (locksOf pending) known s := by
  refine Prog.Triple.bind (at_acquire parent) fun _ => Prog.Triple.of_and fun hfree => ?_
  have hpending : pending parent = none := Option.isSome_eq_false_iff.1 hfree |> Option.isNone_iff_eq_none.1
  refine Prog.Triple.bind (at_nlockAdd type hparent hpending name out) fun r => ?_
  by_cases hok : r.1 = .ok
  · simp only [if_pos hok]
    refine Prog.Triple.of_and fun hnew => Prog.Triple.bind (at_release parent) fun _ => ?_
    rw [update_locksOf hfree]
    refine Prog.Triple.pure fun s hs => ?_
    rw [if_pos hok]
    exact ⟨hnew, hs⟩
  · simp only [if_neg hok]
    refine Prog.Triple.bind (at_release parent) fun _ => ?_
    rw [update_locksOf hfree]
    refine Prog.Triple.pure fun s hs => ?_
    rw [if_neg hok]
    exact hs

namespace NameNode
variable {D : Type}

theorem at_mkdir {parent : UInt64} (hparent : parent ∈ known) (name : Str) (out : UInt64) :
    Prog.Triple goodAct (At pending (locksOf pending) known) (mkdir parent name out)
      fun r s => At pending (locksOf pending) (if r.1 then insert r.2 known else known) s := by
  refine Prog.Triple.bind (at_add .dir hparent (cStr name) out) fun ⟨r, ino⟩ =>
    Prog.Triple.pure fun s hs => ?_
  by_cases hok : r = .ok
  · rw [if_pos hok] at hs
    rw [if_pos (decide_eq_true hok)]
    exact hs.2
  · rw [if_neg hok] at hs
    rw [if_neg (by simpa using hok)]
    exact hs

theorem at_descend (createParent : Bool) {ino : UInt64} (hino : ino ∈ known) (l : List Str) :
    Prog.Triple goodAct (At pending (locksOf pending) known) (descend createParent ino l) fun r s =>
      At pending (locksOf pending) known s ∧ ∀ parent, r = .ok parent → Live s.disk parent := by
  induction l generalizing ino known with
  | nil =>
    refine Prog.Triple.pure fun s hs => ⟨hs, fun parent hparent => ?_⟩
    cases hparent
    exact hs.live ino hino
  | cons component l ih =>
    refine Prog.Triple.bind (at_nlockLookup ino (cStr component) ino) fun ⟨r, found, ino'⟩ => ?_
    dsimp only
    split_ifs with hr hfound hcreate
    · exact Prog.Triple.pure fun s hs => ⟨hs.1, fun parent hparent => nomatch hparent⟩
    · have hmem : ino' ∈ insert ino' known := Set.mem_insert ino' known
      have hrest := ih hmem
      refine hrest.conseq (fun s hs => hs.1.insert (hs.2.1 hfound)) fun r s hs => ?_
      exact ⟨hs.1.mono (Set.subset_insert ino' known), hs.2⟩
    · -- the component is not there: the directory is made in `ino` itself
      intro s a s' hs hexec
      obtain rfl : ino' = ino := hs.2.2 (Bool.eq_false_iff.2 hfound)
      refine Prog.Triple.bind (S := fun r s => At pending (locksOf pending) known s ∧
        ∀ parent, r = .ok parent → Live s.disk parent) (at_mkdir hino component ino')
        (fun ⟨made, child⟩ => ?_) s a s' hs.1 hexec
      cases made with
      | false => exact Prog.Triple.pure fun s hs => ⟨hs, fun parent hparent => nomatch hparent⟩
      | true =>
        have hmem : child ∈ insert child known := Set.mem_insert child known
        have hrest := ih hmem
        exact hrest.weaken fun r s hs => ⟨hs.1.mono (Set.subset_insert child known), hs.2⟩
    · exact Prog.Triple.pure fun s hs => ⟨hs.1, fun parent hparent => nomatch hparent⟩

theorem at_pbGetFileInfoFromInum (ino : UInt64) :
    Prog.Triple goodAct (At pending held known) (pbGetFileInfoFromInum ino)
      fun _ => At pending held known := by
  intro s a s' hs hexec
  obtain ⟨info, s₁, hrun, hdisk, hheld⟩ := run_pbGetFileInfoFromInum s ino
  rw [run_of_goodAct hexec] at hrun
  cases hrun
  exact hs.still hdisk hheld

/-- After a request: the pending files and the locks of the new state, and the root. -/
def Settled (nn : NameNode D) (s : Store) : Prop := At nn.pendingWrite (locksOf nn.pendingWrite) {1} s

/-- `Create` opens a file: it is pending and locked. -/
theorem settled_create (nn : NameNode D) {parent : UInt64} (hparent : parent ∈ known) (hroot : 1 ∈ known)
    (name : Str) (out : UInt64) :
    Prog.Triple goodAct (At nn.pendingWrite (locksOf nn.pendingWrite) known)
    (create parent name out) fun r s =>
      if r.1 then ({ nn with
        pendingWrite := Function.update nn.pendingWrite r.2 (some ((nn.pendingWrite r.2).getD 0)) } :
          NameNode D).Settled s
      else nn.Settled s := by
  refine Prog.Triple.bind (at_add .file hparent (cStr name) out) fun ⟨r, ino⟩ => ?_
  by_cases hok : r = .ok
  · dsimp only
    simp only [if_pos hok]
    refine Prog.Triple.of_and fun hnew => Prog.Triple.bind (at_acquire ino) fun _ =>
      Prog.Triple.pure fun s hs => ?_
    have hat := hs.2
    rw [opened, if_pos rfl] at hat
    dsimp only [Settled]
    rw [if_pos rfl, hnew, Option.getD_none, locksOf_update, Option.isSome_some]
    exact hat.mono fun i hi => Set.mem_insert_of_mem ino (Set.mem_singleton_iff.1 hi ▸ hroot)
  · dsimp only
    simp only [if_neg hok]
    exact Prog.Triple.pure fun s hs => hs.mono fun i hi => Set.mem_singleton_iff.1 hi ▸ hroot

theorem settled_inParent {α : Type} (nn : NameNode D) (src : Str) (createParent : Bool)
    {fail : HdfsException → α} {body : UInt64 → M α} {S : α → Store → Prop}
    (hfail : ∀ e s, nn.Settled s → S (fail e) s)
    (hbody : ∀ parent, Prog.Triple goodAct
      (At nn.pendingWrite (locksOf nn.pendingWrite) (insert parent {1})) (body parent) S) :
    Prog.Triple goodAct nn.Settled (inParent src createParent fail body) S := by
  unfold inParent
  by_cases habsolute : src.head? = some slash
  · rw [if_pos habsolute]
    refine Prog.Triple.bind (at_descend createParent (Set.mem_singleton 1) _) fun r => ?_
    cases r with
    | error e => exact Prog.Triple.pure fun s hs => hfail e s hs.1
    | ok parent =>
      dsimp only
      by_cases hlast : lastName src = []
      · rw [if_pos hlast]
        exact Prog.Triple.pure fun s hs => hfail _ s hs.1
      · rw [if_neg hlast]
        exact (hbody parent).strengthen fun s hs => hs.1.insert (hs.2 parent rfl)
  · rw [if_neg habsolute]
    exact Prog.Triple.pure fun s hs => hfail _ s hs

theorem settled_pbCreate (nn : NameNode D) (src : Str) (createParent : Bool) :
    Prog.Triple goodAct nn.Settled (nn.pbCreate src createParent) fun r => r.2.Settled := by
  rw [pbCreate_eq_inParent]
  refine settled_inParent nn src createParent (fun e s hs => hs) fun parent => ?_
  refine Prog.Triple.bind (settled_create nn (Set.mem_insert parent {1})
    (Set.mem_insert_of_mem parent (Set.mem_singleton 1)) _ _) fun r => ?_
  by_cases hmade : r.1
  · simp only [if_pos hmade]
    exact Prog.Triple.bind (at_pbGetFileInfoFromInum r.2) fun info => Prog.Triple.pure fun s hs => hs
  · simp only [if_neg hmade]
    exact Prog.Triple.pure fun s hs => hs

theorem settled_pbMkdirs (nn : NameNode D) (src : Str) (createParent : Bool) :
    Prog.Triple goodAct nn.Settled (pbMkdirs src createParent) fun _ => nn.Settled := by
  rw [pbMkdirs_eq_inParent]
  refine settled_inParent nn src createParent (fun e s hs => hs) fun parent => ?_
  refine Prog.Triple.bind (at_mkdir (Set.mem_insert parent {1}) _ _) fun r => ?_
  split_ifs
  · refine Prog.Triple.pure fun s hs => hs.mono ?_
    exact (Set.subset_insert parent {1}).trans (Set.subset_insert r.2 _)
  · exact Prog.Triple.pure fun s hs => hs.mono (Set.subset_insert parent {1})

theorem settled_pbGetFileInfo (nn : NameNode D) (src : Str) :
    Prog.Triple goodAct nn.Settled (pbGetFileInfo src) fun _ => nn.Settled := by
  refine Prog.Triple.bind (at_recursiveLookup src) fun r => ?_
  cases r with
  | none => exact Prog.Triple.pure fun s hs => hs
  | some ino => exact at_pbGetFileInfoFromInum ino

private theorem at_appendBlock (nn : NameNode D) {ino : UInt64} {size : UInt32}
    (hsize : nn.pendingWrite ino = some size) :
    Prog.Triple goodAct nn.Settled (nn.appendBlock ino) fun r s => r.2.pendingWrite = nn.pendingWrite ∧
      At (Function.update nn.pendingWrite ino (some (size + UInt32.ofNat blockSize)))
      (locksOf nn.pendingWrite) {1} s := by
  refine Prog.Triple.bind (at_getattr ino) fun ⟨_, attr⟩ => ?_
  have happend : Prog.Triple goodAct nn.Settled (perform (.appendBlock ino)) fun _ =>
      At (Function.update nn.pendingWrite ino (some (size + UInt32.ofNat blockSize)))
      (locksOf nn.pendingWrite) {1} := by
    apply Prog.Triple.perform
    intro s r s' hs hact
    obtain ⟨hgood, hserve⟩ := hact
    cases hserve
    obtain ⟨hbooks, hlive⟩ := hs.books.append s.now hsize hgood
    exact ⟨hbooks, hs.held, fun i hi => hlive i (hs.live i hi)⟩
  refine Prog.Triple.strengthen (P := nn.Settled) ?_ fun s hs => hs.1
  exact Prog.Triple.bind happend fun ⟨_, bid⟩ => Prog.Triple.pure fun s hs => ⟨rfl, hs⟩

theorem settled_pbAddBlock (nn : NameNode D) (src : Str) :
    Prog.Triple goodAct nn.Settled (nn.pbAddBlock src) fun r => r.2.Settled := by
  refine Prog.Triple.bind (at_recursiveLookup src) fun r => ?_
  cases r with
  | none => exact Prog.Triple.pure fun s hs => hs
  | some ino =>
    dsimp only
    cases hsize : nn.pendingWrite ino with
    | none => exact Prog.Triple.pure fun s hs => hs
    | some size =>
      refine Prog.Triple.bind (at_appendBlock nn hsize) fun ⟨block, nn'⟩ => Prog.Triple.pure fun s hs => ?_
      obtain ⟨hsame, hat⟩ := hs
      have hlocks : locksOf (Function.update nn.pendingWrite ino (some (size + UInt32.ofNat blockSize))) =
          locksOf nn.pendingWrite := by
        have hlocked : (some (size + UInt32.ofNat blockSize)).isSome = locksOf nn.pendingWrite ino := by
          rw [locksOf, hsize, Option.isSome_some, Option.isSome_some]
        rw [locksOf_update, hlocked, Function.update_eq_self]
      dsimp only [Settled] at hsame ⊢
      rw [hsame, hlocks]
      exact hat

theorem at_complete (nn : NameNode D) {ino : UInt64} {size : UInt32} (hsize : nn.pendingWrite ino = some size)
    (newSize : UInt32) : Prog.Triple goodAct nn.Settled (complete ino newSize) fun r s =>
      r = true ∧ ({ nn with pendingWrite := Function.update nn.pendingWrite ino none } :
        NameNode D).Settled s := by
  have hcomplete : Prog.Triple goodAct nn.Settled (perform (.complete ino newSize)) fun r s => r = .ok ∧
      At (Function.update nn.pendingWrite ino none) (locksOf nn.pendingWrite) {1} s := by
    apply Prog.Triple.perform
    intro s r s' hs hact
    obtain ⟨hgood, hserve⟩ := hact
    obtain ⟨d', hrun, heq⟩ := Option.map_eq_some_iff.1 hserve
    cases heq
    obtain ⟨hbooks, hlive⟩ := hs.books.complete (hs.books.live hsize) hgood hrun
    exact ⟨rfl, hbooks, hs.held, fun i hi => hlive i (hs.live i hi)⟩
  refine Prog.Triple.bind hcomplete fun r => Prog.Triple.of_and fun hok => ?_
  rw [if_pos hok]
  refine Prog.Triple.bind (at_release ino) fun _ => Prog.Triple.pure fun s hs => ⟨rfl, ?_⟩
  dsimp only [Settled]
  rw [locksOf_update, Option.isSome_none]
  exact hs

theorem settled_pbComplete (nn : NameNode D) (src : Str) (last : Option UInt64) :
    Prog.Triple goodAct nn.Settled (nn.pbComplete src last) fun r => r.2.Settled := by
  refine Prog.Triple.bind (at_recursiveLookup src) fun r => ?_
  cases r with
  | none => exact Prog.Triple.pure fun s hs => hs
  | some ino =>
    dsimp only
    cases hsize : nn.pendingWrite ino with
    | none => exact Prog.Triple.pure fun s hs => hs
    | some size =>
      refine Prog.Triple.bind (at_complete nn hsize _) fun r => Prog.Triple.of_and fun hok => ?_
      rw [if_pos hok]
      exact Prog.Triple.pure fun s hs => hs

end NameNode
end

inductive WriteRequest where
  | create (src : Str) (createParent : Bool)
  | addBlock (src : Str)
  | complete (src : Str) (last : Option UInt64)
  | getFileInfo (src : Str)
  | mkdirs (src : Str) (createParent : Bool)

section
variable {D : Type}

def WriteRequest.call (nn : NameNode D) : WriteRequest → M (NameNode D)
  | .create src createParent => do
    let (_, nn) ← nn.pbCreate src createParent
    pure nn
  | .addBlock src => do
    let (_, nn) ← nn.pbAddBlock src
    pure nn
  | .complete src last => do
    let (_, nn) ← nn.pbComplete src last
    pure nn
  | .getFileInfo src => do
    let _ ← NameNode.pbGetFileInfo src
    pure nn
  | .mkdirs src createParent => do
    let _ ← NameNode.pbMkdirs src createParent
    pure nn

/-- A request that is handled as a whole, by good calls. -/
def GoodRequest (p p' : NameNode D × Store) : Prop :=
  ∃ req : WriteRequest, (req.call p.1).Exec goodAct p.2 p'.1 p'.2

/-- The namenode holds the locks of the pending files and no others, and knows the sizes of the files. -/
def InStep (nn : NameNode D) (s : Store) : Prop :=
  ∀ ino, (s.held ino = true ↔ nn.pendingWrite ino ≠ none) ∧
    ∀ size, nn.pendingWrite ino = some size → (Server.getattr ino s.disk).size = size ∧
      ∀ rt, ∃ ids, Server.getBlockIds rt ino s.disk = some ids ∧ size.toNat = blockSize * ids.length

theorem WriteRequest.settled (nn : NameNode D) (req : WriteRequest) :
    Prog.Triple goodAct nn.Settled (req.call nn) fun nn' => nn'.Settled := by
  cases req with
  | create src createParent =>
    exact Prog.Triple.bind (nn.settled_pbCreate src createParent) fun r => Prog.Triple.pure fun s hs => hs
  | addBlock src =>
    exact Prog.Triple.bind (nn.settled_pbAddBlock src) fun r => Prog.Triple.pure fun s hs => hs
  | complete src last =>
    exact Prog.Triple.bind (nn.settled_pbComplete src last) fun r => Prog.Triple.pure fun s hs => hs
  | getFileInfo src =>
    exact Prog.Triple.bind (nn.settled_pbGetFileInfo src) fun r => Prog.Triple.pure fun s hs => hs
  | mkdirs src createParent =>
    exact Prog.Triple.bind (nn.settled_pbMkdirs src createParent) fun r => Prog.Triple.pure fun s hs => hs

theorem NameNode.Settled.inStep {nn : NameNode D} {s : Store} (h : nn.Settled s) : InStep nn s := by
  intro ino
  constructor
  · rw [h.held, locksOf, Option.isSome_iff_ne_none]
  · intro size hsize
    exact ⟨(h.books.shown hsize quiet).1, fun rt => (h.books.shown hsize rt).2⟩

/-- In every run of requests that make good calls only, the pending files, the locks and the sizes stay
in step. -/
theorem inStep_of_run {nn₀ nn : NameNode D} {s₀ s : Store} (hpending : ∀ ino, nn₀.pendingWrite ino = none)
    (hheld : ∀ ino, s₀.held ino = false) (hown : Owned s₀.disk) (hroot : Live s₀.disk 1)
    (hrun : Relation.ReflTransGen GoodRequest (nn₀, s₀) (nn, s)) : InStep nn s := by
  have hstart : nn₀.Settled s₀ := by
    refine ⟨⟨hown, fun ino size hsize => ?_⟩, ?_, fun ino hino => ?_⟩
    · rw [hpending ino] at hsize
      cases hsize
    · funext ino
      rw [hheld ino, locksOf, hpending ino, Option.isSome_none]
    · rw [Set.mem_singleton_iff.1 hino]
      exact hroot
  have hsettled : ∀ p, Relation.ReflTransGen GoodRequest (nn₀, s₀) p → p.1.Settled p.2 := by
    intro p hp
    induction hp with
    | refl => exact hstart
    | tail _ hstep ih =>
      obtain ⟨req, hexec⟩ := hstep
      exact req.settled _ _ _ _ ih hexec
  exact (hsettled _ hrun).inStep

end

/-- Programs on a store, with the calls that are good. -/
abbrev MakesGood {α : Type} (Q : α → Store → Prop) (p : M α) (s : Store) : Prop :=
  p.Wp Good (fun c s r s' => Store.serve c s = some (r, s')) Q s

section
variable {s : Store}

theorem good_get_root (hown : Owned s.disk)
    (hroot : fileOf s.disk 1 = some (FileType.dir.code.toUInt16, [])) :
    MakesGood (fun r s' => r.2 = [] ∧ SameStore s s') (perform (.get 1)) s := by
  have hmask : maskId 1 = 1 := by decide
  refine Prog.wp_perform ?_ fun r s' hserve => ?_
  · intro text htext e he
    rw [dirText_eq_fileOf, hmask, hroot, Option.bind_some, if_pos rfl] at htext
    cases htext
    exact absurd he List.not_mem_nil
  · obtain ⟨s₁, hget, hsame⟩ := serve_get hown 1
    rw [hget] at hserve
    cases hserve
    refine ⟨?_, hsame⟩
    rw [bytesOf, hmask, hroot]
    rfl

theorem good_lookup_root (hown : Owned s.disk)
    (hroot : fileOf s.disk 1 = some (FileType.dir.code.toUInt16, [])) (name : Str) (out : UInt64) :
    MakesGood (fun r s' => r.2.1 = false ∧ SameStore s s') (nlockLookup 1 name false out) s := by
  have hisdir : MakesGood (fun _ s' => s'.disk = s.disk ∧ s'.held = s.held) (nlockIsdir 1) s := by
    refine Prog.Wp.bind (Q := fun _ s' => s'.disk = s.disk ∧ s'.held = s.held) ?_ fun r s' h => Prog.wp_pure h
    refine Prog.wp_perform trivial fun r s' hserve => ?_
    cases hserve
    exact ⟨rfl, rfl⟩
  refine hisdir.bind fun isDir s₁ h => ?_
  obtain ⟨hdisk, hheld⟩ := h
  have hsame : SameStore s s₁ := ⟨hdisk ▸ Touched.refl s.disk, hheld⟩
  cases isDir with
  | false => exact Prog.wp_pure ⟨rfl, hsame⟩
  | true =>
    refine (good_get_root (s := s₁) (hdisk ▸ hown) (hdisk ▸ hroot)).bind fun ⟨r, dirList⟩ s₂ h => ?_
    obtain ⟨hnil, hsame₂⟩ := h
    have hnone : findEntry dirList name = none := by
      rw [show dirList = [] from hnil]
      rfl
    dsimp only [ite_true]
    rw [hnone]
    split_ifs
    · exact Prog.wp_pure ⟨rfl, hsame.trans hsame₂⟩
    · exact Prog.wp_pure ⟨rfl, hsame.trans hsame₂⟩

theorem good_add_root (hown : Owned s.disk) (hroot : fileOf s.disk 1 = some (FileType.dir.code.toUInt16, []))
    (hnext : nextInode s.disk = some 2) (hroom : 1 ≤ s.disk.freeBlocks.length) {name : Str}
    (hlen : (entry (name, [50])).length ≤ blockSize) (out : UInt64) :
    MakesGood (fun _ _ => True) (nlockAdd .file 1 name out) s := by
  refine (good_lookup_root hown hroot name out).bind fun r s₁ h => ?_
  obtain ⟨_, found, ino⟩ := r
  obtain ⟨hfound, hsame⟩ := h
  dsimp only at hfound ⊢
  rw [hfound, if_neg Bool.false_ne_true]
  have hown₁ := hsame.touched.owned hown
  have hnext₁ : nextInode s₁.disk = some 2 := (hsame.touched.nextInode_eq hown).trans hnext
  have hcreate : MakesGood (fun r s₂ => r.2 = 2 ∧ Owned s₂.disk ∧
      fileOf s₂.disk 1 = some (FileType.dir.code.toUInt16, []) ∧
      s₂.disk.freeBlocks = s₁.disk.freeBlocks) (perform (.create FileType.file.code)) s₁ := by
    refine Prog.wp_perform (by rw [Good, hnext₁]; exact Option.some_ne_none 2) fun r s₂ hserve => ?_
    have heq := Server.create_eq s₁.now FileType.file.code hnext₁
    simp only [Store.serve] at hserve
    cases hserve
    refine ⟨by rw [heq]; rfl, hown₁.create s₁.now .file, ?_, freeBlocks_create s₁.now _ hnext₁⟩
    rw [Store.disk_next, fileOf_create hown₁ s₁.now .file hnext₁, if_neg (by decide),
      hsame.touched.fileOf_eq hown, hroot]
  refine hcreate.bind fun r s₂ h => ?_
  obtain ⟨_, n⟩ := r
  obtain ⟨hn, hown₂, hroot₂, hfree₂⟩ := h
  refine (good_get_root hown₂ hroot₂).bind fun r s₃ h => ?_
  obtain ⟨r, dirList⟩ := r
  obtain ⟨hnil, hsame₃⟩ := h
  dsimp only at hn hnil ⊢
  rw [hn, hnil]
  split_ifs
  · have hnumber : filename 2 = [50] := by decide
    have hcount : blockCount (entry (name, [50])).length ≤ 1 := by
      rw [blockCount_le, Nat.one_mul]
      exact hlen
    have hroomy : Roomy s₃.disk 1 (entry (name, [50])) := by
      refine Roomy.of_direct (hcount.trans (by decide)) fun ino _ => ?_
      rw [hsame₃.touched.freeBlocks, hfree₂, hsame.touched.freeBlocks]
      exact (grownBy_le (hcount.trans (by decide))).trans (hcount.trans hroom)
    rw [addEntry, if_pos rfl, hnumber]
    exact (Prog.wp_perform (Q := fun _ _ => True) ⟨hroomy.allowed, hroomy.sound⟩ fun _ _ _ => trivial).bind
      fun _ _ _ => trivial
  · trivial

end

theorem good_pbCreate_fresh : MakesGood (fun _ _ => True) ((NameNode.init ℕ).pbCreate [47, 102] false)
    freshStore := by
  have hfree : ∀ {α : Type} {p : M α}, (p.All fun c => ∀ s, Good c s) →
      ∀ s, MakesGood (fun _ _ => True) p s :=
    fun hp s => Prog.wp_of_all hp (fun _ h => h) s
  have hroot : fileOf freshStore.disk 1 = some (FileType.dir.code.toUInt16, []) := by
    rw [freshStore, fileOf_init]
    rfl
  have hroom : 1 ≤ freshStore.disk.freeBlocks.length := by
    rw [freshStore, freeBlocks_init, List.length_range']
    decide
  have hlen : (entry ([102], [50])).length ≤ blockSize := by decide
  have hadd : ∀ held, MakesGood (fun _ _ => True) (nlockAdd .file 1 [102] 1)
      { freshStore with held := held } :=
    fun held => good_add_root (s := { freshStore with held := held }) (owned_init quiet) hroot
      (nextInode_init quiet) hroom hlen 1
  have hlocked : MakesGood (fun _ _ => True) (Client.create 1 [102] 1) freshStore := by
    refine Prog.Wp.bind (Q := fun _ s => ∃ held, s = { freshStore with held := held }) ?_ fun _ s h => ?_
    · exact Prog.wp_perform trivial fun r s' hserve => by cases hserve; exact ⟨_, rfl⟩
    · obtain ⟨held, rfl⟩ := h
      refine (hadd held).bind fun r s _ => hfree ?_ s
      exact Prog.all_bind (Prog.all_perform.2 fun _ => trivial) fun _ => trivial
  refine Prog.Wp.bind (Q := fun r s => r = .ok 1 ∧ s = freshStore) ⟨rfl, rfl⟩ fun r s h => ?_
  obtain ⟨rfl, rfl⟩ := h
  refine Prog.Wp.bind (Q := fun _ _ => True) ?_ fun r s _ => hfree ?_ s
  · refine hlocked.bind fun r s _ => hfree ?_ s
    dsimp only
    split_ifs
    · exact Prog.all_bind (Prog.all_perform.2 fun _ => trivial) fun _ => trivial
    · trivial
  · dsimp only
    split_ifs
    · exact Prog.all_bind (NameNode.all_pbGetFileInfoFromInum r.2 fun _ => trivial) fun _ => trivial
    · trivial

section
variable {D : Type} {nn : NameNode D} {s : Store} {src : Str} {inum : UInt32} {ids : List ℕ}

theorem NoDangling.touched {d d' : Disk} {id : UInt64} (h : NoDangling d id) (hown : Owned d)
    (ht : Touched d d') : NoDangling d' id := by
  intro text htext e he
  rw [ht.dirText_eq hown] at htext
  exact (h text htext e he).touched ht

private theorem good_reads {α : Type} {p : M α} (hp : p.All Reading) (hown : Owned s.disk)
    (hlinks : ∀ id, NoDangling s.disk id) : MakesGood (fun _ _ => True) p s := by
  induction p generalizing s with
  | pure a => trivial
  | call c next ih =>
    cases c with
    | get id =>
      refine ⟨hlinks id, fun r s' hserve => ?_⟩
      obtain ⟨s₁, hget, hsame⟩ := serve_get hown id
      cases hget.symm.trans hserve
      exact ih _ (hp.2 _) (hsame.touched.owned hown) fun id' => (hlinks id').touched hown hsame.touched
    | getattr id =>
      refine ⟨trivial, fun r s' hserve => ?_⟩
      cases hserve
      exact ih _ (hp.2 _) hown hlinks
    | _ => exact hp.1.elim

theorem good_recursiveLookup (hown : Owned s.disk) (hlinks : ∀ id, NoDangling s.disk id) (path : Str) :
    MakesGood (fun r s' => r = resolvePath (dirText s.disk) path ∧ SameStore s s')
      (NameNode.recursiveLookup path) s := by
  have hreads := all_recursiveLookup (K := Reading) (fun _ => trivial) (fun _ => trivial) path
  refine (good_reads hreads hown hlinks).of_exec fun r s' hexec => ?_
  obtain ⟨s₁, hrun, hsame⟩ := run_recursiveLookup s hown path
  cases hrun.symm.trans (Prog.run_of_exec (fun _ _ _ _ h => h) hexec)
  exact ⟨rfl, hsame⟩

theorem good_pbAddBlock (h : Writing nn s src inum ids) (hlinks : ∀ id, NoDangling s.disk id)
    (hroom : blocksFor (ids.length + 1) ≤ room s.disk ids) :
    MakesGood (fun _ _ => True) (nn.pbAddBlock src) s := by
  refine (good_recursiveLookup h.holds.owned hlinks src).bind fun r s₁ hr => ?_
  obtain ⟨rfl, hsame⟩ := hr
  rw [h.path]
  dsimp only
  rw [h.pending]
  have hallowed : Request.Allowed s₁.disk (.appendBlock inum.toUInt64) := by
    intro ino hino _
    obtain ⟨ino', hino', -, hsize, -⟩ := (h.holds.touched hsame.touched).file
    rw [maskId_toUInt64 (getInode_lt hino'), hino'] at hino
    cases hino
    rw [hsize, blockCount_mul, hsame.touched.freeBlocks]
    rw [room, blocksFor_succ] at hroom
    omega
  have happend : MakesGood (fun _ _ => True) (nn.appendBlock inum.toUInt64) s₁ := by
    refine Prog.Wp.bind (Q := fun _ s₂ => s₂.disk = s₁.disk) ?_ fun r s₂ hdisk => ?_
    · refine Prog.wp_perform trivial fun r s₂ hserve => ?_
      cases hserve
      rfl
    · have hgood : Good (.appendBlock inum.toUInt64) s₂ := by
        rw [Good, hdisk]
        exact hallowed
      exact (Prog.wp_perform (Q := fun _ _ => True) hgood fun _ _ _ => trivial).bind fun _ _ _ => trivial
  exact happend.bind fun _ _ _ => trivial

theorem good_pbComplete {m n : ℕ} (h : Writing nn s src inum ids) (hlinks : ∀ id, NoDangling s.disk id)
    (hids : ids.length = m + 1) (hpos : 1 ≤ n) (hn : n ≤ blockSize) :
    MakesGood (fun _ _ => True) (nn.pbComplete src (some (UInt64.ofNat n))) s := by
  refine (good_recursiveLookup h.holds.owned hlinks src).bind fun r s₁ hr => ?_
  obtain ⟨rfl, hsame⟩ := hr
  rw [h.path]
  dsimp only
  rw [h.pending]
  have hgood : Good (.complete inum.toUInt64 (newSize (UInt32.ofNat (ids.length * blockSize))
      (some (UInt64.ofNat n)))) s₁ := by
    intro ino hino
    obtain ⟨ino', hino', -, hsize, -⟩ := (h.holds.touched hsame.touched).file
    rw [UInt32.toUInt32_toUInt64, hino'] at hino
    cases hino
    rw [h.holds.toNat_newSize hids hn, hsize, hids, Nat.succ_mul]
    omega
  have hcomplete : MakesGood (fun _ _ => True) (NameNode.complete inum.toUInt64
      (newSize (UInt32.ofNat (ids.length * blockSize)) (some (UInt64.ofNat n)))) s₁ := by
    refine (Prog.wp_perform (Q := fun _ _ => True) hgood fun _ _ _ => trivial).bind fun r s₂ _ => ?_
    split_ifs
    · exact (Prog.wp_perform (Q := fun _ _ => True) trivial fun _ _ _ => trivial).bind fun _ _ _ => trivial
    · trivial
  refine hcomplete.bind fun b s₂ _ => ?_
  split_ifs <;> trivial

end

private theorem dirText_oneFile {d : Disk} (hfiles : fileOf d = oneFile [102]) {id : UInt64} {text : Str}
    (h : dirText d id = some text) : text = [102, 59, 50] := by
  rw [dirText_eq_fileOf, hfiles] at h
  obtain ⟨f, hf, htext⟩ := Option.bind_eq_some_iff.1 h
  unfold oneFile at hf
  split_ifs at hf
  · cases hf
    rw [if_pos rfl] at htext
    exact (Option.some.inj htext).symm
  · cases hf
    cases htext

private theorem noDangling_two {d : Disk} (hdir : ∀ id text, dirText d id = some text → text = [102, 59, 50])
    (hlive : getInode d 2 ≠ none) (id : UInt64) : NoDangling d id := by
  intro text htext e he
  rw [hdir id text htext] at he
  obtain rfl : e = ([102], [50]) := List.mem_singleton.1 he
  exact ⟨2, by decide, hlive⟩

/-- `/f` is created, gets a block and is completed with five bytes. -/
theorem inStep_of_run_three : ∃ (nn₂ nn₃ : NameNode ℕ) (s₂ s₃ : Store),
    Relation.ReflTransGen GoodRequest (NameNode.init ℕ, freshStore) (nn₂, s₂) ∧
    nn₂.pendingWrite 2 = some (UInt32.ofNat blockSize) ∧ InStep nn₂ s₂ ∧
    GoodRequest (nn₂, s₂) (nn₃, s₃) ∧ (Server.getattr 2 s₃.disk).size.toNat = 5 ∧ InStep nn₃ s₃ := by
  have hserve : ∀ (c : Call) (s : Store) (r : Reply c) (s' : Store),
      Store.serve c s = some (r, s') → Store.serve c s = some (r, s') := fun _ _ _ _ h => h
  have hroot : Live freshStore.disk 1 := by
    refine ⟨1, rfl, ?_⟩
    rw [freshStore, getInode_init, if_pos rfl]
    exact Option.some_ne_none _
  obtain ⟨info, nn₁, s₁, hcreate, hcreated, hfree, hfiles⟩ := created_fresh ℕ
  have htexts : ∀ id text, dirText s₁.disk id = some text → text = [102, 59, 50] :=
    fun _ _ h => dirText_oneFile hfiles h
  have hlinks : ∀ id, NoDangling s₁.disk id := by
    obtain ⟨ino, hino, -⟩ := hcreated.file
    exact noDangling_two htexts (hino ▸ Option.some_ne_none ino)
  have hroom : blocksFor (([] : List ℕ).length + 1) ≤ room s₁.disk [] := hfree.trans (Nat.le_add_left _ _)
  obtain ⟨b, block, nn₂, s₂, hadd, -, hwriting, -, -, hdir⟩ := run_pbAddBlock hcreated.writing hroom
  have hlinks₂ : ∀ id, NoDangling s₂.disk id := by
    obtain ⟨ino, hino, -⟩ := hwriting.holds.file
    exact noDangling_two (hdir ▸ htexts) (hino ▸ Option.some_ne_none ino)
  obtain ⟨nn₃, s₃, ino, hcomplete, hino, -, hsize, -⟩ :=
    run_pbComplete (m := 0) (n := 5) hwriting rfl (by decide) (by decide)
  have hfirst : GoodRequest (NameNode.init ℕ, freshStore) (nn₁, s₁) :=
    ⟨.create [47, 102] false, Prog.exec_bind.2 ⟨_, s₁, good_pbCreate_fresh.exec
      (Prog.exec_of_run hserve hcreate), rfl, rfl⟩⟩
  have hsecond : GoodRequest (nn₁, s₁) (nn₂, s₂) :=
    ⟨.addBlock [47, 102], Prog.exec_bind.2 ⟨_, s₂, (good_pbAddBlock hcreated.writing hlinks hroom).exec
      (Prog.exec_of_run hserve hadd), rfl, rfl⟩⟩
  have hthird : GoodRequest (nn₂, s₂) (nn₃, s₃) :=
    ⟨.complete [47, 102] (some 5), Prog.exec_bind.2 ⟨_, s₃, (good_pbComplete hwriting hlinks₂ rfl (by decide)
      (by decide)).exec (Prog.exec_of_run hserve hcomplete), rfl, rfl⟩⟩
  have hrun := (Relation.ReflTransGen.single hfirst).tail hsecond
  have hstep : ∀ {nn : NameNode ℕ} {s},
      Relation.ReflTransGen GoodRequest (NameNode.init ℕ, freshStore) (nn, s) → InStep nn s :=
    fun h => inStep_of_run (fun _ => rfl) (fun _ => rfl) (owned_init quiet) hroot h
  have hpending := hwriting.pending
  rw [List.nil_append, List.length_singleton, Nat.one_mul] at hpending
  refine ⟨nn₂, nn₃, s₂, s₃, hrun, hpending, hstep hrun, hthird, ?_, hstep (hrun.tail hthird)⟩
  have hmask : maskId 2 = 2 := by decide
  rw [Server.getattr, Extent.getattr, hmask, hino]
  exact hsize

/-- After `PBCreate` of `/x;3` the root has an entry `x` that leads to inum 3, which is not in use.
`PBCreate` of `/x/y` takes inum 3 for the file and its directory, so that the new file is not empty. -/
theorem not_inStep_dangling : ∃ info₁ nn₁ s₁ info₂ nn₂ s₂,
    ((NameNode.init ℕ).pbCreate [47, 120, 59, 51] false).run Store.serve freshStore =
    some ((.ok info₁, nn₁), s₁) ∧
      (nn₁.pbCreate [47, 120, 47, 121] false).run Store.serve s₁ = some ((.ok info₂, nn₂), s₂) ∧
      nn₂.pendingWrite 3 = some 0 ∧ (Server.getattr 3 s₂.disk).size = 3 := by
  obtain ⟨info₁, s₁, hrun₁, hheld₁, hown₁, hfiles₁, hfree₁⟩ :=
    run_pbCreate_fresh ℕ [47, 120, 59, 51] false rfl rfl (by decide) (by decide)
  have hroot : dirText s₁.disk 1 = some [120, 59, 51, 59, 50] := by
    rw [dirText_eq_fileOf, hfiles₁]
    rfl
  have hthree : dirText s₁.disk 3 = none := by
    rw [dirText_eq_fileOf, hfiles₁]
    rfl
  have hparent : resolve (dirText s₁.disk) 1 (NameNode.parents [47, 120, 47, 121]) = some 3 := by
    have hparents : NameNode.parents [47, 120, 47, 121] = [[120]] := by decide
    rw [hparents, resolve, hroot]
    rfl
  have htext : enteredText s₁.disk (UInt32.ofNat 3) 3 (cStr (NameNode.lastName [47, 120, 47, 121])) =
      [121, 59, 51] := by
    rw [enteredText, if_pos (by decide)]
    decide
  obtain ⟨info₂, s₂, hrun₂, hheld₂, hown₂, hfiles₂, -⟩ := NameNode.run_pbCreate
    { NameNode.init ℕ with pendingWrite := Function.update (fun _ => none) 2 (some 0) } false hown₁ rfl
    hparent (by decide)
    (by rw [hthree]; rfl) (nextInode_oneFile hfiles₁) htext (by decide) hfree₁ (by rw [hheld₁]; decide)
    (by rw [hheld₁]; decide)
  have hnew : fileOf s₂.disk (maskId 3) = some (FileType.file.code.toUInt16, [121, 59, 51]) := by
    rw [hfiles₂]
    rfl
  have hsize := getattr_size hnew
  exact ⟨info₁, _, s₁, info₂, _, s₂, hrun₁, hrun₂, rfl, UInt32.toNat_inj.1 hsize⟩

end Yfs.Hdfs
