import Yfs.Hdfs.Ledger
import Yfs.Client.World

/-! Lock balance: what the operations of `yfs_client` and `PBDelete` take they give back, unless
`nlock_readdir` is called for something that is no directory. -/
namespace Yfs.Hdfs
open Yfs.Lib Yfs.Extent Yfs.Client

/-- The operations of `yfs_client` that take locks, and `PBDelete`. -/
inductive Operation where
  | isfile (inum : UInt64)
  | isdir (inum : UInt64)
  | islink (inum : UInt64)
  | getfile (inum : UInt64)
  | getdir (inum : UInt64)
  | setattr (ino : UInt64) (size : ℕ)
  | create (parent : UInt64) (name : Str) (out : UInt64)
  | mkdir (parent : UInt64) (name : Str) (out : UInt64)
  | readdir (dir : UInt64)
  | read (ino size : UInt64) (off : Int64)
  | write (ino : UInt64) (off : ℕ) (data : Str)
  | unlink (parent : UInt64) (name : Str)
  | createlink (parent : UInt64) (linkName targetName : Str) (out : UInt64)
  | readlink (inum : UInt64)
  | pbDelete (depth : ℕ) (src : Str) (recursive : Bool)

namespace Operation

def done {α : Type} (p : M α) : M (Option Unit) := do
  let _ ← p
  pure (some ())

def returned {α : Type} (p : M (Option α)) : M (Option Unit) := do
  let r ← p
  pure (r.map fun _ => ())

def call : Operation → M (Option Unit)
  | .isfile inum => done (Client.isfile inum)
  | .isdir inum => done (Client.isdir inum)
  | .islink inum => done (Client.islink inum)
  | .getfile inum => done (Client.getfile inum)
  | .getdir inum => done (Client.getdir inum)
  | .setattr ino size => done (Client.setattr ino size)
  | .create parent name out => done (Client.create parent name out)
  | .mkdir parent name out => done (Client.mkdir parent name out)
  | .readdir dir => done (Client.readdir dir)
  | .read ino size off => returned (Client.read ino size off)
  | .write ino off data => done (Client.write ino off data)
  | .unlink parent name => returned (Client.unlink parent name)
  | .createlink parent linkName targetName out => done (Client.createlink parent linkName targetName out)
  | .readlink inum => done (Client.readlink inum)
  | .pbDelete depth src recursive => returned (NameNode.pbDelete depth src recursive)

/-- No lock is held. The caller of `readdir` takes its argument for a directory. -/
def start : Operation → Ledger
  | .readdir dir => ⟨.free, some dir, false⟩
  | _ => ⟨.free, none, false⟩

section
variable {α : Type} {P : Ledger → Prop} {Q : Ledger → Prop}

theorem triple_done {p : M α} (hp : Prog.Triple Ledger.act P p fun _ => Q) :
    Prog.Triple Ledger.act P (done p) (Ledger.Returned Q) :=
  Prog.Triple.bind hp fun _ => Prog.Triple.pure fun _ hs => hs

theorem triple_returned {p : M (Option α)} (hp : Prog.Triple Ledger.act P p (Ledger.Returned Q)) :
    Prog.Triple Ledger.act P (returned p) (Ledger.Returned Q) := by
  refine Prog.Triple.bind hp fun r => Prog.Triple.pure fun s hs => ?_
  cases r with
  | none => trivial
  | some a => exact hs

end

open Ledger

theorem even_nlockIs (type : FileType) (h : UInt64 → Bool) (inum : UInt64) :
    Prog.Triple act (· = holding h) (nlockIs type inum) fun _ => Even h :=
  Prog.Triple.bind (even_getattr h inum) fun _ => Prog.Triple.pure fun _ hs => hs

theorem even_getInfo {α : Type} (info : Attr → α) (inum : UInt64) :
    Prog.Triple act (· = holding fun _ => false) (getInfo info inum) fun _ => Even fun _ => false := by
  refine even_locked (Prog.Triple.bind (even_getattr _ inum) fun ⟨r, a⟩ => ?_)
  dsimp only
  split_ifs <;> exact Prog.Triple.pure fun _ hs => hs

theorem even_plain {α : Type} {p : M α} (hp : p.All Ledger.PlainCall) (h : UInt64 → Bool) :
    Prog.Triple act (· = holding h) p fun _ => Even h :=
  (Even.triple hp h).strengthen fun _ hs => even_of_eq hs

theorem even_nlockAdd (type : FileType) (h : UInt64 → Bool) (parent : UInt64) (name : Str) (out : UInt64) :
    Prog.Triple act (· = holding h) (nlockAdd type parent name out) fun _ => Even h := by
  obtain ⟨f, hf, hplain⟩ := nlockAdd_eq_bind (K := Ledger.PlainCall) (fun _ => trivial)
    (trivial : Ledger.PlainCall (.get parent)) (fun _ => trivial) type name out
  rw [hf]
  exact even_lookup h parent name false out hplain

theorem even_nlockCreatelink (h : UInt64 → Bool) (parent : UInt64) (linkName targetName : Str)
    (out : UInt64) :
    Prog.Triple act (· = holding h) (nlockCreatelink parent linkName targetName out) fun _ => Even h := by
  obtain ⟨f, hf, hplain⟩ := nlockCreatelink_eq_bind (K := Ledger.PlainCall) (fun _ => trivial)
    (trivial : Ledger.PlainCall (.get parent)) (fun _ _ => trivial) linkName targetName out
  rw [hf]
  exact even_lookup h parent _ false out hplain

theorem even_unlink (parent : UInt64) (name : Str) :
    Prog.Triple act (· = holding fun _ => false) (Client.unlink parent name)
    (Returned (Even fun _ => false)) := by
  refine even_guarded ((triple_unlinkWith rfl (fun target => ?_) parent name).weaken fun _ s hs =>
      even_of_eq hs)
  -- the lock of the target is taken and given back
  refine Prog.Triple.bind (holding_acquire _ target) fun _ => Prog.Triple.of_and fun hfree => ?_
  refine Prog.Triple.bind (Q := fun _ s => s = holding _)
    (Prog.Triple.bind (triple_other rfl fun s r s' h => h) fun _ => Prog.Triple.pure fun s hs => hs)
    fun _ => ?_
  exact Prog.Triple.bind (holding_release_acquired hfree) fun _ => Prog.Triple.pure fun s hs => hs

/-- `readdir` gives the lock of its argument back twice if that is no directory. -/
theorem triple_client_readdir (dir : UInt64) :
    Prog.Triple act (· = ⟨.free, some dir, false⟩) (Client.readdir dir)
    fun _ s => Even (fun _ => false) s ∨ Stray s := by
  have hacquire : Prog.Triple act (· = ⟨.free, some dir, false⟩) (perform (.acquire dir))
      fun _ s => s = ⟨.held (Function.update (fun _ => false) dir true), some dir, false⟩ := by
    apply Prog.Triple.perform
    intro s r s' hs hact
    subst hs
    rcases hact with ⟨h, hheld, -, rfl⟩ | ⟨hstray, -⟩
    · cases hheld
      rfl
    · cases hstray
  refine Prog.Triple.bind hacquire fun _ => ?_
  refine Prog.Triple.bind (Q := fun _ => HeldOrSlipped (Function.update (fun _ => false) dir true) dir) ?_
    fun _ => ?_
  · refine (triple_nlockReaddir dir rfl).weaken fun r s hs => ?_
    rcases hs with hs | ⟨-, hs⟩
    · exact .inl hs
    · rw [hs]
      refine .inr (.inl ⟨rfl, rfl, Function.update (fun _ => false) dir false, ?_,
        Function.update_self _ _ _⟩)
      simp [Locks.release]
  · refine Prog.Triple.bind (HeldOrSlipped.triple_release rfl) fun _ => Prog.Triple.pure fun s hs => ?_
    exact hs.imp_left even_of_eq

theorem triple_call (op : Operation) : Prog.Triple act (· = op.start) op.call
    (Returned fun s => Even (fun _ => false) s ∨ Stray s) := by
  have hdone : ∀ {α : Type} {p : M α},
      (Prog.Triple act (· = holding fun _ => false) p fun _ => Even fun _ => false) →
      Prog.Triple act (· = holding fun _ => false) (done p)
        (Returned fun s => Even (fun _ => false) s ∨ Stray s) :=
    fun hp => triple_done (hp.weaken fun _ _ => .inl)
  have hreturned : ∀ {α : Type} {p : M (Option α)},
      Prog.Triple act (· = holding fun _ => false) p (Returned (Even fun _ => false)) →
      Prog.Triple act (· = holding fun _ => false) (returned p)
        (Returned fun s => Even (fun _ => false) s ∨ Stray s) := by
    intro α p hp
    refine triple_returned (hp.weaken fun r s hs => ?_)
    cases r with
    | none => trivial
    | some a => exact .inl hs
  cases op with
  | isfile inum => exact hdone (even_locked (even_nlockIs .file _ inum))
  | isdir inum => exact hdone (even_locked (even_nlockIs .dir _ inum))
  | islink inum => exact hdone (even_locked (even_nlockIs .symlink _ inum))
  | getfile inum => exact hdone (even_getInfo fileInfo inum)
  | getdir inum => exact hdone (even_getInfo dirInfo inum)
  | setattr ino size =>
    have hplain : (nlockSetattr ino size).All Ledger.PlainCall :=
      all_nlockSetattr trivial (fun _ => trivial) size
    exact hdone (even_locked (even_plain hplain _))
  | create parent name out => exact hdone (even_locked (even_nlockAdd .file _ parent name out))
  | mkdir parent name out => exact hdone (even_locked (even_nlockAdd .dir _ parent name out))
  | readdir dir => exact triple_done (triple_client_readdir dir)
  | read ino size off =>
    refine hreturned (even_guarded (even_plain ?_ _))
    refine Prog.all_bind (Prog.all_perform.2 trivial) fun ⟨r, content⟩ => ?_
    dsimp only
    split_ifs <;> trivial
  | write ino off data =>
    have hplain : (nlockWrite ino off data).All Ledger.PlainCall :=
      all_nlockWrite trivial (fun _ => trivial) off data
    exact hdone (even_locked (even_plain hplain _))
  | unlink parent name => exact hreturned (even_unlink parent name)
  | createlink parent linkName targetName out =>
    exact hdone (even_locked (even_nlockCreatelink _ parent linkName targetName out))
  | readlink inum =>
    refine hdone (even_locked (even_plain ?_ _))
    refine Prog.all_bind (Prog.all_perform.2 trivial) fun ⟨r, linkName⟩ => ?_
    dsimp only
    split_ifs <;> trivial
  | pbDelete depth src recursive =>
    refine triple_returned ((triple_pbDelete depth src recursive).weaken fun r s hs => ?_)
    cases r with
    | none => trivial
    | some a => exact hs.imp_left even_of_eq

/-- An operation that returns has released only locks it held and holds none at its end, exactly if
no directory that it lists turns out to be none when `nlock_readdir` asks. -/
theorem lock_balance_iff (op : Operation) {s : Ledger} (h : op.call.Exec act op.start (some ()) s) :
    s.locks = .free ↔ s.odd = false := by
  rcases op.triple_call _ _ _ rfl h with ⟨hlocks, hodd⟩ | ⟨hodd, hlocks⟩
  · rw [hlocks, hodd]
    exact ⟨fun _ => rfl, fun _ => rfl⟩
  · rw [hlocks, hodd]
    constructor
    · intro heq
      cases heq
    · intro heq
      cases heq

/-- `unlink` of a name that is there takes the lock of the directory and, within, that of the file. -/
theorem lock_balance_iff_unlink : ∃ s, (Operation.unlink 1 [97]).call.Exec act
    (Operation.unlink 1 [97]).start (some ()) s ∧ s.locks = .free := by
  have hexec : (Operation.unlink 1 [97]).call.Exec act (Operation.unlink 1 [97]).start (some ()) ⟨_, _, _⟩ :=
    ⟨(), _, .inl ⟨_, rfl, rfl, rfl⟩, (.ok, ⟨1, 0, 0, 0, 3⟩), _, rfl, (.ok, [97, semi, 50]), _, rfl,
      (.ok, [97, semi, 50]), _, rfl, .ok, _, rfl, (), _, .inl ⟨_, rfl, rfl, rfl⟩, .ok, _, rfl,
      (), _, rfl, (), _, rfl, rfl, rfl⟩
  exact ⟨_, hexec, (lock_balance_iff _ hexec).2 rfl⟩

/-- `readdir` of a file gives back a lock that it does not hold any more. -/
theorem readdir_file_unbalanced : ∃ s, (Operation.readdir 2).call.Exec act (Operation.readdir 2).start
    (some ()) s ∧ s.locks = .stray := by
  refine ⟨_, ⟨(), _, .inl ⟨_, rfl, rfl, rfl⟩, (.ok, ⟨2, 0, 0, 0, 0⟩), _, rfl, (), _, rfl, (), _, rfl,
      rfl, rfl⟩, ?_⟩
  rfl

end Operation
end Yfs.Hdfs
