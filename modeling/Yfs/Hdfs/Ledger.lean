import Yfs.Hdfs.Namespace
import Yfs.Lib.Hoare

/-! The locks that an operation takes and gives back, on every path that the replies of the extent
server can make it take. -/
namespace Yfs.Hdfs
open Yfs.Lib Yfs.Extent Yfs.Client

inductive Locks where
  | held (h : UInt64 → Bool)
  | stray

def Locks.free : Locks := .held fun _ => false

def Locks.release (lid : UInt64) : Locks → Locks
  | .held h => if h lid then .held (Function.update h lid false) else .stray
  | .stray => .stray

/-- What is known along a path: the locks, the inum that the last answer of the extent server
showed to be a directory, and whether such an inum was no directory when asked again at once. -/
structure Ledger where
  locks : Locks
  asked : Option UInt64
  odd : Bool

namespace Ledger

def answer (s : Ledger) (id : UInt64) (isDir : Bool) : Ledger where
  locks := s.locks
  asked := if isDir then some id else none
  odd := s.odd || (decide (s.asked = some id) && !isDir)

def saysDir (r : Status × Attr) : Bool := decide (r.1 = .ok) && decide (r.2.type = FileType.dir.code)

/-- The extent server answers as it likes. A lock that the operation holds itself is never had. -/
def act : (c : Call) → Ledger → Reply c → Ledger → Prop
  | .acquire lid, s, _, s' =>
      (∃ h, s.locks = .held h ∧ h lid = false ∧ s' = { s with locks := .held (Function.update h lid true) }) ∨
        (s.locks = .stray ∧ s' = s)
  | .release lid, s, _, s' => s' = { s with locks := s.locks.release lid }
  | .getattr id, s, r, s' => s' = s.answer id (saysDir r)
  | _, s, _, s' => s' = { s with asked := none }

def holding (h : UInt64 → Bool) : Ledger := ⟨.held h, none, false⟩

def Stray (s : Ledger) : Prop := s.odd = true ∧ s.locks = .stray

def Slipped (ino : UInt64) (s : Ledger) : Prop :=
  s.odd = true ∧ s.asked = none ∧ ∃ h, s.locks = .held h ∧ h ino = false

def Returned {α : Type} (Q : Ledger → Prop) : Option α → Ledger → Prop
  | none, _ => True
  | some _, s => Q s

theorem answer_false {s : Ledger} (h : s.asked = none) (id : UInt64) : s.answer id false = s := by
  cases s
  simp_all [answer]

theorem answer_true_reset (s : Ledger) (id : UInt64) :
    { s.answer id true with asked := none } = { s with asked := none } := by
  cases s
  simp [answer]

theorem reset {s : Ledger} (h : s.asked = none) : { s with asked := none } = s := by
  cases s
  simp_all

section
variable {s₀ : Ledger} {α : Type}

theorem triple_nlockIs (ino : UInt64) :
    Prog.Triple act (· = s₀) (nlockIsdir ino) fun b s => s = s₀.answer ino b := by
  refine Prog.Triple.bind (Q := fun r s => s = s₀.answer ino (saysDir r)) (Prog.Triple.perform ?_) fun r => ?_
  · intro s r s' hs hact
    rw [← hs]
    exact hact
  · exact Prog.Triple.pure fun s hs => hs

theorem triple_nlockLookup (h : s₀.asked = none) (parent : UInt64) (name : Str) (found : Bool)
    (out : UInt64) : Prog.Triple act (· = s₀) (nlockLookup parent name found out) fun _ s => s = s₀ := by
  unfold nlockLookup
  refine Prog.Triple.bind (triple_nlockIs parent) fun isDir => ?_
  cases isDir with
  | false => exact Prog.Triple.pure fun s hs => hs.trans (answer_false h parent)
  | true =>
    have hget : Prog.Triple act (· = s₀.answer parent true) (perform (.get parent)) fun _ s => s = s₀ := by
      apply Prog.Triple.perform
      intro s r s' hs hact
      subst hs
      rw [show s' = _ from hact, answer_true_reset, reset h]
    refine Prog.Triple.bind hget fun ⟨r, dirList⟩ => ?_
    dsimp only
    split_ifs
    · split <;> exact Prog.Triple.pure fun s hs => hs
    · exact Prog.Triple.pure fun s hs => hs

theorem triple_other {c : Call} (h : s₀.asked = none)
    (hc : ∀ s r s', act c s r s' → s' = { s with asked := none }) :
    Prog.Triple act (· = s₀) (perform c) fun _ s => s = s₀ := by
  apply Prog.Triple.perform
  intro s r s' hs hact
  subst hs
  rw [hc s r s' hact, reset h]

theorem triple_nlockReaddir (dir : UInt64) (hasked : s₀.asked = some dir) :
    Prog.Triple act (· = s₀) (nlockReaddir dir) fun r s => s = { s₀ with asked := none } ∨
      (r = (.ok, []) ∧ s = ⟨s₀.locks.release dir, none, true⟩) := by
  unfold nlockReaddir
  refine Prog.Triple.bind (triple_nlockIs dir) fun isDir => ?_
  cases isDir with
  | true =>
    have hget : Prog.Triple act (· = s₀.answer dir true) (perform (.get dir))
        fun _ s => s = { s₀ with asked := none } := by
      apply Prog.Triple.perform
      intro s r s' hs hact
      subst hs
      rw [show s' = _ from hact, answer_true_reset]
    refine Prog.Triple.bind hget fun ⟨r, dirList⟩ => ?_
    dsimp only
    split_ifs
    · exact Prog.Triple.pure fun s hs => .inl hs
    · exact Prog.Triple.pure fun s hs => .inl hs
  | false =>
    have hrelease : Prog.Triple act (· = s₀.answer dir false) (perform (.release dir))
        fun _ s => s = ⟨s₀.locks.release dir, none, true⟩ := by
      apply Prog.Triple.perform
      intro s r s' hs hact
      subst hs
      rw [show s' = _ from hact]
      simp [answer, hasked]
    exact Prog.Triple.bind hrelease fun _ => Prog.Triple.pure fun s hs => .inr ⟨rfl, hs⟩

theorem triple_readdir (h : s₀.asked = none) (ino : UInt64) :
    Prog.Triple act (· = s₀.answer ino true) (NameNode.readdir ino) fun r s => s = s₀ ∨
      (r = (true, []) ∧ s = ⟨s₀.locks.release ino, none, true⟩) := by
  refine Prog.Triple.bind (triple_nlockReaddir ino rfl) fun ⟨r, dir⟩ => Prog.Triple.pure fun s hs => ?_
  rcases hs with hs | ⟨hr, hs⟩
  · rw [answer_true_reset, reset h] at hs
    exact .inl hs
  · cases hr
    exact .inr ⟨rfl, hs⟩

theorem triple_unlinkWith {remove : UInt64 → M Unit} (h : s₀.asked = none)
    (hremove : ∀ target, Prog.Triple act (· = s₀) (remove target) fun _ s => s = s₀) (parent : UInt64)
    (name : Str) : Prog.Triple act (· = s₀) (unlinkWith remove parent name) fun _ s => s = s₀ := by
  unfold unlinkWith
  refine Prog.Triple.bind (triple_nlockLookup h parent name false 0) fun ⟨_, found, target⟩ => ?_
  dsimp only
  split_ifs
  · refine Prog.Triple.bind (triple_other h fun s r s' hact => hact) fun ⟨r, dirList⟩ => ?_
    dsimp only
    split_ifs
    · split
      · exact Prog.Triple.pure fun s hs => hs
      · refine Prog.Triple.bind (triple_other h fun s r s' hact => hact) fun _ => ?_
        exact Prog.Triple.bind (hremove target) fun _ => Prog.Triple.pure fun s hs => hs
    · exact Prog.Triple.pure fun s hs => hs
  · exact Prog.Triple.pure fun s hs => hs

theorem triple_unlink (h : s₀.asked = none) (parent : UInt64) (name : Str) :
    Prog.Triple act (· = s₀) (NameNode.unlink parent name) fun _ s => s = s₀ := by
  have hremove : ∀ target, Prog.Triple act (· = s₀) (do let _ ← perform (.remove target))
      fun _ s => s = s₀ := by
    intro target
    exact Prog.Triple.bind (triple_other h fun s r s' hact => hact) fun _ => Prog.Triple.pure fun s hs => hs
  exact Prog.Triple.bind (triple_unlinkWith h hremove parent (cStr name)) fun _ =>
    Prog.Triple.pure fun s hs => hs

end

theorem Stray.triple {α : Type} (p : M α) : Prog.Triple act Stray p fun _ => Stray := by
  refine Prog.Triple.invariant (Prog.all_true p) fun c s r s' _ hs hact => ?_
  obtain ⟨hodd, hlocks⟩ := hs
  cases c with
  | acquire lid =>
    rcases hact with ⟨h, hheld, -⟩ | ⟨-, rfl⟩
    · rw [hlocks] at hheld
      cases hheld
    · exact ⟨hodd, hlocks⟩
  | release lid =>
    subst hact
    exact ⟨hodd, by simp [hlocks, Locks.release]⟩
  | getattr id =>
    subst hact
    exact ⟨by simp [answer, hodd], hlocks⟩
  | _ =>
    subst hact
    exact ⟨hodd, hlocks⟩

theorem Slipped.release {ino : UInt64} :
    Prog.Triple act (Slipped ino) (perform (.release ino)) fun _ => Stray := by
  apply Prog.Triple.perform
  intro s r s' hs hact
  obtain ⟨hodd, -, h, hlocks, hino⟩ := hs
  subst hact
  exact ⟨hodd, by simp [hlocks, Locks.release, hino]⟩

theorem holding_acquire (h : UInt64 → Bool) (lid : UInt64) : Prog.Triple act (· = holding h)
    (perform (.acquire lid)) fun _ s => h lid = false ∧ s = holding (Function.update h lid true) := by
  apply Prog.Triple.perform
  intro s r s' hs hact
  subst hs
  rcases hact with ⟨h', hheld, hfree, rfl⟩ | ⟨hstray, -⟩
  · cases hheld
    exact ⟨hfree, rfl⟩
  · cases hstray

private theorem holding_release {h : UInt64 → Bool} {lid : UInt64} (hlid : h lid = true) :
    Prog.Triple act (· = holding h)
    (perform (.release lid)) fun _ s => s = holding (Function.update h lid false) := by
  apply Prog.Triple.perform
  intro s r s' hs hact
  subst hs
  rw [show s' = _ from hact]
  simp [holding, Locks.release, hlid]

theorem holding_release_acquired {h : UInt64 → Bool} {lid : UInt64} (hlid : h lid = false) :
    Prog.Triple act (· = holding (Function.update h lid true)) (perform (.release lid))
      fun _ s => s = holding h := by
  refine (holding_release (Function.update_self lid true h)).weaken fun _ s hs => ?_
  rw [hs, Function.update_idem, ← hlid, Function.update_eq_self]

/-- The lock is held as it should be, or was given back too early. -/
def HeldOrSlipped (h : UInt64 → Bool) (lid : UInt64) (s : Ledger) : Prop :=
  s = holding h ∨ Slipped lid s ∨ Stray s

theorem HeldOrSlipped.triple_release {h : UInt64 → Bool} {lid : UInt64} (hlid : h lid = false) :
    Prog.Triple act (HeldOrSlipped (Function.update h lid true) lid) (perform (.release lid))
      fun _ s => s = holding h ∨ Stray s :=
  ((holding_release_acquired hlid).weaken fun _ _ => .inl).or
    ((Slipped.release.weaken fun _ _ => .inr).or ((Stray.triple _).weaken fun _ _ => .inr))

theorem HeldOrSlipped.triple_unlink {h : UInt64 → Bool} {lid : UInt64} (parent : UInt64) (name : Str) :
    Prog.Triple act (HeldOrSlipped h lid) (NameNode.unlink parent name) fun _ => HeldOrSlipped h lid := by
  have hquiet : ∀ s₀ : Ledger, s₀.asked = none → HeldOrSlipped h lid s₀ →
      Prog.Triple act (· = s₀) (NameNode.unlink parent name) fun _ => HeldOrSlipped h lid := by
    intro s₀ hasked hs₀
    exact (Ledger.triple_unlink hasked parent name).weaken fun _ s hs => hs ▸ hs₀
  apply Prog.Triple.or
  · exact hquiet _ rfl (.inl rfl)
  · apply Prog.Triple.or
    · exact Prog.Triple.pointwise fun s₀ hs₀ => hquiet s₀ hs₀.2.1 (.inr (.inl hs₀))
    · exact (Stray.triple _).weaken fun _ _ hs => .inr (.inr hs)

theorem triple_deleteEntries {delete : UInt64 → M (Option Bool)}
    (hdelete : ∀ h ino, h ino = true → Prog.Triple act (· = holding h) (delete ino)
      (Returned (HeldOrSlipped h ino)))
    (ino : UInt64) (l : List Dirent) (h : UInt64 → Bool) :
    Prog.Triple act (· = holding h) (NameNode.deleteEntries delete ino l)
      (Returned fun s => s = holding h ∨ Stray s) := by
  induction l with
  | nil => exact Prog.Triple.pure fun s hs => .inl hs
  | cons e l ih =>
    unfold NameNode.deleteEntries
    refine Prog.Triple.bind (holding_acquire h e.inum) fun _ => Prog.Triple.of_and fun hfree => ?_
    refine Prog.Triple.bind (hdelete _ e.inum (Function.update_self _ _ _)) fun deleted => ?_
    have hrelease := HeldOrSlipped.triple_release hfree
    match deleted with
    | none => exact Prog.Triple.pure fun s _ => trivial
    | some false => exact Prog.Triple.bind hrelease fun _ => Prog.Triple.pure fun s hs => hs
    | some true =>
      refine Prog.Triple.bind (HeldOrSlipped.triple_unlink ino e.name) fun unlinked => ?_
      match unlinked with
      | none => exact Prog.Triple.pure fun s _ => trivial
      | some false => exact Prog.Triple.bind hrelease fun _ => Prog.Triple.pure fun s hs => hs
      | some true =>
        refine Prog.Triple.bind hrelease fun _ => ih.or ((Stray.triple _).weaken fun r s hs => ?_)
        cases r with
        | none => trivial
        | some _ => exact .inr hs

private theorem triple_isdir_readdir {h : UInt64 → Bool} {ino : UInt64} (hino : h ino = true) :
    Prog.Triple act (· = (holding h).answer ino true) (NameNode.readdir ino)
      fun r s => s = holding h ∨ (r = (true, []) ∧ Slipped ino s) := by
  refine (triple_readdir rfl ino).weaken fun r s hs => hs.imp_right fun ⟨hr, hs⟩ => ⟨hr, ?_⟩
  rw [hs]
  refine ⟨rfl, rfl, Function.update h ino false, ?_, Function.update_self _ _ _⟩
  simp [holding, Locks.release, hino]

theorem triple_recursiveDelete (n : ℕ) (h : UInt64 → Bool) (ino : UInt64) (hino : h ino = true) :
    Prog.Triple act (· = holding h) (NameNode.recursiveDelete n ino) (Returned (HeldOrSlipped h ino)) := by
  induction n generalizing h ino with
  | zero => exact Prog.Triple.pure fun s _ => trivial
  | succ n ih =>
    unfold NameNode.recursiveDelete
    refine Prog.Triple.bind (triple_nlockIs ino) fun isDir => ?_
    cases isDir with
    | false => exact Prog.Triple.pure fun s hs => .inl (hs.trans (answer_false rfl ino))
    | true =>
      refine Prog.Triple.bind (triple_isdir_readdir hino) fun ⟨readOk, dir⟩ => Prog.Triple.or ?_ ?_
      · cases readOk with
        | false => exact Prog.Triple.pure fun s hs => .inl hs
        | true =>
          refine (triple_deleteEntries ih ino dir h).weaken fun r s hs => ?_
          cases r with
          | none => trivial
          | some _ => exact hs.imp_right .inr
      · refine Prog.Triple.of_and fun hr => ?_
        cases hr
        exact Prog.Triple.pure fun s hs => .inr (.inl hs)

theorem triple_deleteEmpty_of {s₀ : Ledger} {h : UInt64 → Bool} (src : Str) (ino parent : UInt64)
    (hasked : s₀.asked = none) (hs₀ : HeldOrSlipped h ino s₀)
    (hslip : HeldOrSlipped h ino ⟨s₀.locks.release ino, none, true⟩) :
    Prog.Triple act (· = s₀) (NameNode.deleteEmpty src ino parent) (Returned (HeldOrSlipped h ino)) := by
  have hunlink : Prog.Triple act (HeldOrSlipped h ino) (NameNode.unlink parent (baseName src))
      (Returned (HeldOrSlipped h ino)) := by
    refine (HeldOrSlipped.triple_unlink parent (baseName src)).weaken fun r s hs => ?_
    cases r with
    | none => trivial
    | some _ => exact hs
  unfold NameNode.deleteEmpty
  refine Prog.Triple.bind (triple_nlockIs ino) fun isDir => ?_
  cases isDir with
  | false =>
    refine hunlink.strengthen fun s hs => ?_
    rw [hs, answer_false hasked]
    exact hs₀
  | true =>
    refine Prog.Triple.bind (Q := fun _ => HeldOrSlipped h ino) ?_ fun ⟨readOk, dir⟩ => ?_
    · refine (triple_readdir hasked ino).weaken fun r s hs => ?_
      rcases hs with hs | ⟨-, hs⟩
      · rw [hs]
        exact hs₀
      · rw [hs]
        exact hslip
    · dsimp only
      split_ifs
      · exact hunlink
      · exact Prog.Triple.pure fun s hs => hs

private theorem triple_deleteEmpty (src : Str) {h : UInt64 → Bool} {ino : UInt64} (parent : UInt64)
    (hino : h ino = true) :
    Prog.Triple act (HeldOrSlipped h ino) (NameNode.deleteEmpty src ino parent)
      (Returned (HeldOrSlipped h ino)) := by
  apply Prog.Triple.or
  · refine triple_deleteEmpty_of src ino parent rfl (.inl rfl) (.inr (.inl ⟨rfl, rfl, ?_⟩))
    refine ⟨Function.update h ino false, ?_, Function.update_self _ _ _⟩
    simp [holding, Locks.release, hino]
  · apply Prog.Triple.or
    · apply Prog.Triple.pointwise
      intro s₀ hs₀
      obtain ⟨hodd, hasked, h', hlocks, hfree⟩ := hs₀
      refine triple_deleteEmpty_of src ino parent hasked (.inr (.inl ⟨hodd, hasked, h', hlocks, hfree⟩))
        (.inr (.inr ⟨rfl, ?_⟩))
      simp [hlocks, Locks.release, hfree]
    · refine (Stray.triple _).weaken fun r s hs => ?_
      cases r with
      | none => trivial
      | some _ => exact .inr (.inr hs)

theorem triple_deleteAll (n : ℕ) (src : Str) (recursive : Bool) {h : UInt64 → Bool} {ino : UInt64}
    (parent : UInt64) (hino : h ino = true) :
    Prog.Triple act (· = holding h) (NameNode.deleteAll n src recursive ino parent)
    (Returned (HeldOrSlipped h ino)) := by
  unfold NameNode.deleteAll
  cases recursive with
  | false => exact (triple_deleteEmpty src parent hino).strengthen fun s hs => .inl hs
  | true =>
    refine Prog.Triple.bind (triple_recursiveDelete n h ino hino) fun deleted => ?_
    match deleted with
    | none => exact Prog.Triple.pure fun s _ => trivial
    | some false => exact Prog.Triple.pure fun s hs => hs
    | some true => exact triple_deleteEmpty src parent hino

theorem triple_walkLast {s₀ : Ledger} (h : s₀.asked = none) (ino last : UInt64) (l : List Str) :
    Prog.Triple act (· = s₀) (NameNode.walkLast ino last l) fun _ s => s = s₀ := by
  induction l generalizing ino last with
  | nil => exact Prog.Triple.pure fun s hs => hs
  | cons component l ih =>
    unfold NameNode.walkLast
    refine Prog.Triple.bind (triple_nlockLookup h ino (cStr component) false ino) fun ⟨r, found, ino'⟩ => ?_
    dsimp only
    split_ifs
    · exact ih ino' ino
    · exact Prog.Triple.pure fun s hs => hs

def both (a b : UInt64) : UInt64 → Bool := Function.update (Function.update (fun _ => false) b true) a true

private theorem both_comm (a b : UInt64) : both a b = both b a := by
  unfold both
  by_cases hab : a = b
  · rw [hab]
  · rw [Function.update_comm hab]

theorem both_self (a : UInt64) : both a a = Function.update (fun _ => false) a true := by
  rw [both, Function.update_idem]

private theorem triple_acquire_both (a b : UInt64) : Prog.Triple act (· = holding fun _ => false)
    (do let _ ← perform (.acquire b); let _ ← perform (.acquire a)) fun _ s => s = holding (both a b) := by
  refine Prog.Triple.bind (holding_acquire _ b) fun _ => Prog.Triple.of_and fun _ => ?_
  exact Prog.Triple.bind (holding_acquire _ a) fun _ => Prog.Triple.pure fun s hs => hs.2

theorem triple_dualLock (a b : UInt64) : Prog.Triple act (· = holding fun _ => false)
    (NameNode.dualLock a b) fun _ s => s = holding (both a b) := by
  unfold NameNode.dualLock
  split_ifs with hlt hgt
  · rw [both_comm]
    exact triple_acquire_both b a
  · exact triple_acquire_both a b
  · have hab : a = b := UInt64.le_antisymm (UInt64.not_lt.1 hgt) (UInt64.not_lt.1 hlt)
    refine Prog.Triple.bind (holding_acquire _ a) fun _ => Prog.Triple.pure fun s hs => ?_
    rw [hs.2, hab, both_self]

private theorem triple_dualUnlock (a b : UInt64) : Prog.Triple act (HeldOrSlipped (both a b) a)
    (NameNode.dualUnlock a b) fun _ s => s = (holding fun _ => false) ∨ Stray s := by
  unfold NameNode.dualUnlock
  split_ifs with hab
  · subst hab
    rw [both_self]
    exact Prog.Triple.bind (HeldOrSlipped.triple_release rfl) fun _ => Prog.Triple.pure fun s hs => hs
  · refine Prog.Triple.bind (HeldOrSlipped.triple_release (Function.update_of_ne hab _ _)) fun _ => ?_
    refine Prog.Triple.bind (Q := fun _ s => s = (holding fun _ => false) ∨ Stray s) ?_ fun _ =>
      Prog.Triple.pure fun s hs => hs
    exact ((holding_release_acquired rfl).weaken fun _ _ => .inl).or ((Stray.triple _).weaken fun _ _ => .inr)

theorem triple_pbDelete (n : ℕ) (src : Str) (recursive : Bool) : Prog.Triple act (· = holding fun _ => false)
    (NameNode.pbDelete n src recursive) (Returned fun s => s = (holding fun _ => false) ∨ Stray s) := by
  have hlookup : Prog.Triple act (· = holding fun _ => false) (NameNode.recursiveLookupLast src)
      fun _ s => s = holding fun _ => false := by
    unfold NameNode.recursiveLookupLast
    split_ifs
    · exact triple_walkLast rfl 1 1 _
    · exact Prog.Triple.pure fun s hs => hs
  unfold NameNode.pbDelete
  refine Prog.Triple.bind hlookup fun found => ?_
  match found with
  | none => exact Prog.Triple.pure fun s hs => .inl hs
  | some (ino, parent) =>
    refine Prog.Triple.bind (triple_dualLock ino parent) fun _ => ?_
    refine Prog.Triple.bind (triple_deleteAll n src recursive parent (Function.update_self _ _ _))
      fun deleted => ?_
    match deleted with
    | none => exact Prog.Triple.pure fun s _ => trivial
    | some r => exact Prog.Triple.bind (triple_dualUnlock ino parent) fun _ => Prog.Triple.pure fun s hs => hs

def Even (h : UInt64 → Bool) (s : Ledger) : Prop := s.locks = .held h ∧ s.odd = false

def PlainCall : Call → Prop
  | .acquire _ | .release _ | .getattr _ => False
  | _ => True

theorem Even.triple {α : Type} {p : M α} (hp : p.All PlainCall) (h : UInt64 → Bool) :
    Prog.Triple act (Even h) p fun _ => Even h := by
  refine Prog.Triple.invariant hp fun c s r s' hc hs hact => ?_
  cases c with
  | acquire lid => exact hc.elim
  | release lid => exact hc.elim
  | getattr id => exact hc.elim
  | _ =>
    subst hact
    exact hs

theorem even_of_eq {h : UInt64 → Bool} {s : Ledger} (hs : s = holding h) : Even h s := by
  rw [hs]
  exact ⟨rfl, rfl⟩

theorem even_getattr (h : UInt64 → Bool) (ino : UInt64) :
    Prog.Triple act (· = holding h) (perform (.getattr ino)) fun _ => Even h := by
  apply Prog.Triple.perform
  intro s r s' hs hact
  subst hs
  rw [show s' = _ from hact]
  exact ⟨rfl, rfl⟩

theorem even_release {h : UInt64 → Bool} {lid : UInt64} (hlid : h lid = false) :
    Prog.Triple act (Even (Function.update h lid true)) (perform (.release lid)) fun _ => Even h := by
  apply Prog.Triple.perform
  intro s r s' hs hact
  obtain ⟨hlocks, hodd⟩ := hs
  subst hact
  refine ⟨?_, hodd⟩
  have hback : Function.update (Function.update h lid true) lid false = h := by
    rw [Function.update_idem, ← hlid, Function.update_eq_self]
  simp [hlocks, Locks.release, hback]

theorem even_locked {α : Type} {p : M α} {h : UInt64 → Bool} {lid : UInt64}
    (hp : Prog.Triple act (· = holding (Function.update h lid true)) p fun _ =>
      Even (Function.update h lid true)) :
    Prog.Triple act (· = holding h) (locked lid p) fun _ => Even h := by
  unfold locked
  refine Prog.Triple.bind (holding_acquire h lid) fun _ => Prog.Triple.of_and fun hfree => ?_
  exact Prog.Triple.bind hp fun _ => Prog.Triple.bind (even_release hfree) fun _ =>
    Prog.Triple.pure fun s hs => hs

theorem even_guarded {α : Type} {p : M (Option α)} {h : UInt64 → Bool} {lid : UInt64}
    (hp : Prog.Triple act (· = holding (Function.update h lid true)) p fun _ =>
      Even (Function.update h lid true)) :
    Prog.Triple act (· = holding h) (guarded lid p) (Returned (Even h)) := by
  unfold guarded
  refine Prog.Triple.bind (holding_acquire h lid) fun _ => Prog.Triple.of_and fun hfree => ?_
  refine Prog.Triple.bind hp fun r => ?_
  cases r with
  | none => exact Prog.Triple.pure fun s _ => trivial
  | some a => exact Prog.Triple.bind (even_release hfree) fun _ => Prog.Triple.pure fun s hs => hs

theorem even_lookup {α : Type} (h : UInt64 → Bool) (parent : UInt64) (name : Str) (found : Bool)
    (out : UInt64) {f : YfsStatus × Bool × UInt64 → M α} (hf : ∀ a, (f a).All PlainCall) :
    Prog.Triple act (· = holding h) (nlockLookup parent name found out >>= f) fun _ => Even h :=
  Prog.Triple.bind (triple_nlockLookup rfl parent name found out) fun a =>
    (Even.triple (hf a) h).strengthen fun _ hs => even_of_eq hs

end Ledger
end Yfs.Hdfs
