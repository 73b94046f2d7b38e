import Yfs.Hdfs.PathWalk
import Yfs.Hdfs.WritePath

/-! `PBComplete` when the call to the extent server fails: what is left for another attempt. -/
namespace Yfs.Hdfs
open Yfs.Lib Yfs.Extent Yfs.Client Relation

abbrev Commits := List (UInt64 × UInt32)

/-- A world in which `complete` commits a size, or fails and changes nothing. `append_block` answers what it
likes; the file is not a directory. -/
def commitServe {T : Type} (succeeds : Bool) (t : T) :
    (c : Call) → World T × Commits → Reply c → World T × Commits → Prop
  | .appendBlock _, s, _, s' => s'.1.files.dir = s.1.files.dir ∧ s'.1.lock = s.1.lock ∧ s'.2 = s.2
  | .complete id size, s, r, s' =>
    if succeeds then r = .ok ∧ s' = (s.1, (id, size) :: s.2) else r ≠ .ok ∧ s' = s
  | c, s, r, s' => World.serve t c s.1 r s'.1 ∧ s'.2 = s.2

theorem newSize_eq_iff {size : UInt32} {last : Option UInt64} :
    newSize size last = size ↔ ∀ n ∈ last, n.toNat % 2 ^ 32 = blockSize := by
  cases last with
  | none => simp [newSize]
  | some n =>
    have hblock : (UInt32.ofNat blockSize).toNat = blockSize := rfl
    have hnum : n.toUInt32 = UInt32.ofNat blockSize ↔ n.toNat % 2 ^ 32 = blockSize := by
      rw [← UInt32.toNat_inj, hblock, UInt64.toNat_toUInt32]
    simp only [Option.mem_some_iff, forall_eq', ← hnum, newSize]
    constructor <;> grind

section
variable {T D : Type} {t : T} {nn : NameNode D} {w : World T} {log : Commits} {src : Str} {ino : UInt64}
  {size : UInt32} {last : Option UInt64} {succeeds : Bool}

theorem gives_recursiveLookup (succeeds : Bool) (t : T) (w : World T) (log : Commits) (path : Str) :
    (NameNode.recursiveLookup path).Gives (commitServe succeeds t) (w, log)
      (resolvePath w.files.dir path) (w, log) := by
  have hreads := all_recursiveLookup (K := Reading) (fun _ => trivial) (fun _ => trivial) path
  refine Prog.Gives.embed (fun w => (w, log)) ?_ hreads (shows_recursiveLookup t w path)
  intro c hc w r s'
  have hserve : commitServe succeeds t c (w, log) r s' ↔ World.serve t c w r s'.1 ∧ s'.2 = log := by
    cases c <;> first | exact hc.elim | exact Iff.rfl
  rw [hserve]
  constructor
  · rintro ⟨hworld, hlog⟩
    exact ⟨s'.1, by rw [← hlog], hworld⟩
  · rintro ⟨w₁, rfl, hworld⟩
    exact ⟨hworld, rfl⟩

theorem exec_pbComplete (hsrc : resolvePath w.files.dir src = some ino)
    (hpending : nn.pendingWrite ino = some size) {p : Except HdfsException Bool × NameNode D}
    {s' : World T × Commits} :
    (nn.pbComplete src last).Exec (commitServe succeeds t) (w, log) p s' ↔
      ∃ b, (NameNode.complete ino (newSize size last)).Exec (commitServe succeeds t) (w, log) b s' ∧
        p = if b then (.ok true, { nn with pendingWrite := Function.update nn.pendingWrite ino none })
          else (.error .completeFailed,
            { nn with pendingWrite := Function.update nn.pendingWrite ino (some (newSize size last)) }) := by
  have hlookup := gives_recursiveLookup succeeds t w log src
  rw [hsrc] at hlookup
  unfold NameNode.pbComplete
  rw [Prog.exec_bind_of_iff hlookup]
  dsimp only
  rw [hpending]
  dsimp only
  rw [Prog.exec_bind]
  constructor
  · rintro ⟨b, s₁, hcomplete, hrest⟩
    refine ⟨b, ?_⟩
    cases b with
    | false =>
      obtain ⟨rfl, rfl⟩ := Prog.exec_pure.1 hrest
      exact ⟨hcomplete, rfl⟩
    | true =>
      obtain ⟨rfl, rfl⟩ := Prog.exec_pure.1 hrest
      exact ⟨hcomplete, rfl⟩
  · rintro ⟨b, hcomplete, rfl⟩
    refine ⟨b, s', hcomplete, ?_⟩
    cases b with
    | false => exact Prog.exec_pure.2 ⟨rfl, rfl⟩
    | true => exact Prog.exec_pure.2 ⟨rfl, rfl⟩

theorem gives_complete_fail (t : T) (s : World T × Commits) (ino : UInt64) (n : UInt32) :
    (NameNode.complete ino n).Gives (commitServe false t) s false s := by
  intro b s'
  unfold NameNode.complete
  rw [Prog.exec_bind]
  constructor
  · rintro ⟨r, s₁, hcall, hrest⟩
    obtain ⟨hr, rfl⟩ := Prog.exec_perform.1 hcall
    rw [if_neg hr] at hrest
    exact Prog.exec_pure.1 hrest
  · rintro ⟨rfl, rfl⟩
    exact ⟨.ioerr, s', Prog.exec_perform.2 ⟨Status.noConfusion, rfl⟩, rfl, rfl⟩

theorem commits_of_complete {b : Bool} {s s' : World T × Commits} {n : UInt32}
    (h : (NameNode.complete ino n).Exec (commitServe true t) s b s') : b = true ∧ s'.2 = (ino, n) :: s.2 := by
  unfold NameNode.complete at h
  obtain ⟨r, s₁, hcall, hrest⟩ := Prog.exec_bind.1 h
  obtain ⟨rfl, rfl⟩ := Prog.exec_perform.1 hcall
  obtain ⟨_, s₂, hrelease, rfl, rfl⟩ := Prog.exec_bind.1 hrest
  exact ⟨rfl, (Prog.exec_perform.1 hrelease).2⟩

/-- One attempt whose call to the extent server fails. -/
def FailedAttempt (t : T) (src : Str) (last : Option UInt64) (p p' : NameNode D × World T × Commits) : Prop :=
  ∃ r, (p.1.pbComplete src last).Exec (commitServe false t) p.2 (r, p'.1) p'.2

/-- An attempt that fails throws and leaves the pending writes as they were, and after any number of them a
success commits what it would have committed at first. -/
structure Retryable (t : T) (nn : NameNode D) (s : World T × Commits) (src : Str) (last : Option UInt64) :
    Prop where
  runs : ∃ p, FailedAttempt t src last (nn, s) p
  throws : ∀ r nn' s', (nn.pbComplete src last).Exec (commitServe false t) s (r, nn') s' →
    r = .error .completeFailed ∧ nn'.pendingWrite = nn.pendingWrite
  commits : ∀ p, ReflTransGen (FailedAttempt t src last) (nn, s) p → ∀ q q' s₁ s₂,
    (nn.pbComplete src last).Exec (commitServe true t) s q s₁ →
    (p.1.pbComplete src last).Exec (commitServe true t) p.2 q' s₂ → s₂.2 = s₁.2

/-- A failed attempt throws, and leaves the size behind that it has passed on. -/
theorem gives_pbComplete_fail (t : T) (log : Commits) (last : Option UInt64)
    (hsrc : resolvePath w.files.dir src = some ino) (hpending : nn.pendingWrite ino = some size) :
    (nn.pbComplete src last).Gives (commitServe false t) (w, log) (.error .completeFailed,
      { nn with pendingWrite := Function.update nn.pendingWrite ino (some (newSize size last)) })
      (w, log) := by
  intro p s'
  rw [exec_pbComplete hsrc hpending]
  constructor
  · rintro ⟨b, hcomplete, rfl⟩
    obtain ⟨rfl, rfl⟩ := (gives_complete_fail t (w, log) ino _ b s').1 hcomplete
    exact ⟨rfl, rfl⟩
  · rintro ⟨rfl, rfl⟩
    exact ⟨false, (gives_complete_fail t (w, log) ino _).exec, rfl⟩

theorem commits_of_pbComplete {log : Commits} {p : Except HdfsException Bool × NameNode D}
    {s' : World T × Commits} (hsrc : resolvePath w.files.dir src = some ino)
    (hpending : nn.pendingWrite ino = some size)
    (h : (nn.pbComplete src last).Exec (commitServe true t) (w, log) p s') :
    s'.2 = (ino, newSize size last) :: log := by
  obtain ⟨b, hcomplete, -⟩ := (exec_pbComplete hsrc hpending).1 h
  exact (commits_of_complete hcomplete).2

theorem Retryable.newSize_eq {log : Commits} (h : Retryable t nn (w, log) src last)
    (hsrc : resolvePath w.files.dir src = some ino) (hpending : nn.pendingWrite ino = some size) :
    newSize size last = size := by
  have hkept := congrFun (h.throws _ _ _ (gives_pbComplete_fail t log last hsrc hpending).exec).2 ino
  dsimp only at hkept
  rw [Function.update_self, hpending] at hkept
  exact Option.some.inj hkept

/-- A failed `PBComplete` can be retried exactly if the request has no last block or a full one. -/
theorem retryable_iff (hsrc : resolvePath w.files.dir src = some ino)
    (hpending : nn.pendingWrite ino = some size) :
    Retryable t nn (w, log) src last ↔ ∀ n ∈ last, n.toNat % 2 ^ 32 = blockSize := by
  have hfail := gives_pbComplete_fail t log last hsrc hpending
  rw [← @newSize_eq_iff size last]
  constructor
  · exact fun h => h.newSize_eq hsrc hpending
  · intro hsize
    -- the size left behind is the old one, so that a failed attempt changes nothing
    have hsame : Function.update nn.pendingWrite ino (some (newSize size last)) = nn.pendingWrite := by
      rw [hsize, ← hpending, Function.update_eq_self]
    rw [hsame] at hfail
    constructor
    · exact ⟨(nn, w, log), _, hfail.exec⟩
    · intro r nn' s' hexec
      obtain ⟨heq, -⟩ := (hfail _ _).1 hexec
      cases heq
      exact ⟨rfl, rfl⟩
    · intro p hattempts q q' s₁ s₂ hfirst hlater
      have hstay : p = (nn, w, log) := by
        clear hlater
        induction hattempts with
        | refl => rfl
        | tail _ hstep ih =>
          subst ih
          obtain ⟨r, hexec⟩ := hstep
          obtain ⟨heq, hworld⟩ := (hfail _ _).1 hexec
          exact Prod.ext (congrArg Prod.snd heq) hworld
      subst hstay
      rw [commits_of_pbComplete hsrc hpending hfirst, commits_of_pbComplete hsrc hpending hlater]

theorem exec_pbComplete_ok (nn : NameNode D) (log : Commits) (last : Option UInt64)
    (hsrc : resolvePath w.files.dir src = some ino) (hpending : nn.pendingWrite ino = some size)
    (hlock : w.lock ino = some t) :
    ∃ p s', (nn.pbComplete src last).Exec (commitServe true t) (w, log) p s' := by
  let s₁ : World T × Commits := (w, (ino, newSize size last) :: log)
  let s₂ : World T × Commits := ({ w with lock := Function.update w.lock ino none }, s₁.2)
  refine ⟨_, s₂, (exec_pbComplete hsrc hpending).2 ⟨true, ?_, rfl⟩⟩
  refine Prog.exec_bind.2 ⟨.ok, s₁, Prog.exec_perform.2 ⟨rfl, rfl⟩, ?_⟩
  exact Prog.exec_bind.2 ⟨(), s₂, Prog.exec_perform.2 ⟨⟨hlock, rfl⟩, rfl⟩, rfl, rfl⟩

end

def heldFile : World Unit := ⟨(rootOf [([97], 2)]).files, fun id => if id = 2 then some () else none⟩

def oneBlock : NameNode ℕ := ⟨fun id => if id = 2 then some (UInt32.ofNat blockSize) else none, ∅, [], 0⟩

theorem retryable_iff_full :
    Retryable () oneBlock (heldFile, []) [slash, 97] (some (UInt64.ofNat blockSize)) := by
  have hsrc : resolvePath heldFile.files.dir [slash, 97] = some 2 := by decide
  have hpending : oneBlock.pendingWrite 2 = some (UInt32.ofNat blockSize) := rfl
  refine (retryable_iff hsrc hpending).2 fun n hn => ?_
  cases hn
  decide

/-- Five bytes are in the last block. The second attempt commits `2 ^ 32 - blockSize + 10` of them. -/
theorem retry_commits_other :
    (∀ q s, (oneBlock.pbComplete [slash, 97] (some 5)).Exec (commitServe true ()) (heldFile, []) q s →
      s.2 = [(2, 5)]) ∧
    (∃ p, FailedAttempt () [slash, 97] (some 5) (oneBlock, heldFile, []) p ∧
      ∃ q s, (p.1.pbComplete [slash, 97] (some 5)).Exec (commitServe true ()) p.2 q s ∧
        s.2 = [(2, 4294950922)]) ∧
    ¬Retryable () oneBlock (heldFile, []) [slash, 97] (some 5) := by
  have hsrc : resolvePath heldFile.files.dir [slash, 97] = some 2 := by decide
  have hpending : oneBlock.pendingWrite 2 = some (UInt32.ofNat blockSize) := rfl
  refine ⟨fun q s hexec => ?_, ?_, fun h => ?_⟩
  · rw [commits_of_pbComplete hsrc hpending hexec]
    decide
  · have hfail := gives_pbComplete_fail () [] (some 5) hsrc hpending
    let pending := Function.update oneBlock.pendingWrite 2 (some (newSize (UInt32.ofNat blockSize) (some 5)))
    let left : NameNode ℕ := { oneBlock with pendingWrite := pending }
    have hleft : left.pendingWrite 2 = some 5 := by decide
    obtain ⟨q, s, hexec⟩ := exec_pbComplete_ok (t := ()) left [] (some 5) hsrc hleft rfl
    refine ⟨(left, heldFile, []), ⟨_, hfail.exec⟩, q, s, hexec, ?_⟩
    rw [commits_of_pbComplete hsrc hleft hexec]
    decide
  · exact absurd (h.newSize_eq hsrc hpending) (by decide)

end Yfs.Hdfs
