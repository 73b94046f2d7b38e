import Yfs.Lock.Protocol
import Mathlib.Logic.Function.Basic
import Mathlib.Logic.Relation

/-! Clients, threads and RPCs of the lock protocol as a step function. An outstanding RPC is
recorded in the thread that waits for it, together with the call its handler waits for in
turn, so a call chain is one value. `sent` is a request on its way and `replied` an answer on
its way; either may be delayed for as long as the scheduler likes. Each step runs one
mutex-protected section. RPCs are executed once and do not fail. -/
namespace Yfs.Lock

/-- A `retry` call; `found` is past the look-up in the client's `lock_map`. -/
inductive RetryCall where
  | sent | found | replied
  deriving DecidableEq, Repr

/-- The `release` call of a `revoke_handler` that was itself called by
`lock_server_cache::release`. Past the look-up it waits for a mutex its own caller holds. -/
inductive InnerRelease where
  | sent | found
  deriving DecidableEq, Repr

/-- A `revoke` call; `R` says how far a `release` call out of its handler can get. -/
inductive RevokeCall (R : Type) where
  | sent | found | release (r : R) | replied
  deriving DecidableEq, Repr

/-- A `release` call. The mutex of the entry is held in `retry` and `revoke`. -/
inductive ReleaseCall (C : Type) where
  | sent | found
  | retry (dst : C) (q : RetryCall)
  | revoke (dst : C) (v : RevokeCall InnerRelease)
  | replied (r : Status)
  deriving DecidableEq, Repr

/-- An `acquire` call. In `readOwner` the handler has dropped the mutex and is about to read
`owner`; in `bind` it has read it and is about to bind to it. -/
inductive AcquireCall (C : Type) where
  | sent | found | readOwner
  | bind (dst : Option C)
  | revoke (dst : C) (v : RevokeCall (ReleaseCall C))
  | replied (r : Status)
  deriving DecidableEq, Repr

/-- Where a thread is in its call on the lock id. -/
inductive Pc (C : Type) where
  | idle
  | acquire | acquireLock | acquireCall (a : AcquireCall C) | waitRetry | wait
  | release | releaseLock | releaseCall (r : ReleaseCall C)
  deriving DecidableEq, Repr

/-- All that concerns one lock id. `held p` says that thread `p` is between the return of its
`acquire` and its call of `release`; `awake p` that `p` was signalled since it began to wait. -/
structure LockState (C T : Type) where
  server : Option (ServerLock C)
  client : C → Option ClientLock
  pc : C × T → Pc C
  held : C × T → Bool
  awake : C × T → Bool

/-- One lock id with the processes it runs on. A process is down after a failed `VERIFY`. -/
structure Sys (C T : Type) extends LockState C T where
  serverDown : Bool
  clientDown : C → Bool

variable {C T : Type} [LinearOrder C] [DecidableEq T]

namespace Sys

def setPc (σ : Sys C T) (p : C × T) (x : Pc C) : Sys C T :=
  { σ with pc := Function.update σ.pc p x }

def setServer (σ : Sys C T) (s : ServerLock C) : Sys C T := { σ with server := some s }

/-- Store what a section of client `c` left behind and wake the waiting threads of `c`. -/
def setClient {N : Type} (σ : Sys C T) (c : C) (s : Section N) : Sys C T :=
  { σ with
    client := Function.update σ.client c (some s.lock)
    awake := fun q => if s.broadcast = true ∧ q.1 = c then true else σ.awake q }

def failClient (σ : Sys C T) (c : C) : Sys C T :=
  { σ with clientDown := Function.update σ.clientDown c true }

def failServer (σ : Sys C T) : Sys C T := { σ with serverDown := true }

/-- The look-up that `revoke_handler` and `retry_handler` start with. -/
def find {X : Type} (σ : Sys C T) (c : C) (sent found : X) : Option (Sys C T × X) :=
  if σ.clientDown c then none
  else match σ.client c with
    | none => some (σ.failClient c, sent)
    | some _ => some (σ, found)

def retryStep (σ : Sys C T) (dst : C) : RetryCall → Option (Sys C T × RetryCall)
  | .sent => σ.find dst .sent .found
  | .found =>
    if σ.clientDown dst then none
    else (σ.client dst).map fun p => (σ.setClient dst p.retryHandler, .replied)
  | .replied => none

def revokeStep {R : Type} (first : R) (σ : Sys C T) (dst : C) :
    RevokeCall R → Option (Sys C T × RevokeCall R)
  | .sent => σ.find dst .sent .found
  | .found =>
    if σ.clientDown dst then none
    else (σ.client dst).map fun p =>
      (σ.setClient dst p.revokeHandler,
        match p.revokeHandler.next with
        | .call => .release first
        | .done => .replied)
  | .release _ | .replied => none

/-- The look-up that `lock_server_cache::release` starts with. -/
def findServer {X : Type} (σ : Sys C T) (sent found : X) : Option (Sys C T × X) :=
  match σ.server with
  | none => some (σ.failServer, sent)
  | some _ => some (σ, found)

/-- The next section of `lock_server_cache::release`, or of a handler it waits for. -/
def releaseStep (σ : Sys C T) : ReleaseCall C → Option (Sys C T × ReleaseCall C)
  | .sent => if σ.serverDown then none else σ.findServer .sent .found
  | .found =>
    if σ.serverDown then none
    else σ.server.bind fun s =>
      if s.mutex then none
      else some (σ.setServer s.release.1,
        match s.release.2 with
        | none => .replied .ok
        | some dst => .retry dst .sent)
  | .retry dst .replied =>
    if σ.serverDown then none
    else σ.server.map fun s =>
      if s.moreWaiting then (σ, .revoke dst .sent)
      else (σ.setServer { s with mutex := false }, .replied .ok)
  | .retry dst q => (σ.retryStep dst q).map fun r => (r.1, .retry dst r.2)
  | .revoke _ .replied =>
    if σ.serverDown then none
    else σ.server.map fun s => (σ.setServer { s with mutex := false }, .replied .ok)
  | .revoke dst (.release .sent) =>
    if σ.serverDown then none
    else σ.findServer (.revoke dst (.release .sent)) (.revoke dst (.release .found))
  | .revoke _ (.release .found) => none
  | .revoke dst v => (revokeStep .sent σ dst v).map fun r => (r.1, .revoke dst r.2)
  | .replied _ => none

/-- `revoke_handler` of client `c` after the reply to its `release` call. -/
def revokeReply (σ : Sys C T) (c : C) (r : Status) :
    Option (Sys C T × RevokeCall (ReleaseCall C)) :=
  if σ.clientDown c then none
  else (σ.client c).map fun p =>
    match p.releaseReply r with
    | none => (σ.failClient c, .release (.replied r))
    | some s => (σ.setClient c s, .replied)

/-- The next section of `lock_server_cache::acquire` for client `id`, or of a handler it waits
for. Binding to the empty owner string fails, and the `VERIFY(0)` behind it is reached. -/
def acquireStep (σ : Sys C T) (id : C) : AcquireCall C → Option (Sys C T × AcquireCall C)
  | .sent =>
    if σ.serverDown then none else some (σ.setServer (σ.server.getD .new), .found)
  | .found =>
    if σ.serverDown then none
    else σ.server.bind fun s =>
      if s.mutex then none
      else some (σ.setServer (s.acquire id).1,
        match (s.acquire id).2 with
        | .reply r => .replied r
        | .revoke => .readOwner)
  | .readOwner => if σ.serverDown then none else σ.server.map fun s => (σ, .bind s.owner)
  | .bind none => if σ.serverDown then none else some (σ.failServer, .bind none)
  | .bind (some dst) => if σ.serverDown then none else some (σ, .revoke dst .sent)
  | .revoke _ .replied => if σ.serverDown then none else some (σ, .replied .retry)
  | .revoke dst (.release (.replied r)) =>
    (σ.revokeReply dst r).map fun x => (x.1, .revoke dst x.2)
  | .revoke dst (.release r) =>
    (σ.releaseStep r).map fun x => (x.1, .revoke dst (.release x.2))
  | .revoke dst v => (revokeStep .sent σ dst v).map fun x => (x.1, .revoke dst x.2)
  | .replied _ => none

/-- Thread `p` runs section `f` of `acquire` and goes where the section sends it. -/
def acquireSection (σ : Sys C T) (p : C × T) (f : ClientLock → Section AcquireNext) :
    Option (Sys C T) :=
  if σ.clientDown p.1 then none
  else (σ.client p.1).map fun l =>
    let τ := σ.setClient p.1 (f l)
    match (f l).next with
    | .call => τ.setPc p (.acquireCall .sent)
    | .wait => { τ.setPc p .wait with awake := Function.update τ.awake p false }
    | .waitRetry => { τ.setPc p .waitRetry with awake := Function.update τ.awake p false }
    | .done => { τ.setPc p .idle with held := Function.update τ.held p true }

/-- Thread `p` stores the outcome of a section of `release`; `none` is its `VERIFY(0)`. -/
def releaseSection (σ : Sys C T) (p : C × T) :
    Option (Section ReleaseNext) → Sys C T
  | none => σ.failClient p.1
  | some s => (σ.setClient p.1 s).setPc p
      (match s.next with
        | .call => .releaseCall .sent
        | .done => .idle)

/-- The next section of the call that thread `p` is in. -/
def run (σ : Sys C T) (p : C × T) : Option (Sys C T) :=
  match σ.pc p with
  | .idle => none
  | .acquire =>
    if σ.clientDown p.1 then none
    else some (({ σ with
      client := Function.update σ.client p.1 (some ((σ.client p.1).getD .new)) } : Sys C T).setPc p
        .acquireLock)
  | .acquireLock => σ.acquireSection p ClientLock.acquire
  | .wait => if σ.awake p then σ.acquireSection p ClientLock.acquire else none
  | .waitRetry => if σ.awake p then σ.acquireSection p ClientLock.awaitRetry else none
  | .acquireCall (.replied r) => σ.acquireSection p (·.acquireReply r)
  | .acquireCall a => (σ.acquireStep p.1 a).map fun x => x.1.setPc p (.acquireCall x.2)
  | .release => (σ.find p.1 .release .releaseLock).map fun x => x.1.setPc p x.2
  | .releaseLock =>
    if σ.clientDown p.1 then none
    else (σ.client p.1).map fun l => σ.releaseSection p l.release
  | .releaseCall (.replied r) =>
    if σ.clientDown p.1 then none
    else (σ.client p.1).map fun l => σ.releaseSection p (l.releaseReply r)
  | .releaseCall r => (σ.releaseStep r).map fun x => x.1.setPc p (.releaseCall x.2)

end Sys

/-- A thread starts a call, a call chain takes its next step, or a waiting thread wakes up
without a signal. -/
inductive Event (C T : Type) where
  | acquire (p : C × T) | release (p : C × T) | run (p : C × T) | spurious (p : C × T)
  deriving DecidableEq, Repr

def Event.thread : Event C T → C × T
  | .acquire p | .release p | .run p | .spurious p => p

def Sys.step (σ : Sys C T) : Event C T → Option (Sys C T)
  | .acquire p =>
    if σ.clientDown p.1 = false ∧ σ.pc p = .idle then some (σ.setPc p .acquire) else none
  | .release p =>
    if σ.clientDown p.1 = false ∧ σ.pc p = .idle ∧ σ.held p then
      some { σ.setPc p .release with held := Function.update σ.held p false }
    else none
  | .run p => σ.run p
  | .spurious p =>
    if σ.pc p = .wait ∨ σ.pc p = .waitRetry then
      some { σ with awake := Function.update σ.awake p true }
    else none

namespace Sys
variable {σ τ : Sys C T}

section
omit [DecidableEq T]

theorem find_frame {X : Type} {c : C} {x y z : X} (h : σ.find c x y = some (τ, z)) :
    τ.pc = σ.pc ∧ τ.serverDown = σ.serverDown := by
  unfold find at h
  split_ifs at h
  split at h <;> cases h <;> exact ⟨rfl, rfl⟩

theorem retryStep_frame {d : C} {q q' : RetryCall} (h : σ.retryStep d q = some (τ, q')) :
    τ.pc = σ.pc ∧ τ.serverDown = σ.serverDown := by
  cases q with
  | sent => exact find_frame h
  | found =>
    simp only [retryStep] at h
    split_ifs at h
    obtain ⟨l, -, hl⟩ := Option.map_eq_some_iff.1 h
    cases hl
    exact ⟨rfl, rfl⟩
  | replied => simp [retryStep] at h

theorem revokeStep_frame {R : Type} {r : R} {d : C} {v v' : RevokeCall R}
    (h : revokeStep r σ d v = some (τ, v')) : τ.pc = σ.pc ∧ τ.serverDown = σ.serverDown := by
  cases v with
  | sent => exact find_frame h
  | found =>
    simp only [revokeStep] at h
    split_ifs at h
    obtain ⟨l, -, hl⟩ := Option.map_eq_some_iff.1 h
    cases hl
    exact ⟨rfl, rfl⟩
  | _ => simp [revokeStep] at h

theorem releaseStep_pc {r r' : ReleaseCall C} (h : σ.releaseStep r = some (τ, r')) : τ.pc = σ.pc := by
  unfold releaseStep at h
  grind [Option.map_eq_some_iff, Option.bind_eq_some_iff, findServer, failServer, setServer,
    → retryStep_frame, → revokeStep_frame]

private theorem acquireStep_pc {c : C} {x x' : AcquireCall C} (h : σ.acquireStep c x = some (τ, x')) :
    τ.pc = σ.pc := by
  unfold acquireStep at h
  grind [Option.map_eq_some_iff, Option.bind_eq_some_iff, failServer, setServer, revokeReply,
    failClient, setClient, releaseStep_pc, → revokeStep_frame]

end

private theorem acquireSection_pc {p q : C × T} {f : ClientLock → Section AcquireNext}
    (h : σ.acquireSection p f = some τ) (hq : q ≠ p) : τ.pc q = σ.pc q := by
  unfold acquireSection at h
  split_ifs at h
  obtain ⟨l, -, rfl⟩ := Option.map_eq_some_iff.1 h
  dsimp only
  split <;> simp [setPc, setClient, hq]

private theorem releaseSection_pc {p q : C × T} (s : Option (Section ReleaseNext)) (hq : q ≠ p) :
    (σ.releaseSection p s).pc q = σ.pc q := by
  cases s <;> simp [releaseSection, failClient, setPc, setClient, hq]

theorem run_pc {p q : C × T} (h : σ.run p = some τ) (hq : q ≠ p) : τ.pc q = σ.pc q := by
  unfold run at h
  split at h
  case h_1 => simp at h
  case h_2 =>
    split_ifs at h
    cases h
    simp [setPc, hq]
  case h_3 => exact acquireSection_pc h hq
  case h_4 | h_5 =>
    split_ifs at h
    exact acquireSection_pc h hq
  case h_6 => exact acquireSection_pc h hq
  case h_7 =>
    obtain ⟨x, hx, rfl⟩ := Option.map_eq_some_iff.1 h
    simp [setPc, hq, acquireStep_pc hx]
  case h_8 =>
    obtain ⟨x, hx, rfl⟩ := Option.map_eq_some_iff.1 h
    simp [setPc, hq, (find_frame hx).1]
  case h_9 | h_10 =>
    split_ifs at h
    obtain ⟨l, -, rfl⟩ := Option.map_eq_some_iff.1 h
    exact releaseSection_pc _ hq
  case h_11 =>
    obtain ⟨x, hx, rfl⟩ := Option.map_eq_some_iff.1 h
    simp [setPc, hq, releaseStep_pc hx]

theorem step_pc {e : Event C T} (h : σ.step e = some τ) {q : C × T} (hq : q ≠ e.thread) :
    τ.pc q = σ.pc q := by
  cases e with
  | run p => exact run_pc h hq
  | acquire p | release p =>
    simp only [step] at h
    split_ifs at h
    cases h
    exact Function.update_of_ne hq _ _
  | spurious p =>
    simp only [step] at h
    split_ifs at h
    cases h
    rfl

end Sys

/-- All lock ids. `current p` is the lock id that the call of thread `p` is about. -/
structure World (C T L : Type) where
  lock : L → LockState C T
  serverDown : Bool
  clientDown : C → Bool
  current : C × T → Option L

namespace World
variable {L : Type} [DecidableEq L]

def view (w : World C T L) (l : L) : Sys C T :=
  { toLockState := w.lock l, serverDown := w.serverDown, clientDown := w.clientDown }

/-- A thread works on one lock id at a time: it starts a call only outside any other call. -/
def ready (w : World C T L) (l : L) : Event C T → Bool
  | .acquire p | .release p => (w.current p).isNone
  | .run p | .spurious p => w.current p = some l

def step (w : World C T L) (l : L) (e : Event C T) : Option (World C T L) :=
  if w.ready l e then
    ((w.view l).step e).map fun σ =>
      { lock := Function.update w.lock l σ.toLockState
        serverDown := σ.serverDown
        clientDown := σ.clientDown
        current := Function.update w.current e.thread
          (if σ.pc e.thread = .idle then none else some l) }
  else none

def init : World C T L where
  lock := fun _ => ⟨none, fun _ => none, fun _ => .idle, fun _ => false, fun _ => false⟩
  serverDown := false
  clientDown := fun _ => false
  current := fun _ => none

def Step (w w' : World C T L) : Prop := ∃ l e, w.step l e = some w'

def Reachable (w : World C T L) : Prop := Relation.ReflTransGen Step init w

def exec (w : World C T L) : List (L × Event C T) → Option (World C T L)
  | [] => some w
  | (l, e) :: es => (w.step l e).bind fun w' => w'.exec es

end World
end Yfs.Lock
