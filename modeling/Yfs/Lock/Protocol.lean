import Mathlib.Data.Finset.Max
import Mathlib.Data.Finset.Card

/-! The mutex-protected sections of `lock_client_cache` and `lock_server_cache`, one pure
function for each section. Only the entry of one lock id appears: every map of the two
classes is keyed by the lock id. A client id is an element of a linear order, as
`wait_list` is an ordered set; the empty owner string is `none`. -/
namespace Yfs.Lock

inductive Status where
  | ok | retry | rpcerr | noent | ioerr
  deriving DecidableEq, Repr

inductive ClientState where
  | none | free | locked | acquiring | releasing
  deriving DecidableEq, Repr

/-- `lock_property` of the client, without its mutex and condition variable. -/
structure ClientLock where
  state : ClientState
  revoke : Bool
  retry : Bool
  deriving DecidableEq, Repr

/-- What a client section leaves behind: the entry, whether it ended in
`pthread_cond_broadcast`, and what its thread does next. -/
structure Section (N : Type) where
  lock : ClientLock
  broadcast : Bool
  next : N

inductive AcquireNext where
  | call | wait | waitRetry | done
  deriving DecidableEq, Repr

inductive ReleaseNext where
  | call | done
  deriving DecidableEq, Repr

namespace ClientLock

def new : ClientLock := ⟨.none, false, false⟩

/-- One turn of the `switch` in `acquire`, up to the point where the mutex is dropped. -/
def acquire (p : ClientLock) : Section AcquireNext :=
  match p.state with
  | .none => ⟨{ p with state := .acquiring }, false, .call⟩
  | .free => ⟨{ p with state := .locked }, false, .done⟩
  | .locked | .acquiring | .releasing => ⟨p, false, .wait⟩

/-- The inner loop of `acquire` after a `RETRY`. Once the flag is up the entry goes back to
`NONE` and the outer loop takes its next turn under the same mutex. -/
def awaitRetry (p : ClientLock) : Section AcquireNext :=
  if p.retry then
    { ({ p with state := .none, retry := false } : ClientLock).acquire with broadcast := true }
  else ⟨p, false, .waitRetry⟩

/-- `acquire` with the mutex taken again after its RPC. Any status other than `OK` and
`RETRY` falls out of the `switch` into the next turn of the loop. -/
def acquireReply (p : ClientLock) : Status → Section AcquireNext
  | .ok => ⟨{ p with state := .locked }, false, .done⟩
  | .retry => p.awaitRetry
  | _ => p.acquire

/-- `release` under the mutex; `none` is its `VERIFY(0)`. -/
def release (p : ClientLock) : Option (Section ReleaseNext) :=
  match p.state with
  | .locked =>
    if p.revoke then some ⟨{ p with state := .releasing, revoke := false }, false, .call⟩
    else some ⟨{ p with state := .free }, true, .done⟩
  | _ => Option.none

/-- `release` and `revoke_handler` after their RPC; `none` is the `VERIFY(0)` on the reply. -/
def releaseReply (p : ClientLock) (r : Status) : Option (Section ReleaseNext) :=
  if r = .ok then some ⟨{ p with state := .none }, true, .done⟩ else Option.none

def revokeHandler (p : ClientLock) : Section ReleaseNext :=
  match p.state with
  | .free => ⟨{ p with state := .releasing }, false, .call⟩
  | _ => ⟨{ p with revoke := true }, true, .done⟩

def retryHandler (p : ClientLock) : Section ReleaseNext :=
  if p.retry then ⟨p, false, .done⟩ else ⟨{ p with retry := true }, true, .done⟩

theorem awaitRetry_of_retry {l : ClientLock} (h : l.retry = true) :
    l.awaitRetry = ⟨{ l with state := .acquiring, retry := false }, true, .call⟩ := by
  simp [awaitRetry, h, acquire]

theorem awaitRetry_of_not {l : ClientLock} (h : l.retry = false) :
    l.awaitRetry = ⟨l, false, .waitRetry⟩ := by
  simp [awaitRetry, h]

theorem retryHandler_lock (l : ClientLock) :
    l.retryHandler.lock = { l with retry := true } := by
  unfold retryHandler
  split_ifs with h
  · rw [← h]
  · rfl

theorem revokeHandler_of_ne {l : ClientLock} (h : l.state ≠ .free) :
    l.revokeHandler = ⟨{ l with revoke := true }, true, .done⟩ := by
  unfold revokeHandler
  split
  · contradiction
  · rfl

theorem revokeHandler_of_free {l : ClientLock} (h : l.state = .free) :
    l.revokeHandler = ⟨{ l with state := .releasing }, false, .call⟩ := by
  simp [revokeHandler, h]

end ClientLock

/-- `lock_property` of the server. `mutex` is set while a handler keeps the mutex of the
entry across a call of its own; all other sections are single steps. -/
structure ServerLock (C : Type) where
  state : Bool
  owner : Option C
  waitList : Finset C
  revoke : Bool
  mutex : Bool
  deriving DecidableEq

inductive ServerNext where
  | reply (r : Status) | revoke
  deriving DecidableEq, Repr

namespace ServerLock
variable {C : Type}

def new : ServerLock C := ⟨false, none, ∅, false, false⟩

variable [LinearOrder C]

/-- `lock_server_cache::acquire` under the mutex of the entry. -/
def acquire (s : ServerLock C) (id : C) : ServerLock C × ServerNext :=
  if s.state = false then
    ({ s with state := true, waitList := s.waitList.erase id, owner := some id, revoke := false },
      .reply .ok)
  else if s.revoke then ({ s with waitList := insert id s.waitList }, .reply .retry)
  else ({ s with waitList := insert id s.waitList, revoke := true }, .revoke)

theorem acquire_reply (s : ServerLock C) {c : C} {r : Status}
    (h : (s.acquire c).2 = .reply r) : r = .ok ∨ r = .retry := by
  unfold acquire at h
  split_ifs at h <;> cases h <;> simp

/-- `lock_server_cache::release` up to the first call: with a waiting client the mutex stays
locked and the first client of the set is to be called. -/
def release (s : ServerLock C) : ServerLock C × Option C :=
  let s' := { s with state := false, owner := none, revoke := false }
  if h : s.waitList.Nonempty then ({ s' with mutex := true }, some (s.waitList.min' h))
  else (s', none)

/-- Whether `release` goes on to revoke the lock it is about to hand over. -/
def moreWaiting (s : ServerLock C) : Bool := decide (1 < s.waitList.card)

end ServerLock
end Yfs.Lock
