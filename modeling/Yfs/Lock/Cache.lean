import Yfs.Lock.Protocol
import Mathlib.Logic.Function.Basic
import Mathlib.Logic.Relation

/-! One `lock_client_cache` by itself: any number of threads in its operations and handlers, and a
server that sends what it likes. At most one of the threads talks to the server about a lock. -/
namespace Yfs.Lock

/-- The operations and the handlers of `lock_client_cache`. -/
inductive Op where
  | acquire | release | revokeHandler | retryHandler
  deriving DecidableEq, Repr

/-- Where a thread is between two sections. In `acquireCall` and `releaseCall` its RPC is
outstanding until it takes up the reply; in `wait` and `waitRetry` it waits for a signal. -/
inductive Task where
  | start (op : Op)
  | wait | acquireCall | waitRetry | releaseCall
  deriving DecidableEq, Repr

def AcquireNext.task : AcquireNext → Option Task
  | .call => some .acquireCall
  | .wait => some .wait
  | .waitRetry => some .waitRetry
  | .done => none

def ReleaseNext.task : ReleaseNext → Option Task
  | .call => some .releaseCall
  | .done => none

/-- The next section of a thread, with the reply `r` if it waits for one: the entry it leaves and
where the thread is then, nowhere if it returns. `none` is a failed `VERIFY`. -/
def Task.run (p : ClientLock) (r : Status) : Task → Option (ClientLock × Option Task)
  | .start .acquire | .wait => some (p.acquire.lock, p.acquire.next.task)
  | .acquireCall => some ((p.acquireReply r).lock, (p.acquireReply r).next.task)
  | .waitRetry => some (p.awaitRetry.lock, p.awaitRetry.next.task)
  | .start .release => p.release.map fun s => (s.lock, s.next.task)
  | .releaseCall => (p.releaseReply r).map fun s => (s.lock, s.next.task)
  | .start .revokeHandler => some (p.revokeHandler.lock, p.revokeHandler.next.task)
  | .start .retryHandler => some (p.retryHandler.lock, p.retryHandler.next.task)

/-- The client with its `lock_map`; `task` says what each thread does, and on which lock. -/
structure Cache (L A : Type) where
  lockMap : L → Option ClientLock
  task : A → Option (L × Task)
  down : Bool

namespace Cache
variable {L A : Type} [DecidableEq L] [DecidableEq A]

def init : Cache L A := ⟨fun _ => none, fun _ => none, false⟩

def fail (σ : Cache L A) : Cache L A := { σ with down := true }

/-- A thread enters an operation and looks for the entry; only `acquire` makes a new one. -/
def enter (σ : Cache L A) (a : A) (op : Op) (lid : L) : Cache L A :=
  match op, σ.lockMap lid with
  | .acquire, entry => { σ with
      lockMap := Function.update σ.lockMap lid (some (entry.getD .new))
      task := Function.update σ.task a (some (lid, .start .acquire)) }
  | op, some _ => { σ with task := Function.update σ.task a (some (lid, .start op)) }
  | _, none => σ.fail

def proceed (σ : Cache L A) (a : A) (lid : L) (t : Task) (p : ClientLock) (r : Status) : Cache L A :=
  match t.run p r with
  | some (p', t') => { σ with
      lockMap := Function.update σ.lockMap lid (some p')
      task := Function.update σ.task a (t'.map fun t => (lid, t)) }
  | none => σ.fail

/-- Waiting threads may be woken at any time and the server answers `OK` or `RETRY`. -/
inductive Step (σ : Cache L A) : Cache L A → Prop
  | enter {a : A} (op : Op) (lid : L) (hup : σ.down = false) (hidle : σ.task a = none) :
      Step σ (σ.enter a op lid)
  | proceed {a : A} {lid : L} {t : Task} {p : ClientLock} {r : Status} (hup : σ.down = false)
      (htask : σ.task a = some (lid, t)) (hp : σ.lockMap lid = some p) (hr : r = .ok ∨ r = .retry) :
      Step σ (σ.proceed a lid t p r)

end Cache

/-- The state that the entry has while a thread talks to the server. -/
def Task.talk : Task → Option ClientState
  | .acquireCall | .waitRetry => some .acquiring
  | .releaseCall => some .releasing
  | _ => none

/-- The state is one of those in which some thread talks to the server. -/
def ClientState.talk : ClientState → Option ClientState
  | .acquiring => some .acquiring
  | .releasing => some .releasing
  | _ => Option.none

theorem ClientState.talk_eq {s x : ClientState} (h : s.talk = some x) : s = x := by
  cases s <;> cases h <;> rfl

/-- What a section may do to the talk about its lock: nothing, or its thread begins, goes on with
or ends the only talk. -/
def TalkRule (t : Task) (p p' : ClientLock) (t' : Option Task) : Prop :=
  (p'.state = p.state ∧ t'.bind Task.talk = t.talk) ∨
    ((t.talk ≠ none ∨ p.state.talk = none) ∧ t'.bind Task.talk = p'.state.talk)

theorem talkRule_acquire {t : Task} (ht : t.talk = none) (p : ClientLock) :
    TalkRule t p p.acquire.lock p.acquire.next.task := by
  unfold TalkRule ClientLock.acquire
  cases hs : p.state with
  | none => exact .inr ⟨.inr rfl, rfl⟩
  | free => exact .inr ⟨.inr rfl, rfl⟩
  | locked => exact .inl ⟨hs, ht.symm⟩
  | acquiring => exact .inl ⟨hs, ht.symm⟩
  | releasing => exact .inl ⟨hs, ht.symm⟩

private theorem talkRule_awaitRetry {t : Task} (ht : t.talk = some .acquiring) (p : ClientLock) :
    TalkRule t p p.awaitRetry.lock p.awaitRetry.next.task := by
  cases hretry : p.retry with
  | true =>
    rw [ClientLock.awaitRetry_of_retry hretry]
    exact .inr ⟨.inl (ht ▸ Option.some_ne_none _), rfl⟩
  | false =>
    rw [ClientLock.awaitRetry_of_not hretry]
    exact .inl ⟨rfl, ht.symm⟩

private theorem talkRule_revokeHandler (p : ClientLock) :
    TalkRule (.start .revokeHandler) p p.revokeHandler.lock p.revokeHandler.next.task := by
  by_cases hfree : p.state = .free
  · rw [ClientLock.revokeHandler_of_free hfree]
    refine .inr ⟨.inr ?_, rfl⟩
    rw [hfree]
    rfl
  · rw [ClientLock.revokeHandler_of_ne hfree]
    exact .inl ⟨rfl, rfl⟩

theorem talkRule_run {t : Task} {p p' : ClientLock} {r : Status} {t' : Option Task}
    (hr : t = .acquireCall → r = .ok ∨ r = .retry) (h : t.run p r = some (p', t')) : TalkRule t p p' t' := by
  cases t with
  | start op =>
    cases op with
    | acquire =>
      cases h
      exact talkRule_acquire rfl p
    | release =>
      obtain ⟨s, hs, heq⟩ := Option.map_eq_some_iff.1 h
      cases heq
      unfold ClientLock.release at hs
      split at hs
      next hlocked =>
        have hquiet : p.state.talk = none := by
          rw [hlocked]
          rfl
        split_ifs at hs <;> cases hs <;> exact .inr ⟨.inr hquiet, rfl⟩
      next => cases hs
    | revokeHandler =>
      cases h
      exact talkRule_revokeHandler p
    | retryHandler =>
      cases h
      unfold ClientLock.retryHandler
      split_ifs <;> exact .inl ⟨rfl, rfl⟩
  | wait =>
    cases h
    exact talkRule_acquire rfl p
  | acquireCall =>
    cases h
    rcases hr rfl with rfl | rfl
    · exact .inr ⟨.inl (Option.some_ne_none _), rfl⟩
    · exact talkRule_awaitRetry rfl p
  | waitRetry =>
    cases h
    exact talkRule_awaitRetry rfl p
  | releaseCall =>
    obtain ⟨s, hs, heq⟩ := Option.map_eq_some_iff.1 h
    cases heq
    unfold ClientLock.releaseReply at hs
    split_ifs at hs
    cases hs
    exact .inr ⟨.inl (Option.some_ne_none _), rfl⟩

namespace Cache
variable {L A : Type} [DecidableEq L]

def talk (σ : Cache L A) (lid : L) (a : A) : Option ClientState :=
  (σ.task a).bind fun x => if x.1 = lid then x.2.talk else none

def due (σ : Cache L A) (lid : L) : Option ClientState := (σ.lockMap lid).bind fun p => p.state.talk

/-- The talk about a lock is due, and one thread has it. -/
structure Inv (σ : Cache L A) (lid : L) : Prop where
  due_of_talk : ∀ a, σ.talk lid a ≠ none → σ.talk lid a = σ.due lid
  talk_of_due : σ.due lid ≠ none → ∃ a, σ.talk lid a = σ.due lid
  single : ∀ a b, σ.talk lid a ≠ none → σ.talk lid b ≠ none → a = b

theorem Inv.congr {σ σ' : Cache L A} {lid : L} (h : σ.Inv lid) (hdue : σ'.due lid = σ.due lid)
    (htalk : ∀ a, σ'.talk lid a = σ.talk lid a) : σ'.Inv lid := by
  constructor
  · intro a
    rw [htalk, hdue]
    exact h.due_of_talk a
  · intro hne
    rw [hdue] at hne ⊢
    obtain ⟨a, ha⟩ := h.talk_of_due hne
    exact ⟨a, (htalk a).trans ha⟩
  · intro a b
    rw [htalk, htalk]
    exact h.single a b

/-- The thread that talks, or one that finds nobody talking, settles the talk. -/
theorem Inv.settle {σ σ' : Cache L A} {lid : L} {a : A} (h : σ.Inv lid)
    (hfirst : σ.talk lid a ≠ none ∨ σ.due lid = none) (hdue : σ'.talk lid a = σ'.due lid)
    (hothers : ∀ b, b ≠ a → σ'.talk lid b = σ.talk lid b) : σ'.Inv lid := by
  have hquiet : ∀ b, b ≠ a → σ'.talk lid b = none := by
    intro b hb
    rw [hothers b hb]
    by_contra hne
    rcases hfirst with hfirst | hfirst
    · exact hb (h.single b a hne hfirst)
    · exact hne ((h.due_of_talk b hne).trans hfirst)
  have honly : ∀ b, σ'.talk lid b ≠ none → b = a := by
    intro b hne
    by_contra hb
    exact hne (hquiet b hb)
  constructor
  · intro b hne
    rw [honly b hne, hdue]
  · intro _
    exact ⟨a, hdue⟩
  · intro b c hb hc
    rw [honly b hb, honly c hc]

theorem inv_init (lid : L) : (init : Cache L A).Inv lid := by
  constructor
  · intro a h
    exact absurd rfl h
  · intro h
    exact absurd rfl h
  · intro a b h
    exact absurd rfl h

/-- The thread has an `acquire` RPC for the lock outstanding or waits for the retry of one. -/
def Acquiring (σ : Cache L A) (lid : L) (a : A) : Prop :=
  σ.task a = some (lid, .acquireCall) ∨ σ.task a = some (lid, .waitRetry)

def Releasing (σ : Cache L A) (lid : L) (a : A) : Prop := σ.task a = some (lid, .releaseCall)

/-- The thread has an RPC for the lock outstanding. -/
def Calling (σ : Cache L A) (lid : L) (a : A) : Prop :=
  σ.task a = some (lid, .acquireCall) ∨ σ.task a = some (lid, .releaseCall)

theorem talk_eq_acquiring {σ : Cache L A} {lid : L} {a : A} :
    σ.talk lid a = some .acquiring ↔ σ.Acquiring lid a := by
  unfold talk Acquiring
  rcases σ.task a with _ | ⟨l, t⟩
  · simp
  · cases t <;> simp [Task.talk, Prod.ext_iff]

theorem talk_eq_releasing {σ : Cache L A} {lid : L} {a : A} :
    σ.talk lid a = some .releasing ↔ σ.Releasing lid a := by
  unfold talk Releasing
  rcases σ.task a with _ | ⟨l, t⟩
  · simp
  · cases t <;> simp [Task.talk, Prod.ext_iff]

omit [DecidableEq L] in
theorem due_eq {σ : Cache L A} {lid : L} {x : ClientState} (hx : x.talk = some x) :
    σ.due lid = some x ↔ (σ.lockMap lid).map ClientLock.state = some x := by
  unfold due
  cases σ.lockMap lid with
  | none => simp
  | some p =>
    rw [Option.bind_some, Option.map_some, Option.some_inj]
    constructor
    · exact ClientState.talk_eq
    · intro h
      rw [h, hx]

theorem Inv.state_iff {σ : Cache L A} {lid : L} (h : σ.Inv lid) {x : ClientState} (hx : x.talk = some x) :
    (σ.lockMap lid).map ClientLock.state = some x ↔ ∃! a, σ.talk lid a = some x := by
  rw [← due_eq hx]
  constructor
  · intro hdue
    obtain ⟨a, ha⟩ := h.talk_of_due (hdue ▸ Option.some_ne_none x)
    refine ⟨a, ha.trans hdue, fun b hb => h.single b a ?_ ?_⟩
    · rw [hb]
      exact Option.some_ne_none x
    · rw [ha, hdue]
      exact Option.some_ne_none x
  · rintro ⟨a, ha, -⟩
    rw [← h.due_of_talk a (ha ▸ Option.some_ne_none x), ha]

theorem talk_ne_none_of_calling {σ : Cache L A} {lid : L} {a : A} (h : σ.Calling lid a) :
    σ.talk lid a ≠ none := by
  rcases h with h | h
  · rw [talk_eq_acquiring.2 (.inl h)]
    exact Option.some_ne_none _
  · rw [talk_eq_releasing.2 h]
    exact Option.some_ne_none _

variable [DecidableEq A]

private theorem talk_update_start {σ : Cache L A} {a : A} (hidle : σ.task a = none) (lid : L) (op : Op)
    (lid' : L) (b : A) :
    talk { σ with task := Function.update σ.task a (some (lid, .start op)) } lid' b = σ.talk lid' b := by
  unfold talk
  dsimp only
  by_cases hb : b = a
  · subst hb
    rw [Function.update_self, hidle, Option.bind_some, Option.bind_none]
    split_ifs <;> rfl
  · rw [Function.update_of_ne hb]

theorem talk_enter {σ : Cache L A} {a : A} (hidle : σ.task a = none) (op : Op) (lid lid' : L) (b : A) :
    (σ.enter a op lid).talk lid' b = σ.talk lid' b := by
  unfold Cache.enter
  split
  next => exact talk_update_start hidle lid .acquire lid' b
  next => exact talk_update_start hidle lid _ lid' b
  next => rfl

theorem due_enter {σ : Cache L A} (a : A) (op : Op) (lid lid' : L) :
    (σ.enter a op lid).due lid' = σ.due lid' := by
  unfold Cache.enter
  split
  next =>
    unfold due
    dsimp only
    by_cases hlid : lid' = lid
    · subst hlid
      rw [Function.update_self]
      cases σ.lockMap lid' <;> rfl
    · rw [Function.update_of_ne hlid]
  next => rfl
  next => rfl

theorem Inv.enter {σ : Cache L A} {lid' : L} (h : σ.Inv lid') {a : A} (hidle : σ.task a = none) (op : Op)
    (lid : L) : (σ.enter a op lid).Inv lid' :=
  h.congr (due_enter a op lid lid') (talk_enter hidle op lid lid')

section
variable {σ : Cache L A} {lid lid' : L} {a : A} {t : Task} {p : ClientLock} {r : Status}

theorem talk_proceed_of_ne {b : A} (hb : b ≠ a) : (σ.proceed a lid t p r).talk lid' b = σ.talk lid' b := by
  unfold Cache.proceed talk
  cases t.run p r with
  | none => rfl
  | some q =>
    dsimp only
    rw [Function.update_of_ne hb]

theorem talk_proceed_other (hlid : lid' ≠ lid) (htask : σ.task a = some (lid, t)) (b : A) :
    (σ.proceed a lid t p r).talk lid' b = σ.talk lid' b := by
  by_cases hb : b = a
  · subst hb
    unfold Cache.proceed
    cases t.run p r with
    | none => rfl
    | some q =>
      obtain ⟨p', t'⟩ := q
      unfold talk
      dsimp only
      rw [Function.update_self, htask, Option.bind_some, if_neg (Ne.symm hlid)]
      cases t' with
      | none => rfl
      | some t' => exact if_neg (Ne.symm hlid)
  · exact talk_proceed_of_ne hb

omit [DecidableEq A] in
theorem talk_of_task (htask : σ.task a = some (lid, t)) : σ.talk lid a = t.talk := by
  rw [talk, htask, Option.bind_some, if_pos rfl]

omit [DecidableEq L] [DecidableEq A] in
theorem due_of_lockMap (hp : σ.lockMap lid = some p) : σ.due lid = p.state.talk := by
  rw [due, hp, Option.bind_some]

theorem due_proceed_other (hlid : lid' ≠ lid) : (σ.proceed a lid t p r).due lid' = σ.due lid' := by
  unfold Cache.proceed due
  cases t.run p r with
  | none => rfl
  | some q =>
    dsimp only
    rw [Function.update_of_ne hlid]

theorem talk_proceed_self {p' : ClientLock} {t' : Option Task} (hrun : t.run p r = some (p', t')) :
    (σ.proceed a lid t p r).talk lid a = t'.bind Task.talk := by
  unfold Cache.proceed talk
  rw [hrun]
  dsimp only
  rw [Function.update_self]
  cases t' with
  | none => rfl
  | some t' => exact if_pos rfl

theorem due_proceed_self {p' : ClientLock} {t' : Option Task} (hrun : t.run p r = some (p', t')) :
    (σ.proceed a lid t p r).due lid = p'.state.talk := by
  unfold Cache.proceed due
  rw [hrun]
  dsimp only
  rw [Function.update_self, Option.bind_some]

/-- What a section does to the talk about `lid'`: nothing, or it settles it, having had it itself or
nothing being due. -/
theorem proceed_cases (htask : σ.task a = some (lid, t)) (hp : σ.lockMap lid = some p)
    (hr : lid' = lid → t = .acquireCall → r = .ok ∨ r = .retry) :
    ((σ.proceed a lid t p r).due lid' = σ.due lid' ∧
      ∀ b, (σ.proceed a lid t p r).talk lid' b = σ.talk lid' b) ∨
    (σ.talk lid' a ≠ none ∨ σ.due lid' = none) ∧
      (σ.proceed a lid t p r).talk lid' a = (σ.proceed a lid t p r).due lid' ∧
      ∀ b, b ≠ a → (σ.proceed a lid t p r).talk lid' b = σ.talk lid' b := by
  by_cases hlid : lid' = lid
  · subst hlid
    cases hrun : t.run p r with
    | none =>
      rw [Cache.proceed, hrun]
      exact .inl ⟨rfl, fun _ => rfl⟩
    | some q =>
      obtain ⟨p', t'⟩ := q
      rcases talkRule_run (hr rfl) hrun with ⟨hstate, hsame⟩ | ⟨hfirst, hsettled⟩
      · refine .inl ⟨?_, fun b => ?_⟩
        · rw [due_proceed_self hrun, due_of_lockMap hp, hstate]
        · by_cases hb : b = a
          · rw [hb, talk_proceed_self hrun, talk_of_task htask, hsame]
          · exact talk_proceed_of_ne hb
      · refine .inr ⟨?_, ?_, fun b hb => talk_proceed_of_ne hb⟩
        · rw [talk_of_task htask, due_of_lockMap hp]
          exact hfirst
        · rw [talk_proceed_self hrun, due_proceed_self hrun, hsettled]
  · exact .inl ⟨due_proceed_other hlid, talk_proceed_other hlid htask⟩

theorem Inv.proceed (h : σ.Inv lid') (htask : σ.task a = some (lid, t)) (hp : σ.lockMap lid = some p)
    (hr : lid' = lid → t = .acquireCall → r = .ok ∨ r = .retry) : (σ.proceed a lid t p r).Inv lid' := by
  rcases proceed_cases htask hp hr with ⟨hdue, htalk⟩ | ⟨hfirst, hsettled, hothers⟩
  · exact h.congr hdue htalk
  · exact h.settle hfirst hsettled hothers

end

theorem Inv.step {σ σ' : Cache L A} (h : ∀ lid, σ.Inv lid) (hstep : Step σ σ') (lid : L) : σ'.Inv lid := by
  cases hstep with
  | enter op lid' _ hidle => exact (h lid).enter hidle op lid'
  | proceed _ htask hp hr => exact (h lid).proceed htask hp fun _ _ => hr

theorem inv_of_reach {σ : Cache L A} (h : Relation.ReflTransGen Step init σ) (lid : L) : σ.Inv lid := by
  induction h generalizing lid with
  | refl => exact inv_init lid
  | tail _ hstep ih => exact Inv.step ih hstep lid

/-- In every state of every run and for every lock at most one RPC is outstanding; the entry is
`ACQUIRING` exactly when one thread has an `acquire` RPC outstanding or waits for its retry, and
`RELEASING` exactly when one `release` RPC is outstanding. -/
theorem one_conversation {σ : Cache L A} (h : Relation.ReflTransGen Step init σ) (lid : L) :
    (∀ a b, σ.Calling lid a → σ.Calling lid b → a = b) ∧
    ((σ.lockMap lid).map ClientLock.state = some .acquiring ↔ ∃! a, σ.Acquiring lid a) ∧
    ((σ.lockMap lid).map ClientLock.state = some .releasing ↔ ∃! a, σ.Releasing lid a) := by
  have hinv := inv_of_reach h lid
  refine ⟨fun a b ha hb => ?_, ?_, ?_⟩
  · exact hinv.single a b (talk_ne_none_of_calling ha) (talk_ne_none_of_calling hb)
  · simp only [← talk_eq_acquiring]
    exact hinv.state_iff rfl
  · simp only [← talk_eq_releasing]
    exact hinv.state_iff rfl

/-- One thread asks the server for a lock while another waits for it. -/
theorem one_conversation_two : ∃ σ : Cache ℕ Bool, Relation.ReflTransGen Step init σ ∧
    σ.task true = some (5, .acquireCall) ∧ σ.task false = some (5, .wait) ∧
    ∃! a, σ.Acquiring 5 a := by
  have hstep : ∀ {σ : Cache ℕ Bool} (a lid t p) (r : Status), Relation.ReflTransGen Step init σ →
      σ.down = false → σ.task a = some (lid, t) → σ.lockMap lid = some p → (r = .ok ∨ r = .retry) →
      Relation.ReflTransGen Step init (σ.proceed a lid t p r) :=
    fun _ _ _ _ r h hup htask hp hr => h.tail (.proceed hup htask hp hr)
  have hfirst := hstep true 5 (.start .acquire) .new .ok
    (.single (.enter (a := true) .acquire 5 rfl rfl)) rfl rfl rfl (.inl rfl)
  have hsecond := hstep false 5 (.start .acquire) ⟨.acquiring, false, false⟩ .ok
    (hfirst.tail (.enter (a := false) .acquire 5 rfl rfl)) rfl rfl rfl (.inl rfl)
  exact ⟨_, hsecond, rfl, rfl, (one_conversation hsecond 5).2.1.1 rfl⟩

end Cache
end Yfs.Lock
