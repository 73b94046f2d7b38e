import Yfs.Lock.Cache

/-! One `lock_client_cache` whose `acquire` RPCs return any `int`. A code other than `OK` and `RETRY`
leaves the entry of the lock `ACQUIRING` for good. -/
namespace Yfs.Lock

/-- What `rpcc::call` returns. The negative codes of the RPC layer are no `xxstatus`; the sections look
at `OK` and `RETRY` only, so they are read as `RPCERR` here. -/
def Status.ofCode (code : Int32) : Status :=
  if code = 0 then .ok
  else if code = 1 then .retry
  else if code = 3 then .noent
  else if code = 4 then .ioerr
  else .rpcerr

theorem Status.ofCode_eq_ok {code : Int32} : Status.ofCode code = .ok ↔ code = 0 := by
  unfold Status.ofCode
  split_ifs with h₀ h₁ <;> simp_all

theorem Status.ofCode_eq_retry {code : Int32} : Status.ofCode code = .retry ↔ code = 1 := by
  unfold Status.ofCode
  split_ifs with h₀ h₁ <;> simp_all

/-- Any other answer takes the next turn of the loop, which finds `ACQUIRING` and waits. -/
theorem ClientLock.acquireReply_of_ne {p : ClientLock} {r : Status} (hok : r ≠ .ok) (hretry : r ≠ .retry)
    (hp : p.state = .acquiring) : p.acquireReply r = ⟨p, false, .wait⟩ := by
  have hacquire : p.acquire = ⟨p, false, .wait⟩ := by
    unfold ClientLock.acquire
    rw [hp]
  cases r with
  | ok => exact absurd rfl hok
  | retry => exact absurd rfl hretry
  | rpcerr => exact hacquire
  | noent => exact hacquire
  | ioerr => exact hacquire

namespace Cache
variable {L A : Type}

/-- A thread enters an operation or a handler, or goes on with it; if its RPC was outstanding, `code` is
what the RPC returned. -/
inductive Event (L A : Type) where
  | enter (a : A) (op : Op) (lid : L)
  | proceed (a : A) (code : Int32)
  deriving DecidableEq

def current (σ : Cache L A) (a : A) : Option (L × Task × ClientLock) :=
  if σ.down then none else (σ.task a).bind fun x => (σ.lockMap x.1).map fun p => (x.1, x.2, p)

theorem current_eq_some {σ : Cache L A} {a : A} {lid : L} {t : Task} {p : ClientLock} :
    σ.current a = some (lid, t, p) ↔
      σ.down = false ∧ σ.task a = some (lid, t) ∧ σ.lockMap lid = some p := by
  unfold current
  cases σ.down with
  | true => simp
  | false =>
    rcases σ.task a with _ | ⟨l, t'⟩
    · simp
    · simp only [Bool.false_eq_true, if_false, Option.bind_some, Option.map_eq_some_iff, true_and,
        Option.some_inj, Prod.mk.injEq]
      constructor
      · rintro ⟨p', hp', rfl, rfl, rfl⟩
        exact ⟨⟨rfl, rfl⟩, hp'⟩
      · rintro ⟨⟨rfl, rfl⟩, hp⟩
        exact ⟨p, hp, rfl, rfl, rfl⟩

/-- The lock is being acquired, and nobody is about it. -/
def Wedged (σ : Cache L A) (lid : L) : Prop :=
  (σ.lockMap lid).map ClientLock.state = some .acquiring ∧ ∀ a, ¬σ.Acquiring lid a

variable [DecidableEq L]

/-- The code that the event gives to an `acquire` RPC for the lock. -/
def answer (σ : Cache L A) (lid : L) : Event L A → Option Int32
  | .enter _ _ _ => none
  | .proceed a code =>
    match σ.current a with
    | some (l, .acquireCall, _) => if l = lid then some code else none
    | _ => none

variable [DecidableEq A]

def fire (σ : Cache L A) : Event L A → Cache L A
  | .enter a op lid => if σ.down = false ∧ σ.task a = none then σ.enter a op lid else σ
  | .proceed a code =>
    match σ.current a with
    | some (lid, t, p) => σ.proceed a lid t p (.ofCode code)
    | none => σ

def run (σ : Cache L A) (l : List (Event L A)) : Cache L A := l.foldl fire σ

/-- The codes of the `acquire` RPCs for the lock that were answered in a run. -/
def answers (lid : L) : List (Event L A) → Cache L A → List Int32
  | [], _ => []
  | e :: l, σ => (σ.answer lid e).toList ++ answers lid l (σ.fire e)

/-- Nobody talks about a lock that is being acquired. -/
structure Stuck (σ : Cache L A) (lid : L) : Prop where
  due : σ.due lid = some .acquiring
  quiet : ∀ a, σ.talk lid a = none

section
variable {σ : Cache L A} {lid lid' : L} {a : A} {t : Task} {p : ClientLock} {r : Status} {e : Event L A}

omit [DecidableEq A] in
theorem Inv.not_wedged (h : σ.Inv lid) : ¬σ.Wedged lid := by
  rintro ⟨hstate, hnone⟩
  have hdue := (due_eq rfl).2 hstate
  obtain ⟨a, ha⟩ := h.talk_of_due (hdue ▸ Option.some_ne_none _)
  exact hnone a (talk_eq_acquiring.1 (ha.trans hdue))

omit [DecidableEq A] in
theorem Stuck.wedged (h : σ.Stuck lid) : σ.Wedged lid := by
  refine ⟨(due_eq rfl).1 h.due, fun a ha => ?_⟩
  rw [← talk_eq_acquiring, h.quiet a] at ha
  cases ha

omit [DecidableEq A] in
theorem Stuck.congr {σ' : Cache L A} (h : σ.Stuck lid) (hdue : σ'.due lid = σ.due lid)
    (htalk : ∀ a, σ'.talk lid a = σ.talk lid a) : σ'.Stuck lid :=
  ⟨hdue.trans h.due, fun a => (htalk a).trans (h.quiet a)⟩

/-- No section starts or ends a talk that is due and that nobody has. -/
theorem Stuck.proceed (h : σ.Stuck lid') (htask : σ.task a = some (lid, t)) (hp : σ.lockMap lid = some p) :
    (σ.proceed a lid t p r).Stuck lid' := by
  have hcall : lid' = lid → t = .acquireCall → r = .ok ∨ r = .retry := by
    rintro rfl rfl
    have htalk := (talk_of_task htask).symm.trans (h.quiet a)
    cases htalk
  rcases proceed_cases htask hp hcall with ⟨hdue, htalk⟩ | ⟨hfirst, -⟩
  · exact h.congr hdue htalk
  · rcases hfirst with hfirst | hfirst
    · exact absurd (h.quiet a) hfirst
    · rw [h.due] at hfirst
      cases hfirst

theorem fire_proceed (hcur : σ.current a = some (lid, t, p)) (code : Int32) :
    σ.fire (.proceed a code) = σ.proceed a lid t p (.ofCode code) := by
  rw [fire, hcur]

/-- What an event can do: nothing, an entry, or the next section of a thread. -/
theorem fire_cases (σ : Cache L A) (e : Event L A) : σ.fire e = σ ∨
    (∃ a op lid, σ.task a = none ∧ σ.fire e = σ.enter a op lid) ∨
    ∃ a lid t p code, e = .proceed a code ∧ σ.current a = some (lid, t, p) ∧
      σ.fire e = σ.proceed a lid t p (.ofCode code) := by
  cases e with
  | enter a op lid =>
    rw [fire]
    split_ifs with hidle
    · exact .inr (.inl ⟨a, op, lid, hidle.2, rfl⟩)
    · exact .inl rfl
  | proceed a code =>
    cases hcur : σ.current a with
    | none =>
      rw [fire, hcur]
      exact .inl rfl
    | some x =>
      obtain ⟨lid, t, p⟩ := x
      exact .inr (.inr ⟨a, lid, t, p, code, rfl, hcur, fire_proceed hcur code⟩)

omit [DecidableEq A] in
theorem answer_proceed (hcur : σ.current a = some (lid, .acquireCall, p)) (code : Int32) :
    σ.answer lid (.proceed a code) = some code := by
  rw [answer, hcur]
  exact if_pos rfl

omit [DecidableEq A] in
theorem answer_eq_some {code : Int32} (h : σ.answer lid e = some code) :
    ∃ a p, e = .proceed a code ∧ σ.current a = some (lid, .acquireCall, p) := by
  unfold answer at h
  split at h
  next => cases h
  next a code' =>
    split at h
    next l p hcur =>
      split_ifs at h with hl
      cases h
      exact ⟨a, p, rfl, hl ▸ hcur⟩
    next => cases h

theorem Stuck.fire (h : σ.Stuck lid) (e : Event L A) : (σ.fire e).Stuck lid := by
  rcases fire_cases σ e with heq | ⟨a, op, l, hidle, heq⟩ | ⟨a, l, t, p, code, -, hcur, heq⟩
  · rw [heq]
    exact h
  · rw [heq]
    exact h.congr (due_enter a op l lid) (talk_enter hidle op l lid)
  · obtain ⟨-, htask, hp⟩ := current_eq_some.1 hcur
    rw [heq]
    exact h.proceed htask hp

theorem Stuck.run (h : σ.Stuck lid) (l : List (Event L A)) : (σ.run l).Stuck lid := by
  induction l generalizing σ with
  | nil => exact h
  | cons e l ih => exact ih (h.fire e)

theorem Inv.fire (h : σ.Inv lid) (hgood : ∀ code, σ.answer lid e = some code → code = 0 ∨ code = 1) :
    (σ.fire e).Inv lid := by
  rcases fire_cases σ e with heq | ⟨a, op, l, hidle, heq⟩ | ⟨a, l, t, p, code, rfl, hcur, heq⟩
  · rw [heq]
    exact h
  · rw [heq]
    exact h.enter hidle op l
  · obtain ⟨-, htask, hp⟩ := current_eq_some.1 hcur
    rw [heq]
    refine h.proceed htask hp ?_
    rintro rfl rfl
    rw [Status.ofCode_eq_ok, Status.ofCode_eq_retry]
    exact hgood code (answer_proceed hcur code)

/-- The thread that got another answer waits like one that never called, and the entry stays. -/
theorem Inv.stuck_of_answer (h : σ.Inv lid) {code : Int32} (hans : σ.answer lid e = some code)
    (hbad : ¬(code = 0 ∨ code = 1)) : (σ.fire e).Stuck lid := by
  obtain ⟨a, p, rfl, hcur⟩ := answer_eq_some hans
  obtain ⟨-, htask, hp⟩ := current_eq_some.1 hcur
  have htalk : σ.talk lid a = some .acquiring := talk_of_task htask
  have hdue : σ.due lid = some .acquiring := by
    rw [← h.due_of_talk a (htalk ▸ Option.some_ne_none _), htalk]
  have hstate : p.state = .acquiring := ClientState.talk_eq ((due_of_lockMap hp).symm.trans hdue)
  have hrun : Task.acquireCall.run p (.ofCode code) = some (p, some .wait) := by
    have hok : Status.ofCode code ≠ .ok := fun hcode => hbad (.inl (Status.ofCode_eq_ok.1 hcode))
    have hretry : Status.ofCode code ≠ .retry := fun hcode => hbad (.inr (Status.ofCode_eq_retry.1 hcode))
    rw [Task.run, ClientLock.acquireReply_of_ne hok hretry hstate]
    rfl
  rw [fire_proceed hcur]
  refine ⟨?_, fun b => ?_⟩
  · rw [due_proceed_self hrun, hstate]
    rfl
  · by_cases hb : b = a
    · rw [hb, talk_proceed_self hrun]
      rfl
    · rw [talk_proceed_of_ne hb]
      by_contra hne
      exact hb (h.single b a hne (htalk ▸ Option.some_ne_none _))

theorem Inv.not_wedged_run_iff (h : σ.Inv lid) (l : List (Event L A)) :
    ¬(σ.run l).Wedged lid ↔ ∀ code ∈ answers lid l σ, code = 0 ∨ code = 1 := by
  induction l generalizing σ with
  | nil =>
    refine iff_of_true h.not_wedged ?_
    intro code hcode
    cases hcode
  | cons e l ih =>
    rw [answers, List.forall_mem_append]
    by_cases hgood : ∀ code, σ.answer lid e = some code → code = 0 ∨ code = 1
    · rw [and_iff_right fun code hcode => hgood code (Option.mem_toList.1 hcode)]
      exact ih (h.fire hgood)
    · push Not at hgood
      obtain ⟨code, hans, h₀, h₁⟩ := hgood
      have hbad : ¬(code = 0 ∨ code = 1) := not_or.2 ⟨h₀, h₁⟩
      refine iff_of_false ?_ ?_
      · exact not_not.2 ((h.stuck_of_answer hans hbad).run l).wedged
      · rintro ⟨hall, -⟩
        exact hbad (hall code (Option.mem_toList.2 hans))

end

/-- After every run a lock is wedged exactly when one of its `acquire` RPCs was answered by something
other than `OK` and `RETRY`. -/
theorem not_wedged_iff (l : List (Event L A)) (lid : L) :
    ¬((init : Cache L A).run l).Wedged lid ↔
      ∀ code ∈ answers lid l (init : Cache L A), code = 0 ∨ code = 1 :=
  (inv_init lid).not_wedged_run_iff l

/-- A first `acquire` whose RPC times out. -/
theorem wedged_timeout : ((init : Cache ℕ Unit).run
    [.enter () .acquire 5, .proceed () 0, .proceed () (-1)]).Wedged 5 := by
  refine ⟨rfl, fun a => ?_⟩
  rintro (h | h) <;> cases h

end Cache
end Yfs.Lock
