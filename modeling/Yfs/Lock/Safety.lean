import Yfs.Lock.Run
import Yfs.Lock.Progress
import Mathlib.Data.Fintype.Prod
import Mathlib.Order.Fin.Basic

/-! What holds in every reachable state of the lock service: the lock excludes, the wait list
names clients that wait, and no client ever fails a `VERIFY`. -/
namespace Yfs.Lock
variable {C T L : Type}

def Proto.init {P : Type} : Proto C P := ⟨fun _ => none, fun _ => .new, .new⟩

theorem Safe.init {P : Type} : Safe (Proto.init : Proto C P) where
  agrees _ := ⟨by simp [Proto.init, ServerLock.new], Or.inl ⟨rfl, by simp [Proto.init, ServerLock.new]⟩⟩
  owner_state := rfl
  one_handover := by simp [Proto.init]

theorem Live.init {P : Type} : Live (Proto.init : Proto C P) where
  mutex h := by simp [Proto.init, ServerLock.new] at h
  flag _ _ := rfl
  handover := by simp [Proto.init]
  free _ _ h := by simp [Proto.init, ServerLock.new] at h
  taken _ h := by simp [Proto.init, ServerLock.new] at h

variable [LinearOrder C]

theorem Refines.congr {σ τ : Sys C T} {a : Proto C (C × T)} (h : Refines σ a)
    (hl : τ.toLockState = σ.toLockState) (hd : τ.clientDown = σ.clientDown) : Refines τ a := by
  obtain ⟨ls, sd, cd⟩ := σ
  obtain ⟨ls', sd', cd'⟩ := τ
  obtain rfl : ls' = ls := hl
  obtain rfl : cd' = cd := hd
  refine ⟨h.conv, h.client, h.server, h.up, fun p => ?_, h.held⟩
  exact h.ok p

namespace Refines
variable {σ : Sys C T} {a : Proto C (C × T)} {p q : C × T}

theorem held_conv (h : Refines σ a) (hp : σ.held p = true) : a.conv p.1 = some (p, .own) := by
  have hmay := h.held p hp
  cases hpc : σ.pc p <;> simp [hpc, Pc.mayHold] at hmay <;>
    exact h.conv_own hpc rfl (by simp [Pc.conv, hp])

/-- Holders are threads of the owner, and a client has one conversation. -/
theorem held_unique (h : Refines σ a) (hs : Safe a) (hp : σ.held p = true) (hq : σ.held q = true) :
    p = q := by
  have hcp := h.held_conv hp
  have hcq := h.held_conv hq
  obtain ⟨-, -, hop⟩ := hs.agrees_of hcp
  obtain ⟨-, -, hoq⟩ := hs.agrees_of hcq
  have hpq : p.1 = q.1 := Option.some.inj (hop.symm.trans hoq)
  rw [hpq, hcq] at hcp
  exact (congrArg Prod.fst (Option.some.inj hcp)).symm

/-- A client that has the lock in its cache is the owner on record. -/
theorem cached_owner (h : Refines σ a) (hs : Safe a) {c : C} {l : ClientLock}
    (hl : σ.client c = some l) (hst : l.state = .free ∨ l.state = .locked) :
    ∃ s, σ.server = some s ∧ s.owner = some c ∧ s.state = true := by
  have hc : a.client c = l := by rw [h.client, Sys.clientD_of hl]
  have ho : a.server.owner = some c := by
    rcases hst with hst | hst
    · exact (hs.of_free (hc ▸ hst)).2.2
    · have hA := hs.agrees c
      rcases hk : a.conv c with _ | ⟨r, k⟩
      · simp [hk, Agrees, hc, hst] at hA
      · rw [hk] at hA
        cases k <;> simp_all [Agrees]
  refine ⟨a.server, h.server_some ?_, ho, ?_⟩
  · intro hn
    simp [hn, ServerLock.new] at ho
  · rw [hs.owner_state, ho]
    rfl

theorem waiting_client (h : Refines σ a) (hs : Safe a) {s : ServerLock C} (hsv : σ.server = some s)
    {c : C} (hc : c ∈ s.waitList) : ∃ l, σ.client c = some l ∧ l.state = .acquiring := by
  have has : a.server = s := by simp [h.server, hsv]
  obtain ⟨-, -, -, hst, -⟩ := hs.of_mem (has ▸ hc)
  exact ⟨a.client c, h.client_some (by simp [hst]), hst⟩

end Refines

/-- `r` is a `release` call that thread `p` waits for, its own or one on behalf of a client
that it had revoked. -/
def Pc.Releasing (x : Pc C) (r : ReleaseCall C) : Prop :=
  x = .releaseCall r ∨ ∃ d, x = .acquireCall (.revoke d (.release r))

theorem Refines.releasing_conv {σ : Sys C T} {a : Proto C (C × T)} {p : C × T} (h : Refines σ a)
    {r : ReleaseCall C} (hr : (σ.pc p).Releasing r) : ∃ c, a.conv c = some (p, r.conv) := by
  rcases hr with hpc | ⟨d, hpc⟩
  · exact ⟨p.1, h.conv_own hpc rfl rfl⟩
  · refine ⟨d, ?_⟩
    rw [h.conv, hpc, Pc.convOf_nested, if_pos rfl]

namespace World

/-- Each lock id follows the protocol, and a thread is in a call on one lock id at most. -/
structure Inv (w : World C T L) : Prop where
  lock : ∀ l, ∃ a, Refines (w.view l) a ∧ Safe a ∧ Live a
  current : ∀ l p, (w.lock l).pc p ≠ .idle → w.current p = some l

theorem Inv.init : Inv (init : World C T L) where
  lock _ := by
    refine ⟨Proto.init, ⟨fun p c k => ?_, fun _ => rfl, rfl, fun _ => rfl, fun _ => trivial, ?_⟩,
      Safe.init, Live.init⟩
    · simp [Proto.init, view, World.init, Pc.convOf, Pc.other, Pc.conv]
    · simp [view, World.init]
  current := by simp [World.init]

variable [DecidableEq T] [DecidableEq L]

theorem Inv.step {w w' : World C T L} (h : Inv w) (hw : Step w w') : Inv w' := by
  obtain ⟨l, e, hw⟩ := hw
  simp only [World.step] at hw
  split_ifs at hw with hready
  obtain ⟨τ, hτ, rfl⟩ := Option.map_eq_some_iff.1 hw
  obtain ⟨a, ha, hs, hl⟩ := h.lock l
  obtain ⟨b, hb, hτb⟩ := ha.step hs hτ
  have hdown : τ.clientDown = w.clientDown := by
    funext c
    rw [hτb.up c]
    exact (ha.up c).symm
  constructor
  · intro l'
    by_cases hl' : l' = l
    · subst hl'
      refine ⟨b, hτb.congr ?_ rfl, ?_⟩
      · simp [view]
      · rcases hb with rfl | hm
        · exact ⟨hs, hl⟩
        · exact ⟨hs.step hm, hl.step hs hm⟩
    · obtain ⟨a', ha', hs', hlive'⟩ := h.lock l'
      refine ⟨a', ha'.congr ?_ hdown, hs', hlive'⟩
      simp [view, hl']
  · intro l' q hq
    by_cases hl' : l' = l
    · subst hl'
      simp only [Function.update_self] at hq
      by_cases hqe : q = e.thread
      · subst hqe
        simp [hq]
      · rw [Sys.step_pc hτ hqe] at hq
        simpa [hqe] using h.current l' q hq
    · simp only [Function.update_of_ne hl'] at hq
      have hc := h.current l' q hq
      have hqe : q ≠ e.thread := by
        rintro rfl
        cases e <;> simp_all [ready, Event.thread]
      simpa [hqe] using hc

theorem Reachable.inv {w : World C T L} (h : w.Reachable) : Inv w := by
  induction h with
  | refl => exact Inv.init
  | tail _ hstep ih => exact ih.step hstep

theorem reachable_of_exec {w w' : World C T L} (hw : w.Reachable) {es : List (L × Event C T)}
    (h : w.exec es = some w') : w'.Reachable := by
  induction es generalizing w with
  | nil =>
    cases h
    exact hw
  | cons x es ih =>
    obtain ⟨v, hv, hes⟩ := Option.bind_eq_some_iff.1 h
    exact ih (hw.tail ⟨x.1, x.2, hv⟩) hes

/-- At most one thread is between the return of `acquire` and its call of `release`, a client
that has the lock in its cache is the owner on record, and no client fails a `VERIFY`: a thread
in `release` finds its entry, and finds it `LOCKED`. -/
theorem mutual_exclusion {w : World C T L} (h : w.Reachable) (l : L) :
    (∀ p q, (w.lock l).held p = true → (w.lock l).held q = true → p = q) ∧
    (∀ c x, (w.lock l).client c = some x → x.state = .free ∨ x.state = .locked →
      ∃ s, (w.lock l).server = some s ∧ s.owner = some c ∧ s.state = true) ∧
    (∀ p, (w.lock l).pc p = .release ∨ (w.lock l).pc p = .releaseLock →
      ∃ x, (w.lock l).client p.1 = some x ∧ x.state = .locked) ∧
    ∀ c, w.clientDown c = false := by
  obtain ⟨a, ha, hs, -⟩ := h.inv.lock l
  refine ⟨fun p q => ha.held_unique hs, fun c x hx hst => ha.cached_owner hs hx hst, ?_, ha.up⟩
  intro p hp
  have hk : a.conv p.1 = some (p, .own) := by
    rcases hp with hp | hp
    · exact ha.conv_own (x := .release) hp rfl rfl
    · exact ha.conv_own (x := .releaseLock) hp rfl rfl
  obtain ⟨-, hst, -⟩ := hs.agrees_of hk
  exact ⟨a.client p.1, ha.conv_client hs hk, hst⟩

theorem mutual_exclusion_held : ∃ w : World (Fin 2) Unit Unit, w.Reachable ∧
    (w.lock ()).held (0, ()) = true ∧ ∀ q, (w.lock ()).held q = true → (0, ()) = q := by
  have hrun : ((init : World (Fin 2) Unit Unit).exec
      (((), .acquire (0, ())) :: List.replicate 5 ((), .run (0, ())))).any
      (fun w => (w.lock ()).held (0, ())) = true := by decide
  obtain ⟨w, hw, hheld⟩ := (Option.any_eq_true _ _).1 hrun
  have hr := reachable_of_exec .refl hw
  exact ⟨w, hr, hheld, fun q => (mutual_exclusion hr ()).1 _ q hheld⟩

/-- A client on the wait list is `ACQUIRING`. So the client that `release` calls back while it
holds the mutex knows the lock id and is not `FREE`, no such call ends up in another `release`,
and the `VERIFY` of the handlers holds. -/
theorem waiting_clients_acquire {w : World C T L} (h : w.Reachable) (l : L) :
    (∀ s c, (w.lock l).server = some s → c ∈ s.waitList →
      ∃ x, (w.lock l).client c = some x ∧ x.state = .acquiring) ∧
    (∀ p d q, ((w.lock l).pc p).Releasing (.retry d q) →
      ∃ x, (w.lock l).client d = some x ∧ x.state ≠ .free) ∧
    (∀ p d v, ((w.lock l).pc p).Releasing (.revoke d v) →
      (∃ x, (w.lock l).client d = some x ∧ x.state ≠ .free) ∧ ∀ r, v ≠ .release r) ∧
    ∀ c, w.clientDown c = false := by
  obtain ⟨a, ha, hs, -⟩ := h.inv.lock l
  refine ⟨fun s c hsv hc => ha.waiting_client hs hsv hc, ?_, ?_, ha.up⟩
  · intro p d q hr
    obtain ⟨c, hk⟩ := ha.releasing_conv hr
    cases q <;> exact ⟨_, (ha.handover_some hs hk).2⟩
  · intro p d v hr
    obtain ⟨c, hk⟩ := ha.releasing_conv hr
    cases v with
    | release r =>
      have hA := hs.agrees_of hk
      simp [ReleaseCall.conv, Agrees] at hA
    | _ => exact ⟨⟨_, (ha.handover_some hs hk).2⟩, by simp⟩

/-- Client 0 takes the lock, client 1 is put on the wait list, and client 0 gives the lock
back; its `release` has just sent the retry. -/
def handoverSchedule : List (Unit × Event (Fin 2) Unit) :=
  ((), .acquire (0, ())) :: List.replicate 5 ((), .run (0, ())) ++
  ((), .acquire (1, ())) :: List.replicate 10 ((), .run (1, ())) ++
  ((), .release (0, ())) :: List.replicate 4 ((), .run (0, ()))

theorem waiting_clients_acquire_handover : ∃ w : World (Fin 2) Unit Unit, w.Reachable ∧
    (w.lock ()).pc (0, ()) = .releaseCall (.retry 1 .sent) ∧
    ∃ x, (w.lock ()).client 1 = some x ∧ x.state ≠ .free := by
  have hrun : ((init : World (Fin 2) Unit Unit).exec handoverSchedule).any
      (fun w => decide ((w.lock ()).pc (0, ()) = .releaseCall (.retry 1 .sent))) = true := by decide
  obtain ⟨w, hw, hpc⟩ := (Option.any_eq_true _ _).1 hrun
  have hr := reachable_of_exec .refl hw
  simp only [decide_eq_true_eq] at hpc
  exact ⟨w, hr, hpc, (waiting_clients_acquire hr ()).2.1 (0, ()) 1 .sent (Or.inl hpc)⟩

end World
end Yfs.Lock
