import Yfs.Lock.Safety

/-! A thread that waits for a lock nobody holds is never left alone: some section can run. -/
namespace Yfs.Lock
variable {C T L : Type}

/-- Thread `p` is in a call and does not wait for a signal. -/
def Sys.Busy (σ : Sys C T) (p : C × T) : Prop :=
  σ.pc p ≠ .idle ∧ (σ.pc p = .wait ∨ σ.pc p = .waitRetry → σ.awake p = true)

variable [LinearOrder C] {σ : Sys C T} {a : Proto C (C × T)} {p q : C × T} {c : C}

namespace Refines

theorem conv_cases (h : Refines σ a) {k : Conv C} (hk : a.conv c = some (p, k)) :
    (σ.pc p).conv (σ.held p) = some k ∧ c = p.1 ∨ ∃ r, (σ.pc p).Releasing r ∧ r.conv = k := by
  rw [h.conv] at hk
  cases ho : (σ.pc p).other with
  | none =>
    rw [Pc.convOf_own ho] at hk
    split_ifs at hk with hc
    exact Or.inl ⟨hk, hc⟩
  | some x =>
    obtain ⟨d, r⟩ := x
    have hpc : σ.pc p = .acquireCall (.revoke d (.release r)) := by
      unfold Pc.other at ho
      split at ho
      · cases ho
        assumption
      · simp at ho
    rw [hpc, Pc.convOf_nested] at hk
    split_ifs at hk with h₁ h₂
    · exact Or.inr ⟨r, Or.inr ⟨d, hpc⟩, by simpa using hk⟩
    · exact Or.inl ⟨by simpa [hpc, Pc.conv, AcquireCall.conv] using hk, h₂⟩

theorem handover_releasing (h : Refines σ a) {x : Handover} {d : C}
    (hk : a.conv c = some (p, .handover x d)) :
    ∃ r, (σ.pc p).Releasing r ∧ r.conv = .handover x d := by
  rcases h.conv_cases hk with ⟨hc, -⟩ | hr
  · cases hpc : σ.pc p with
    | idle | acquire | acquireLock | wait =>
      simp only [hpc, Pc.conv] at hc
      split_ifs at hc
      simp at hc
    | releaseCall r => exact ⟨r, Or.inl rfl, by simpa [hpc, Pc.conv] using hc⟩
    | acquireCall y =>
      simp only [hpc, Pc.conv, Option.some.injEq] at hc
      unfold AcquireCall.conv at hc
      split at hc <;> simp at hc
    | _ => simp [hpc, Pc.conv] at hc
  · exact hr

/-- The thread of a conversation is busy, unless it holds the lock or waits for a retry. -/
theorem conv_busy (h : Refines σ a) (hno : ∀ p, σ.held p = false) {k : Conv C}
    (hk : a.conv c = some (p, k)) (hr : k = .queued .done → (a.client c).retry = true) : σ.Busy p := by
  rcases h.conv_cases hk with ⟨hc, hcp⟩ | ⟨r, hrel | ⟨d, hrel⟩, -⟩
  · have hok := h.ok p
    cases hpc : σ.pc p with
    | idle | acquire | acquireLock | wait => simp [hpc, Pc.conv, hno] at hc
    | waitRetry =>
      rw [hpc] at hc hok
      refine ⟨by simp [hpc], fun _ => ?_⟩
      by_contra hw
      have := hok (by simpa using hw)
      rw [← hcp, ← h.client, hr (by simpa [Pc.conv] using hc.symm)] at this
      simp at this
    | _ => exact ⟨by simp [hpc], by simp [hpc]⟩
  · exact ⟨by simp [hrel], by simp [hrel]⟩
  · exact ⟨by simp [hrel], by simp [hrel]⟩

theorem active_busy (h : Refines σ a) (hno : ∀ p, σ.held p = false) (hc : Active a c) :
    ∃ q, σ.Busy q := by
  obtain ⟨q, k, hk, hk'⟩ := hc
  refine ⟨q, h.conv_busy hno hk ?_⟩
  rintro rfl
  rcases hk' with hk' | ⟨-, hr⟩
  · simp at hk'
  · exact hr

private theorem recalled_busy (h : Refines σ a) (hs : Safe a) (hl : Live a) (hno : ∀ p, σ.held p = false)
    (ho : a.server.owner = some c) (hc : Recalled a c) : ∃ q, σ.Busy q := by
  rcases hc with hrev | ⟨q, hk⟩ | ⟨d, q, v, hk, hv⟩
  · have hA := hs.agrees c
    rcases hk : a.conv c with _ | ⟨q, k⟩
    · simp only [hk, Agrees, ho, ne_eq, not_true_eq_false, and_false, and_true, false_or] at hA
      simp [hl.flag c hA.2] at hrev
    · rw [hk] at hA
      refine ⟨q, h.conv_busy hno hk ?_⟩
      rintro rfl
      simp [Agrees, ho] at hA
  · exact ⟨q, h.conv_busy hno hk (by simp)⟩
  · refine ⟨q, h.conv_busy hno hk ?_⟩
    rintro hd
    rw [Conv.queued.injEq] at hd
    subst hd
    simp at hv

/-- As long as a client is on the wait list somebody is busy. -/
theorem waiting_busy (h : Refines σ a) (hs : Safe a) (hl : Live a) (hno : ∀ p, σ.held p = false)
    (hw : a.server.waitList.Nonempty) : ∃ q, σ.Busy q := by
  cases ho : a.server.owner with
  | none =>
    cases hm : a.server.mutex with
    | true =>
      obtain ⟨c, q, x, d, hk⟩ := hl.mutex hm
      exact ⟨q, h.conv_busy hno hk (by simp)⟩
    | false =>
      obtain ⟨d, -, hact, -⟩ := hl.free ho hm hw
      exact h.active_busy hno hact
  | some c =>
    rcases (hl.taken c ho).2 hw with hrec | ⟨d, -, hact⟩
    · exact h.recalled_busy hs hl hno ho hrec
    · exact h.active_busy hno hact

/-- If a thread waits and nobody holds the lock, then somebody is busy. -/
theorem blocked_busy (h : Refines σ a) (hs : Safe a) (hl : Live a) (hno : ∀ p, σ.held p = false)
    (hp : σ.pc p = .wait ∨ σ.pc p = .waitRetry) : ∃ q, σ.Busy q := by
  by_cases hw : σ.awake p = true
  · refine ⟨p, ?_, fun _ => hw⟩
    rcases hp with hp | hp <;> simp [hp]
  obtain ⟨q, k, hk⟩ : ∃ q k, a.conv p.1 = some (q, k) := by
    rcases hp with hp | hp
    · have hok := h.ok p
      rw [hp] at hok
      have hst := hok.2 (by simpa using hw)
      rw [← h.client] at hst
      have hA := hs.agrees p.1
      rcases hk : a.conv p.1 with _ | ⟨q, k⟩
      · rw [hk] at hA
        simp [Agrees, hst] at hA
      · exact ⟨q, k, rfl⟩
    · exact ⟨p, _, h.conv_own hp rfl rfl⟩
  by_cases hr : k = .queued .done → (a.client p.1).retry = true
  · exact ⟨q, h.conv_busy hno hk hr⟩
  · simp only [Classical.not_imp] at hr
    obtain ⟨rfl, -⟩ := hr
    obtain ⟨hc, -, -⟩ := hs.agrees_of hk
    exact h.waiting_busy hs hl hno ⟨p.1, hc⟩

theorem releaseStep_isSome (h : Refines σ a) (hs : Safe a) (hup : σ.serverDown = false)
    {r : ReleaseCall C} (hk : a.conv c = some (p, r.conv)) (hm : r = .found → a.server.mutex = false)
    (hr : ∀ s, r ≠ .replied s) : (σ.releaseStep r).isSome := by
  cases r with
  | sent => simp [Sys.releaseStep, Sys.findServer, hup, h.pending_some hs hk]
  | found => simp [Sys.releaseStep, hup, h.pending_some hs hk, hm rfl]
  | retry d q =>
    cases q with
    | sent => simp [Sys.releaseStep, Sys.retryStep, Sys.find, h.up, (h.handover_some hs hk).2.1]
    | found => simp [Sys.releaseStep, Sys.retryStep, h.up, (h.handover_some hs hk).2.1]
    | replied => simp [Sys.releaseStep, hup, (h.handover_some hs hk).1]
  | revoke d v =>
    cases v with
    | sent => simp [Sys.releaseStep, Sys.revokeStep, Sys.find, h.up, (h.handover_some hs hk).2.1]
    | found => simp [Sys.releaseStep, Sys.revokeStep, h.up, (h.handover_some hs hk).2.1]
    | release i =>
      have hA := hs.agrees_of hk
      simp [ReleaseCall.conv, Agrees] at hA
    | replied => simp [Sys.releaseStep, hup, (h.handover_some hs hk).1]
  | replied s => exact absurd rfl (hr s)

variable [DecidableEq T]

theorem releasing_run (h : Refines σ a) (hs : Safe a) (hup : σ.serverDown = false) {r : ReleaseCall C}
    (hr : (σ.pc p).Releasing r) (hm : r = .found → a.server.mutex = false) : (σ.run p).isSome := by
  obtain ⟨c, hk⟩ := h.releasing_conv hr
  have hstep := h.releaseStep_isSome hs hup hk hm
  rcases hr with hpc | ⟨d, hpc⟩
  · cases r with
    | replied s => simp [Sys.run, hpc, h.up, h.conv_client hs (h.conv_own hpc rfl rfl)]
    | _ => simp [Sys.run, hpc, hstep]
  · cases r with
    | replied s =>
      have hok := h.ok p
      rw [hpc] at hok
      simp [Sys.run, hpc, Sys.acquireStep, Sys.revokeReply, h.up, h.client_of_isSome hok.2.revoke]
    | _ => simp [Sys.run, hpc, Sys.acquireStep, hstep]

private theorem acquiring_run (h : Refines σ a) (hs : Safe a) (hup : σ.serverDown = false)
    (hm : a.server.mutex = false) {x : AcquireCall C} (hpc : σ.pc p = .acquireCall x) :
    (σ.run p).isSome := by
  have hok := h.ok p
  rw [hpc] at hok
  cases x with
  | sent => simp [Sys.run, hpc, Sys.acquireStep, hup]
  | found => simp [Sys.run, hpc, Sys.acquireStep, hup, h.server_of_isSome hok.1, hm]
  | readOwner => simp [Sys.run, hpc, Sys.acquireStep, hup, h.server_of_isSome hok.1]
  | bind d => cases d <;> simp [Sys.run, hpc, Sys.acquireStep, hup]
  | revoke d v =>
    have hd := h.client_of_isSome hok.2.revoke
    cases v with
    | sent => simp [Sys.run, hpc, Sys.acquireStep, Sys.revokeStep, Sys.find, h.up, hd]
    | found => simp [Sys.run, hpc, Sys.acquireStep, Sys.revokeStep, h.up, hd]
    | release r => exact h.releasing_run hs hup (Or.inr ⟨d, hpc⟩) fun _ => hm
    | replied => simp [Sys.run, hpc, Sys.acquireStep, hup]
  | replied r =>
    simp [Sys.run, hpc, Sys.acquireSection, h.up, h.conv_client hs (h.conv_own hpc rfl rfl)]

/-- A busy thread can run, or the one that holds the server's mutex can. -/
theorem busy_run (h : Refines σ a) (hs : Safe a) (hl : Live a) (hup : σ.serverDown = false)
    (hp : σ.Busy p) : ∃ q, (σ.run q).isSome := by
  cases hm : a.server.mutex with
  | true =>
    obtain ⟨c, q, x, d, hk⟩ := hl.mutex hm
    obtain ⟨r, hr, hrk⟩ := h.handover_releasing hk
    refine ⟨q, h.releasing_run hs hup hr ?_⟩
    rintro rfl
    simp [ReleaseCall.conv] at hrk
  | false =>
    refine ⟨p, ?_⟩
    obtain ⟨hidle, hwait⟩ := hp
    have hok := h.ok p
    cases hpc : σ.pc p with
    | idle => exact absurd hpc hidle
    | acquire => simp [Sys.run, hpc, h.up]
    | acquireLock =>
      rw [hpc] at hok
      simp [Sys.run, hpc, Sys.acquireSection, h.up, h.client_of_isSome hok]
    | acquireCall x => exact h.acquiring_run hs hup hm hpc
    | waitRetry =>
      have hk := h.conv_own hpc rfl rfl
      simp [Sys.run, hpc, Sys.acquireSection, h.up, hwait (Or.inr hpc), h.conv_client hs hk]
    | wait =>
      rw [hpc] at hok
      simp [Sys.run, hpc, Sys.acquireSection, h.up, hwait (Or.inl hpc), h.client_of_isSome hok.1]
    | release =>
      have hk := h.conv_own hpc rfl rfl
      simp [Sys.run, hpc, Sys.find, h.up, h.conv_client hs hk]
    | releaseLock =>
      have hk := h.conv_own hpc rfl rfl
      simp [Sys.run, hpc, h.up, h.conv_client hs hk]
    | releaseCall r => exact h.releasing_run hs hup (Or.inl hpc) fun _ => hm

end Refines

namespace World
variable [DecidableEq T] [DecidableEq L]

theorem Inv.step_isSome {w : World C T L} (h : Inv w) {l : L} {p : C × T}
    (hp : ((w.view l).run p).isSome) : (w.step l (.run p)).isSome := by
  have hpc : (w.lock l).pc p ≠ .idle := by
    intro hn
    have : (w.view l).pc p = .idle := hn
    simp [Sys.run, this] at hp
  simpa [World.step, ready, h.current l p hpc, Sys.step] using hp

/-- While a thread is blocked in `acquire` and nobody holds the lock, some section about the
lock can run: a message is on its way, a handler goes on, or a thread is runnable. -/
theorem no_lost_wakeup {w : World C T L} (h : w.Reachable) (hup : w.serverDown = false) (l : L)
    (hheld : ∀ p, (w.lock l).held p = false) {p : C × T}
    (hp : (w.lock l).pc p = .wait ∨ (w.lock l).pc p = .waitRetry) :
    ∃ q, (w.step l (.run q)).isSome := by
  obtain ⟨a, ha, hs, hl⟩ := h.inv.lock l
  obtain ⟨q, hq⟩ := ha.blocked_busy hs hl hheld hp
  obtain ⟨q', hrun⟩ := ha.busy_run hs hl hup hq
  exact ⟨q', h.inv.step_isSome hrun⟩

theorem no_lost_wakeup_handover : ∃ w : World (Fin 2) Unit Unit, w.Reachable ∧
    (w.lock ()).pc (1, ()) = .waitRetry ∧ ∃ q, (w.step () (.run q)).isSome := by
  have hrun : ((init : World (Fin 2) Unit Unit).exec handoverSchedule).any (fun w =>
      decide ((w.lock ()).pc (1, ()) = .waitRetry) && !w.serverDown &&
      decide (∀ p, (w.lock ()).held p = false)) = true := by decide
  obtain ⟨w, hw, hd⟩ := (Option.any_eq_true _ _).1 hrun
  simp only [Bool.and_eq_true, Bool.not_eq_true', decide_eq_true_eq] at hd
  obtain ⟨⟨hpc, hup⟩, hheld⟩ := hd
  have hr := reachable_of_exec .refl hw
  exact ⟨w, hr, hpc, no_lost_wakeup hr hup () hheld (Or.inr hpc)⟩

end World
end Yfs.Lock
