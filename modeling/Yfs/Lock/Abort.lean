import Yfs.Lock.Safety

/-! `lock_server_cache::acquire` reads the owner after it has dropped the mutex. If the owner's
`release` runs in between, it reads the empty string, binds to it and aborts the server. -/
namespace Yfs.Lock
variable {C T L : Type} [LinearOrder C] {σ τ : Sys C T} {a : Proto C (C × T)} {p q : C × T}

namespace Refines

theorem releaseStep_serverDown (h : Refines σ a) (hs : Safe a) {c : C} {r r' : ReleaseCall C}
    (hk : a.conv c = some (p, r.conv)) (hstep : σ.releaseStep r = some (τ, r')) :
    τ.serverDown = σ.serverDown := by
  have hsv : r = .sent → σ.server = some a.server := by
    rintro rfl
    exact h.pending_some hs hk
  have hcb : ∀ d i, r ≠ .revoke d (.release i) := by
    rintro d i rfl
    have hA := hs.agrees_of hk
    simp [ReleaseCall.conv, Agrees] at hA
  unfold Sys.releaseStep at hstep
  grind [Option.map_eq_some_iff, Option.bind_eq_some_iff, Sys.findServer, Sys.setServer,
    → Sys.retryStep_frame, → Sys.revokeStep_frame]

theorem acquireStep_serverDown (h : Refines σ a) (hs : Safe a) {x x' : AcquireCall C}
    (hpc : σ.pc p = .acquireCall x) (hx : x ≠ .bind none)
    (hstep : σ.acquireStep p.1 x = some (τ, x')) : τ.serverDown = σ.serverDown := by
  have hrel : ∀ d r τ r', x = .revoke d (.release r) → σ.releaseStep r = some (τ, r') →
      τ.serverDown = σ.serverDown := by
    rintro d r τ r' rfl hr
    obtain ⟨c, hk⟩ := h.releasing_conv (Or.inr ⟨d, hpc⟩)
    exact h.releaseStep_serverDown hs hk hr
  unfold Sys.acquireStep at hstep
  grind [Option.map_eq_some_iff, Option.bind_eq_some_iff, Sys.setServer, Sys.revokeReply,
    → Sys.revokeStep_frame, Sys.failClient, Sys.setClient]

end Refines

theorem Sys.acquireStep_bind {c : C} {x : AcquireCall C}
    (h : σ.acquireStep c x = some (τ, .bind none)) :
    x = .bind none ∨ x = .readOwner ∧ ∃ s, σ.server = some s ∧ s.owner = none := by
  unfold Sys.acquireStep at h
  grind [Option.map_eq_some_iff, Option.bind_eq_some_iff]

variable [DecidableEq T]

theorem Sys.acquireSection_bind {f : ClientLock → Section AcquireNext} {o : Option C}
    (h : σ.acquireSection p f = some τ) : τ.pc p ≠ .acquireCall (.bind o) := by
  unfold Sys.acquireSection at h
  split_ifs at h
  obtain ⟨l, -, rfl⟩ := Option.map_eq_some_iff.1 h
  dsimp only
  split <;> simp [Sys.setPc]

theorem Sys.acquireSection_serverDown {f : ClientLock → Section AcquireNext}
    (h : σ.acquireSection p f = some τ) : τ.serverDown = σ.serverDown := by
  unfold Sys.acquireSection at h
  split_ifs at h
  obtain ⟨l, -, rfl⟩ := Option.map_eq_some_iff.1 h
  dsimp only
  split <;> rfl

theorem Sys.run_bind (h : σ.run p = some τ) (hp : τ.pc p = .acquireCall (.bind none)) :
    σ.pc p = .acquireCall (.bind none) ∨
    σ.pc p = .acquireCall .readOwner ∧ ∃ s, σ.server = some s ∧ s.owner = none := by
  unfold Sys.run at h
  split at h
  case h_1 => simp at h
  case h_2 =>
    split_ifs at h
    cases h
    simp [Sys.setPc] at hp
  case h_3 => exact absurd hp (acquireSection_bind h)
  case h_4 | h_5 =>
    split_ifs at h
    exact absurd hp (acquireSection_bind h)
  case h_6 => exact absurd hp (acquireSection_bind h)
  case h_7 x _ hpc =>
    obtain ⟨⟨τ', x'⟩, hx, rfl⟩ := Option.map_eq_some_iff.1 h
    obtain rfl : x' = .bind none := by simpa [Sys.setPc] using hp
    rw [hpc]
    simpa using acquireStep_bind hx
  case h_8 =>
    obtain ⟨x, hx, rfl⟩ := Option.map_eq_some_iff.1 h
    unfold Sys.find at hx
    split_ifs at hx
    split at hx <;> cases hx <;> simp [Sys.setPc] at hp
  case h_9 hpc | h_10 hpc =>
    split_ifs at h
    obtain ⟨l, -, rfl⟩ := Option.map_eq_some_iff.1 h
    unfold Sys.releaseSection at hp
    split at hp
    · simp [Sys.failClient, hpc] at hp
    · split at hp <;> simp [Sys.setPc] at hp
  case h_11 =>
    obtain ⟨x, hx, rfl⟩ := Option.map_eq_some_iff.1 h
    simp [Sys.setPc] at hp

/-- An event makes a thread bind to the empty string only by its read of the owner. -/
theorem Sys.step_bind {e : Event C T} (h : σ.step e = some τ) (hq : τ.pc q = .acquireCall (.bind none)) :
    σ.pc q = .acquireCall (.bind none) ∨
    e = .run q ∧ σ.pc q = .acquireCall .readOwner ∧ ∃ s, σ.server = some s ∧ s.owner = none := by
  by_cases hqe : q = e.thread
  · subst hqe
    cases e with
    | run p => exact (run_bind h hq).imp_right fun hread => ⟨rfl, hread⟩
    | acquire p | release p =>
      simp only [Sys.step] at h
      split_ifs at h
      cases h
      simp [Sys.setPc, Event.thread] at hq
    | spurious p =>
      simp only [Sys.step] at h
      split_ifs at h
      cases h
      exact .inl hq
  · rw [step_pc h hqe] at hq
    exact .inl hq

theorem Refines.run_serverDown (h : Refines σ a) (hs : Safe a) (hstep : σ.run p = some τ)
    (hp : σ.pc p ≠ .acquireCall (.bind none)) : τ.serverDown = σ.serverDown := by
  unfold Sys.run at hstep
  split at hstep
  case h_1 => simp at hstep
  case h_2 =>
    split_ifs at hstep
    cases hstep
    rfl
  case h_3 | h_6 => exact Sys.acquireSection_serverDown hstep
  case h_4 | h_5 =>
    split_ifs at hstep
    exact Sys.acquireSection_serverDown hstep
  case h_7 x _ hpc =>
    obtain ⟨⟨τ', x'⟩, hx, rfl⟩ := Option.map_eq_some_iff.1 hstep
    have hd := h.acquireStep_serverDown hs hpc (by simpa [hpc] using hp) hx
    exact hd
  case h_8 =>
    obtain ⟨x, hx, rfl⟩ := Option.map_eq_some_iff.1 hstep
    exact (Sys.find_frame hx).2
  case h_9 | h_10 =>
    split_ifs at hstep
    obtain ⟨l, -, rfl⟩ := Option.map_eq_some_iff.1 hstep
    unfold Sys.releaseSection
    split <;> rfl
  case h_11 r _ hpc =>
    obtain ⟨⟨τ', r'⟩, hr, rfl⟩ := Option.map_eq_some_iff.1 hstep
    have hd := h.releaseStep_serverDown hs (h.conv_own hpc rfl rfl) hr
    exact hd

theorem Refines.step_serverDown (h : Refines σ a) (hs : Safe a) {e : Event C T} (hstep : σ.step e = some τ)
    (hbind : ∀ p, σ.pc p ≠ .acquireCall (.bind none)) : τ.serverDown = σ.serverDown := by
  cases e with
  | run p => exact h.run_serverDown hs hstep (hbind p)
  | acquire p | release p | spurious p =>
    simp only [Sys.step] at hstep
    split_ifs at hstep
    cases hstep
    rfl

namespace World
section
omit [DecidableEq T]

/-- The server is up and every revoke that `acquire` is about to send, or has sent, is
addressed to a client that knows the lock id. -/
def Addressed (w : World C T L) : Prop :=
  w.serverDown = false ∧ ∀ l p,
    (∀ o, (w.lock l).pc p = .acquireCall (.bind o) →
      ∃ d, o = some d ∧ ((w.lock l).client d).isSome) ∧
    ∀ d v, (w.lock l).pc p = .acquireCall (.revoke d v) → ((w.lock l).client d).isSome

/-- If the event is the read of the owner by `acquire`, then the lock is still taken. -/
def Guarded (w : World C T L) (l : L) (e : Event C T) : Prop :=
  ∀ p, e = .run p → (w.lock l).pc p = .acquireCall .readOwner →
    ∃ s, (w.lock l).server = some s ∧ s.state = true

/-- The protocol invariant leaves only the empty owner string to be excluded. -/
theorem Inv.addressed_iff {w : World C T L} (h : Inv w) :
    Addressed w ↔ w.serverDown = false ∧
      ∀ l p, (w.lock l).pc p ≠ .acquireCall (.bind none) := by
  refine and_congr_right fun _ => ⟨fun hw l p hp => ?_, fun hw l p => ⟨fun o hp => ?_, fun d v hp => ?_⟩⟩
  · obtain ⟨d, hd, -⟩ := (hw l p).1 none hp
    simp at hd
  · obtain ⟨a, ha, -, -⟩ := h.lock l
    have hok := ha.ok p
    cases o with
    | none => exact absurd hp (hw l p)
    | some d =>
      rw [show (w.view l).pc p = .acquireCall (.bind (some d)) from hp] at hok
      exact ⟨d, rfl, hok.2⟩
  · obtain ⟨a, ha, -, -⟩ := h.lock l
    have hok := ha.ok p
    rw [show (w.view l).pc p = .acquireCall (.revoke d v) from hp] at hok
    exact hok.2.revoke

end

variable [DecidableEq L]

/-- A step that aborts the server or reads the empty owner string is a read of the owner
after the lock has been released. -/
theorem Inv.addressed_step {w w' : World C T L} (h : Inv w) (hw : w.Addressed) {l : L}
    {e : Event C T} (hstep : w.step l e = some w') : w'.Addressed ↔ w.Guarded l e := by
  have h' : Inv w' := h.step ⟨l, e, hstep⟩
  rw [h.addressed_iff] at hw
  rw [h'.addressed_iff]
  simp only [World.step] at hstep
  split_ifs at hstep with hready
  obtain ⟨τ, hτ, rfl⟩ := Option.map_eq_some_iff.1 hstep
  obtain ⟨a, ha, hs, -⟩ := h.lock l
  constructor
  · rintro ⟨-, hbind⟩ p rfl hpc
    have hok := ha.ok p
    rw [show (w.view l).pc p = .acquireCall .readOwner from hpc] at hok
    have hsv := ha.server_of_isSome hok.1
    refine ⟨a.server, hsv, ?_⟩
    rw [hs.owner_state]
    by_contra ho
    have hbp := hbind l p
    simp only [Sys.step, Sys.run, show (w.view l).pc p = .acquireCall .readOwner from hpc,
      Sys.acquireStep, show (w.view l).serverDown = false from hw.1, hsv, Option.map_some] at hτ
    cases hτ
    simp [Sys.setPc, Option.not_isSome_iff_eq_none.1 ho] at hbp
  · intro hg
    constructor
    · exact (ha.step_serverDown hs hτ (hw.2 l)).trans hw.1
    · intro l' q hq
      by_cases hl : l' = l
      · subst hl
        simp only [Function.update_self] at hq
        rcases Sys.step_bind hτ hq with hb | ⟨rfl, hr, s, hsv, ho⟩
        · exact hw.2 l' q hb
        · obtain ⟨s', hs', hst⟩ := hg q rfl hr
          have hsa : a.server = s := by simp [ha.server, hsv]
          obtain rfl : s' = s := Option.some.inj (hs'.symm.trans hsv)
          rw [← hsa, hs.owner_state, hsa, ho] at hst
          simp at hst
      · simp only [Function.update_of_ne hl] at hq
        exact hw.2 l' q hq

/-- A step that reads the owner only while the lock is taken. -/
def GuardedStep (w w' : World C T L) : Prop := ∃ l e, w.Guarded l e ∧ w.step l e = some w'

private theorem reachable_of_guarded {w : World C T L} (h : Relation.ReflTransGen GuardedStep init w) :
    w.Reachable := by
  refine Relation.ReflTransGen.mono ?_ _ _ h
  rintro v v' ⟨l, e, -, hstep⟩
  exact ⟨l, e, hstep⟩

/-- In a run that never reads the owner of a released lock the server stays up and every
revoke goes to a registered client; and only such a read can end that. -/
theorem revokes_addressed :
    (∀ w : World C T L, Relation.ReflTransGen GuardedStep init w → w.Addressed) ∧
    ∀ (w w' : World C T L) (l : L) (e : Event C T), w.Reachable → w.Addressed →
      w.step l e = some w' → (w'.Addressed ↔ w.Guarded l e) := by
  refine ⟨fun w h => ?_, fun w w' l e hr hw hstep => hr.inv.addressed_step hw hstep⟩
  induction h with
  | refl => simp [Addressed, init]
  | @tail v v' hv hstep ih =>
    obtain ⟨l, e, hg, hvs⟩ := hstep
    exact ((reachable_of_guarded hv).inv.addressed_step ih hvs).2 hg

/-- Client 1 is refused and reads the owner while client 0 still has the lock. -/
theorem revokes_addressed_taken : ∃ w w' : World (Fin 2) Unit Unit,
    w.step () (.run (1, ())) = some w' ∧ (w.lock ()).pc (1, ()) = .acquireCall .readOwner ∧
    w'.Addressed := by
  let es : List (Unit × Event (Fin 2) Unit) :=
    ((), .acquire (0, ())) :: List.replicate 5 ((), .run (0, ())) ++
    ((), .acquire (1, ())) :: List.replicate 4 ((), .run (1, ()))
  have hrun : ((init : World (Fin 2) Unit Unit).exec es).any (fun w =>
      (w.step () (.run (1, ()))).isSome && !w.serverDown &&
      decide ((w.lock ()).pc (1, ()) = .acquireCall .readOwner) &&
      decide (∀ p, (w.lock ()).pc p ≠ .acquireCall (.bind none)) &&
      (w.lock ()).server.any (·.state)) = true := by decide
  obtain ⟨w, hw, hd⟩ := (Option.any_eq_true _ _).1 hrun
  simp only [Bool.and_eq_true, Bool.not_eq_true', decide_eq_true_eq] at hd
  obtain ⟨⟨⟨⟨hstep, hup⟩, hpc⟩, hbind⟩, hst⟩ := hd
  obtain ⟨w', hw'⟩ := Option.isSome_iff_exists.1 hstep
  have hr := reachable_of_exec .refl hw
  have haddr : w.Addressed := hr.inv.addressed_iff.2 ⟨hup, fun _ => hbind⟩
  refine ⟨w, w', hw', hpc, (revokes_addressed.2 w w' () _ hr haddr hw').2 fun p _ _ => ?_⟩
  exact (Option.any_eq_true _ _).1 hst

/-- Clients 0, 1 and 2 ask for the lock in turn. When 0 gives it back, 1 is flagged for an
early revoke and gets the lock; 0 asks again, and 1 releases before the handler of 0 has read
the owner. -/
def abortSchedule : List (Unit × Event (Fin 3) Unit) :=
  let run (c : Fin 3) (n : ℕ) := List.replicate n ((), Event.run (c, ()))
  ((), .acquire (0, ())) :: run 0 5 ++ ((), .acquire (1, ())) :: run 1 10 ++
  ((), .acquire (2, ())) :: run 2 5 ++ ((), .release (0, ())) :: run 0 11 ++ run 1 4 ++
  ((), .acquire (0, ())) :: run 0 4 ++ ((), .release (1, ())) :: run 1 4 ++ run 0 2

/-- The server aborts although every client is up and every call is answered. -/
theorem server_aborts : ∃ w : World (Fin 3) Unit Unit, w.Reachable ∧
    (w.lock ()).pc (0, ()) = .acquireCall (.bind none) ∧ w.serverDown = true ∧
    ∀ c, w.clientDown c = false := by
  have hrun : ((init : World (Fin 3) Unit Unit).exec abortSchedule).any (fun w =>
      decide ((w.lock ()).pc (0, ()) = .acquireCall (.bind none)) && w.serverDown) = true := by decide
  obtain ⟨w, hw, hd⟩ := (Option.any_eq_true _ _).1 hrun
  have hr := reachable_of_exec .refl hw
  obtain ⟨a, ha, -, -⟩ := hr.inv.lock ()
  simp only [Bool.and_eq_true, decide_eq_true_eq] at hd
  exact ⟨w, hr, hd.1, hd.2, ha.up⟩

end World
end Yfs.Lock
