import Yfs.Lock.Refinement

/-! Every step of the system is a step of the protocol, or none. -/
namespace Yfs.Lock
variable {C T : Type}

/-- A section that frees its entry or raises its retry flag ends in a broadcast. -/
def Section.Signals {N : Type} (s : Section N) (l : ClientLock) : Prop :=
  s.broadcast = false →
    (s.lock.state = .none ∨ s.lock.state = .free → s.lock.state = l.state) ∧
    (s.lock.retry = true → l.retry = true)

namespace ClientLock
variable (l : ClientLock)

theorem retryHandler_signals : l.retryHandler.Signals l := by
  unfold retryHandler
  split_ifs <;> simp [Section.Signals]

end ClientLock

variable {p : C × T} {σ τ : Sys C T} {a b : Proto C (C × T)}

namespace Sys

theorem Mono.of_eq (hc : τ.client = σ.client) (hs : σ.server.isSome → τ.server.isSome)
    (ha : ∀ q, q ≠ p → τ.awake q = σ.awake q) : Mono p σ τ where
  client c h := hc ▸ h
  server := hs
  awake q hq h := ha q hq ▸ h
  state q _ _ _ := by rw [clientD, clientD, hc]
  retry q _ _ h := by rwa [clientD, hc] at h

/-- What is done afterwards to the thread that takes the step does not matter. -/
theorem Mono.thread {τ' : Sys C T} (h : Mono p σ τ) (hc : τ'.client = τ.client)
    (hs : τ'.server = τ.server) (ha : ∀ q, q ≠ p → τ'.awake q = τ.awake q) : Mono p σ τ' where
  client c hc' := hc ▸ h.client c hc'
  server hs' := hs ▸ h.server hs'
  awake q hq hw := h.awake q hq (ha q hq ▸ hw)
  state q hq hw := by
    simp only [clientD, hc]
    exact h.state q hq (ha q hq ▸ hw)
  retry q hq hw := by
    simp only [clientD, hc]
    exact h.retry q hq (ha q hq ▸ hw)

variable [LinearOrder C]

@[simp] theorem setClient_clientD {N : Type} (σ : Sys C T) (c d : C) (s : Section N) :
    (σ.setClient c s).clientD d = if d = c then s.lock else σ.clientD d := by
  by_cases h : d = c <;> simp [setClient, clientD, h]

theorem Mono.setClient {N : Type} {c : C} {l : ClientLock} {s : Section N}
    (hc : σ.client c = some l) (hs : s.Signals l) : Mono p σ (σ.setClient c s) where
  client d h := by
    by_cases hd : d = c <;> simp [Sys.setClient, hd, h]
  server h := h
  awake q _ h := by
    simp only [Sys.setClient] at h
    split_ifs at h
    exact h
  state q _ h hst := by
    rw [setClient_clientD] at hst ⊢
    simp only [Sys.setClient] at h
    split_ifs at hst h ⊢ with hq hb
    · rw [hq, clientD_of hc]
      exact (hs (by simpa [hq] using hb)).1 hst
    · rfl
  retry q _ h hr := by
    rw [setClient_clientD] at hr
    simp only [Sys.setClient] at h
    split_ifs at hr h with hq hb
    · rw [hq, clientD_of hc]
      exact (hs (by simpa [hq] using hb)).2 hr
    · exact hr

end Sys

variable [LinearOrder C]

/-- What a section of a call chain does before its thread `p` takes note of it: the
conversation of `c` goes to `k`. -/
structure CallStep (p : C × T) (c : C) (k : Conv C) (σ τ : Sys C T) (a b : Proto C (C × T)) :
    Prop where
  move : b = a ∨ Proto.Move a b
  conv : ∀ d, b.conv d = if d = c then some (p, k) else a.conv d
  client : ∀ d, b.client d = τ.clientD d
  server : b.server = τ.server.getD .new
  pc : τ.pc = σ.pc
  held : τ.held = σ.held
  down : τ.clientDown = σ.clientDown
  mono : Sys.Mono p σ τ

namespace CallStep
variable {c d : C} {k : Conv C}

theorem stay (h : Refines σ a) (hk : a.conv c = some (p, k)) : CallStep p c k σ σ a a where
  move := Or.inl rfl
  conv d := by
    split_ifs with hd
    · rw [hd, hk]
    · rfl
  client := h.client
  server := h.server
  pc := rfl
  held := rfl
  down := rfl
  mono := .of_eq rfl id fun _ _ => rfl

theorem lookup (h : Refines σ a) (hk : a.conv c = some (p, k)) :
    CallStep p c k σ (σ.setServer (σ.server.getD .new)) a a :=
  { stay h hk with mono := .of_eq rfl (fun _ => rfl) fun _ _ => rfl }

theorem failServer (h : Refines σ a) (hk : a.conv c = some (p, k)) :
    CallStep p c k σ σ.failServer a a :=
  { stay h hk with mono := .of_eq rfl id fun _ _ => rfl }

theorem setServer (h : Refines σ a) {s : ServerLock C}
    (m : Proto.Move a ((a.setServer s).setConv c (some (p, k)))) :
    CallStep p c k σ (σ.setServer s) a ((a.setServer s).setConv c (some (p, k))) where
  move := Or.inr m
  conv d := by simp
  client := h.client
  server := rfl
  pc := rfl
  held := rfl
  down := rfl
  mono := .of_eq rfl (fun _ => rfl) fun _ _ => rfl

theorem setClient (h : Refines σ a) {l : ClientLock} {N : Type} {s : Section N}
    (hd : σ.client d = some l) (hs : s.Signals l)
    (m : Proto.Move a ((a.setClient d s.lock).setConv c (some (p, k)))) :
    CallStep p c k σ (σ.setClient d s) a ((a.setClient d s.lock).setConv c (some (p, k))) where
  move := Or.inr m
  conv d := by simp
  client e := by simp [h.client]
  server := h.server
  pc := rfl
  held := rfl
  down := rfl
  mono := .setClient hd hs

theorem setConv (h : Refines σ a) (m : Proto.Move a (a.setConv c (some (p, k)))) :
    CallStep p c k σ σ a (a.setConv c (some (p, k))) where
  move := Or.inr m
  conv d := by simp
  client := h.client
  server := h.server
  pc := rfl
  held := rfl
  down := rfl
  mono := .of_eq rfl id fun _ _ => rfl

end CallStep

namespace Refines

theorem releaseStep (h : Refines σ a) (hs : Safe a) {c : C} {r r' : ReleaseCall C}
    (hk : a.conv c = some (p, r.conv)) (hstep : σ.releaseStep r = some (τ, r')) :
    ∃ b, CallStep p c r'.conv σ τ a b ∧ r'.Ok := by
  cases r with
  | sent =>
    simp only [Sys.releaseStep, Sys.findServer, h.pending_some hs hk] at hstep
    split_ifs at hstep
    cases hstep
    exact ⟨a, .stay h hk, trivial⟩
  | found =>
    simp only [Sys.releaseStep, h.pending_some hs hk, Option.bind_some] at hstep
    split_ifs at hstep with hdown hm
    cases hstep
    have hmv := Proto.Move.take c p hk (by simpa using hm)
    cases hrel : a.server.release.2 with
    | none =>
      rw [hrel] at hmv
      exact ⟨_, .setServer h hmv, rfl⟩
    | some d =>
      rw [hrel] at hmv
      exact ⟨_, .setServer h hmv, trivial⟩
  | retry d q =>
    cases q with
    | sent =>
      obtain ⟨-, hd, -⟩ := h.handover_some hs hk
      simp only [Sys.releaseStep, Sys.retryStep, Sys.find, hd, h.up] at hstep
      cases hstep
      exact ⟨a, .stay h hk, trivial⟩
    | found =>
      obtain ⟨-, hd, -⟩ := h.handover_some hs hk
      simp only [Sys.releaseStep, Sys.retryStep, hd, h.up] at hstep
      cases hstep
      have hmv := Proto.Move.retryFlag c d p hk
      rw [← ClientLock.retryHandler_lock] at hmv
      exact ⟨_, .setClient h hd (ClientLock.retryHandler_signals _) hmv, trivial⟩
    | replied =>
      obtain ⟨hsv, -, -⟩ := h.handover_some hs hk
      simp only [Sys.releaseStep, hsv, Option.map_some] at hstep
      split_ifs at hstep with hdown hw
      · cases hstep
        exact ⟨_, .setConv h (.more c d p hk hw), trivial⟩
      · cases hstep
        exact ⟨_, .setServer h (.last c d p hk (by simpa using hw)), rfl⟩
  | revoke d v =>
    cases v with
    | sent =>
      obtain ⟨-, hd, -⟩ := h.handover_some hs hk
      simp only [Sys.releaseStep, Sys.revokeStep, Sys.find, hd, h.up] at hstep
      cases hstep
      exact ⟨a, .stay h hk, trivial⟩
    | found =>
      obtain ⟨-, hd, hf⟩ := h.handover_some hs hk
      simp only [Sys.releaseStep, Sys.revokeStep, hd, h.up, Option.map_some,
        ClientLock.revokeHandler_of_ne hf] at hstep
      cases hstep
      refine ⟨_, .setClient h hd ?_ (.revokeNext c d p hk hf), trivial⟩
      simp [Section.Signals]
    | release r =>
      have hA := hs.agrees_of hk
      simp [ReleaseCall.conv, Agrees] at hA
    | replied =>
      obtain ⟨hsv, -, -⟩ := h.handover_some hs hk
      simp only [Sys.releaseStep, hsv, Option.map_some] at hstep
      split_ifs at hstep with hdown
      cases hstep
      exact ⟨_, .setServer h (.finish c d p hk), rfl⟩
  | replied r => simp [Sys.releaseStep] at hstep

end Refines

variable [DecidableEq T]

theorem CallStep.refines {c : C} {k k' : Conv C} {y : Pc C} (hc : CallStep p c k σ τ a b)
    (h : Refines σ a) (ha : (σ.pc p).convOf p (σ.held p) c = some k')
    (hy : ∀ d, y.convOf p (σ.held p) d = if d = c then some k else (σ.pc p).convOf p (σ.held p) d)
    (hok : y.Ok τ p) (hx : (σ.pc p).mayHold = false) :
    ∃ b, (b = a ∨ Proto.Move a b) ∧ Refines (τ.setPc p y) b := by
  refine ⟨b, hc.move, h.step_conv (hc.mono.thread rfl rfl fun _ _ => rfl) ?_ ?_ hc.conv
    (h.thread_unique ha) hy hc.client hc.server hc.down hok (by simp [h.held_false hx])⟩
  · intro q
    simp [Sys.setPc, hc.pc, Function.update_apply]
  · exact hc.held ▸ eq_ite_self σ.held p

theorem CallStep.refines_own {k k' : Conv C} {x y : Pc C} (hc : CallStep p p.1 k σ τ a b)
    (h : Refines σ a) (hpc : σ.pc p = x) (hx : x.other = none) (hxk : x.conv (σ.held p) = some k')
    (hy : y.other = none) (hyk : y.conv (σ.held p) = some k) (hok : y.Ok τ p)
    (hxm : x.mayHold = false) : ∃ b, (b = a ∨ Proto.Move a b) ∧ Refines (τ.setPc p y) b := by
  have hold : (σ.pc p).convOf p (σ.held p) p.1 = some k' := by
    rw [hpc, Pc.convOf_own hx, if_pos rfl, hxk]
  refine hc.refines h hold (fun d => ?_) hok (by rw [hpc, hxm])
  rw [hpc, Pc.convOf_own hx, Pc.convOf_own hy, hyk]
  split_ifs <;> rfl

namespace Refines

/-- A FREE lock is revoked: the thread of the refused `acquire` now also waits for the
`release` of client `d`. -/
theorem revokeFree (h : Refines σ a) (hs : Safe a) {d : C}
    (hpc : σ.pc p = .acquireCall (.revoke d .found)) (hf : (a.client d).state = .free) :
    Refines ((σ.setClient d ⟨{ a.client d with state := .releasing }, false, ReleaseNext.call⟩).setPc p
        (.acquireCall (.revoke d (.release .sent))))
      (((a.setClient d { a.client d with state := .releasing }).setConv p.1
        (some (p, .queued .done))).setConv d (some (p, .pending))) := by
  have hk := h.conv_own hpc rfl rfl
  have hok := h.ok p
  rw [hpc] at hok
  have hd := h.client_of_isSome hok.2.revoke
  have hdp : d ≠ p.1 := by
    rintro rfl
    simp [(hs.of_free hf).1] at hk
  have hheld : σ.held p = false := h.held_false (by rw [hpc]; rfl)
  refine h.step_thread (p := p) ?_ ?_ ?_ ?_ ?_ h.server rfl ?_ (by simp [Sys.setPc, Sys.setClient, hheld])
  · refine (Sys.Mono.setClient hd ?_).thread rfl rfl fun _ _ => rfl
    simp [Section.Signals]
  · intro q hq
    simp [Sys.setPc, Sys.setClient, hq]
  · intro q hq c k
    simp only [Proto.setConv_conv, Proto.setClient_conv]
    have hfree := (hs.of_free hf).1
    grind
  · intro c k
    have hnone : c ≠ p.1 → (σ.pc p).convOf p (σ.held p) c = none := by
      intro hc
      rw [hpc, Pc.convOf_own rfl, if_neg hc]
    have hold := h.conv p c k
    simp only [Proto.setConv_conv, Proto.setClient_conv, Sys.setPc, Function.update_self,
      Pc.convOf_nested]
    split_ifs with h₁ h₂
    · simp [ReleaseCall.conv]
    · simp
    · rw [hold, hnone h₂]
      simp
  · intro c
    change _ = (σ.setClient d _).clientD c
    simp [h.client]
  · simp only [Sys.setPc, Function.update_self]
    refine ⟨hok.1, ?_, hdp, trivial⟩
    simp [Sys.setClient]

/-- The `release` of client `d` is done and its `revoke_handler` returns. -/
theorem revokeDone (h : Refines σ a) {d : C} {r : Status}
    (hpc : σ.pc p = .acquireCall (.revoke d (.release (.replied r))))
    (hd : σ.client d = some (a.client d)) (hdp : d ≠ p.1) :
    Refines ((σ.setClient d ⟨{ a.client d with state := .none }, true, ReleaseNext.done⟩).setPc p
        (.acquireCall (.revoke d .replied)))
      ((a.setClient d { a.client d with state := .none }).setConv d none) := by
  have hok := h.ok p
  rw [hpc] at hok
  have hheld : σ.held p = false := h.held_false (by rw [hpc]; rfl)
  refine h.step_conv (p := p) (c := d) (k := none) (x := .acquireCall (.revoke d .replied))
    (v := σ.held p) ?_ ?_ ?_ ?_ ?_ ?_ ?_ h.server rfl ?_ (by simp [hheld])
  · refine (Sys.Mono.setClient hd ?_).thread rfl rfl fun _ _ => rfl
    simp [Section.Signals]
  · intro q
    simp [Sys.setPc, Sys.setClient, Function.update_apply]
  · exact eq_ite_self σ.held p
  · simp
  · exact h.thread_unique (by rw [hpc, Pc.convOf_nested, if_pos rfl])
  · intro e
    rw [hpc, Pc.convOf_own rfl, Pc.convOf_nested]
    split_ifs with h₁ h₂
    · exact absurd (h₂.symm.trans h₁) hdp
    all_goals rfl
  · intro c
    change _ = (σ.setClient d _).clientD c
    simp [h.client]
  · refine ⟨hok.1, ?_⟩
    simp [AcquireCall.Ok, Sys.setClient, Sys.setPc]

theorem acquireStep_revoke (h : Refines σ a) (hs : Safe a) {d : C} {v : RevokeCall (ReleaseCall C)}
    {x' : AcquireCall C} (hpc : σ.pc p = .acquireCall (.revoke d v))
    (hstep : σ.acquireStep p.1 (.revoke d v) = some (τ, x')) :
    ∃ b, (b = a ∨ Proto.Move a b) ∧ Refines (τ.setPc p (.acquireCall x')) b := by
  have hok := h.ok p
  rw [hpc] at hok
  have hd : σ.client d = some (a.client d) := h.client_of_isSome hok.2.revoke
  cases v with
  | sent =>
    have hk := h.conv_own hpc rfl rfl
    simp only [Sys.acquireStep, Sys.revokeStep, Sys.find, hd, h.up] at hstep
    cases hstep
    exact (CallStep.stay h hk).refines_own h hpc rfl rfl rfl rfl hok rfl
  | found =>
    have hk := h.conv_own hpc rfl rfl
    simp only [Sys.acquireStep, Sys.revokeStep, hd, h.up, Option.map_some] at hstep
    by_cases hf : (a.client d).state = .free
    · rw [ClientLock.revokeHandler_of_free hf] at hstep
      cases hstep
      exact ⟨_, Or.inr (.revokeFree p.1 d p hk hf), h.revokeFree hs hpc hf⟩
    · rw [ClientLock.revokeHandler_of_ne hf] at hstep
      cases hstep
      refine (CallStep.setClient h hd ?_ (.revokeFlag p.1 d p hk hf)).refines_own h hpc rfl rfl
        rfl rfl ⟨hok.1, ?_⟩ rfl
      · simp [Section.Signals]
      · simp [AcquireCall.Ok, Sys.setClient]
  | release r =>
    have hk : a.conv d = some (p, r.conv) := by
      rw [h.conv, hpc, Pc.convOf_nested, if_pos rfl]
    obtain ⟨hsv, -, hdp, hr⟩ := hok
    cases r with
    | replied r =>
      obtain rfl := hr
      simp only [Sys.acquireStep, Sys.revokeReply, hd, h.up, ClientLock.releaseReply] at hstep
      cases hstep
      exact ⟨_, Or.inr (.done d p hk), h.revokeDone hpc hd hdp⟩
    | _ =>
      simp only [Sys.acquireStep] at hstep
      obtain ⟨⟨τ', r'⟩, hrel, hx⟩ := Option.map_eq_some_iff.1 hstep
      cases hx
      obtain ⟨b, hc, hr'⟩ := h.releaseStep hs hk hrel
      refine hc.refines h (by rw [hpc, Pc.convOf_nested, if_pos rfl]) (fun e => ?_)
        ⟨hc.mono.server hsv, ?_, hdp, hr'⟩ (by rw [hpc]; rfl)
      · rw [hpc, Pc.convOf_nested, Pc.convOf_nested]
        split_ifs <;> rfl
      · exact hc.mono.client d (by simp [hd])
  | replied =>
    have hk := h.conv_own hpc rfl rfl
    simp only [Sys.acquireStep] at hstep
    split_ifs at hstep with hdown
    cases hstep
    exact (CallStep.stay h hk).refines_own h hpc rfl rfl rfl rfl ⟨hok.1, Or.inr rfl⟩ rfl

theorem acquireStep (h : Refines σ a) (hs : Safe a) {x x' : AcquireCall C}
    (hpc : σ.pc p = .acquireCall x) (hstep : σ.acquireStep p.1 x = some (τ, x')) :
    ∃ b, (b = a ∨ Proto.Move a b) ∧ Refines (τ.setPc p (.acquireCall x')) b := by
  have hok := h.ok p
  rw [hpc] at hok
  cases x with
  | sent =>
    have hk := h.conv_own hpc rfl rfl
    simp only [Sys.acquireStep] at hstep
    split_ifs at hstep
    cases hstep
    exact (CallStep.lookup h hk).refines_own h hpc rfl rfl rfl rfl ⟨rfl, trivial⟩ rfl
  | found =>
    have hk := h.conv_own hpc rfl rfl
    have hsv : σ.server = some a.server := h.server_of_isSome hok.1
    simp only [Sys.acquireStep, hsv, Option.bind_some] at hstep
    split_ifs at hstep with hdown hm
    cases hstep
    have hmv := Proto.Move.serve p.1 p hk (by simpa using hm)
    have hc := CallStep.setServer h hmv
    cases hnext : (a.server.acquire p.1).2 with
    | reply r =>
      have hr : r = .ok ∨ r = .retry := a.server.acquire_reply hnext
      refine hc.refines_own h hpc rfl rfl rfl ?_ ⟨rfl, hr⟩ rfl
      rcases hr with rfl | rfl <;> rw [hnext] <;> rfl
    | revoke =>
      refine hc.refines_own h hpc rfl rfl rfl ?_ ⟨rfl, trivial⟩ rfl
      rw [hnext]
      rfl
  | readOwner =>
    have hk := h.conv_own hpc rfl rfl
    have hsv : σ.server = some a.server := h.server_of_isSome hok.1
    simp only [Sys.acquireStep, hsv, Option.map_some] at hstep
    split_ifs at hstep with hdown
    cases hstep
    refine (CallStep.setConv h (.readOwner p.1 p hk)).refines_own h hpc rfl rfl rfl rfl ⟨hok.1, ?_⟩ rfl
    cases ho : a.server.owner with
    | none => trivial
    | some d => simp [AcquireCall.Ok, h.owner_some hs ho]
  | bind d =>
    have hk := h.conv_own hpc rfl rfl
    cases d with
    | none =>
      simp only [Sys.acquireStep] at hstep
      split_ifs at hstep with hdown
      cases hstep
      exact (CallStep.failServer h hk).refines_own h hpc rfl rfl rfl rfl hok rfl
    | some d =>
      simp only [Sys.acquireStep] at hstep
      split_ifs at hstep with hdown
      cases hstep
      exact (CallStep.setConv h (.bind p.1 d p hk)).refines_own h hpc rfl rfl rfl rfl hok rfl
  | revoke d v => exact h.acquireStep_revoke hs hpc hstep
  | replied r => simp [Sys.acquireStep] at hstep

end Refines
end Yfs.Lock
