import Yfs.Lock.Simulation

/-! The sections of the client threads, and with them every step of the system. -/
namespace Yfs.Lock
variable {C T : Type} [LinearOrder C] {p : C × T} {σ τ : Sys C T} {a b : Proto C (C × T)}

namespace Refines

theorem held_of_none (h : Refines σ a) (hk : a.conv p.1 = none) (hp : (σ.pc p).mayHold = true) :
    σ.held p = false := by
  by_contra hne
  have hown : (σ.pc p).convOf p (σ.held p) p.1 = some .own := by
    rw [Bool.not_eq_false] at hne
    rw [hne]
    cases hpc : σ.pc p <;> simp [hpc, Pc.mayHold] at hp <;> simp [Pc.convOf, Pc.other, Pc.conv]
  rw [← h.conv, hk] at hown
  simp at hown

theorem conv_client (h : Refines σ a) (hs : Safe a) {c : C} {k : Conv C}
    (hk : a.conv c = some (p, k)) : σ.client c = some (a.client c) := by
  apply h.client_some
  intro hn
  simp [hs.of_none hn] at hk

variable [DecidableEq T]

theorem acquireEntry (h : Refines σ a) (hpc : σ.pc p = .acquire) :
    Refines (({ σ with
      client := Function.update σ.client p.1 (some ((σ.client p.1).getD .new)) } : Sys C T).setPc p
        .acquireLock) a := by
  have hclient : ∀ c, (Function.update σ.client p.1 (some ((σ.client p.1).getD .new)) c).getD .new =
      (σ.client c).getD .new := by
    intro c
    by_cases hc : c = p.1
    · simp [hc]
    · simp [hc]
  refine h.step_same (p := p) (x := .acquireLock) (v := σ.held p) ?_ ?_ ?_ ?_ hclient rfl rfl ?_
    (fun _ => rfl)
  · refine ⟨fun c hc => ?_, id, fun q _ hq => hq, fun q _ _ _ => ?_, fun q _ _ hq => ?_⟩
    · by_cases hcp : c = p.1 <;> simp [Sys.setPc, hcp, hc]
    · exact congrArg ClientLock.state (hclient q.1)
    · rw [← hq]
      exact congrArg ClientLock.retry (hclient q.1).symm
  · intro q
    simp [Sys.setPc, Function.update_apply]
  · exact eq_ite_self σ.held p
  · intro d
    rw [hpc]
    rfl
  · simp [Pc.Ok, Sys.setPc]

theorem section_own (h : Refines σ a) {N : Type} (s : Section N) (x : Pc C) (v : Bool)
    (hl : σ.client p.1 = some (a.client p.1)) (hsig : s.Signals (a.client p.1))
    (hother : (σ.pc p).other = none) (ha : ∀ q k, a.conv p.1 = some (q, k) → q = p)
    (hx : x.other = none) (hv : v = true → x.mayHold = true)
    (hclient : τ.client = (σ.setClient p.1 s).client) (hserver : τ.server = σ.server)
    (hawake : ∀ q, q ≠ p → τ.awake q = (σ.setClient p.1 s).awake q)
    (hpc : τ.pc = Function.update σ.pc p x) (hheld : τ.held = Function.update σ.held p v)
    (hdown : τ.clientDown = σ.clientDown) (hok : x.Ok τ p) :
    Refines τ ((a.setClient p.1 s.lock).setConv p.1 ((x.conv v).map (p, ·))) := by
  refine h.step_conv (c := p.1) (k := x.conv v) (x := x) (v := v)
    ((Sys.Mono.setClient hl hsig).thread hclient hserver hawake) ?_ ?_ ?_ ha ?_ ?_ ?_ hdown hok hv
  · intro q
    rw [hpc, Function.update_apply]
  · intro q
    rw [hheld, Function.update_apply]
  · simp
  · intro d
    rw [Pc.convOf_own hx, Pc.convOf_own hother]
    split_ifs <;> rfl
  · intro d
    have hd : τ.clientD d = (σ.setClient p.1 s).clientD d := by rw [Sys.clientD, Sys.clientD, hclient]
    rw [hd]
    simp [h.client]
  · rw [hserver]
    exact h.server

theorem section_wait (h : Refines σ a) {s : Section AcquireNext} {x : Pc C}
    (hl : σ.client p.1 = some (a.client p.1)) (hs : s.lock = a.client p.1)
    (hx : ∀ d, x.convOf p (σ.held p) d = (σ.pc p).convOf p (σ.held p) d)
    (hv : (σ.pc p).mayHold = true → x.mayHold = true)
    (hok : ∀ τ : Sys C T, τ.client p.1 = some (a.client p.1) → x.Ok τ p) :
    Refines { (σ.setClient p.1 s).setPc p x with
      awake := Function.update (σ.setClient p.1 s).awake p false } a := by
  refine h.step_same (p := p) (x := x) (v := σ.held p) ?_ ?_ ?_ hx ?_ rfl rfl ?_
    (fun hh => hv (h.held p hh))
  · refine (Sys.Mono.setClient hl (s := s) ?_).thread rfl rfl fun q hq => ?_
    · simp [Section.Signals, hs]
    · simp [hq]
  · intro q
    simp [Sys.setPc, Sys.setClient, Function.update_apply]
  · exact eq_ite_self σ.held p
  · intro d
    change (σ.setClient p.1 s).clientD d = _
    rw [Sys.setClient_clientD]
    split_ifs with hd
    · rw [hs, hd, h.client]
    · rfl
  · apply hok
    simp [Sys.setPc, Sys.setClient, hs]

theorem acquireTurn (h : Refines σ a) (hs : Safe a) (hpc : σ.pc p = .acquireLock ∨ σ.pc p = .wait)
    (hstep : σ.acquireSection p ClientLock.acquire = some τ) :
    ∃ b, (b = a ∨ Proto.Move a b) ∧ Refines τ b := by
  have hmay : (σ.pc p).mayHold = true := by rcases hpc with hpc | hpc <;> rw [hpc] <;> rfl
  have hother : (σ.pc p).other = none := by rcases hpc with hpc | hpc <;> rw [hpc] <;> rfl
  have hl : σ.client p.1 = some (a.client p.1) := by
    have hok := h.ok p
    apply h.client_of_isSome
    rcases hpc with hpc | hpc <;> rw [hpc] at hok
    · exact hok
    · exact hok.1
  simp only [Sys.acquireSection, h.up, hl, Option.map_some, ClientLock.acquire] at hstep
  cases hst : (a.client p.1).state with
  | none =>
    have hk := hs.of_none hst
    simp only [hst] at hstep
    cases hstep
    refine ⟨_, Or.inr (.start p.1 p hk hst), ?_⟩
    refine h.section_own ⟨{ a.client p.1 with state := .acquiring }, false, AcquireNext.call⟩
      (.acquireCall .sent) false hl ?_ hother ?_ rfl ?_ rfl rfl (fun _ _ => rfl) rfl ?_ rfl trivial
    · simp [Section.Signals]
    · simp [hk]
    · simp
    · change σ.held = _
      rw [← h.held_of_none hk hmay, Function.update_eq_self]
  | free =>
    have hk := (hs.of_free hst).1
    simp only [hst] at hstep
    cases hstep
    refine ⟨_, Or.inr (.lock p.1 p hk hst), ?_⟩
    refine h.section_own ⟨{ a.client p.1 with state := .locked }, false, AcquireNext.done⟩
      .idle true hl ?_ hother ?_ rfl ?_ rfl rfl (fun _ _ => rfl) rfl rfl rfl trivial
    · simp [Section.Signals]
    · simp [hk]
    · simp [Pc.mayHold]
  | _ =>
    simp only [hst] at hstep
    cases hstep
    refine ⟨a, Or.inl rfl, h.section_wait hl rfl ?_ (fun _ => rfl) ?_⟩
    · intro d
      rcases hpc with hpc | hpc
      · rw [hpc]
        rfl
      · rw [hpc]
    · intro τ hτ
      refine ⟨by rw [hτ]; rfl, fun _ => ?_⟩
      simp [Sys.clientD_of hτ, hst]

theorem section_of (h : Refines σ a) (hs : Safe a) {N : Type} (s : Section N) {k : Conv C} (x : Pc C)
    (v : Bool) (hk : a.conv p.1 = some (p, k)) (hother : (σ.pc p).other = none)
    (hsig : s.Signals (a.client p.1)) (hx : x.other = none) (hv : v = true → x.mayHold = true)
    (hclient : τ.client = (σ.setClient p.1 s).client) (hserver : τ.server = σ.server)
    (hawake : ∀ q, q ≠ p → τ.awake q = (σ.setClient p.1 s).awake q)
    (hpc : τ.pc = Function.update σ.pc p x) (hheld : τ.held = Function.update σ.held p v)
    (hdown : τ.clientDown = σ.clientDown) (hok : x.Ok τ p) :
    Refines τ ((a.setClient p.1 s.lock).setConv p.1 ((x.conv v).map (p, ·))) := by
  refine h.section_own s x v (h.conv_client hs hk) hsig hother ?_ hx hv hclient hserver hawake hpc
    hheld hdown hok
  intro q k' hq
  rw [hk] at hq
  simpa using (congrArg Prod.fst (Option.some.inj hq)).symm

theorem acquireRetry (h : Refines σ a) (hs : Safe a) (hother : (σ.pc p).other = none)
    (hconv : (σ.pc p).conv (σ.held p) = some (.queued .done)) (hmay : (σ.pc p).mayHold = false)
    (hstep : σ.acquireSection p ClientLock.awaitRetry = some τ) :
    ∃ b, (b = a ∨ Proto.Move a b) ∧ Refines τ b := by
  have hk := h.conv_own rfl hother hconv
  have hl := h.conv_client hs hk
  simp only [Sys.acquireSection, h.up, hl, Option.map_some] at hstep
  cases hr : (a.client p.1).retry with
  | true =>
    rw [ClientLock.awaitRetry_of_retry hr] at hstep
    cases hstep
    refine ⟨_, Or.inr (.again p.1 p hk hr), ?_⟩
    refine h.section_of hs ⟨{ a.client p.1 with state := .acquiring, retry := false }, true, AcquireNext.call⟩
      (.acquireCall .sent) false hk hother ?_ rfl ?_ rfl rfl (fun _ _ => rfl) rfl ?_ rfl trivial
    · simp [Section.Signals]
    · simp
    · change σ.held = _
      rw [← h.held_false hmay, Function.update_eq_self]
  | false =>
    rw [ClientLock.awaitRetry_of_not hr] at hstep
    cases hstep
    refine ⟨a, Or.inl rfl, h.section_wait (x := .waitRetry) hl rfl ?_ (by simp [hmay]) ?_⟩
    · intro d
      rw [Pc.convOf_own hother, Pc.convOf_own rfl, hconv]
      rfl
    · intro τ hτ _
      rw [Sys.clientD_of hτ, hr]

theorem acquireReply (h : Refines σ a) (hs : Safe a) {r : Status}
    (hpc : σ.pc p = .acquireCall (.replied r))
    (hstep : σ.acquireSection p (·.acquireReply r) = some τ) :
    ∃ b, (b = a ∨ Proto.Move a b) ∧ Refines τ b := by
  have hok := h.ok p
  rw [hpc] at hok
  obtain ⟨-, rfl | rfl⟩ := hok
  · have hk := h.conv_own hpc rfl rfl
    have hl := h.conv_client hs hk
    simp only [Sys.acquireSection, h.up, hl, Option.map_some, ClientLock.acquireReply] at hstep
    cases hstep
    refine ⟨_, Or.inr (.obtain p.1 p hk), ?_⟩
    refine h.section_of hs ⟨{ a.client p.1 with state := .locked }, false, AcquireNext.done⟩
      .idle true hk (by rw [hpc]; rfl) ?_ rfl ?_ rfl rfl (fun _ _ => rfl) rfl rfl rfl trivial
    · simp [Section.Signals]
    · simp [Pc.mayHold]
  · exact h.acquireRetry hs (by rw [hpc]; rfl) (by rw [hpc]; rfl) (by rw [hpc]; rfl) hstep

theorem release (h : Refines σ a) (hs : Safe a) (hpc : σ.pc p = .releaseLock)
    (hstep : σ.run p = some τ) : ∃ b, (b = a ∨ Proto.Move a b) ∧ Refines τ b := by
  have hk := h.conv_own hpc rfl rfl
  obtain ⟨-, hst, -⟩ := hs.agrees_of hk
  have hl := h.conv_client hs hk
  have hheld : σ.held = Function.update σ.held p false := by
    rw [← h.held_false (p := p) (by rw [hpc]; rfl), Function.update_eq_self]
  simp only [Sys.run, hpc, h.up, hl, Option.map_some, ClientLock.release, hst, Bool.false_eq_true,
    if_false] at hstep
  split_ifs at hstep with hr
  · cases hstep
    refine ⟨_, Or.inr (.giveBack p.1 p hk hr), ?_⟩
    refine h.section_of hs ⟨{ a.client p.1 with state := .releasing, revoke := false }, false,
      ReleaseNext.call⟩
      (.releaseCall .sent) false hk (by rw [hpc]; rfl) ?_ rfl ?_ rfl rfl
      (fun _ _ => rfl) rfl hheld rfl trivial
    · simp [Section.Signals]
    · simp
  · cases hstep
    refine ⟨_, Or.inr (.letGo p.1 p hk (by simpa using hr)), ?_⟩
    refine h.section_of hs ⟨{ a.client p.1 with state := .free }, true, ReleaseNext.done⟩
      .idle false hk (by rw [hpc]; rfl) ?_ rfl ?_ rfl rfl (fun _ _ => rfl) rfl hheld rfl trivial
    · simp [Section.Signals]
    · simp

private theorem releaseReply (h : Refines σ a) (hs : Safe a) {r : Status}
    (hpc : σ.pc p = .releaseCall (.replied r)) (hstep : σ.run p = some τ) :
    ∃ b, (b = a ∨ Proto.Move a b) ∧ Refines τ b := by
  have hok := h.ok p
  rw [hpc] at hok
  obtain rfl := hok
  have hk := h.conv_own hpc rfl rfl
  have hl := h.conv_client hs hk
  have hheld : σ.held = Function.update σ.held p false := by
    rw [← h.held_false (p := p) (by rw [hpc]; rfl), Function.update_eq_self]
  simp only [Sys.run, hpc, h.up, hl, Option.map_some, ClientLock.releaseReply] at hstep
  cases hstep
  refine ⟨_, Or.inr (.done p.1 p hk), ?_⟩
  refine h.section_of hs ⟨{ a.client p.1 with state := .none }, true, ReleaseNext.done⟩
    .idle false hk (by rw [hpc]; rfl) ?_ rfl ?_ rfl rfl (fun _ _ => rfl) rfl hheld rfl trivial
  · simp [Section.Signals]
  · simp

theorem run (h : Refines σ a) (hs : Safe a) (hstep : σ.run p = some τ) :
    ∃ b, (b = a ∨ Proto.Move a b) ∧ Refines τ b := by
  have hstep' := hstep
  unfold Sys.run at hstep'
  split at hstep'
  case h_1 => simp at hstep'
  case h_2 hpc =>
    simp only [h.up, Bool.false_eq_true, if_false] at hstep'
    cases hstep'
    exact ⟨a, Or.inl rfl, h.acquireEntry hpc⟩
  case h_3 hpc => exact h.acquireTurn hs (Or.inl hpc) hstep'
  case h_4 hpc =>
    split_ifs at hstep'
    exact h.acquireTurn hs (Or.inr hpc) hstep'
  case h_5 hpc =>
    split_ifs at hstep'
    exact h.acquireRetry hs (by rw [hpc]; rfl) (by rw [hpc]; rfl) (by rw [hpc]; rfl) hstep'
  case h_6 r hpc => exact h.acquireReply hs hpc hstep'
  case h_7 x hne hpc =>
    obtain ⟨⟨τ', x'⟩, hx, rfl⟩ := Option.map_eq_some_iff.1 hstep'
    exact h.acquireStep hs hpc hx
  case h_8 hpc =>
    have hk := h.conv_own hpc rfl rfl
    simp only [Sys.find, h.up, h.conv_client hs hk] at hstep'
    cases hstep'
    exact (CallStep.stay h hk).refines_own h hpc rfl rfl rfl rfl trivial rfl
  case h_9 hpc => exact h.release hs hpc hstep
  case h_10 r hpc => exact h.releaseReply hs hpc hstep
  case h_11 r hne hpc =>
    obtain ⟨⟨τ', r'⟩, hr, rfl⟩ := Option.map_eq_some_iff.1 hstep'
    have hk := h.conv_own hpc rfl rfl
    obtain ⟨b, hc, hr'⟩ := h.releaseStep hs hk hr
    exact hc.refines_own h hpc rfl rfl rfl rfl hr' rfl

/-- Every step of the system is a move of the protocol, or none. -/
theorem step (h : Refines σ a) (hs : Safe a) {e : Event C T} (hstep : σ.step e = some τ) :
    ∃ b, (b = a ∨ Proto.Move a b) ∧ Refines τ b := by
  cases e with
  | acquire p =>
    simp only [Sys.step] at hstep
    split_ifs at hstep with hp
    cases hstep
    refine ⟨a, Or.inl rfl, h.step_same (p := p) (x := .acquire) (v := σ.held p) ?_ ?_ ?_ ?_
      (fun _ => rfl) rfl rfl trivial (fun _ => rfl)⟩
    · exact .of_eq rfl id fun _ _ => rfl
    · intro q
      simp [Sys.setPc, Function.update_apply]
    · exact eq_ite_self σ.held p
    · intro d
      rw [hp.2]
      rfl
  | release p =>
    simp only [Sys.step] at hstep
    split_ifs at hstep with hp
    cases hstep
    refine ⟨a, Or.inl rfl, h.step_same (p := p) (x := .release) (v := false) ?_ ?_ ?_ ?_
      (fun _ => rfl) rfl rfl trivial (by simp)⟩
    · exact .of_eq rfl id fun _ _ => rfl
    · intro q
      simp [Sys.setPc, Function.update_apply]
    · intro q
      simp [Function.update_apply]
    · intro d
      rw [hp.2.1, hp.2.2]
      rfl
  | run p => exact h.run hs hstep
  | spurious p =>
    simp only [Sys.step] at hstep
    split_ifs at hstep with hp
    cases hstep
    refine ⟨a, Or.inl rfl, h.step_same (p := p) (x := σ.pc p) (v := σ.held p) ?_ ?_ ?_
      (fun _ => rfl) (fun _ => rfl) rfl rfl ?_ (h.held p)⟩
    · refine .of_eq rfl id fun q hq => ?_
      simp [hq]
    · exact eq_ite_self σ.pc p
    · exact eq_ite_self σ.held p
    · have hok := h.ok p
      rcases hp with hp | hp <;> rw [hp] at hok ⊢
      · exact ⟨hok.1, by simp⟩
      · simp [Pc.Ok]

end Refines
end Yfs.Lock
