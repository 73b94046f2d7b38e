import Yfs.Lock.System
import Yfs.Lock.Conversation

/-! Which conversation a call chain of `System` is, and when a protocol state stands for a
system state. -/
namespace Yfs.Lock
variable {C T : Type}

def ReleaseCall.conv : ReleaseCall C → Conv C
  | .sent | .found => .pending
  | .retry d .sent | .retry d .found => .handover .retry d
  | .retry d .replied => .handover .retried d
  | .revoke d .sent | .revoke d .found => .handover .revoke d
  | .revoke d (.release _) => .handover .callback d
  | .revoke d .replied => .handover .revoked d
  | .replied _ => .answered

def AcquireCall.conv : AcquireCall C → Conv C
  | .sent | .found => .unserved
  | .readOwner => .queued .readOwner
  | .bind d => .queued (.bind d)
  | .revoke d .sent | .revoke d .found => .queued (.revoke d)
  | .revoke _ (.release _) | .revoke _ .replied => .queued .done
  | .replied .ok => .granted
  | .replied _ => .queued .done

/-- Whether a thread that holds the lock can be there. -/
def Pc.mayHold : Pc C → Bool
  | .idle | .acquire | .acquireLock | .wait => true
  | _ => false

/-- The conversation of its own client that a thread is in. -/
def Pc.conv (held : Bool) : Pc C → Option (Conv C)
  | .idle | .acquire | .acquireLock | .wait => if held then some .own else none
  | .acquireCall a => some a.conv
  | .waitRetry => some (.queued .done)
  | .release | .releaseLock => some .own
  | .releaseCall r => some r.conv

/-- The `release` that the thread waits for on behalf of another client. -/
def Pc.other : Pc C → Option (C × ReleaseCall C)
  | .acquireCall (.revoke d (.release r)) => some (d, r)
  | _ => none

/-- The conversation of client `c` that thread `p` is in. -/
def Pc.convOf [DecidableEq C] (p : C × T) (held : Bool) (x : Pc C) (c : C) : Option (Conv C) :=
  match x.other with
  | some (d, r) => if c = d then some r.conv else if c = p.1 then x.conv held else none
  | none => if c = p.1 then x.conv held else none

def Sys.clientD (σ : Sys C T) (c : C) : ClientLock := (σ.client c).getD .new

/-- The server never answers a `release` with anything but `OK`. -/
def ReleaseCall.Ok : ReleaseCall C → Prop
  | .replied r => r = .ok
  | _ => True

/-- What holds of an `acquire` call of client `c` past the look-up. -/
def AcquireCall.Ok (σ : Sys C T) (c : C) : AcquireCall C → Prop
  | .bind (some d) => (σ.client d).isSome
  | .revoke d (.release r) => (σ.client d).isSome ∧ d ≠ c ∧ r.Ok
  | .revoke d _ => (σ.client d).isSome
  | .replied r => r = .ok ∨ r = .retry
  | _ => True

/-- What holds of a thread that the protocol state does not show. A thread that waits without
having been signalled has nothing to do. -/
def Pc.Ok (σ : Sys C T) (p : C × T) : Pc C → Prop
  | .acquireLock => (σ.client p.1).isSome
  | .acquireCall .sent => True
  | .acquireCall a => σ.server.isSome ∧ a.Ok σ p.1
  | .waitRetry => σ.awake p = false → (σ.clientD p.1).retry = false
  | .wait => (σ.client p.1).isSome ∧
      (σ.awake p = false → (σ.clientD p.1).state ≠ .none ∧ (σ.clientD p.1).state ≠ .free)
  | .releaseCall r => r.Ok
  | _ => True

/-- Protocol state `a` stands for system state `σ`. -/
structure Refines [DecidableEq C] (σ : Sys C T) (a : Proto C (C × T)) : Prop where
  conv : ∀ p c k, a.conv c = some (p, k) ↔ (σ.pc p).convOf p (σ.held p) c = some k
  client : ∀ c, a.client c = σ.clientD c
  server : a.server = σ.server.getD .new
  up : ∀ c, σ.clientDown c = false
  ok : ∀ p, (σ.pc p).Ok σ p
  held : ∀ p, σ.held p = true → (σ.pc p).mayHold = true

/-- Nothing is forgotten, and whoever finds its entry in a new state was signalled. -/
structure Sys.Mono (p : C × T) (σ τ : Sys C T) : Prop where
  client : ∀ c, (σ.client c).isSome → (τ.client c).isSome
  server : σ.server.isSome → τ.server.isSome
  awake : ∀ q, q ≠ p → τ.awake q = false → σ.awake q = false
  state : ∀ q, q ≠ p → τ.awake q = false →
    ((τ.clientD q.1).state = .none ∨ (τ.clientD q.1).state = .free) →
    (τ.clientD q.1).state = (σ.clientD q.1).state
  retry : ∀ q, q ≠ p → τ.awake q = false → (τ.clientD q.1).retry = true →
    (σ.clientD q.1).retry = true

section
variable {σ τ : Sys C T}

theorem Sys.clientD_of {c : C} {l : ClientLock} (h : σ.client c = some l) : σ.clientD c = l := by
  simp [Sys.clientD, h]

theorem AcquireCall.Ok.revoke {c d : C} {v : RevokeCall (ReleaseCall C)}
    (h : (AcquireCall.revoke d v).Ok σ c) : (σ.client d).isSome := by
  cases v with
  | release r => exact h.1
  | _ => exact h

theorem AcquireCall.Ok.mono {c : C} {a : AcquireCall C} (h : a.Ok σ c)
    (hc : ∀ c, (σ.client c).isSome → (τ.client c).isSome) : a.Ok τ c := by
  unfold AcquireCall.Ok at h ⊢
  split <;> simp_all

theorem Pc.Ok.mono {p q : C × T} {x : Pc C} (h : x.Ok σ q) (hm : Sys.Mono p σ τ) (hq : q ≠ p) :
    x.Ok τ q := by
  have hstate := hm.state q hq
  have hretry := hm.retry q hq
  have hawake := hm.awake q hq
  cases x with
  | acquireLock => exact hm.client _ h
  | acquireCall a =>
    cases a with
    | sent => trivial
    | _ => exact ⟨hm.server h.1, h.2.mono hm.client⟩
  | waitRetry =>
    intro hw
    have := h (hawake hw)
    grind
  | wait =>
    refine ⟨hm.client _ h.1, fun hw => ?_⟩
    have := h.2 (hawake hw)
    grind
  | releaseCall r => exact h
  | _ => trivial

section
variable [DecidableEq C] {p : C × T}

theorem Pc.convOf_own {x : Pc C} {v : Bool} (hx : x.other = none) (d : C) :
    x.convOf p v d = if d = p.1 then x.conv v else none := by
  simp [Pc.convOf, hx]

theorem Pc.convOf_nested {v : Bool} {d : C} {r : ReleaseCall C} (c : C) :
    (Pc.acquireCall (.revoke d (.release r))).convOf p v c =
      if c = d then some r.conv else if c = p.1 then some (.queued .done) else none := rfl

end
end

theorem eq_ite_self {α β : Type} [DecidableEq α] (f : α → β) (x y : α) :
    f y = if y = x then f x else f y := by
  split_ifs with h
  · rw [h]
  · rfl

namespace Refines
variable [DecidableEq C] {p : C × T} {σ τ : Sys C T} {a b : Proto C (C × T)}

theorem step_thread (h : Refines σ a) {p : C × T} (hm : Sys.Mono p σ τ)
    (hpc : ∀ q, q ≠ p → τ.pc q = σ.pc q ∧ τ.held q = σ.held q)
    (hconv : ∀ q, q ≠ p → ∀ c k, b.conv c = some (q, k) ↔ a.conv c = some (q, k))
    (hp : ∀ c k, b.conv c = some (p, k) ↔ (τ.pc p).convOf p (τ.held p) c = some k)
    (hclient : ∀ c, b.client c = τ.clientD c) (hserver : b.server = τ.server.getD .new)
    (hdown : τ.clientDown = σ.clientDown) (hok : (τ.pc p).Ok τ p)
    (hheld : τ.held p = true → (τ.pc p).mayHold = true) : Refines τ b where
  conv q c k := by
    by_cases hq : q = p
    · rw [hq]
      exact hp c k
    · rw [hconv q hq, (hpc q hq).1, (hpc q hq).2]
      exact h.conv q c k
  client := hclient
  server := hserver
  up c := hdown ▸ h.up c
  ok q := by
    by_cases hq : q = p
    · rw [hq]
      exact hok
    · rw [(hpc q hq).1]
      exact (h.ok q).mono hm hq
  held q := by
    by_cases hq : q = p
    · rw [hq]
      exact hheld
    · rw [(hpc q hq).1, (hpc q hq).2]
      exact h.held q

/-- Only the thread of a conversation can move it. -/
theorem thread_unique (h : Refines σ a) {p : C × T} {c : C} {k : Conv C}
    (hk : (σ.pc p).convOf p (σ.held p) c = some k) (q : C × T) (k' : Conv C)
    (hq : a.conv c = some (q, k')) : q = p := by
  rw [(h.conv p c k).2 hk] at hq
  simpa using (congrArg Prod.fst (Option.some.inj hq)).symm

theorem client_some (h : Refines σ a) {c : C} (hc : (a.client c).state ≠ .none) :
    σ.client c = some (a.client c) := by
  rw [h.client, Sys.clientD] at hc ⊢
  cases hl : σ.client c with
  | none => simp [hl, ClientLock.new] at hc
  | some l => rfl

theorem server_some (h : Refines σ a) (hs : a.server ≠ .new) : σ.server = some a.server := by
  rw [h.server] at hs ⊢
  cases hl : σ.server with
  | none => simp [hl] at hs
  | some s => rfl

theorem client_of_isSome (h : Refines σ a) {c : C} (hc : (σ.client c).isSome) :
    σ.client c = some (a.client c) := by
  obtain ⟨l, hl⟩ := Option.isSome_iff_exists.1 hc
  rw [h.client, Sys.clientD_of hl, hl]

theorem conv_own (h : Refines σ a) {x : Pc C} {k : Conv C} (hpc : σ.pc p = x)
    (hx : x.other = none) (hk : x.conv (σ.held p) = some k) : a.conv p.1 = some (p, k) := by
  rw [h.conv, hpc, Pc.convOf_own hx, if_pos rfl, hk]

theorem held_false (h : Refines σ a) (hp : (σ.pc p).mayHold = false) : σ.held p = false := by
  by_contra hne
  have := h.held p (by simpa using hne)
  simp [hp] at this

theorem server_of_isSome (h : Refines σ a) (hs : σ.server.isSome) : σ.server = some a.server := by
  obtain ⟨s, hs⟩ := Option.isSome_iff_exists.1 hs
  simp [h.server, hs]

theorem pending_some (h : Refines σ a) (hs : Safe a) {c : C} (hk : a.conv c = some (p, .pending)) :
    σ.server = some a.server := by
  obtain ⟨-, -, ho⟩ := hs.agrees_of hk
  apply h.server_some
  intro hn
  simp [hn, ServerLock.new] at ho

theorem handover_some (h : Refines σ a) (hs : Safe a) {c d : C} {x : Handover}
    (hk : a.conv c = some (p, .handover x d)) :
    σ.server = some a.server ∧ σ.client d = some (a.client d) ∧ (a.client d).state ≠ .free := by
  obtain ⟨-, -, -, hm, hd, -⟩ := hs.agrees_of hk
  obtain ⟨q, k, -, hst, -⟩ := hs.of_mem hd
  refine ⟨h.server_some ?_, h.client_some ?_, ?_⟩
  · intro hn
    simp [hn, ServerLock.new] at hm
  · simp [hst]
  · simp [hst]

theorem owner_some (h : Refines σ a) (hs : Safe a) {d : C} (ho : a.server.owner = some d) :
    σ.client d = some (a.client d) := by
  apply h.client_some
  intro hn
  have hA := hs.agrees d
  rcases hk : a.conv d with _ | ⟨q, k⟩
  · simp [hk, Agrees, hn, ho] at hA
  · rw [hk] at hA
    cases k <;> simp [Agrees, hn, ho] at hA

variable [DecidableEq T]

theorem step_conv (h : Refines σ a) {p : C × T} {c : C} {k : Option (Conv C)} {x : Pc C} {v : Bool}
    (hm : Sys.Mono p σ τ) (hpc : ∀ q, τ.pc q = if q = p then x else σ.pc q)
    (hheld : ∀ q, τ.held q = if q = p then v else σ.held q)
    (hb : ∀ d, b.conv d = if d = c then k.map (p, ·) else a.conv d)
    (ha : ∀ q k', a.conv c = some (q, k') → q = p)
    (hx : ∀ d, x.convOf p v d = if d = c then k else (σ.pc p).convOf p (σ.held p) d)
    (hclient : ∀ c, b.client c = τ.clientD c) (hserver : b.server = τ.server.getD .new)
    (hdown : τ.clientDown = σ.clientDown) (hok : x.Ok τ p) (hv : v = true → x.mayHold = true) :
    Refines τ b := by
  refine h.step_thread hm ?_ ?_ ?_ hclient hserver hdown (by simpa [hpc] using hok)
    (by simpa [hpc, hheld] using hv)
  · intro q hq
    simp [hpc, hheld, hq]
  · intro q hq d k'
    rw [hb]
    split_ifs with hd
    · subst hd
      refine ⟨fun hk => ?_, fun hk => absurd (ha q k' hk) hq⟩
      obtain ⟨y, -, hy⟩ := Option.map_eq_some_iff.1 hk
      exact absurd (congrArg Prod.fst hy).symm hq
    · exact Iff.rfl
  · intro d k'
    have hold := h.conv p d k'
    simp only [hpc, hheld, if_true, hb, hx]
    split_ifs with hd
    · simp
    · exact hold

theorem step_same (h : Refines σ a) {p : C × T} {x : Pc C} {v : Bool}
    (hm : Sys.Mono p σ τ) (hpc : ∀ q, τ.pc q = if q = p then x else σ.pc q)
    (hheld : ∀ q, τ.held q = if q = p then v else σ.held q)
    (hx : ∀ d, x.convOf p v d = (σ.pc p).convOf p (σ.held p) d)
    (hclient : ∀ c, τ.clientD c = σ.clientD c) (hserver : τ.server.getD .new = σ.server.getD .new)
    (hdown : τ.clientDown = σ.clientDown) (hok : x.Ok τ p) (hv : v = true → x.mayHold = true) :
    Refines τ a := by
  refine h.step_thread hm ?_ (fun _ _ _ _ => Iff.rfl) ?_ ?_ ?_ hdown (by simpa [hpc] using hok)
    (by simpa [hpc, hheld] using hv)
  · intro q hq
    simp [hpc, hheld, hq]
  · intro d k'
    simp only [hpc, hheld, if_true, hx]
    exact h.conv p d k'
  · intro c
    rw [hclient, h.client]
  · rw [hserver, h.server]

end Refines
end Yfs.Lock
