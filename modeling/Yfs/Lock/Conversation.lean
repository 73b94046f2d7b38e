import Yfs.Lock.Protocol
import Mathlib.Logic.Function.Basic

/-! The lock protocol of one lock id with at most one conversation for each client: a thread
of it owns the lock or asks for it, or some thread gives it back. The call chains of `System`
are shown to follow these moves; here the server's record and the clients' caches are shown
to agree. -/
namespace Yfs.Lock

/-- What is left of a `revoke` that a refused `acquire` has to deliver. -/
inductive Delivery (C : Type) where
  | readOwner | bind (dst : Option C) | revoke (dst : C) | done
  deriving DecidableEq, Repr

/-- The calls `lock_server_cache::release` makes with the mutex held. A `callback` is a
`release` call out of the very handler that the server is waiting for. -/
inductive Handover where
  | retry | retried | revoke | revoked | callback
  deriving DecidableEq, Repr

/-- A thread of the client owns the lock; its `acquire` has not been looked at, was answered
with `OK`, or was put on the wait list; its `release` has not been looked at, is being
processed, or is done at the server. -/
inductive Conv (C : Type) where
  | own
  | unserved | granted | queued (v : Delivery C)
  | pending | handover (h : Handover) (dst : C) | answered
  deriving DecidableEq, Repr

/-- The protocol state of one lock id; `conv c` is the conversation of client `c` and the
thread that carries it. Absent entries are read as new ones. -/
structure Proto (C P : Type) where
  conv : C → Option (P × Conv C)
  client : C → ClientLock
  server : ServerLock C

variable {C P : Type}

/-- What the server and client `c` have on record in each conversation of `c`. -/
def Agrees (s : ServerLock C) (c : C) (l : ClientLock) : Option (P × Conv C) → Prop
  | none => c ∉ s.waitList ∧
      (l.state = .none ∧ s.owner ≠ some c ∨ l.state = .free ∧ s.owner = some c)
  | some (_, .own) => c ∉ s.waitList ∧ l.state = .locked ∧ s.owner = some c
  | some (_, .unserved) => l.state = .acquiring ∧ s.owner ≠ some c
  | some (_, .granted) => c ∉ s.waitList ∧ l.state = .acquiring ∧ s.owner = some c
  | some (_, .queued _) => c ∈ s.waitList ∧ l.state = .acquiring ∧ s.owner ≠ some c
  | some (_, .pending) => c ∉ s.waitList ∧ l.state = .releasing ∧ s.owner = some c
  | some (_, .handover h d) => c ∉ s.waitList ∧ l.state = .releasing ∧ s.owner = none ∧
      s.mutex = true ∧ d ∈ s.waitList ∧ h ≠ .callback
  | some (_, .answered) => c ∉ s.waitList ∧ l.state = .releasing ∧ s.owner ≠ some c

structure Safe (a : Proto C P) : Prop where
  agrees : ∀ c, Agrees a.server c (a.client c) (a.conv c)
  owner_state : a.server.state = a.server.owner.isSome
  one_handover : ∀ c c' p p' h h' d d', a.conv c = some (p, .handover h d) →
    a.conv c' = some (p', .handover h' d') → c = c'

namespace Safe
variable {a : Proto C P}

theorem agrees_of (h : Safe a) {c : C} {k : Option (P × Conv C)} (hk : a.conv c = k) :
    Agrees a.server c (a.client c) k := hk ▸ h.agrees c

end Safe

theorem Agrees.of_state {s : ServerLock C} {c : C} {l l' : ClientLock} {k : Option (P × Conv C)}
    (h : Agrees s c l k) (hl : l'.state = l.state) : Agrees s c l' k := by
  rcases k with _ | ⟨p, k⟩
  · simpa only [Agrees, hl] using h
  · cases k <;> simpa only [Agrees, hl] using h

theorem Agrees.of_server {s s' : ServerLock C} {c : C} {l : ClientLock} {k : Option (P × Conv C)}
    (h : Agrees s c l k) (ho : s'.owner = some c ↔ s.owner = some c)
    (hw : c ∈ s'.waitList ↔ c ∈ s.waitList)
    (hh : ∀ p b d, k ≠ some (p, .handover b d)) : Agrees s' c l k := by
  rcases k with _ | ⟨p, k⟩
  · simpa only [Agrees, ho, hw, Ne] using h
  · cases k with
    | handover b d => exact absurd rfl (hh p b d)
    | _ => simpa only [Agrees, ho, hw, Ne] using h

namespace Safe
variable {a : Proto C P}

/-- A handover goes on only while the server holds the mutex. -/
theorem no_handover (h : Safe a) (hm : a.server.mutex = false) (c : C) (p : P) (b : Handover) (d : C) :
    a.conv c ≠ some (p, .handover b d) := by
  intro hk
  have := h.agrees_of hk
  simp [Agrees, hm] at this

theorem of_free (h : Safe a) {c : C} (hc : (a.client c).state = .free) :
    a.conv c = none ∧ c ∉ a.server.waitList ∧ a.server.owner = some c := by
  have hA := h.agrees c
  rcases hk : a.conv c with _ | ⟨q, k⟩
  · simp only [hk, Agrees, hc, reduceCtorEq, false_and, true_and, false_or] at hA
    exact ⟨rfl, hA⟩
  · rw [hk] at hA
    cases k <;> simp [Agrees, hc] at hA

theorem of_none (h : Safe a) {c : C} (hc : (a.client c).state = .none) : a.conv c = none := by
  have hA := h.agrees c
  rcases hk : a.conv c with _ | ⟨q, k⟩
  · rfl
  · rw [hk] at hA
    cases k <;> simp [Agrees, hc] at hA

theorem of_mem (h : Safe a) {c : C} (hc : c ∈ a.server.waitList) :
    ∃ p k, a.conv c = some (p, k) ∧ (a.client c).state = .acquiring ∧
      (k = .unserved ∨ ∃ v, k = .queued v) := by
  have hA := h.agrees c
  rcases hk : a.conv c with _ | ⟨q, k⟩
  · simp [hk, Agrees, hc] at hA
  · rw [hk] at hA
    cases k <;> simp_all [Agrees]

end Safe

namespace Proto

def setServer (a : Proto C P) (s : ServerLock C) : Proto C P := { a with server := s }

@[simp] theorem setServer_conv (a : Proto C P) (s : ServerLock C) :
    (a.setServer s).conv = a.conv := rfl

@[simp] theorem setServer_client (a : Proto C P) (s : ServerLock C) :
    (a.setServer s).client = a.client := rfl

@[simp] theorem setServer_server (a : Proto C P) (s : ServerLock C) :
    (a.setServer s).server = s := rfl

variable [LinearOrder C]

def setConv (a : Proto C P) (c : C) (k : Option (P × Conv C)) : Proto C P :=
  { a with conv := Function.update a.conv c k }

def setClient (a : Proto C P) (c : C) (l : ClientLock) : Proto C P :=
  { a with client := Function.update a.client c l }

@[simp] theorem setConv_conv (a : Proto C P) (c d : C) (k : Option (P × Conv C)) :
    (a.setConv c k).conv d = if d = c then k else a.conv d := Function.update_apply ..

@[simp] theorem setConv_client (a : Proto C P) (c : C) (k : Option (P × Conv C)) :
    (a.setConv c k).client = a.client := rfl

@[simp] theorem setConv_server (a : Proto C P) (c : C) (k : Option (P × Conv C)) :
    (a.setConv c k).server = a.server := rfl

theorem setClient_self (a : Proto C P) (c : C) : a.setClient c (a.client c) = a := by
  rw [setClient, Function.update_eq_self]

@[simp] theorem setClient_conv (a : Proto C P) (c : C) (l : ClientLock) :
    (a.setClient c l).conv = a.conv := rfl

@[simp] theorem setClient_client (a : Proto C P) (c d : C) (l : ClientLock) :
    (a.setClient c l).client d = if d = c then l else a.client d := Function.update_apply ..

@[simp] theorem setClient_server (a : Proto C P) (c : C) (l : ClientLock) :
    (a.setClient c l).server = a.server := rfl

def served : ServerNext → Conv C
  | .reply .ok => .granted
  | .reply _ => .queued .done
  | .revoke => .queued .readOwner

def taken : Option C → Conv C
  | none => .answered
  | some d => .handover .retry d

/-- The steps of the protocol. Thread `p` carries the conversation that moves. -/
inductive Move (a : Proto C P) : Proto C P → Prop
  | start (c : C) (p : P) (hk : a.conv c = none) (hst : (a.client c).state = .none) :
      Move a ((a.setClient c { a.client c with state := .acquiring }).setConv c (some (p, .unserved)))
  | lock (c : C) (p : P) (hk : a.conv c = none) (hst : (a.client c).state = .free) :
      Move a ((a.setClient c { a.client c with state := .locked }).setConv c (some (p, .own)))
  | serve (c : C) (p : P) (hk : a.conv c = some (p, .unserved)) (hm : a.server.mutex = false) :
      Move a ((a.setServer (a.server.acquire c).1).setConv c
        (some (p, served (a.server.acquire c).2)))
  | readOwner (c : C) (p : P) (hk : a.conv c = some (p, .queued .readOwner)) :
      Move a (a.setConv c (some (p, .queued (.bind a.server.owner))))
  | bind (c d : C) (p : P) (hk : a.conv c = some (p, .queued (.bind (some d)))) :
      Move a (a.setConv c (some (p, .queued (.revoke d))))
  | revokeFlag (c d : C) (p : P) (hk : a.conv c = some (p, .queued (.revoke d)))
      (hst : (a.client d).state ≠ .free) :
      Move a ((a.setClient d { a.client d with revoke := true }).setConv c
        (some (p, .queued .done)))
  | revokeFree (c d : C) (p : P) (hk : a.conv c = some (p, .queued (.revoke d)))
      (hst : (a.client d).state = .free) :
      Move a (((a.setClient d { a.client d with state := .releasing }).setConv c
        (some (p, .queued .done))).setConv d (some (p, .pending)))
  | obtain (c : C) (p : P) (hk : a.conv c = some (p, .granted)) :
      Move a ((a.setClient c { a.client c with state := .locked }).setConv c (some (p, .own)))
  | again (c : C) (p : P) (hk : a.conv c = some (p, .queued .done))
      (hr : (a.client c).retry = true) :
      Move a ((a.setClient c { a.client c with state := .acquiring, retry := false }).setConv c
        (some (p, .unserved)))
  | letGo (c : C) (p : P) (hk : a.conv c = some (p, .own)) (hr : (a.client c).revoke = false) :
      Move a ((a.setClient c { a.client c with state := .free }).setConv c none)
  | giveBack (c : C) (p : P) (hk : a.conv c = some (p, .own)) (hr : (a.client c).revoke = true) :
      Move a ((a.setClient c { a.client c with state := .releasing, revoke := false }).setConv c
        (some (p, .pending)))
  | take (c : C) (p : P) (hk : a.conv c = some (p, .pending)) (hm : a.server.mutex = false) :
      Move a ((a.setServer a.server.release.1).setConv c (some (p, taken a.server.release.2)))
  | retryFlag (c d : C) (p : P) (hk : a.conv c = some (p, .handover .retry d)) :
      Move a ((a.setClient d { a.client d with retry := true }).setConv c
        (some (p, .handover .retried d)))
  | more (c d : C) (p : P) (hk : a.conv c = some (p, .handover .retried d))
      (hw : a.server.moreWaiting = true) :
      Move a (a.setConv c (some (p, .handover .revoke d)))
  | last (c d : C) (p : P) (hk : a.conv c = some (p, .handover .retried d))
      (hw : a.server.moreWaiting = false) :
      Move a ((a.setServer { a.server with mutex := false }).setConv c (some (p, .answered)))
  | revokeNext (c d : C) (p : P) (hk : a.conv c = some (p, .handover .revoke d))
      (hst : (a.client d).state ≠ .free) :
      Move a ((a.setClient d { a.client d with revoke := true }).setConv c
        (some (p, .handover .revoked d)))
  | finish (c d : C) (p : P) (hk : a.conv c = some (p, .handover .revoked d)) :
      Move a ((a.setServer { a.server with mutex := false }).setConv c (some (p, .answered)))
  | done (c : C) (p : P) (hk : a.conv c = some (p, .answered)) :
      Move a ((a.setClient c { a.client c with state := .none }).setConv c none)

end Proto

namespace Safe
variable [LinearOrder C] {a b : Proto C P}

theorem setClient (h : Safe a) {c : C} {l : ClientLock} {k : Option (P × Conv C)}
    (hk : Agrees a.server c l k)
    (hh : ∀ p b d, k = some (p, .handover b d) → ∃ p' b' d', a.conv c = some (p', .handover b' d')) :
    Safe ((a.setClient c l).setConv c k) where
  agrees d := by
    by_cases hd : d = c
    · subst hd
      simpa using hk
    · simpa [hd] using h.agrees d
  owner_state := h.owner_state
  one_handover d d' p p' b b' x x' h₁ h₂ := by
    simp only [Proto.setConv_conv, Proto.setClient_conv] at h₁ h₂
    split_ifs at h₁ h₂ with e e' e'
    · exact e.trans e'.symm
    · obtain ⟨p₀, b₀, d₀, h₀⟩ := hh _ _ _ h₁
      exact e.trans (h.one_handover _ _ _ _ _ _ _ _ h₀ h₂)
    · obtain ⟨p₀, b₀, d₀, h₀⟩ := hh _ _ _ h₂
      exact (h.one_handover _ _ _ _ _ _ _ _ h₁ h₀).trans e'.symm
    · exact h.one_handover d d' p p' b b' x x' h₁ h₂

theorem setConv (h : Safe a) {c : C} {k : Option (P × Conv C)}
    (hk : Agrees a.server c (a.client c) k)
    (hh : ∀ p b d, k = some (p, .handover b d) → ∃ p' b' d', a.conv c = some (p', .handover b' d')) :
    Safe (a.setConv c k) := by
  have hset := h.setClient hk hh
  rwa [Proto.setClient_self] at hset

theorem setFlag (h : Safe a) (c : C) {l : ClientLock} (hl : l.state = (a.client c).state) :
    Safe (a.setClient c l) where
  agrees d := by
    by_cases hd : d = c
    · subst hd
      simpa using (h.agrees d).of_state hl
    · simpa [hd] using h.agrees d
  owner_state := h.owner_state
  one_handover := h.one_handover

theorem setServer (h : Safe a) {c : C} {s : ServerLock C} {k : Option (P × Conv C)}
    (hk : Agrees s c (a.client c) k) (hs : s.state = s.owner.isSome)
    (ho : ∀ d, d ≠ c → (s.owner = some d ↔ a.server.owner = some d))
    (hw : ∀ d, d ≠ c → (d ∈ s.waitList ↔ d ∈ a.server.waitList))
    (hh : ∀ d p b x, d ≠ c → a.conv d ≠ some (p, .handover b x)) :
    Safe ((a.setServer s).setConv c k) where
  agrees d := by
    by_cases hd : d = c
    · subst hd
      simpa using hk
    · simpa [hd] using (h.agrees d).of_server (ho d hd) (hw d hd) (fun p b x => hh d p b x hd)
  owner_state := hs
  one_handover d d' p p' b b' x x' h₁ h₂ := by
    simp only [Proto.setConv_conv, Proto.setServer_conv] at h₁ h₂
    split_ifs at h₁ h₂ with e e' e'
    · exact e.trans e'.symm
    · exact absurd h₂ (hh d' _ _ _ e')
    · exact absurd h₁ (hh d _ _ _ e)
    · exact absurd h₁ (hh d _ _ _ e)

theorem serve (h : Safe a) {c : C} {p : P} (hk : a.conv c = some (p, .unserved))
    (hm : a.server.mutex = false) :
    Safe ((a.setServer (a.server.acquire c).1).setConv c
      (some (p, Proto.served (a.server.acquire c).2))) := by
  obtain ⟨hst, ho⟩ := h.agrees_of hk
  have hs := h.owner_state
  have hh : ∀ d q b x, d ≠ c → a.conv d ≠ some (q, .handover b x) :=
    fun d q b x _ => h.no_handover hm d q b x
  unfold ServerLock.acquire
  split_ifs with hf hr
  · have hnone : a.server.owner = none := by
      rw [hf] at hs
      simpa using hs.symm
    refine h.setServer ?_ rfl ?_ ?_ hh
    · exact ⟨by simp, hst, rfl⟩
    · intro d hd
      simp [hnone, Ne.symm hd]
    · intro d hd
      simp [hd]
  · refine h.setServer ⟨by simp, hst, ho⟩ hs (fun d _ => Iff.rfl) ?_ hh
    intro d hd
    simp [hd]
  · refine h.setServer ⟨by simp, hst, ho⟩ hs (fun d _ => Iff.rfl) ?_ hh
    intro d hd
    simp [hd]

theorem take (h : Safe a) {c : C} {p : P} (hk : a.conv c = some (p, .pending))
    (hm : a.server.mutex = false) :
    Safe ((a.setServer a.server.release.1).setConv c (some (p, Proto.taken a.server.release.2))) := by
  obtain ⟨hw, hst, ho⟩ := h.agrees_of hk
  have hh : ∀ d q b x, d ≠ c → a.conv d ≠ some (q, .handover b x) :=
    fun d q b x _ => h.no_handover hm d q b x
  have hod : ∀ d, d ≠ c → ((none : Option C) = some d ↔ a.server.owner = some d) := by
    intro d hd
    simp [ho, Ne.symm hd]
  unfold ServerLock.release
  dsimp only
  split_ifs with hn
  · refine h.setServer ⟨hw, hst, rfl, rfl, ?_, by simp⟩ rfl hod (fun d _ => Iff.rfl) hh
    exact Finset.min'_mem _ hn
  · exact h.setServer ⟨hw, hst, by simp⟩ rfl hod (fun d _ => Iff.rfl) hh

private theorem unlock (h : Safe a) {c : C} {p : P} {b : Handover} {d : C}
    (hk : a.conv c = some (p, .handover b d)) :
    Safe ((a.setServer { a.server with mutex := false }).setConv c (some (p, .answered))) := by
  obtain ⟨hw, hst, ho, -⟩ := h.agrees_of hk
  refine h.setServer ⟨hw, hst, by simp [ho]⟩ h.owner_state (fun d _ => Iff.rfl) (fun d _ => Iff.rfl) ?_
  intro x q b' y hx hk'
  exact hx (h.one_handover _ _ _ _ _ _ _ _ hk' hk)

/-- Every move keeps the server's record and the clients' caches in agreement. -/
theorem step (h : Safe a) (m : Proto.Move a b) : Safe b := by
  cases m with
  | start c p hk hst =>
    obtain ⟨hw, ⟨-, ho⟩ | ⟨hf, -⟩⟩ := h.agrees_of hk
    · exact h.setClient ⟨rfl, ho⟩ (by simp)
    · simp [hst] at hf
  | lock c p hk hst =>
    obtain ⟨hw, ⟨hf, -⟩ | ⟨-, ho⟩⟩ := h.agrees_of hk
    · simp [hst] at hf
    · exact h.setClient ⟨hw, rfl, ho⟩ (by simp)
  | serve c p hk hm => exact h.serve hk hm
  | readOwner c p hk =>
    obtain ⟨hw, hst, ho⟩ := h.agrees_of hk
    exact h.setConv ⟨hw, hst, ho⟩ (by simp)
  | bind c d p hk =>
    obtain ⟨hw, hst, ho⟩ := h.agrees_of hk
    exact h.setConv ⟨hw, hst, ho⟩ (by simp)
  | revokeFlag c d p hk hst =>
    have h' := h.setFlag d (l := { a.client d with revoke := true }) rfl
    obtain ⟨hw, hs, ho⟩ := h'.agrees_of (c := c) hk
    exact h'.setConv ⟨hw, hs, ho⟩ (by simp)
  | revokeFree c d p hk hst =>
    obtain ⟨hw, hs, ho⟩ := h.agrees_of hk
    have hcd : c ≠ d := by
      rintro rfl
      simp [hst] at hs
    have hd := h.of_free hst
    have h' := h.setConv (c := c) (k := some (p, .queued .done)) ⟨hw, hs, ho⟩ (by simp)
    have h'' := h'.setClient (c := d) (l := { a.client d with state := .releasing })
      (k := some (p, .pending)) ⟨hd.2.1, rfl, hd.2.2⟩ (by simp)
    exact h''
  | obtain c p hk =>
    obtain ⟨hw, -, ho⟩ := h.agrees_of hk
    exact h.setClient ⟨hw, rfl, ho⟩ (by simp)
  | again c p hk hr =>
    obtain ⟨-, -, ho⟩ := h.agrees_of hk
    exact h.setClient ⟨rfl, ho⟩ (by simp)
  | letGo c p hk hr =>
    obtain ⟨hw, -, ho⟩ := h.agrees_of hk
    exact h.setClient ⟨hw, Or.inr ⟨rfl, ho⟩⟩ (by simp)
  | giveBack c p hk hr =>
    obtain ⟨hw, -, ho⟩ := h.agrees_of hk
    exact h.setClient ⟨hw, rfl, ho⟩ (by simp)
  | take c p hk hm => exact h.take hk hm
  | retryFlag c d p hk =>
    have h' := h.setFlag d (l := { a.client d with retry := true }) rfl
    obtain ⟨hw, hs, ho, hm, hd, -⟩ := h'.agrees_of (c := c) hk
    exact h'.setConv ⟨hw, hs, ho, hm, hd, by simp⟩ (fun _ _ _ _ => ⟨_, _, _, hk⟩)
  | more c d p hk hw' =>
    obtain ⟨hw, hs, ho, hm, hd, -⟩ := h.agrees_of hk
    exact h.setConv ⟨hw, hs, ho, hm, hd, by simp⟩ (fun _ _ _ _ => ⟨_, _, _, hk⟩)
  | last c d p hk hw' => exact h.unlock hk
  | revokeNext c d p hk hst =>
    have h' := h.setFlag d (l := { a.client d with revoke := true }) rfl
    obtain ⟨hw, hs, ho, hm, hd, -⟩ := h'.agrees_of (c := c) hk
    exact h'.setConv ⟨hw, hs, ho, hm, hd, by simp⟩ (fun _ _ _ _ => ⟨_, _, _, hk⟩)
  | finish c d p hk => exact h.unlock hk
  | done c p hk =>
    obtain ⟨hw, -, ho⟩ := h.agrees_of hk
    exact h.setClient ⟨hw, Or.inl ⟨rfl, ho⟩⟩ (by simp)

end Safe
end Yfs.Lock
