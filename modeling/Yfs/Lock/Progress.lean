import Yfs.Lock.Conversation

/-! No waiting client is forgotten: as long as a client is on the wait list, some flag or some
call on its way hands the lock over. -/
namespace Yfs.Lock
variable {C P : Type}

/-- Client `c` is going to ask the server again: its request is on its way, or it is on the
wait list with the retry flag up. -/
def Active (a : Proto C P) (c : C) : Prop :=
  ∃ p k, a.conv c = some (p, k) ∧ (k = .unserved ∨ (∃ v, k = .queued v) ∧ (a.client c).retry = true)

/-- Client `c` is going to give the lock back: it is flagged, doing so, or about to be told. -/
def Recalled (a : Proto C P) (c : C) : Prop :=
  (a.client c).revoke = true ∨ (∃ p, a.conv c = some (p, .pending)) ∨
    ∃ d p v, a.conv d = some (p, .queued v) ∧ (v = .readOwner ∨ v = .bind (some c) ∨ v = .revoke c)

/-- Whoever waits for the lock is going to get it: a free lock has a waiting client that asks
again, and this client will have to give the lock back if it is not the only one; a taken lock
has an owner that gives it back or a waiting client that asks again. -/
structure Live (a : Proto C P) : Prop where
  mutex : a.server.mutex = true → ∃ c p h d, a.conv c = some (p, .handover h d)
  flag : ∀ c, (a.client c).state = .free → (a.client c).revoke = false
  handover : ∀ c p h d, a.conv c = some (p, .handover h d) →
    (h ≠ .retry → Active a d) ∧ (h = .revoked → (a.client d).revoke = true)
  free : a.server.owner = none → a.server.mutex = false → a.server.waitList.Nonempty →
    ∃ d ∈ a.server.waitList, Active a d ∧ (1 < a.server.waitList.card → (a.client d).revoke = true)
  taken : ∀ c, a.server.owner = some c → (a.server.revoke = true → Recalled a c) ∧
    (a.server.waitList.Nonempty → Recalled a c ∨ ∃ d ∈ a.server.waitList, Active a d)

variable {a b : Proto C P}

theorem Active.ne_of {c d : C} {p : P} {k : Conv C} (h : Active a d) (hk : a.conv c = some (p, k))
    (h₁ : k ≠ .unserved) (h₂ : ∀ v, k ≠ .queued v) : d ≠ c := by
  rintro rfl
  obtain ⟨q, k', hk', h'⟩ := h
  grind

variable [LinearOrder C]

/-- How a move acts on the server's entry. -/
inductive Proto.Change (a b : Proto C P) : Prop
  | same (hs : b.server = a.server) (ha : ∀ c, Active a c → Active b c)
  | serve (c : C) (p : P) (hk : a.conv c = some (p, .unserved)) (hm : a.server.mutex = false)
      (hb : b = (a.setServer (a.server.acquire c).1).setConv c
        (some (p, Proto.served (a.server.acquire c).2)))
  | take (c : C) (p : P) (hk : a.conv c = some (p, .pending)) (hm : a.server.mutex = false)
      (hb : b = (a.setServer a.server.release.1).setConv c
        (some (p, Proto.taken a.server.release.2)))
  | unlock (c : C) (p : P) (h : Handover) (d : C) (hk : a.conv c = some (p, .handover h d))
      (hh : h = .retried ∧ a.server.moreWaiting = false ∨ h = .revoked)
      (hb : b = (a.setServer { a.server with mutex := false }).setConv c (some (p, .answered)))

theorem Proto.Move.change (m : Proto.Move a b) (hs : Safe a) : Proto.Change a b := by
  cases m with
  | serve c p hk hm => exact .serve c p hk hm rfl
  | take c p hk hm => exact .take c p hk hm rfl
  | last c d p hk hw => exact .unlock c p _ d hk (Or.inl ⟨rfl, hw⟩) rfl
  | finish c d p hk => exact .unlock c p _ d hk (Or.inr rfl) rfl
  | revokeFree c d p hk hst =>
    have hd := (hs.of_free hst).1
    refine .same rfl fun x h => ?_
    simp only [Active, Proto.setConv_conv, Proto.setClient_conv, Proto.setConv_client,
      Proto.setClient_client] at h ⊢
    grind
  | _ =>
    refine .same rfl fun x h => ?_
    simp only [Active, Proto.setConv_conv, Proto.setClient_conv, Proto.setConv_client,
      Proto.setClient_client] at h ⊢
    grind

theorem Active.of_ne {c d : C} {s : ServerLock C} {k : Option (P × Conv C)} (h : Active a d)
    (hd : d ≠ c) : Active ((a.setServer s).setConv c k) d := by
  simpa [Active, hd] using h

theorem Recalled.step {c : C} (hs : Safe a) (h : Recalled a c) (m : Proto.Move a b)
    (ha : a.server.owner = some c) (hb : b.server.owner = some c) : Recalled b c := by
  cases m with
  | take d p hk hm =>
    simp only [Proto.setConv_server, Proto.setServer_server, ServerLock.release] at hb
    split_ifs at hb
  | revokeFree d x p hk hst =>
    have hx := (hs.of_free hst).1
    simp only [Recalled, Proto.setConv_conv, Proto.setClient_conv, Proto.setConv_client,
      Proto.setClient_client] at h ⊢
    grind
  | _ =>
    simp only [Recalled, Proto.setConv_conv, Proto.setClient_conv, Proto.setServer_conv,
      Proto.setConv_client, Proto.setClient_client, Proto.setServer_client] at h ⊢
    grind

/-- A revoke flag stays up until its client gives the lock back. -/
theorem Proto.Move.revoke_mono (m : Proto.Move a b) {c : C} (h : (a.client c).revoke = true)
    (hk : ∀ p, a.conv c ≠ some (p, .own)) : (b.client c).revoke = true := by
  cases m <;>
  · simp only [Proto.setConv_client, Proto.setClient_client, Proto.setServer_client]
    grind

theorem Proto.Move.handover_cases (m : Proto.Move a b) {c : C} {p : P} {x : Handover} {d : C}
    (h : b.conv c = some (p, .handover x d)) :
    a.conv c = some (p, .handover x d) ∨ x = .retry ∨
    (x = .retried ∧ (b.client d).retry = true) ∨
    (a.conv c = some (p, .handover .retried d) ∧ x = .revoke) ∨
    (a.conv c = some (p, .handover .revoke d) ∧ x = .revoked ∧ (b.client d).revoke = true) := by
  cases m with
  | serve e q hk hm =>
    left
    simp only [Proto.setConv_conv, Proto.setServer_conv] at h
    split_ifs at h
    · unfold Proto.served at h
      split at h <;> simp at h
    · exact h
  | take e q hk hm =>
    simp only [Proto.setConv_conv, Proto.setServer_conv] at h
    split_ifs at h
    · unfold Proto.taken at h
      split at h <;> simp_all
    · exact Or.inl h
  | _ =>
    simp only [Proto.setConv_conv, Proto.setClient_conv, Proto.setServer_conv,
      Proto.setConv_client, Proto.setClient_client, Proto.setServer_client] at h ⊢
    grind

namespace Live

theorem flag_step (h : Live a) (m : Proto.Move a b) (c : C) (hc : (b.client c).state = .free) :
    (b.client c).revoke = false := by
  have hf := h.flag
  cases m <;>
  · simp only [Proto.setConv_client, Proto.setClient_client, Proto.setServer_client] at hc ⊢
    grind

theorem mutex_step (h : Live a) (hs : Safe a) (m : Proto.Move a b) (hm : b.server.mutex = true) :
    ∃ c p h d, b.conv c = some (p, .handover h d) := by
  have hf := h.mutex
  cases m with
  | serve c p hk hm' =>
    simp only [Proto.setConv_server, Proto.setServer_server, ServerLock.acquire] at hm
    split_ifs at hm <;> simp [hm'] at hm
  | take c p hk hm' =>
    simp only [Proto.setConv_server, Proto.setServer_server, ServerLock.release] at hm
    split_ifs at hm with hn
    · refine ⟨c, p, .retry, a.server.waitList.min' hn, ?_⟩
      simp [ServerLock.release, hn, Proto.taken]
    · simp [hm'] at hm
  | revokeFree c d p hk hst =>
    have hd := (hs.of_free hst).1
    simp only [Proto.setConv_conv, Proto.setClient_conv, Proto.setConv_server,
      Proto.setClient_server] at hm ⊢
    grind
  | last | finish => simp at hm
  | _ =>
    simp only [Proto.setConv_conv, Proto.setClient_conv, Proto.setConv_server,
      Proto.setClient_server] at hm ⊢
    grind

/-- A handover that goes on keeps the retry of its client alive. -/
theorem active_step (h : Live a) (hs : Safe a) (m : Proto.Move a b) {c : C} {p q : P} {x y : Handover}
    {d : C} (ha : a.conv c = some (p, .handover x d)) (hb : b.conv c = some (q, .handover y d))
    (hx : x ≠ .retry) : Active b d := by
  have hact := (h.handover c p x d ha).1 hx
  cases m.change hs with
  | same hs' hab => exact hab d hact
  | serve c' p' hk hm | take c' p' hk hm => exact absurd ha (hs.no_handover hm _ _ _ _)
  | unlock c' p' z e hk hz heq =>
    obtain rfl := hs.one_handover _ _ _ _ _ _ _ _ ha hk
    simp [heq] at hb

theorem handover_step (h : Live a) (hs : Safe a) (m : Proto.Move a b) {c : C} {p : P} {x : Handover}
    {d : C} (hk : b.conv c = some (p, .handover x d)) :
    (x ≠ .retry → Active b d) ∧ (x = .revoked → (b.client d).revoke = true) := by
  obtain ⟨-, -, -, -, hd, -⟩ := (hs.step m).agrees_of hk
  obtain ⟨q, k, hq, -, hkq⟩ := (hs.step m).of_mem hd
  rcases m.handover_cases hk with ha | rfl | ⟨rfl, hr⟩ | ⟨ha, rfl⟩ | ⟨ha, rfl, hr⟩
  · refine ⟨fun hx => h.active_step hs m ha hk hx, fun hx => ?_⟩
    obtain ⟨-, -, -, -, hda, -⟩ := hs.agrees_of ha
    obtain ⟨q', k', hq', -, hkq'⟩ := hs.of_mem hda
    exact m.revoke_mono ((h.handover c p x d ha).2 hx) (by grind)
  · simp
  · refine ⟨fun _ => ⟨q, k, hq, ?_⟩, by simp⟩
    exact hkq.imp_right fun hv => ⟨hv, hr⟩
  · exact ⟨fun _ => h.active_step hs m ha hk (by simp), by simp⟩
  · exact ⟨fun _ => h.active_step hs m ha hk (by simp), fun _ => hr⟩

theorem free_step (h : Live a) (hs : Safe a) (m : Proto.Move a b) (ho : b.server.owner = none)
    (hm : b.server.mutex = false) (hw : b.server.waitList.Nonempty) :
    ∃ d ∈ b.server.waitList, Active b d ∧ (1 < b.server.waitList.card → (b.client d).revoke = true) := by
  cases m.change hs with
  | same hb ha =>
    rw [hb] at ho hm hw ⊢
    obtain ⟨d, hd, hact, hrev⟩ := h.free ho hm hw
    refine ⟨d, hd, ha d hact, fun hc => m.revoke_mono (hrev hc) fun p hp => ?_⟩
    obtain ⟨q, k, hk, -, hk'⟩ := hs.of_mem hd
    grind
  | serve c p hk hm' hb =>
    have hso := hs.owner_state
    subst hb
    simp only [Proto.setConv_server, Proto.setServer_server, ServerLock.acquire] at ho
    split_ifs at ho with h₁ h₂ <;> simp_all
  | take c p hk hm' hb =>
    subst hb
    simp only [Proto.setConv_server, Proto.setServer_server, ServerLock.release] at hm hw
    split_ifs at hm hw with hn
    exact absurd hw hn
  | unlock c p x d hk hx hb =>
    obtain ⟨-, -, -, -, hd, -⟩ := hs.agrees_of hk
    obtain ⟨hact, hrev⟩ := h.handover c p x d hk
    subst hb
    refine ⟨d, hd, (hact ?_).of_ne ?_, ?_⟩
    · rintro rfl
      simp at hx
    · exact (hact (by rintro rfl; simp at hx)).ne_of hk (by simp) (by simp)
    · intro hc
      rcases hx with ⟨rfl, hmw⟩ | rfl
      · simp only [ServerLock.moreWaiting, decide_eq_false_iff_not] at hmw
        exact absurd hc hmw
      · exact hrev rfl

theorem taken_step (h : Live a) (hs : Safe a) (m : Proto.Move a b) {c : C}
    (ho : b.server.owner = some c) : (b.server.revoke = true → Recalled b c) ∧
    (b.server.waitList.Nonempty → Recalled b c ∨ ∃ d ∈ b.server.waitList, Active b d) := by
  cases m.change hs with
  | same hb ha =>
    rw [hb] at ho ⊢
    obtain ⟨h₁, h₂⟩ := h.taken c ho
    have hr : Recalled a c → Recalled b c := fun hr => hr.step hs m ho (by rw [hb, ho])
    refine ⟨fun hv => hr (h₁ hv), fun hw => (h₂ hw).imp hr ?_⟩
    exact fun ⟨d, hd, hact⟩ => ⟨d, hd, ha d hact⟩
  | serve d p hk hm hb =>
    have hso := hs.owner_state
    by_cases hf : a.server.state = false
    · rw [hf] at hso
      have hn : a.server.owner = none := by simpa using hso.symm
      simp only [ServerLock.acquire, hf, if_true] at hb
      subst hb
      obtain rfl : d = c := by simpa using ho
      refine ⟨by simp, fun hw => ?_⟩
      simp only [Proto.setConv_server, Proto.setServer_server] at hw ⊢
      obtain ⟨e, he⟩ := hw
      obtain ⟨x, hx, hact, hrev⟩ := h.free hn hm ⟨e, Finset.mem_of_mem_erase he⟩
      by_cases hxd : x = d
      · subst hxd
        have hc : 1 < a.server.waitList.card :=
          Finset.one_lt_card.2 ⟨x, hx, e, Finset.mem_of_mem_erase he, (Finset.ne_of_mem_erase he).symm⟩
        exact Or.inl (Or.inl (hrev hc))
      · exact Or.inr ⟨x, Finset.mem_erase.2 ⟨hxd, hx⟩, hact.of_ne hxd⟩
    · have hcd : a.server.owner = some c := by
        subst hb
        simp only [Proto.setConv_server, Proto.setServer_server, ServerLock.acquire, if_neg hf] at ho
        split_ifs at ho <;> exact ho
      have hr : Recalled b c := by
        by_cases hv : a.server.revoke = true
        · exact ((h.taken c hcd).1 hv).step hs m hcd ho
        · refine Or.inr (Or.inr ⟨d, p, .readOwner, ?_, Or.inl rfl⟩)
          simp [hb, ServerLock.acquire, hf, hv, Proto.served]
      exact ⟨fun _ => hr, fun _ => Or.inl hr⟩
  | take d p hk hm' hb =>
    subst hb
    simp only [Proto.setConv_server, Proto.setServer_server, ServerLock.release] at ho
    split_ifs at ho
  | unlock d p x y hk hx hb =>
    obtain ⟨-, -, hn, -⟩ := hs.agrees_of hk
    subst hb
    simp [hn] at ho

theorem step (h : Live a) (hs : Safe a) (m : Proto.Move a b) : Live b where
  mutex := h.mutex_step hs m
  flag := h.flag_step m
  handover _ _ _ _ := h.handover_step hs m
  free := h.free_step hs m
  taken _ := h.taken_step hs m

end Live
end Yfs.Lock
