import Yfs.Lock.Safety

/-! The lock service as its callers see it: a thread is in a call on a lock id or in none, and the lock
changes hands when `acquire` returns and when `release` is called. -/
namespace Yfs.Lock
variable {C T L : Type}

def Pc.Acquires : Pc C → Prop
  | .acquire | .acquireLock | .acquireCall _ | .waitRetry | .wait => True
  | _ => False

def Pc.Releases : Pc C → Prop
  | .release | .releaseLock | .releaseCall _ => True
  | _ => False

namespace Sys
variable [LinearOrder C] {σ τ : Sys C T} {p : C × T}

theorem find_held {X : Type} {c : C} {x y z : X} (h : σ.find c x y = some (τ, z)) :
    τ.held = σ.held ∧ (z = x ∨ z = y) := by
  unfold find at h
  split_ifs at h
  split at h <;> cases h <;> simp [failClient]

theorem retryStep_held {d : C} {q q' : RetryCall} (h : σ.retryStep d q = some (τ, q')) : τ.held = σ.held := by
  cases q with
  | sent => exact (find_held h).1
  | found =>
    simp only [retryStep] at h
    split_ifs at h
    obtain ⟨l, -, hl⟩ := Option.map_eq_some_iff.1 h
    cases hl
    rfl
  | replied => simp [retryStep] at h

theorem revokeStep_held {R : Type} {r : R} {d : C} {v v' : RevokeCall R}
    (h : revokeStep r σ d v = some (τ, v')) : τ.held = σ.held := by
  cases v with
  | sent => exact (find_held h).1
  | found =>
    simp only [revokeStep] at h
    split_ifs at h
    obtain ⟨l, -, hl⟩ := Option.map_eq_some_iff.1 h
    cases hl
    rfl
  | _ => simp [revokeStep] at h

theorem releaseStep_held {r r' : ReleaseCall C} (h : σ.releaseStep r = some (τ, r')) : τ.held = σ.held := by
  unfold releaseStep at h
  grind [Option.map_eq_some_iff, Option.bind_eq_some_iff, findServer, failServer, setServer,
    → retryStep_held, → revokeStep_held]

private theorem acquireStep_held {c : C} {x x' : AcquireCall C} (h : σ.acquireStep c x = some (τ, x')) :
    τ.held = σ.held := by
  unfold acquireStep at h
  grind [Option.map_eq_some_iff, Option.bind_eq_some_iff, failServer, setServer, revokeReply,
    failClient, setClient, releaseStep_held, → revokeStep_held]

variable [DecidableEq T]

theorem acquireSection_cases {f : ClientLock → Section AcquireNext} (h : σ.acquireSection p f = some τ) :
    ((τ.pc p).Acquires ∧ τ.held = σ.held) ∨ (τ.pc p = .idle ∧ τ.held = Function.update σ.held p true) := by
  unfold acquireSection at h
  split_ifs at h
  obtain ⟨l, -, rfl⟩ := Option.map_eq_some_iff.1 h
  dsimp only
  split <;> simp [setPc, setClient, Pc.Acquires]

theorem run_acquires (hpc : (σ.pc p).Acquires) (h : σ.run p = some τ) :
    ((τ.pc p).Acquires ∧ τ.held = σ.held) ∨ (τ.pc p = .idle ∧ τ.held = Function.update σ.held p true) := by
  unfold run at h
  split at h
  case h_1 => simp at h
  case h_2 =>
    split_ifs at h
    cases h
    simp [setPc, Pc.Acquires]
  case h_3 => exact acquireSection_cases h
  case h_4 | h_5 =>
    split_ifs at h
    exact acquireSection_cases h
  case h_6 => exact acquireSection_cases h
  case h_7 =>
    obtain ⟨x, hx, rfl⟩ := Option.map_eq_some_iff.1 h
    simp [setPc, Pc.Acquires, acquireStep_held hx]
  all_goals simp_all [Pc.Acquires]

private theorem releaseSection_cases (s : Option (Section ReleaseNext)) (hpc : (σ.pc p).Releases) :
    (((σ.releaseSection p s).pc p).Releases ∨ (σ.releaseSection p s).pc p = .idle) ∧
      (σ.releaseSection p s).held = σ.held := by
  cases s with
  | none => exact ⟨.inl hpc, rfl⟩
  | some s =>
    simp only [releaseSection, setPc, setClient, Function.update_self, and_true]
    split
    · exact .inl trivial
    · exact .inr rfl

theorem run_releases (hpc : (σ.pc p).Releases) (h : σ.run p = some τ) :
    ((τ.pc p).Releases ∨ τ.pc p = .idle) ∧ τ.held = σ.held := by
  unfold run at h
  split at h
  case h_8 =>
    obtain ⟨x, hx, rfl⟩ := Option.map_eq_some_iff.1 h
    obtain ⟨hheld, hx⟩ := find_held hx
    rcases hx with hx | hx <;> simp [setPc, hx, hheld, Pc.Releases]
  case h_9 | h_10 =>
    split_ifs at h
    obtain ⟨l, -, rfl⟩ := Option.map_eq_some_iff.1 h
    exact releaseSection_cases _ hpc
  case h_11 =>
    obtain ⟨x, hx, rfl⟩ := Option.map_eq_some_iff.1 h
    simp [setPc, Pc.Releases, releaseStep_held hx]
  all_goals simp_all [Pc.Releases]

theorem step_held {e : Event C T} {q : C × T} (h : σ.step e = some τ) (hq : q ≠ e.thread) :
    τ.held q = σ.held q := by
  cases e with
  | acquire p | spurious p =>
    simp only [step] at h
    split_ifs at h
    cases h
    rfl
  | release p =>
    simp only [step] at h
    split_ifs at h
    cases h
    exact Function.update_of_ne hq _ _
  | run p =>
    have hcases : (σ.pc p).Acquires ∨ (σ.pc p).Releases := by
      cases hpc : σ.pc p with
      | idle => simp [step, run, hpc] at h
      | _ => simp [Pc.Acquires, Pc.Releases]
    rcases hcases with hpc | hpc
    · rcases run_acquires hpc h with ⟨-, hheld⟩ | ⟨-, hheld⟩
      · rw [hheld]
      · rw [hheld]
        exact Function.update_of_ne hq _ _
    · rw [(run_releases hpc h).2]

end Sys

namespace World
variable {w w' : World C T L} {l l' : L} {p q : C × T}

def InAcquire (w : World C T L) (p : C × T) (l : L) : Prop :=
  w.current p = some l ∧ ((w.lock l).pc p).Acquires

def InRelease (w : World C T L) (p : C × T) (l : L) : Prop :=
  w.current p = some l ∧ ((w.lock l).pc p).Releases

/-- `lock` tells who holds each lock. -/
def HeldBy (w : World C T L) (lock : L → Option (C × T)) : Prop :=
  ∀ l p, lock l = some p ↔ (w.lock l).held p = true

def SameHolders (w w' : World C T L) : Prop := ∀ l, (w'.lock l).held = (w.lock l).held

structure Stays (w w' : World C T L) (q : C × T) : Prop where
  current : w'.current q = w.current q
  pc : ∀ l, (w'.lock l).pc q = (w.lock l).pc q
  held : ∀ l, (w'.lock l).held q = (w.lock l).held q

theorem Stays.refl (w : World C T L) (q : C × T) : w.Stays w q := ⟨rfl, fun _ => rfl, fun _ => rfl⟩

theorem InAcquire.congr (h : w.InAcquire q l) (hstays : w.Stays w' q) : w'.InAcquire q l :=
  ⟨hstays.current.trans h.1, by rw [hstays.pc]; exact h.2⟩

theorem InRelease.congr (h : w.InRelease q l) (hstays : w.Stays w' q) : w'.InRelease q l :=
  ⟨hstays.current.trans h.1, by rw [hstays.pc]; exact h.2⟩

section
variable [LinearOrder C] [DecidableEq T] [DecidableEq L]

theorem step_cases {e : Event C T} (h : w.step l e = some w') :
    w.ready l e = true ∧ ∃ τ, (w.view l).step e = some τ ∧ (w'.lock l = τ.toLockState) ∧
      (∀ l', l' ≠ l → w'.lock l' = w.lock l') ∧
      w'.current = Function.update w.current e.thread (if τ.pc e.thread = .idle then none else some l) := by
  unfold World.step at h
  split_ifs at h with hready
  obtain ⟨τ, hτ, rfl⟩ := Option.map_eq_some_iff.1 h
  exact ⟨hready, τ, hτ, Function.update_self _ _ _, fun l' hl' => Function.update_of_ne hl' _ _, rfl⟩

theorem step_frame {e : Event C T} (h : w.step l e = some w') (hq : q ≠ e.thread) : w.Stays w' q := by
  obtain ⟨-, τ, hτ, hlock, hother, hcurrent⟩ := step_cases h
  refine ⟨?_, fun l' => ?_, fun l' => ?_⟩
  · rw [hcurrent, Function.update_of_ne hq]
  · by_cases hl : l' = l
    · subst hl
      rw [hlock]
      exact Sys.step_pc hτ hq
    · rw [hother l' hl]
  · by_cases hl : l' = l
    · subst hl
      rw [hlock]
      exact Sys.step_held hτ hq
    · rw [hother l' hl]

end

section
variable {lock : L → Option (C × T)}

theorem HeldBy.same (h : w.HeldBy lock) (hsame : w.SameHolders w') : w'.HeldBy lock := by
  intro l p
  rw [hsame l]
  exact h l p

variable [DecidableEq C] [DecidableEq T] [DecidableEq L]

theorem HeldBy.take (h : w.HeldBy lock) (hfree : ∀ q, (w.lock l).held q = false)
    (hheld : (w'.lock l).held = Function.update (w.lock l).held p true)
    (hother : ∀ l', l' ≠ l → (w'.lock l').held = (w.lock l').held) :
    lock l = none ∧ w'.HeldBy (Function.update lock l (some p)) := by
  constructor
  · rw [Option.eq_none_iff_forall_ne_some]
    intro q hq
    rw [h, hfree] at hq
    cases hq
  · intro l' q
    by_cases hl : l' = l
    · subst hl
      rw [hheld, Function.update_self]
      by_cases hq : q = p
      · simp [hq]
      · simp [Function.update_of_ne hq, hfree, Ne.symm hq]
    · rw [Function.update_of_ne hl, hother l' hl]
      exact h l' q

theorem HeldBy.drop (h : w.HeldBy lock) (hp : (w.lock l).held p = true)
    (hheld : (w'.lock l).held = Function.update (w.lock l).held p false)
    (hother : ∀ l', l' ≠ l → (w'.lock l').held = (w.lock l').held) :
    lock l = some p ∧ w'.HeldBy (Function.update lock l none) := by
  have hown : lock l = some p := (h l p).2 hp
  refine ⟨hown, fun l' q => ?_⟩
  by_cases hl : l' = l
  · subst hl
    rw [hheld, Function.update_self]
    by_cases hq : q = p
    · simp [hq]
    · have hnot : (w.lock l').held q ≠ true := by
        rw [Ne, ← h, hown]
        exact fun heq => hq (Option.some.inj heq).symm
      simp [Function.update_of_ne hq, hnot]
  · rw [Function.update_of_ne hl, hother l' hl]
    exact h l' q

end
end World
end Yfs.Lock
