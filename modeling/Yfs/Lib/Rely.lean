import Yfs.Lib.Pool

/-! Rely and guarantee for the threads of a pool: each one is shown to withstand what the others may do
between its calls, and to do nothing that they do not expect. -/
namespace Yfs.Lib

/-- What the others may do to the state between the calls of a thread, and what its own calls may do. -/
structure Interference (σ : Type) where
  rely : σ → σ → Prop
  guar : σ → σ → Prop
  refl : ∀ s, rely s s
  trans : ∀ s s₁ s₂, rely s s₁ → rely s₁ s₂ → rely s s₂

/-- What the others do does not make `P` false. -/
def Interference.Stable {σ : Type} (i : Interference σ) (P : σ → Prop) : Prop :=
  ∀ s s', i.rely s s' → P s → P s'

namespace Interference
variable {σ : Type} {i : Interference σ} {P P' : σ → Prop}

theorem Stable.or (h : i.Stable P) (h' : i.Stable P') : i.Stable fun s => P s ∨ P' s :=
  fun s s' hrely hs => hs.imp (h s s' hrely) (h' s s' hrely)

theorem Stable.const_and (h : i.Stable P) (A : Prop) : i.Stable fun s => A ∧ P s :=
  fun s s' hrely hs => ⟨hs.1, h s s' hrely hs.2⟩

end Interference

namespace Prog
variable {C : Type} {R : C → Type} {α β σ : Type} {act : (c : C) → σ → R c → σ → Prop} {i : Interference σ}

/-- Whatever the others do between the calls of the program, each call keeps to the guarantee, and `Q` holds
at the end and from then on. -/
def Withstands (act : (c : C) → σ → R c → σ → Prop) (i : Interference σ) (Q : α → σ → Prop) :
    Prog C R α → σ → Prop
  | .pure a, s => ∀ s', i.rely s s' → Q a s'
  | .call c next, s => ∀ s₁, i.rely s s₁ → ∀ r s₂, act c s₁ r s₂ →
      i.guar s₁ s₂ ∧ (next r).Withstands act i Q s₂

theorem Withstands.rely {Q : α → σ → Prop} {p : Prog C R α} {s s' : σ} (h : p.Withstands act i Q s)
    (hrely : i.rely s s') : p.Withstands act i Q s' := by
  cases p with
  | pure a => exact fun s₁ h₁ => h s₁ (i.trans s s' s₁ hrely h₁)
  | call c next => exact fun s₁ h₁ => h s₁ (i.trans s s' s₁ hrely h₁)

def Assured (act : (c : C) → σ → R c → σ → Prop) (i : Interference σ) (P : σ → Prop) (p : Prog C R α)
    (Q : α → σ → Prop) : Prop := ∀ s, P s → p.Withstands act i Q s

section
variable {P P' : σ → Prop} {p : Prog C R α} {Q Q' : α → σ → Prop} {S : β → σ → Prop}

theorem Assured.pure {a : α} (hQ : i.Stable (Q a)) (h : ∀ s, P s → Q a s) :
    Assured act i P (Pure.pure a : Prog C R α) Q :=
  fun s hs s' hrely => hQ s s' hrely (h s hs)

theorem Assured.bind {f : α → Prog C R β} (hp : Assured act i P p Q) (hf : ∀ a, Assured act i (Q a) (f a) S) :
    Assured act i P (p >>= f) S := by
  intro s hs
  have h := hp s hs
  clear hp hs
  change Withstands act i S (p.bind f) s
  induction p generalizing s with
  | pure a => exact hf a s (h s (i.refl s))
  | call c next ih =>
    intro s₁ hrely r s₂ hact
    obtain ⟨hguar, hnext⟩ := h s₁ hrely r s₂ hact
    exact ⟨hguar, ih r s₂ hnext⟩

theorem Assured.perform {c : C} {Q : R c → σ → Prop} (hP : i.Stable P) (hQ : ∀ r, i.Stable (Q r))
    (h : ∀ s r s', P s → act c s r s' → i.guar s s' ∧ Q r s') :
    Assured act i P (Prog.perform c : Prog C R (R c)) Q := by
  intro s hs s₁ hrely r s₂ hact
  obtain ⟨hguar, hr⟩ := h s₁ r s₂ (hP s s₁ hrely hs) hact
  exact ⟨hguar, fun s₃ h₃ => hQ r s₂ s₃ h₃ hr⟩

theorem Assured.strengthen (h : Assured act i P p Q) (hP : ∀ s, P' s → P s) : Assured act i P' p Q :=
  fun s hs => h s (hP s hs)

theorem Withstands.mono {s : σ} (h : p.Withstands act i Q s) (hQ : ∀ a s, Q a s → Q' a s) :
    p.Withstands act i Q' s := by
  induction p generalizing s with
  | pure a => exact fun s' hrely => hQ a s' (h s' hrely)
  | call c next ih =>
    intro s₁ hrely r s₂ hact
    obtain ⟨hguar, hnext⟩ := h s₁ hrely r s₂ hact
    exact ⟨hguar, ih r hnext⟩

theorem Assured.weaken (h : Assured act i P p Q) (hQ : ∀ a s, Q a s → Q' a s) : Assured act i P p Q' :=
  fun s hs => (h s hs).mono hQ

theorem Assured.of_and {A : Prop} (h : A → Assured act i P p Q) : Assured act i (fun s => A ∧ P s) p Q :=
  fun s hs => h hs.1 s hs.2

theorem Assured.of_exists {ι : Type} {P : ι → σ → Prop} (h : ∀ x, Assured act i (P x) p Q) :
    Assured act i (fun s => ∃ x, P x s) p Q := by
  rintro s ⟨x, hs⟩
  exact h x s hs

theorem Assured.or (h : Assured act i P p Q) (h' : Assured act i P' p Q) :
    Assured act i (fun s => P s ∨ P' s) p Q := by
  intro s hs
  rcases hs with hs | hs
  · exact h s hs
  · exact h' s hs

end

end Prog

namespace Pool
variable {C : Type} {R : C → Type} {T σ α : Type} [DecidableEq T] {serve : T → (c : C) → σ → R c → σ → Prop}
  {i : T → Interference σ} {Q : T → α → σ → Prop} {p p' : Pool C R T σ α}

def Withstands (serve : T → (c : C) → σ → R c → σ → Prop) (i : T → Interference σ) (Q : T → α → σ → Prop)
    (p : Pool C R T σ α) : Prop := ∀ t, (p.prog t).Withstands (serve t) (i t) (Q t) p.state

/-- A call of one thread is one that the others expect. -/
theorem Withstands.step (hi : ∀ t u, t ≠ u → ∀ s s', (i t).guar s s' → (i u).rely s s')
    (h : p.Withstands serve i Q) (hstep : Pool.Step serve p p') : p'.Withstands serve i Q := by
  cases hstep with
  | @call t c next r s' hprog hserve =>
    have ht := h t
    rw [hprog] at ht
    obtain ⟨hguar, hnext⟩ := ht p.state ((i t).refl _) r s' hserve
    intro u
    by_cases hu : u = t
    · subst hu
      simpa only [Function.update_self] using hnext
    · simpa only [Function.update_of_ne hu] using (h u).rely (hi t u (Ne.symm hu) _ _ hguar)

theorem Withstands.run (hi : ∀ t u, t ≠ u → ∀ s s', (i t).guar s s' → (i u).rely s s')
    (h : p.Withstands serve i Q) (hrun : Relation.ReflTransGen (Pool.Step serve) p p') :
    p'.Withstands serve i Q := by
  induction hrun with
  | refl => exact h
  | tail _ hstep ih => exact ih.step hi hstep

/-- What every call guarantees to keep holds all along. -/
theorem Withstands.invariant (hi : ∀ t u, t ≠ u → ∀ s s', (i t).guar s s' → (i u).rely s s')
    {I : σ → Prop} (hI : ∀ t s s', (i t).guar s s' → I s → I s') (h : p.Withstands serve i Q)
    (hrun : Relation.ReflTransGen (Pool.Step serve) p p') (hp : I p.state) : I p'.state := by
  induction hrun with
  | refl => exact hp
  | @tail q q' hbefore hstep ih =>
    have hq := h.run hi hbefore
    cases hstep with
    | @call t c next r s' hprog hserve =>
      have ht := hq t
      rw [hprog] at ht
      obtain ⟨hguar, -⟩ := ht q.state ((i t).refl _) r s' hserve
      exact hI t _ _ hguar ih

omit [DecidableEq T] in
theorem Withstands.result (h : p.Withstands serve i Q) {t : T} {a : α} (hdone : p.prog t = .pure a) :
    Q t a p.state := by
  have ht := h t
  rw [hdone] at ht
  exact ht p.state ((i t).refl _)

end Pool
end Yfs.Lib
