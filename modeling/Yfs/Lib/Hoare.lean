import Yfs.Lib.Pool

/-! Rules of pre- and postconditions for programs that talk to a server. -/
namespace Yfs.Lib.Prog
variable {C : Type} {R : C → Type} {α β σ : Type} {act : (c : C) → σ → R c → σ → Prop}

/-- Every run that starts in `P` and comes to its end ends in `Q`. -/
def Triple (act : (c : C) → σ → R c → σ → Prop) (P : σ → Prop) (p : Prog C R α) (Q : α → σ → Prop) : Prop :=
  ∀ s a s', P s → p.Exec act s a s' → Q a s'

variable {P P' : σ → Prop} {p : Prog C R α} {Q Q' : α → σ → Prop} {S : β → σ → Prop}

theorem Triple.pure {a : α} (h : ∀ s, P s → Q a s) : Triple act P (Pure.pure a : Prog C R α) Q := by
  intro s a' s' hs hexec
  obtain ⟨rfl, rfl⟩ := exec_pure.1 hexec
  exact h s' hs

theorem Triple.bind {f : α → Prog C R β} (hp : Triple act P p Q) (hf : ∀ a, Triple act (Q a) (f a) S) :
    Triple act P (p >>= f) S := by
  intro s b s'' hs hexec
  obtain ⟨a, s', hfirst, hrest⟩ := exec_bind.1 hexec
  exact hf a s' b s'' (hp s a s' hs hfirst) hrest

theorem Triple.perform {c : C} {Q : R c → σ → Prop} (h : ∀ s r s', P s → act c s r s' → Q r s') :
    Triple act P (Prog.perform c : Prog C R (R c)) Q := by
  intro s r s' hs hexec
  exact h s r s' hs (exec_perform.1 hexec)

theorem Triple.conseq (h : Triple act P p Q) (hP : ∀ s, P' s → P s) (hQ : ∀ a s, Q a s → Q' a s) :
    Triple act P' p Q' := by
  intro s a s' hs hexec
  exact hQ a s' (h s a s' (hP s hs) hexec)

theorem Triple.weaken (h : Triple act P p Q) (hQ : ∀ a s, Q a s → Q' a s) : Triple act P p Q' :=
  h.conseq (fun _ hs => hs) hQ

theorem Triple.strengthen (h : Triple act P p Q) (hP : ∀ s, P' s → P s) : Triple act P' p Q :=
  h.conseq hP fun _ _ hs => hs

theorem Triple.pointwise (h : ∀ s₀, P s₀ → Triple act (· = s₀) p Q) : Triple act P p Q := by
  intro s a s' hs hexec
  exact h s hs s a s' rfl hexec

theorem Triple.of_and {A : Prop} (h : A → Triple act P p Q) : Triple act (fun s => A ∧ P s) p Q := by
  intro s a s' hs hexec
  exact h hs.1 s a s' hs.2 hexec

theorem Triple.or (h : Triple act P p Q) (h' : Triple act P' p Q) : Triple act (fun s => P s ∨ P' s) p Q := by
  intro s a s' hs hexec
  rcases hs with hs | hs
  · exact h s a s' hs hexec
  · exact h' s a s' hs hexec

/-- What each call keeps, the whole program keeps. -/
theorem Triple.invariant {I : σ → Prop} {K : C → Prop} (hp : p.All K)
    (h : ∀ c s r s', K c → I s → act c s r s' → I s') : Triple act I p fun _ => I := by
  intro s a s' hs hexec
  induction p generalizing s with
  | pure b =>
    obtain ⟨-, rfl⟩ := hexec
    exact hs
  | call c next ih =>
    obtain ⟨r, s₁, hact, hrest⟩ := hexec
    exact ih r (hp.2 r) s₁ (h c s r s₁ hp.1 hs hact) hrest

theorem all_true (p : Prog C R α) : p.All fun _ => True := by
  induction p with
  | pure a => trivial
  | call c next ih => exact ⟨trivial, ih⟩

/-- Whatever way the program runs, `ok` holds of every call before it is made, and `Q` at the end. -/
def Wp (ok : C → σ → Prop) (act : (c : C) → σ → R c → σ → Prop) (Q : α → σ → Prop) : Prog C R α → σ → Prop
  | .pure a, s => Q a s
  | .call c next, s => ok c s ∧ ∀ r s', act c s r s' → (next r).Wp ok act Q s'

def Answered (act : (c : C) → σ → R c → σ → Prop) (c : C) (s : σ) : Prop := ∃ r s', act c s r s'

section
variable {ok : C → σ → Prop} {s : σ}

theorem wp_pure {a : α} (h : Q a s) : Wp ok act Q (Pure.pure a : Prog C R α) s := h

theorem Wp.mono (h : Wp ok act Q p s) (hQ : ∀ a s, Q a s → Q' a s) : Wp ok act Q' p s := by
  induction p generalizing s with
  | pure a => exact hQ a s h
  | call c next ih => exact ⟨h.1, fun r s' hact => ih r (h.2 r s' hact)⟩

theorem Wp.bind {f : α → Prog C R β} (hp : Wp ok act Q p s) (hf : ∀ a s', Q a s' → Wp ok act S (f a) s') :
    Wp ok act S (p >>= f) s := by
  change Wp ok act S (p.bind f) s
  induction p generalizing s with
  | pure a => exact hf a s hp
  | call c next ih => exact ⟨hp.1, fun r s' hact => ih r (hp.2 r s' hact)⟩

/-- The rule for a program whose value tells the state that it ends in. -/
theorem Wp.bind_at {K : α → Prop} {s' : α → σ} {f : α → Prog C R β}
    (hp : Wp ok act (fun a t => K a ∧ t = s' a) p s) (hf : ∀ a, K a → Wp ok act S (f a) (s' a)) :
    Wp ok act S (p >>= f) s := by
  apply hp.bind
  rintro a _ ⟨ha, rfl⟩
  exact hf a ha

/-- The rule for a program that ends in one state, whatever it returns. -/
theorem Wp.bind_state {s' : σ} {f : α → Prog C R β} (hp : Wp ok act (fun _ t => t = s') p s)
    (hf : ∀ a, Wp ok act S (f a) s') : Wp ok act S (p >>= f) s := by
  apply hp.bind
  rintro a _ rfl
  exact hf a

/-- The rule for a program that returns one value, in one state. -/
theorem Wp.bind_returns {a : α} {s' : σ} {f : α → Prog C R β} (hp : Wp ok act (fun r t => r = a ∧ t = s') p s)
    (hf : Wp ok act S (f a) s') : Wp ok act S (p >>= f) s := by
  apply hp.bind_at
  rintro _ rfl
  exact hf

theorem wp_of_all {K : C → Prop} (hp : p.All K) (h : ∀ c, K c → ∀ s, ok c s) (s : σ) :
    Wp ok act (fun _ _ => True) p s := by
  induction p generalizing s with
  | pure a => trivial
  | call c next ih => exact ⟨h c hp.1 s, fun r s' _ => ih r (hp.2 r) s'⟩

theorem Wp.exec (h : Wp ok act Q p s) {a : α} {s' : σ} (hexec : p.Exec act s a s') :
    p.Exec (fun c s r s' => ok c s ∧ act c s r s') s a s' := by
  induction p generalizing s with
  | pure b => exact hexec
  | call c next ih =>
    obtain ⟨r, s₁, hact, hrest⟩ := hexec
    exact ⟨r, s₁, ⟨h.1, hact⟩, ih r (h.2 r s₁ hact) hrest⟩

/-- What a run ends with, seen in a state that follows it. -/
theorem Wp.result {τ : Type} {serve : (c : C) → τ → R c → τ → Prop} (view : τ → σ)
    (hview : ∀ c w r w', serve c w r w' → act c (view w) r (view w')) {w w' : τ} {a : α}
    (h : Wp ok act Q p (view w)) (hexec : p.Exec serve w a w') : Q a (view w') := by
  induction p generalizing w with
  | pure b =>
    obtain ⟨rfl, rfl⟩ := hexec
    exact h
  | call c next ih =>
    obtain ⟨r, w₁, hserve, hrest⟩ := hexec
    exact ih r (h.2 r _ (hview c w r w₁ hserve)) hrest

theorem Wp.of_exec (h : Wp ok act (fun _ _ => True) p s) (hQ : ∀ a s', p.Exec act s a s' → Q a s') :
    Wp ok act Q p s := by
  induction p generalizing s with
  | pure a => exact hQ a s ⟨rfl, rfl⟩
  | call c next ih =>
    refine ⟨h.1, fun r s' hact => ih r (h.2 r s' hact) ?_⟩
    intro a s'' hexec
    exact hQ a s'' ⟨r, s', hact, hexec⟩

/-- A program each call of which is answered comes to its end. -/
theorem Wp.exists_exec (h : Wp (Answered act) act Q p s) : ∃ a s', p.Exec act s a s' ∧ Q a s' := by
  induction p generalizing s with
  | pure a => exact ⟨a, s, ⟨rfl, rfl⟩, h⟩
  | call c next ih =>
    obtain ⟨⟨r, s₁, hact⟩, hnext⟩ := h
    obtain ⟨a, s', hexec, hQ⟩ := ih r (hnext r s₁ hact)
    exact ⟨a, s', ⟨r, s₁, hact, hexec⟩, hQ⟩

theorem wp_perform {c : C} {Q : R c → σ → Prop} (hok : ok c s) (h : ∀ r s', act c s r s' → Q r s') :
    Wp ok act Q (Prog.perform c : Prog C R (R c)) s := ⟨hok, h⟩

end
end Yfs.Lib.Prog
