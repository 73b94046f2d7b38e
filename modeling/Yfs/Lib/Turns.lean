import Yfs.Lib.Pool

/-! What can happen: programs that get the replies they need, and threads that take turns. -/
namespace Yfs.Lib

namespace Prog
variable {C : Type} {R : C → Type} {α β σ : Type} {act : (c : C) → σ → R c → σ → Prop}

def May (act : (c : C) → σ → R c → σ → Prop) (P : σ → Prop) (p : Prog C R α) (Q : α → σ → Prop) : Prop :=
  ∀ s, P s → ∃ a s', p.Exec act s a s' ∧ Q a s'

section
variable {P P' : σ → Prop} {p : Prog C R α} {Q : α → σ → Prop} {S : β → σ → Prop}

theorem May.pure {a : α} (h : ∀ s, P s → Q a s) : May act P (Pure.pure a : Prog C R α) Q :=
  fun s hs => ⟨a, s, exec_pure.2 ⟨rfl, rfl⟩, h s hs⟩

theorem May.bind {f : α → Prog C R β} (hp : May act P p Q) (hf : ∀ a, May act (Q a) (f a) S) :
    May act P (p >>= f) S := by
  intro s hs
  obtain ⟨a, s', hexec, ha⟩ := hp s hs
  obtain ⟨b, s'', hexec', hb⟩ := hf a s' ha
  exact ⟨b, s'', exec_bind.2 ⟨a, s', hexec, hexec'⟩, hb⟩

theorem May.bind_returns {a : α} {f : α → Prog C R β} (hp : May act P p fun r s => r = a ∧ P' s)
    (hf : May act P' (f a) S) : May act P (p >>= f) S := by
  refine hp.bind fun r => ?_
  rintro s ⟨rfl, hs⟩
  exact hf s hs

theorem May.perform {c : C} {Q : R c → σ → Prop} (h : ∀ s, P s → ∃ r s', act c s r s' ∧ Q r s') :
    May act P (Prog.perform c : Prog C R (R c)) Q := by
  intro s hs
  obtain ⟨r, s', hact, hr⟩ := h s hs
  exact ⟨r, s', exec_perform.2 hact, hr⟩

end
end Prog

namespace Pool
variable {C : Type} {R : C → Type} {T σ α β : Type} [DecidableEq T] {serve : T → (c : C) → σ → R c → σ → Prop}
  {P P' : σ → Prop} {prog : T → Prog C R α} {G : Pool C R T σ α → Prop}

def May (serve : T → (c : C) → σ → R c → σ → Prop) (P : σ → Prop) (prog : T → Prog C R α)
    (G : Pool C R T σ α → Prop) : Prop :=
  ∀ s, P s → ∃ p, Relation.ReflTransGen (Pool.Step serve) ⟨s, prog⟩ p ∧ G p

theorem may_of_all (h : ∀ s, P s → G ⟨s, prog⟩) : May serve P prog G := fun s hs => ⟨_, .refl, h s hs⟩

theorem May.turn {t : T} {q : Prog C R β} {f : β → Prog C R α} {Q : β → σ → Prop}
    (hprog : prog t = q >>= f) (hq : q.May (serve t) P Q)
    (h : ∀ b, May serve (Q b) (Function.update prog t (f b)) G) : May serve P prog G := by
  intro s hs
  obtain ⟨b, s', hexec, hb⟩ := hq s hs
  obtain ⟨p, hrun, hp⟩ := h b s' hb
  exact ⟨p, (run_of_exec_bind hexec prog hprog).trans hrun, hp⟩

end Pool
end Yfs.Lib
