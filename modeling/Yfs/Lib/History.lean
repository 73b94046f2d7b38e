import Yfs.Lib.Pool

/-! History variables: a record of the calls beside the state of a server. The threads do not see it, so every
run of a pool is a run with a record. -/
namespace Yfs.Lib
variable {C : Type} {R : C → Type} {T σ γ α : Type}

def recorded (serve : T → (c : C) → σ → R c → σ → Prop) (note : T → C → γ → γ) (t : T) (c : C)
    (s : σ × γ) (r : R c) (s' : σ × γ) : Prop := serve t c s.1 r s'.1 ∧ s'.2 = note t c s.2

theorem Pool.exists_recorded [DecidableEq T] {serve : T → (c : C) → σ → R c → σ → Prop}
    {p p' : Pool C R T σ α} (hrun : Relation.ReflTransGen (Pool.Step serve) p p')
    (note : T → C → γ → γ) (g : γ) :
    ∃ g', Relation.ReflTransGen (Pool.Step (recorded serve note)) ⟨(p.state, g), p.prog⟩
      ⟨(p'.state, g'), p'.prog⟩ := by
  induction hrun with
  | refl => exact ⟨g, .refl⟩
  | tail _ hstep ih =>
    obtain ⟨g', hbefore⟩ := ih
    cases hstep with
    | @call t c next r s' hprog hserve =>
      refine ⟨note t c g', hbefore.tail ?_⟩
      exact .call (p := ⟨(_, g'), _⟩) hprog ⟨hserve, rfl⟩

end Yfs.Lib
