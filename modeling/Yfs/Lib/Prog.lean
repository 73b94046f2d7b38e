import Mathlib.Data.Nat.Notation

/-! Programs that talk to a server: trees of calls, with one branch for each possible reply. -/
namespace Yfs.Lib

/-- A program that makes calls `c : C`, each answered by an `R c`, and ends with an `α`. -/
inductive Prog (C : Type) (R : C → Type) (α : Type) where
  | pure (a : α)
  | call (c : C) (next : R c → Prog C R α)

namespace Prog
variable {C : Type} {R : C → Type} {α β σ : Type}

def bind : Prog C R α → (α → Prog C R β) → Prog C R β
  | .pure a, f => f a
  | .call c next, f => .call c fun r => (next r).bind f

instance : Monad (Prog C R) where
  pure := .pure
  bind := bind

theorem bind_assoc {γ : Type} (p : Prog C R α) (f : α → Prog C R β) (g : β → Prog C R γ) :
    (p.bind f).bind g = p.bind fun a => (f a).bind g := by
  induction p with
  | pure a => rfl
  | call c next ih =>
    simp only [bind]
    exact congrArg (Prog.call c) (funext fun r => ih r)

instance : LawfulMonad (Prog C R) := by
  refine LawfulMonad.mk' _ (fun p => ?_) (fun _ _ => rfl) bind_assoc
  induction p with
  | pure a => rfl
  | call c next ih => exact congrArg (Prog.call c) (funext ih)

/-- A program for one server as a program for another that has the same calls among its own. -/
def lift {C' : Type} {R' : C' → Type} (f : C → C') (back : ∀ c, R' (f c) → R c) : Prog C R α → Prog C' R' α
  | .pure a => .pure a
  | .call c next => .call (f c) fun r => (next (back c r)).lift f back

section
variable {C' : Type} {R' : C' → Type} {f : C → C'} {back : ∀ c, R' (f c) → R c}

theorem lift_bind (p : Prog C R α) (g : α → Prog C R β) :
    (p >>= g).lift f back = p.lift f back >>= fun a => (g a).lift f back := by
  change (p.bind g).lift f back = (p.lift f back).bind fun a => (g a).lift f back
  induction p with
  | pure a => rfl
  | call c next ih =>
    change Prog.call (f c) _ = Prog.call (f c) _
    congr 1
    funext r
    exact ih (back c r)

end

def perform (c : C) : Prog C R (R c) := .call c .pure

def value? : Prog C R α → Option α
  | .pure a => some a
  | .call _ _ => none

theorem eq_pure_of_value? {p : Prog C R α} {a : α} (h : p.value? = some a) : p = .pure a := by
  cases p with
  | pure b => rw [Option.some.inj h]
  | call c next => cases h

/-- A run against a server that answers every call at once; `none` if it crashes. -/
def run (serve : (c : C) → σ → Option (R c × σ)) : Prog C R α → σ → Option (α × σ)
  | .pure a, s => some (a, s)
  | .call c next, s => (serve c s).bind fun p => (next p.1).run serve p.2

variable {serve : (c : C) → σ → Option (R c × σ)}

@[simp] theorem run_pure (a : α) (s : σ) : run serve (Pure.pure a : Prog C R α) s = some (a, s) := rfl

@[simp] theorem run_bind (p : Prog C R α) (f : α → Prog C R β) (s : σ) :
    run serve (p >>= f) s = (run serve p s).bind fun q => run serve (f q.1) q.2 := by
  change run serve (p.bind f) s = _
  induction p generalizing s with
  | pure a => rfl
  | call c next ih =>
    simp only [bind, run, Option.bind_assoc]
    congr 1
    funext q
    exact ih q.1 q.2

theorem run_bind_some {p : Prog C R α} {s s' : σ} {a : α} (h : run serve p s = some (a, s'))
    (f : α → Prog C R β) : run serve (p >>= f) s = run serve (f a) s' := by
  rw [run_bind, h, Option.bind_some]

@[simp] theorem run_perform (c : C) (s : σ) : run serve (perform c : Prog C R (R c)) s = serve c s := by
  simp only [perform, run]
  cases serve c s <;> rfl

end Prog
end Yfs.Lib
