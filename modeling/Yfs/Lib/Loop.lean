import Mathlib.Data.List.Range
import Mathlib.Data.Nat.Notation

/-! Counting loops over an explicit state. -/
namespace Yfs.Lib
variable {σ : Type}

/-- `for (i = lo; i < hi; i++) s = f i s`. -/
def forRange (lo hi : ℕ) (f : ℕ → σ → σ) (s : σ) : σ :=
  (List.range' lo (hi - lo)).foldl (fun s i => f i s) s

theorem forRange_of_le {lo hi : ℕ} (h : hi ≤ lo) (f : ℕ → σ → σ) (s : σ) :
    forRange lo hi f s = s := by
  simp [forRange, Nat.sub_eq_zero_of_le h]

theorem forRange_succ {lo hi : ℕ} (h : lo ≤ hi) (f : ℕ → σ → σ) (s : σ) :
    forRange lo (hi + 1) f s = f hi (forRange lo hi f s) := by
  have hlen : hi + 1 - lo = (hi - lo) + 1 := by omega
  simp [forRange, hlen, List.range'_concat, Nat.add_sub_cancel' h]

/-- The invariant rule: `P i` holds before turn `i`. -/
theorem forRange_induction {lo hi : ℕ} {f : ℕ → σ → σ} {s : σ} (P : ℕ → σ → Prop) (h : lo ≤ hi)
    (hinit : P lo s) (hstep : ∀ i s, lo ≤ i → i < hi → P i s → P (i + 1) (f i s)) :
    P hi (forRange lo hi f s) := by
  induction hi, h using Nat.le_induction with
  | base => rwa [forRange_of_le le_rfl]
  | succ n hn ih =>
    rw [forRange_succ hn]
    exact hstep n _ hn n.lt_succ_self (ih fun i s h₁ h₂ => hstep i s h₁ (h₂.trans n.lt_succ_self))

end Yfs.Lib
