import Mathlib.Data.Finset.Max
import Mathlib.Data.List.Range
import Mathlib.Data.Nat.Notation

/-! First-fit allocation of ids out of a finite set, once as a set of taken ids and once as a
partial map, and how a run of one deterministic machine is a run of another. -/
namespace Yfs.Lib

section Machine
variable {σ τ ι κ ρ ω : Type}

def runOps (step : σ → ι → ρ × σ) (s : σ) : List ι → List ρ × σ
  | [] => ([], s)
  | i :: is =>
    let r := step s i
    let t := runOps step r.2 is
    (r.1 :: t.1, t.2)

theorem runOps_cons (step : σ → ι → ρ × σ) (s : σ) (i : ι) (is : List ι) : runOps step s (i :: is) =
    ((step s i).1 :: (runOps step (step s i).2 is).1, (runOps step (step s i).2 is).2) := rfl

theorem runOps_invariant {step : σ → ι → ρ × σ} {P : σ → Prop} {is : List ι} {s : σ}
    (hstep : ∀ s, ∀ i ∈ is, P s → P (step s i).2) (hs : P s) : P (runOps step s is).2 := by
  induction is generalizing s with
  | nil => exact hs
  | cons i is ih =>
    rw [runOps_cons]
    apply ih
    · intro t j hj
      exact hstep t j (List.mem_cons_of_mem i hj)
    · exact hstep s i List.mem_cons_self hs

/-- If every operation is one operation of the machine above, then so is every run: `abs` reads a
state, `op` an operation and `ans` an answer as the machine above has them. -/
theorem runOps_refines {step : σ → ι → ρ × σ} {step' : τ → κ → ω × τ} {abs : σ → τ} {op : ι → κ}
    {ans : ρ → ω} {is : List ι}
    (hstep : ∀ s, ∀ i ∈ is, step' (abs s) (op i) = (ans (step s i).1, abs (step s i).2)) (s : σ) :
    runOps step' (abs s) (is.map op) = ((runOps step s is).1.map ans, abs (runOps step s is).2) := by
  induction is generalizing s with
  | nil => rfl
  | cons i is ih =>
    have htail := ih (fun t j hj => hstep t j (List.mem_cons_of_mem i hj)) (step s i).2
    rw [List.map_cons, runOps_cons, hstep s i List.mem_cons_self, htail, runOps_cons, List.map_cons]

end Machine

namespace FirstFit
variable {α β : Type} {ids s : Finset α} {a : α}

def bound (ids : Finset α) (t : α → Option β) : Finset α := ids.filter fun a => (t a).isSome

theorem mem_bound {t : α → Option β} : a ∈ bound ids t ↔ a ∈ ids ∧ (t a).isSome = true :=
  Finset.mem_filter

variable [LinearOrder α]

def least (ids s : Finset α) : Option α :=
  if h : (ids \ s).Nonempty then some ((ids \ s).min' h) else none

theorem least_eq_none : least ids s = none ↔ ids ⊆ s := by
  rw [← Finset.sdiff_eq_empty_iff_subset, ← Finset.not_nonempty_iff_eq_empty, least]
  split_ifs with h
  · exact iff_of_false not_false (not_not_intro h)
  · exact iff_of_true rfl h

theorem least_eq_some : least ids s = some a ↔ IsLeast (↑(ids \ s) : Set α) a := by
  rw [least]
  split_ifs with h
  · rw [Option.some_inj]
    exact ⟨fun ha => ha ▸ Finset.isLeast_min' _ h, fun ha => (Finset.isLeast_min' _ h).unique ha⟩
  · exact iff_of_false not_false fun ha => h ⟨a, ha.1⟩

theorem least_eq_scan {ids s : Finset ℕ} {lo hi : ℕ} {p : ℕ → Bool}
    (hids : ∀ i, i ∈ ids ↔ lo ≤ i ∧ i < hi) (hp : ∀ i ∈ ids, p i = true ↔ i ∉ s) :
    least ids s = (List.range' lo (hi - lo)).find? p := by
  have hmem : ∀ i, i ∈ List.range' lo (hi - lo) ↔ i ∈ ids := by
    intro i
    rw [List.mem_range'_1, hids]
    omega
  cases hscan : (List.range' lo (hi - lo)).find? p with
  | none =>
    rw [least_eq_none]
    intro i hi
    by_contra hfree
    exact List.find?_eq_none.1 hscan i ((hmem i).2 hi) ((hp i hi).2 hfree)
  | some a =>
    obtain ⟨ha, hin, hbefore⟩ := List.find?_range'_eq_some.1 hscan
    rw [hmem] at hin
    rw [least_eq_some]
    refine ⟨Finset.mem_sdiff.2 ⟨hin, (hp a hin).1 ha⟩, fun i hi => ?_⟩
    obtain ⟨hi, hfree⟩ := Finset.mem_sdiff.1 hi
    by_contra hlt
    have hnot := hbefore i ((hids i).1 hi).1 (Nat.not_le.1 hlt)
    rw [(hp i hi).2 hfree] at hnot
    cases hnot

inductive SetOp (α : Type)
  | alloc
  | free (a : α)

/-- The set of taken ids; `alloc` answers the id that it takes. -/
def setStep (ids s : Finset α) : SetOp α → Option α × Finset α
  | .alloc =>
    match least ids s with
    | some a => (some a, insert a s)
    | none => (none, s)
  | .free a => (none, s.erase a)

theorem setStep_alloc_of_some (h : least ids s = some a) :
    setStep ids s .alloc = (some a, insert a s) := by
  rw [setStep, h]

theorem setStep_alloc_of_none (h : least ids s = none) : setStep ids s .alloc = (none, s) := by
  rw [setStep, h]

theorem mem_setStep {op : SetOp α} (hop : op ≠ .free a) (ha : a ∈ s) : a ∈ (setStep ids s op).2 := by
  cases op with
  | alloc =>
    cases h : least ids s with
    | none => rwa [setStep_alloc_of_none h]
    | some b =>
      rw [setStep_alloc_of_some h]
      exact Finset.mem_insert_of_mem ha
  | free b =>
    have hab : a ≠ b := fun hab => hop (by rw [hab])
    exact Finset.mem_erase_of_ne_of_mem hab ha

/-- A taken id stays taken until it is freed. -/
theorem mem_runOps_setStep {ops : List (SetOp α)} (hops : .free a ∉ ops) (ha : a ∈ s) :
    a ∈ (runOps (setStep ids) s ops).2 := by
  refine runOps_invariant (P := fun s => a ∈ s) (fun t op hop ht => ?_) ha
  exact mem_setStep (fun h => hops (h ▸ hop)) ht

inductive TableOp (α β : Type)
  | alloc (v : β)
  | free (a : α)
  | put (a : α) (v : β)

/-- A partial map; `alloc` answers the id that it gives a value. -/
def tableStep (ids : Finset α) (t : α → Option β) : TableOp α β → Option α × (α → Option β)
  | .alloc v =>
    match least ids (bound ids t) with
    | some a => (some a, Function.update t a (some v))
    | none => (none, t)
  | .free a => (none, Function.update t a none)
  | .put a v => (none, Function.update t a (some v))

end FirstFit
end Yfs.Lib
