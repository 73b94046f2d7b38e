import Mathlib.Order.Lattice
import Mathlib.Data.List.Basic

/-! Maps as lists of pairs in the order of their keys. -/
namespace Yfs.Lib.OrderedMap
variable {K V : Type} [LinearOrder K]

def get (k : K) : List (K × V) → Option V
  | [] => none
  | e :: m => if k = e.1 then some e.2 else get k m

/-- The value of `k` becomes `f` of what it was. -/
def alter (k : K) (f : Option V → V) : List (K × V) → List (K × V)
  | [] => [(k, f none)]
  | e :: m =>
    if k < e.1 then (k, f none) :: e :: m
    else if k = e.1 then (k, f (some e.2)) :: m
    else e :: alter k f m

def assign (k : K) (v : V) : List (K × V) → List (K × V) := alter k fun _ => v

/-- `map.insert(k, v)`: a key that is there keeps its value. -/
def insert (k : K) (v : V) : List (K × V) → List (K × V) := alter k fun old => old.getD v

def Sorted (m : List (K × V)) : Prop := m.Pairwise fun e e' => e.1 < e'.1

theorem get_eq_none {m : List (K × V)} {k : K} (h : ∀ e ∈ m, k ≠ e.1) : get k m = none := by
  induction m with
  | nil => rfl
  | cons a m ih =>
    unfold get
    rw [if_neg (h a List.mem_cons_self)]
    exact ih fun e he => h e (List.mem_cons_of_mem a he)

theorem mem_iff_get {m : List (K × V)} (hm : Sorted m) {k : K} {v : V} :
    (k, v) ∈ m ↔ get k m = some v := by
  induction m with
  | nil => simp [get]
  | cons a m ih =>
    obtain ⟨ha, hm'⟩ := List.pairwise_cons.1 hm
    unfold get
    rw [List.mem_cons]
    split_ifs with heq
    · subst heq
      constructor
      · rintro (h | h)
        · rw [← h]
        · exact absurd (ha _ h) (lt_irrefl _)
      · intro h
        exact .inl (Prod.ext rfl (Option.some.inj h).symm)
    · rw [← ih hm']
      constructor
      · rintro (h | h)
        · exact absurd (congrArg Prod.fst h) heq
        · exact h
      · exact .inr

theorem get_alter {m : List (K × V)} (hm : Sorted m) (k : K) (f : Option V → V) (k' : K) :
    get k' (alter k f m) = if k' = k then some (f (get k m)) else get k' m := by
  induction m with
  | nil => rfl
  | cons a m ih =>
    obtain ⟨ha, hm'⟩ := List.pairwise_cons.1 hm
    unfold alter
    by_cases hlt : k < a.1
    · rw [if_pos hlt]
      have hnone : get k (a :: m) = none := by
        refine get_eq_none fun e he => ?_
        rcases List.mem_cons.1 he with rfl | he
        · exact ne_of_lt hlt
        · exact ne_of_lt (lt_trans hlt (ha e he))
      rw [hnone]
      rfl
    · rw [if_neg hlt]
      by_cases heq : k = a.1
      · subst heq
        rw [if_pos rfl]
        unfold get
        rw [if_pos rfl]
        split_ifs <;> rfl
      · rw [if_neg heq]
        unfold get
        rw [ih hm', if_neg heq]
        split_ifs with hk hk'
        · exact absurd (hk'.symm.trans hk) heq
        · rfl
        · rfl
        · rfl

theorem Sorted.alter {m : List (K × V)} (hm : Sorted m) (k : K) (f : Option V → V) :
    Sorted (OrderedMap.alter k f m) ∧ ∀ e ∈ OrderedMap.alter k f m, e.1 = k ∨ e ∈ m := by
  induction m with
  | nil =>
    refine ⟨List.pairwise_singleton _ _, fun e he => .inl ?_⟩
    rw [List.mem_singleton.1 he]
  | cons a m ih =>
    obtain ⟨ha, hm'⟩ := List.pairwise_cons.1 hm
    obtain ⟨hsorted, hmem⟩ := ih hm'
    unfold OrderedMap.alter
    split_ifs with hlt heq
    · refine ⟨List.pairwise_cons.2 ⟨fun e he => ?_, hm⟩, fun e he => ?_⟩
      · rcases List.mem_cons.1 he with rfl | he
        · exact hlt
        · exact lt_trans hlt (ha e he)
      · exact (List.mem_cons.1 he).imp_left (congrArg Prod.fst)
    · refine ⟨List.pairwise_cons.2 ⟨fun e he => heq ▸ ha e he, hm'⟩, fun e he => ?_⟩
      exact (List.mem_cons.1 he).imp (congrArg Prod.fst) (List.mem_cons_of_mem a)
    · refine ⟨List.pairwise_cons.2 ⟨fun e he => ?_, hsorted⟩, fun e he => ?_⟩
      · rcases hmem e he with he | he
        · rw [he]
          exact lt_of_le_of_ne (not_lt.1 hlt) (Ne.symm heq)
        · exact ha e he
      · rcases List.mem_cons.1 he with rfl | he
        · exact .inr List.mem_cons_self
        · exact (hmem e he).imp_right (List.mem_cons_of_mem a)

end Yfs.Lib.OrderedMap
