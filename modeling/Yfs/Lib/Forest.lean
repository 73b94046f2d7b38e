import Mathlib.Data.List.Nodup
import Mathlib.Data.Set.Insert
import Mathlib.Logic.Function.Basic
import Mathlib.Logic.Relation

/-! Directed graphs that change by single edges: when they stay free of cycles, and what stays
reachable. Forests with lists of children, and how they grow, shrink and move. -/
namespace Yfs.Lib
open Relation

variable {ι : Type} {child child' : ι → ι → Prop} {parent node root : ι}

/-- No node is below itself. -/
def Acyclic (child : ι → ι → Prop) : Prop := ∀ x, ¬TransGen child x x

theorem Acyclic.mono (h : Acyclic child) (hsub : ∀ a b, child' a b → child a b) : Acyclic child' := by
  intro x hx
  exact h x (TransGen.mono hsub x x hx)

theorem Acyclic.not_above (h : Acyclic child) (hchild : child parent node) :
    ¬ReflTransGen child node parent := by
  intro habove
  exact h parent (TransGen.head' hchild habove)

/-- With one more edge, a path is an old one or goes over that edge once. -/
theorem path_insert (hnot : ¬ReflTransGen child node parent)
    (hsub : ∀ a b, child' a b → child a b ∨ a = parent ∧ b = node) {x y : ι} (h : TransGen child' x y) :
    TransGen child x y ∨ ReflTransGen child x parent ∧ ReflTransGen child node y := by
  induction h with
  | single hxy =>
    rcases hsub _ _ hxy with hold | ⟨rfl, rfl⟩
    · exact .inl (.single hold)
    · exact .inr ⟨.refl, .refl⟩
  | tail _ hyz ih =>
    rcases hsub _ _ hyz with hold | ⟨rfl, rfl⟩
    · rcases ih with hpath | ⟨hup, hdown⟩
      · exact .inl (hpath.tail hold)
      · exact .inr ⟨hup, hdown.tail hold⟩
    · rcases ih with hpath | ⟨-, hdown⟩
      · exact .inr ⟨hpath.to_reflTransGen, .refl⟩
      · exact absurd hdown hnot

/-- An edge to a node that is not above its new parent closes no cycle. -/
theorem Acyclic.insert (h : Acyclic child) (hnot : ¬ReflTransGen child node parent)
    (hsub : ∀ a b, child' a b → child a b ∨ a = parent ∧ b = node) : Acyclic child' := by
  intro x hx
  rcases path_insert hnot hsub hx with hpath | ⟨hup, hdown⟩
  · exact h x hpath
  · exact hnot (hdown.trans hup)

theorem eq_of_leaf (hleaf : ∀ b, ¬child node b) {x : ι} (h : ReflTransGen child node x) : x = node := by
  rcases ReflTransGen.cases_head h with heq | ⟨b, hb, -⟩
  · exact heq.symm
  · exact absurd hb (hleaf b)

/-- A node that is reached from a root without parents is on no cycle, if nobody has two parents. -/
theorem not_cycle_of_reach (honce : ∀ a a' b, child a b → child a' b → a = a') (hroot : ∀ a, ¬child a root)
    {x : ι} (h : ReflTransGen child root x) : ¬TransGen child x x := by
  induction h with
  | refl =>
    intro hcycle
    obtain ⟨a, -, ha⟩ := TransGen.tail'_iff.1 hcycle
    exact hroot a ha
  | @tail y z _ hyz ih =>
    intro hcycle
    obtain ⟨a, hza, haz⟩ := TransGen.tail'_iff.1 hcycle
    rw [honce a y z haz hyz] at hza
    exact ih (TransGen.head' hyz hza)

/-- Without a node that has no children, the others stay where they were. -/
theorem reach_drop (hkeep : ∀ a b, child a b → b ≠ node → child' a b) (hleaf : ∀ b, ¬child node b) {x : ι}
    (h : ReflTransGen child root x) (hx : x ≠ node) : ReflTransGen child' root x := by
  induction h with
  | refl => exact .refl
  | @tail y z _ hyz ih =>
    have hy : y ≠ node := fun heq => hleaf z (heq ▸ hyz)
    exact (ih hy).tail (hkeep y z hyz hx)

/-- What is not below a node stays reachable when that node is cut off. -/
theorem reach_outside (hkeep : ∀ a b, child a b → b ≠ node → child' a b) {x : ι}
    (h : ReflTransGen child root x) (hx : ¬ReflTransGen child node x) : ReflTransGen child' root x := by
  induction h with
  | refl => exact .refl
  | @tail y z _ hyz ih =>
    have hy : ¬ReflTransGen child node y := fun hbelow => hx (hbelow.tail hyz)
    exact (ih hy).tail (hkeep y z hyz fun heq => hx (heq ▸ .refl))

/-- Everything stays reachable when a node moves to a reachable parent that is not below it. -/
theorem reach_move (hkeep : ∀ a b, child a b → b ≠ node → child' a b) (hnew : child' parent node)
    (hparent : ReflTransGen child root parent) (hnot : ¬ReflTransGen child node parent) {x : ι}
    (h : ReflTransGen child root x) : ReflTransGen child' root x := by
  have hnode : ReflTransGen child' root node := (reach_outside hkeep hparent hnot).tail hnew
  induction h with
  | refl => exact .refl
  | @tail y z _ hyz ih =>
    by_cases hz : z = node
    · exact hz ▸ hnode
    · exact ih.tail (hkeep y z hyz hz)

/-- Nodes with lists of children: each node in use is in one list at most, the root in none. -/
structure Forest (children : ι → List ι) (live : Set ι) (root : ι) : Prop where
  root_mem : root ∈ live
  mem_live : ∀ a, ∀ b ∈ children a, b ∈ live
  root_not_mem : ∀ a, root ∉ children a
  once : ∀ a a' b, b ∈ children a → b ∈ children a' → a = a'
  nodup : ∀ a, (children a).Nodup
  acyclic : Acyclic fun a b => b ∈ children a

namespace Forest
variable {children : ι → List ι} {live : Set ι}

theorem of_nil (h : ∀ a, children a = []) (hroot : root ∈ live) : Forest children live root where
  root_mem := hroot
  mem_live a b hb := by simp [h] at hb
  root_not_mem a ha := by simp [h] at ha
  once a a' b hb := by simp [h] at hb
  nodup a := by simp [h]
  acyclic x hx := by
    obtain ⟨b, hb, -⟩ := TransGen.head'_iff.1 hx
    simp [h] at hb

theorem grow (h : Forest children live root) (n : ι) : Forest children (insert n live) root where
  root_mem := Set.mem_insert_of_mem n h.root_mem
  mem_live := fun a b hb => Set.mem_insert_of_mem n (h.mem_live a b hb)
  root_not_mem := h.root_not_mem
  once := h.once
  nodup := h.nodup
  acyclic := h.acyclic

theorem drop (h : Forest children live root) {n : ι} (hfree : ∀ a, n ∉ children a) (hroot : n ≠ root) :
    Forest children (live \ {n}) root where
  root_mem := ⟨h.root_mem, Ne.symm hroot⟩
  mem_live := fun a b hb => ⟨h.mem_live a b hb, fun heq => hfree a (heq ▸ hb)⟩
  root_not_mem := h.root_not_mem
  once := h.once
  nodup := h.nodup
  acyclic := h.acyclic

variable [DecidableEq ι]

theorem mem_update {a b : ι} {l : List ι} :
    b ∈ Function.update children parent l a ↔ a = parent ∧ b ∈ l ∨ a ≠ parent ∧ b ∈ children a := by
  by_cases ha : a = parent
  · subst ha
    rw [Function.update_self]
    simp
  · rw [Function.update_of_ne ha]
    simp [ha]

/-- A node in no list comes into the list of a node that is not below it. -/
theorem attach (h : Forest children live root) (hlive : node ∈ live) (hroot : node ≠ root)
    (hfree : ∀ a, node ∉ children a) (hnot : ¬ReflTransGen (fun a b => b ∈ children a) node parent) :
    Forest (Function.update children parent (children parent ++ [node])) live root := by
  have hcases : ∀ a b, b ∈ Function.update children parent (children parent ++ [node]) a →
      b ∈ children a ∨ a = parent ∧ b = node := by
    intro a b hb
    rcases mem_update.1 hb with ⟨rfl, hb⟩ | ⟨-, hb⟩
    · rcases List.mem_append.1 hb with hb | hb
      · exact .inl hb
      · exact .inr ⟨rfl, List.mem_singleton.1 hb⟩
    · exact .inl hb
  refine ⟨h.root_mem, fun a b hb => ?_, fun a ha => ?_, fun a a' b hb hb' => ?_, fun a => ?_, ?_⟩
  · rcases hcases a b hb with hb | ⟨-, rfl⟩
    · exact h.mem_live a b hb
    · exact hlive
  · rcases hcases a root ha with ha | ⟨-, heq⟩
    · exact h.root_not_mem a ha
    · exact hroot heq.symm
  · rcases hcases a b hb with hold | ⟨rfl, rfl⟩
    · rcases hcases a' b hb' with hold' | ⟨-, rfl⟩
      · exact h.once a a' b hold hold'
      · exact absurd hold (hfree a)
    · rcases hcases a' b hb' with hold' | ⟨rfl, -⟩
      · exact absurd hold' (hfree a')
      · rfl
  · by_cases ha : a = parent
    · subst ha
      rw [Function.update_self, List.nodup_append_comm]
      exact List.nodup_cons.2 ⟨hfree a, h.nodup a⟩
    · rw [Function.update_of_ne ha]
      exact h.nodup a
  · exact h.acyclic.insert hnot hcases

theorem detach (h : Forest children live root) {pre post : List ι}
    (hparent : children parent = pre ++ node :: post) :
    Forest (Function.update children parent (pre ++ post)) live root ∧
      ∀ a, node ∉ Function.update children parent (pre ++ post) a := by
  have hcases : ∀ a b, b ∈ Function.update children parent (pre ++ post) a → b ∈ children a := by
    intro a b hb
    rcases mem_update.1 hb with ⟨rfl, hleft⟩ | ⟨-, hold⟩
    · rw [hparent]
      exact List.perm_middle.symm.subset (List.mem_cons_of_mem node hleft)
    · exact hold
  have hnodup : node ∉ pre ++ post ∧ (pre ++ post).Nodup := by
    have hall := h.nodup parent
    rw [hparent] at hall
    exact List.nodup_cons.1 (List.perm_middle.nodup hall)
  refine ⟨⟨h.root_mem, fun a b hb => h.mem_live a b (hcases a b hb), fun a ha =>
      h.root_not_mem a (hcases a root ha),
    fun a a' b hb hb' => h.once a a' b (hcases a b hb) (hcases a' b hb'), fun a => ?_,
    h.acyclic.mono hcases⟩, fun a ha => ?_⟩
  · by_cases ha : a = parent
    · rw [ha, Function.update_self]
      exact hnodup.2
    · rw [Function.update_of_ne ha]
      exact h.nodup a
  · rcases mem_update.1 ha with ⟨-, ha⟩ | ⟨hne, ha⟩
    · exact hnodup.1 ha
    · exact hne (h.once a parent node ha (by rw [hparent]; simp))

theorem mem_detach {pre post : List ι} (hparent : children parent = pre ++ node :: post) {a b : ι}
    (hb : b ∈ children a) (hne : b ≠ node) : b ∈ Function.update children parent (pre ++ post) a := by
  rw [mem_update]
  by_cases ha : a = parent
  · rw [ha, hparent] at hb
    rcases List.mem_cons.1 (List.perm_middle.subset hb) with heq | hb
    · exact absurd heq hne
    · exact .inl ⟨ha, hb⟩
  · exact .inr ⟨ha, hb⟩

end Forest
end Yfs.Lib
