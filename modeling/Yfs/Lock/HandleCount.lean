import Yfs.Lock.Handle
import Mathlib.Algebra.Group.Int.Defs
import Mathlib.Algebra.Group.Nat.Defs

/-! The handles of a destination are counted as long as the counter has room for them. -/
namespace Yfs.Lock
open Yfs.Lib

theorem toInt_add_one {c : Int32} {k : ℕ} (h : c.toInt = k) (hk : k + 1 < 2 ^ 31) :
    (c + 1).toInt = (k + 1 : ℕ) := by
  rw [Int32.toInt_add, Int32.toInt_one, h, Int.bmod_eq_of_le (by omega) (by omega)]
  rfl

theorem toInt_sub_one {c : Int32} {k : ℕ} (h : c.toInt = k) (hk : k ≠ 0) :
    (c - 1).toInt = (k - 1 : ℕ) := by
  have hlt := c.toInt_lt
  rw [Int32.toInt_sub, Int32.toInt_one, h, Int.bmod_eq_of_le (by omega) (by omega)]
  omega

theorem eq_zero_iff {c : Int32} {k : ℕ} (h : c.toInt = k) : c = 0 ↔ k = 0 := by
  rw [← Int32.toInt_inj, h, Int32.toInt_zero]
  omega

namespace HandleMgr
variable {M P X : Type} {g g' : HandleMgr M P X} {m : M} {a p : P} {i : HInfo M X} {r : Option P}

/-- Entry `a` of destination `m`, with `n` handles for each address. -/
structure Entry (n : P → ℕ) (dropped : M → Bool) (m : M) (a : P) (i : HInfo M X) : Prop where
  name : i.m = m
  refcnt : i.refcnt.toInt = n a
  del : i.del = true → n a ≠ 0
  dropped : dropped m = true → i.del = true

/-- The invariant of the manager, with `n` handles for each address. -/
structure Counts (g : HandleMgr M P X) (n : P → ℕ) (dropped : M → Bool) : Prop where
  entry : ∀ m a, g.hmap m = some a → ∃ i, g.heap a = some i ∧ Entry n dropped m a i
  held : ∀ a, n a ≠ 0 → ∃ m, g.hmap m = some a

variable {n n' : P → ℕ} {dropped dropped' : M → Bool}

theorem Counts.name_unique (h : g.Counts n dropped) {k : M} (hm : g.hmap m = some a)
    (hk : g.hmap k = some a) : k = m := by
  obtain ⟨i, hi, he⟩ := h.entry m a hm
  obtain ⟨j, hj, hek⟩ := h.entry k a hk
  rw [hi, Option.some_inj] at hj
  rw [← he.name, ← hek.name, hj]

/-- A change at destination `m` and address `a` only: `m` has the entry `a` behind it, or no entry,
and then `a` no handles. -/
theorem Counts.change (h : g.Counts n dropped) (hown : ∀ k, g.hmap k = some a → k = m)
    (hat : ∀ b, g.hmap m = some b → b = a) (hmap : ∀ k, k ≠ m → g'.hmap k = g.hmap k)
    (heap : ∀ b, b ≠ a → g'.heap b = g.heap b) (hn : ∀ b, b ≠ a → n' b = n b)
    (hd : ∀ k, k ≠ m → dropped' k = dropped k)
    (hnew : (g'.hmap m = some a ∧ ∃ i, g'.heap a = some i ∧ Entry n' dropped' m a i) ∨
      g'.hmap m = none ∧ n' a = 0) : g'.Counts n' dropped' := by
  constructor
  · intro k b hk
    by_cases hkm : k = m
    · subst hkm
      rcases hnew with ⟨hmem, hentry⟩ | ⟨hnone, -⟩
      · rw [hmem, Option.some_inj] at hk
        exact hk ▸ hentry
      · rw [hnone] at hk
        cases hk
    · rw [hmap k hkm] at hk
      have hb : b ≠ a := fun hb => hkm (hown k (hb ▸ hk))
      obtain ⟨i, hi, he⟩ := h.entry k b hk
      refine ⟨i, by rw [heap b hb, hi], he.name, by rw [hn b hb, he.refcnt], ?_, ?_⟩
      · rw [hn b hb]
        exact he.del
      · rw [hd k hkm]
        exact he.dropped
  · intro b hb
    by_cases hba : b = a
    · subst hba
      rcases hnew with ⟨hmem, -⟩ | ⟨-, hzero⟩
      · exact ⟨m, hmem⟩
      · exact absurd hzero hb
    · rw [hn b hba] at hb
      obtain ⟨k, hk⟩ := h.held b hb
      have hkm : k ≠ m := fun hkm => hba (hat b (hkm ▸ hk))
      exact ⟨k, by rw [hmap k hkm, hk]⟩

theorem safebind_ne_none (hi : g.heap a = some i) : g.safebind (some a) ≠ none := by
  simp only [safebind, hi, Option.bind_eq_bind, Option.bind_some]
  split_ifs <;> exact Option.some_ne_none _

variable [DecidableEq P]

theorem set_heap_self : (g.set a i).heap a = some i := Function.update_self ..

private theorem set_heap_of_ne (h : p ≠ a) : (g.set a i).heap p = g.heap p := Function.update_of_ne h ..

theorem Counts.set (h : g.Counts n dropped) (hm : g.hmap m = some a) (he : Entry n' dropped' m a i)
    (hn : ∀ b, b ≠ a → n' b = n b) (hd : ∀ k, k ≠ m → dropped' k = dropped k) :
    (g.set a i).Counts n' dropped' := by
  refine h.change (fun k hk => h.name_unique hm hk) (fun b hb => ?_) (fun k _ => rfl)
    (fun b hb => set_heap_of_ne hb) hn hd (.inl ⟨hm, i, set_heap_self, he⟩)
  rw [hm, Option.some_inj] at hb
  exact hb.symm

theorem bound_ne_none (hi : g.heap a = some i) (cl : X) (ret : Int32) : g.bound a cl ret ≠ none := by
  simp [bound, hi]

variable [DecidableEq M]

theorem Counts.remove (h : g.Counts n dropped) (hm : g.hmap m = some a) (hzero : n' a = 0)
    (hn : ∀ b, b ≠ a → n' b = n b) (hd : ∀ k, k ≠ m → dropped' k = dropped k) :
    (g.remove m a).Counts n' dropped' := by
  refine h.change (fun k hk => h.name_unique hm hk) (fun b hb => ?_)
    (fun k hk => Function.update_of_ne hk ..) (fun b hb => Function.update_of_ne hb ..) hn hd
    (.inr ⟨Function.update_self .., hzero⟩)
  rw [hm, Option.some_inj] at hb
  exact hb.symm

theorem Counts.add (h : g.Counts n dropped) (hm : g.hmap m = none) (hp : g.heap p = none)
    (hone : n' p = 1) (hn : ∀ b, b ≠ p → n' b = n b) (hd : ∀ k, k ≠ m → dropped' k = dropped k)
    (hdm : dropped' m = false) : (g.add m p).Counts n' dropped' := by
  refine h.change (fun k hk => ?_) (fun b hb => ?_) (fun k hk => Function.update_of_ne hk ..)
    (fun b hb => Function.update_of_ne hb ..) hn hd
    (.inl ⟨Function.update_self .., _, Function.update_self .., rfl, by rw [hone]; rfl, ?_, ?_⟩)
  · obtain ⟨i, hi, -⟩ := h.entry k p hk
    rw [hp] at hi
    cases hi
  · rw [hm] at hb
    cases hb
  · intro hdel
    cases hdel
  · intro hdrop
    rw [hdm] at hdrop
    cases hdrop

private theorem set_remove : (g.set a i).remove m a = g.remove m a := by
  rw [remove, remove, set, Function.update_idem]

theorem getHandle_of_none (hm : g.hmap m = none) : g.getHandle m p = some (some p, g.add m p) := by
  rw [getHandle, hm]

theorem getHandle_of_some (hm : g.hmap m = some a) (hi : g.heap a = some i) : g.getHandle m p =
    if i.del then some (none, g) else some (some a, g.set a { i with refcnt := i.refcnt + 1 }) := by
  rw [getHandle, hm]
  cases hd : i.del <;> simp [hi, hd]

theorem deleteHandleWo_of_none (hm : g.hmap m = none) : g.deleteHandleWo m = some g := by
  rw [deleteHandleWo, hm]

theorem deleteHandleWo_of_some (hm : g.hmap m = some a) (hi : g.heap a = some i) :
    g.deleteHandleWo m =
      if i.refcnt = 0 then some (g.remove m a) else some (g.set a { i with del := true }) := by
  rw [deleteHandleWo, hm]
  simp [hi]

theorem doneHandle_of_some (hi : g.heap a = some i) (hm : g.hmap i.m = some a) : g.doneHandle a =
    if i.refcnt - 1 = 0 ∧ i.del then some (g.remove i.m a)
    else some (g.set a { i with refcnt := i.refcnt - 1 }) := by
  have hdel := deleteHandleWo_of_some (g := g.set a { i with refcnt := i.refcnt - 1 }) hm set_heap_self
  simp only [doneHandle, hi, Option.bind_eq_bind, Option.bind_some]
  split_ifs with h
  · rw [hdel, if_pos h.1, set_remove]
  · rfl

theorem Counts.getHandle_ne_none (h : g.Counts n dropped) (m : M) (p : P) : g.getHandle m p ≠ none := by
  cases hm : g.hmap m with
  | none =>
    rw [getHandle_of_none hm]
    exact Option.some_ne_none _
  | some a =>
    obtain ⟨i, hi, -⟩ := h.entry m a hm
    rw [getHandle_of_some hm hi]
    split_ifs <;> exact Option.some_ne_none _

theorem Counts.deleteHandle_ne_none (h : g.Counts n dropped) (m : M) : g.deleteHandle m ≠ none := by
  unfold HandleMgr.deleteHandle
  cases hm : g.hmap m with
  | none =>
    rw [deleteHandleWo_of_none hm]
    exact Option.some_ne_none _
  | some a =>
    obtain ⟨i, hi, -⟩ := h.entry m a hm
    rw [deleteHandleWo_of_some hm hi]
    split_ifs <;> exact Option.some_ne_none _

theorem destroy_ne_none (hi : g.heap a = some i) (hm : g.hmap i.m = some a) :
    g.destroy (some a) ≠ none := by
  rw [destroy, doneHandle_of_some hi hm]
  split_ifs <;> exact Option.some_ne_none _

theorem Counts.getHandle (h : g.Counts n dropped) (hp : g.hmap m = none → g.heap p = none)
    (hget : g.getHandle m p = some (r, g'))
    (hn : ∀ b, n' b = n b + if r = some b then 1 else 0) (hroom : ∀ b, n' b < 2 ^ 31) :
    g'.Counts n' (if r = none then dropped else Function.update dropped m false) := by
  have hother : ∀ b, r ≠ some b → n' b = n b := by
    intro b hb
    rw [hn, if_neg hb, Nat.add_zero]
  cases hm : g.hmap m with
  | none =>
    have hfree : n p = 0 := by
      by_contra hne
      obtain ⟨k, hk⟩ := h.held p hne
      obtain ⟨i, hi, -⟩ := h.entry k p hk
      rw [hp hm] at hi
      cases hi
    rw [getHandle_of_none hm, Option.some_inj, Prod.mk.injEq] at hget
    obtain ⟨rfl, rfl⟩ := hget
    refine h.add hm (hp hm) (by rw [hn, hfree, if_pos rfl]) (fun b hb => ?_) (fun k hk => ?_) ?_
    · exact hother b fun hpb => hb (Option.some.inj hpb).symm
    · exact Function.update_of_ne hk ..
    · exact Function.update_self ..
  | some a =>
    obtain ⟨i, hi, he⟩ := h.entry m a hm
    rw [getHandle_of_some hm hi] at hget
    split_ifs at hget with hdel
    · -- the entry is to be deleted, the handle gets `NULL`
      rw [Option.some_inj, Prod.mk.injEq] at hget
      obtain ⟨rfl, rfl⟩ := hget
      have hsame : n' = n := funext fun b => hother b (Option.some_ne_none b).symm
      rw [hsame, if_pos rfl]
      exact h
    · rw [Option.some_inj, Prod.mk.injEq] at hget
      obtain ⟨rfl, rfl⟩ := hget
      have hna : n' a = n a + 1 := by rw [hn, if_pos rfl]
      have hlt := hroom a
      rw [hna] at hlt
      refine h.set hm ⟨he.name, ?_, fun hd => absurd hd hdel, fun hd => ?_⟩ (fun b hb => ?_) fun k hk => ?_
      · rw [hna]
        exact toInt_add_one he.refcnt hlt
      · rw [if_neg (Option.some_ne_none a), Function.update_self] at hd
        cases hd
      · exact hother b fun hab => hb (Option.some.inj hab).symm
      · exact Function.update_of_ne hk ..

theorem Counts.deleteHandle (h : g.Counts n dropped) (hdel : g.deleteHandle m = some g') :
    g'.Counts n (Function.update dropped m true) := by
  have hd : ∀ k, k ≠ m → Function.update dropped m true k = dropped k :=
    fun k hk => Function.update_of_ne hk ..
  unfold HandleMgr.deleteHandle at hdel
  cases hm : g.hmap m with
  | none =>
    rw [deleteHandleWo_of_none hm, Option.some_inj] at hdel
    subst hdel
    refine ⟨fun k b hk => ?_, h.held⟩
    have hkm : k ≠ m := by
      intro hkm
      rw [hkm, hm] at hk
      cases hk
    obtain ⟨i, hi, he⟩ := h.entry k b hk
    exact ⟨i, hi, he.name, he.refcnt, he.del, by rw [hd k hkm]; exact he.dropped⟩
  | some a =>
    obtain ⟨i, hi, he⟩ := h.entry m a hm
    rw [deleteHandleWo_of_some hm hi] at hdel
    split_ifs at hdel with hzero
    · rw [Option.some_inj] at hdel
      subst hdel
      exact h.remove hm ((eq_zero_iff he.refcnt).1 hzero) (fun b _ => rfl) hd
    · rw [Option.some_inj] at hdel
      subst hdel
      have hne : n a ≠ 0 := fun hn => hzero ((eq_zero_iff he.refcnt).2 hn)
      exact h.set hm ⟨he.name, he.refcnt, fun _ => hne, fun _ => rfl⟩ (fun b _ => rfl) hd

theorem Counts.doneHandle (h : g.Counts n dropped) (ha : n a ≠ 0) (hdone : g.doneHandle a = some g') :
    g'.Counts (Function.update n a (n a - 1)) dropped := by
  have hn : ∀ b, b ≠ a → Function.update n a (n a - 1) b = n b := fun b hb => Function.update_of_ne hb ..
  obtain ⟨m, hm⟩ := h.held a ha
  obtain ⟨i, hi, he⟩ := h.entry m a hm
  have hname := he.name
  subst hname
  have hdec := toInt_sub_one he.refcnt ha
  rw [doneHandle_of_some hi hm] at hdone
  split_ifs at hdone with hlast
  · rw [Option.some_inj] at hdone
    subst hdone
    have hzero := (eq_zero_iff hdec).1 hlast.1
    exact h.remove hm (by rw [Function.update_self, hzero]) hn fun k _ => rfl
  · rw [Option.some_inj] at hdone
    subst hdone
    refine h.set hm ⟨rfl, by rw [Function.update_self]; exact hdec, fun hd => ?_, he.dropped⟩ hn
      fun k _ => rfl
    rw [Function.update_self]
    exact fun hzero => hlast ⟨(eq_zero_iff hdec).2 hzero, hd⟩

theorem Counts.bound (h : g.Counts n dropped) (ha : n a ≠ 0) (hi : g.heap a = some i) {cl : X}
    {ret : Int32} {c : Option X} (hret : g.bound a cl ret = some (c, g')) :
    g'.Counts n (if ret < 0 then Function.update dropped i.m true else dropped) := by
  obtain ⟨m, hm⟩ := h.held a ha
  obtain ⟨j, hj, he⟩ := h.entry m a hm
  rw [hi, Option.some_inj] at hj
  subst hj
  have hname := he.name
  subst hname
  simp only [HandleMgr.bound, hi, Option.bind_eq_bind, Option.bind_some, Option.some_inj,
    Prod.mk.injEq] at hret
  obtain ⟨-, rfl⟩ := hret
  split_ifs with hneg
  · exact h.set hm ⟨rfl, he.refcnt, fun _ => ha, fun _ => rfl⟩ (fun b _ => rfl)
      fun k hk => Function.update_of_ne hk ..
  · exact h.set hm ⟨rfl, he.refcnt, he.del, he.dropped⟩ (fun b _ => rfl) fun k _ => rfl

end HandleMgr

namespace Handles
variable {H M P X : Type} [DecidableEq P] {s s' : Handles H M P X} {x : H} {a : P}

structure Inv (s : Handles H M P X) : Prop where
  counts : s.mgr.Counts s.count s.dropped
  binding : s.binding ⊆ s.live

theorem inv_init : (init : Handles H M P X).Inv := by
  refine ⟨⟨fun m a hm => ?_, fun a ha => absurd (refs_eq_zero.2 fun x hx => ?_) ha⟩, fun x hx => hx⟩
  · cases hm
  · cases hx

theorem count_ne_zero (hx : x ∈ s.live) (ha : s.h x = some a) : s.count a ≠ 0 :=
  fun hzero => refs_eq_zero.1 hzero x hx ha

theorem Inv.pointee (h : s.Inv) (hx : x ∈ s.live) (ha : s.h x = some a) :
    ∃ i, s.mgr.heap a = some i ∧ s.mgr.hmap i.m = some a := by
  obtain ⟨m, hm⟩ := h.counts.held a (count_ne_zero hx ha)
  obtain ⟨i, hi, he⟩ := h.counts.entry m a hm
  exact ⟨i, hi, by rw [he.name, hm]⟩

/-- A dropped destination has no entry left if it has no handle left: an entry would be marked, and
would have gone with its last handle. -/
theorem Inv.hmap_of_dropped (h : s.Inv) {m : M} (hdrop : s.dropped m = true)
    (hleft : ∀ x ∈ s.live, ∀ a, s.h x = some a → s.mgr.hmap m ≠ some a) : s.mgr.hmap m = none := by
  by_contra hsome
  obtain ⟨a, ha⟩ := Option.ne_none_iff_exists'.1 hsome
  obtain ⟨i, hi, he⟩ := h.counts.entry m a ha
  apply he.del (he.dropped hdrop)
  exact refs_eq_zero.2 fun x hx hxa => hleft x hx a hxa ha

variable [DecidableEq M]

theorem Inv.defined (h : s.Inv) (hx : x ∈ s.live) : s.mgr.destroy (s.h x) ≠ none ∧
    s.mgr.safebind (s.h x) ≠ none ∧ ∀ a, s.h x = some a → ∀ cl ret, s.mgr.bound a cl ret ≠ none := by
  cases hptr : s.h x with
  | none => exact ⟨Option.some_ne_none _, Option.some_ne_none _, fun a ha => by cases ha⟩
  | some a =>
    obtain ⟨i, hi, hm⟩ := h.pointee hx hptr
    refine ⟨HandleMgr.destroy_ne_none hi hm, HandleMgr.safebind_ne_none hi, fun b hb => ?_⟩
    exact Option.some.inj hb ▸ HandleMgr.bound_ne_none hi

theorem Inv.sound (h : s.Inv) : s.Sound where
  counted m a hm := by
    obtain ⟨i, hi, he⟩ := h.counts.entry m a hm
    exact ⟨i, hi, he.name, he.refcnt⟩
  kept x hx a ha := h.pointee hx ha
  defined := ⟨h.counts.getHandle_ne_none, h.counts.deleteHandle_ne_none, fun x hx => h.defined hx⟩
  fresh m hdrop hleft p _ := by
    have hnone := h.hmap_of_dropped hdrop hleft
    exact ⟨_, HandleMgr.getHandle_of_none hnone, Function.update_self .., Function.update_self ..⟩

theorem Sound.room (h : s.Sound) (a : P) : s.count a < 2 ^ 31 := by
  rcases Nat.eq_zero_or_pos (s.count a) with hzero | hpos
  · rw [hzero]
    decide
  · obtain ⟨x, hx⟩ := Finset.card_pos.1 hpos
    obtain ⟨hx, ha⟩ := Finset.mem_filter.1 hx
    obtain ⟨i, hi, hm⟩ := h.kept x hx a ha
    obtain ⟨j, hj, -, hcount⟩ := h.counted i.m a hm
    have hlt := j.refcnt.toInt_lt
    omega

variable [DecidableEq H]

theorem Step.inv (hstep : Step s s') (h : s.Inv) (hroom : ∀ a, s'.count a < 2 ^ 31) : s'.Inv := by
  cases hstep with
  | construct hx hp hget =>
    refine ⟨h.counts.getHandle hp hget (fun b => refs_insert hx _) hroom, ?_⟩
    exact h.binding.trans (Finset.subset_insert _ _)
  | safebind => exact h
  | bind hx => exact ⟨h.counts, Finset.insert_subset hx h.binding⟩
  | bound hx ha hi hret =>
    refine ⟨h.counts.bound (count_ne_zero (h.binding hx) ha) hi hret, ?_⟩
    exact (Finset.erase_subset _ _).trans h.binding
  | @destroy x g hx hidle hdone =>
    refine ⟨?_, fun y hy => Finset.mem_erase.2 ⟨fun hyx => hidle (hyx ▸ hy), h.binding hy⟩⟩
    cases hptr : s.h x with
    | none =>
      rw [hptr, HandleMgr.destroy, Option.some_inj] at hdone
      subst hdone
      have hsame : refs (s.live.erase x) s.h = s.count := by
        funext b
        exact refs_erase_of_ne (by rw [hptr]; exact (Option.some_ne_none b).symm)
      change s.mgr.Counts (refs (s.live.erase x) s.h) s.dropped
      rw [hsame]
      exact h.counts
    | some a =>
      rw [hptr, HandleMgr.destroy] at hdone
      have hless : refs (s.live.erase x) s.h = Function.update s.count a (s.count a - 1) :=
        refs_erase hx hptr
      change g.Counts (refs (s.live.erase x) s.h) s.dropped
      rw [hless]
      exact h.counts.doneHandle (count_ne_zero hx hptr) hdone
  | delete hdel => exact ⟨h.counts.deleteHandle hdel, h.binding⟩

private theorem inv_of_chain {l : List (Handles H M P X)} (hl : List.IsChain Step (s :: l)) (h : s.Inv)
    (hroom : ∀ t ∈ l, ∀ a, t.count a < 2 ^ 31) : ∀ t ∈ l, t.Inv := by
  induction l generalizing s with
  | nil =>
    intro t ht
    cases ht
  | cons u l ih =>
    obtain ⟨hstep, hrest⟩ := List.isChain_cons_cons.1 hl
    obtain ⟨hu, hroom⟩ := List.forall_mem_cons.1 hroom
    have hinv := hstep.inv h hu
    exact List.forall_mem_cons.2 ⟨hinv, ih hrest hinv hroom⟩

/-- The handles are counted along a whole run exactly if no `hinfo` ever has 2³¹ of them. -/
theorem counted_iff (l : List (Handles H M P X)) (hrun : Run l) :
    (∀ s ∈ l, s.Sound) ↔ ∀ s ∈ l, ∀ a, s.count a < 2 ^ 31 :=
  ⟨fun h s hs => (h s hs).room, fun h s hs => (inv_of_chain hrun inv_init h s hs).sound⟩

def single : Handles ℕ String ℕ Unit where
  mgr := HandleMgr.empty.add "server" 0
  live := insert 0 ∅
  h := Function.update (fun _ => none) 0 (some 0)
  binding := ∅
  dropped := Function.update (fun _ => false) "server" false

theorem step_single : Step init single :=
  .construct (x := 0) (m := "server") (p := 0) (Finset.notMem_empty 0) (fun _ => rfl)
    (HandleMgr.getHandle_of_none rfl)

def marked : Handles ℕ String ℕ Unit :=
  { single with
    mgr := single.mgr.set 0 ⟨none, 1, true, "server"⟩
    dropped := Function.update single.dropped "server" true }

def emptied : Handles ℕ String ℕ Unit :=
  { marked with
    mgr := marked.mgr.remove "server" 0
    live := marked.live.erase 0 }

private theorem step_marked : Step single marked :=
  .delete (m := "server")
    (HandleMgr.deleteHandleWo_of_some (a := 0) (i := ⟨none, 1, false, "server"⟩) rfl rfl)

private theorem step_emptied : Step marked emptied :=
  .destroy (x := 0) (Finset.mem_insert_self 0 ∅) (Finset.notMem_empty 0)
    (HandleMgr.doneHandle_of_some (i := ⟨none, 1, true, "server"⟩) rfl rfl)

theorem counted_iff_three : Run [single, marked, emptied] ∧
    ∀ s ∈ [single, marked, emptied], s.Sound := by
  have hrun : Run [single, marked, emptied] := by
    refine List.isChain_cons_cons.2 ⟨step_single, List.isChain_cons_cons.2 ⟨step_marked, ?_⟩⟩
    exact List.isChain_cons_cons.2 ⟨step_emptied, List.isChain_singleton _⟩
  refine ⟨hrun, (counted_iff _ hrun).2 fun s hs a => ?_⟩
  have hcard : s.live.card ≤ 1 := by
    simp only [List.mem_cons, List.not_mem_nil, or_false] at hs
    rcases hs with rfl | rfl | rfl <;> decide
  have hle : s.count a ≤ s.live.card := Finset.card_filter_le _ _
  omega

structure Crowd (n : ℕ) (s : Handles ℕ String ℕ Unit) : Prop where
  live : s.live = Finset.range (n + 1)
  h : ∀ x ∈ s.live, s.h x = some 0
  hmap : s.mgr.hmap "server" = some 0
  heap : s.mgr.heap 0 = some ⟨none, Int32.ofNat (n + 1), false, "server"⟩

theorem reach_crowd (n : ℕ) : ∃ s, Relation.ReflTransGen Step init s ∧ Crowd n s := by
  induction n with
  | zero =>
    refine ⟨single, .single step_single, rfl, fun x hx => ?_, rfl, rfl⟩
    rw [Finset.mem_singleton.1 hx]
    rfl
  | succ n ih =>
    obtain ⟨s, hreach, hs⟩ := ih
    have hx : n + 1 ∉ s.live := by
      rw [hs.live, Finset.mem_range]
      omega
    have hget : s.mgr.getHandle "server" 0 =
        some (some 0, s.mgr.set 0 ⟨none, Int32.ofNat (n + 1) + 1, false, "server"⟩) :=
      HandleMgr.getHandle_of_some hs.hmap hs.heap
    refine ⟨_, hreach.tail (.construct hx (fun hnone => ?_) hget), ?_, fun y hy => ?_, hs.hmap, ?_⟩
    · rw [hs.hmap] at hnone
      cases hnone
    · rw [Finset.range_add_one, ← hs.live]
    · rcases Finset.mem_insert.1 hy with rfl | hy
      · exact Function.update_self ..
      · have hne : y ≠ n + 1 := fun hyn => hx (hyn ▸ hy)
        exact (Function.update_of_ne hne ..).trans (hs.h y hy)
    · rw [HandleMgr.set_heap_self, Int32.ofNat_add (n + 1) 1]
      rfl

theorem Crowd.count {n : ℕ} {s : Handles ℕ String ℕ Unit} (h : Crowd n s) : s.count 0 = n + 1 := by
  rw [Handles.count, refs, Finset.filter_true_of_mem h.h, h.live, Finset.card_range]

/-- With 2³¹ handles for one destination the counter is negative. -/
theorem crowd_overflows : ∃ l : List (Handles ℕ String ℕ Unit), Run l ∧ ∃ s ∈ l, ∃ i,
    s.mgr.hmap "server" = some 0 ∧ s.mgr.heap 0 = some i ∧ s.count 0 = 2 ^ 31 ∧
      i.refcnt.toInt = -2 ^ 31 ∧ ¬s.Sound := by
  obtain ⟨s, hreach, hs⟩ := reach_crowd (2 ^ 31 - 1)
  obtain ⟨l, hrun, hlast⟩ := List.exists_isChain_cons_of_relationReflTransGen hreach
  have hcount : s.count 0 = 2 ^ 31 := hs.count
  have hmem : s ∈ l := by
    rcases List.mem_cons.1 (hlast ▸ List.getLast_mem (List.cons_ne_nil init l)) with hinit | hmem
    · have hmap := hs.hmap
      rw [hinit] at hmap
      cases hmap
    · exact hmem
  refine ⟨l, hrun, s, hmem, _, hs.hmap, hs.heap, hcount, rfl, fun hsound => ?_⟩
  have hroom := hsound.room 0
  omega

end Handles
end Yfs.Lock
