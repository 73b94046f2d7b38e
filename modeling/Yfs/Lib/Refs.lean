import Mathlib.Data.Finset.Card
import Mathlib.Data.Nat.Notation

/-! Counting the holders that point to an object. -/
namespace Yfs.Lib
variable {H P : Type} [DecidableEq P] {live : Finset H} {h : H → Option P} {x : H}
  {a : P}

/-- How many of the holders in `live` point to `a`. -/
def refs (live : Finset H) (h : H → Option P) (a : P) : ℕ := (live.filter fun x => h x = some a).card

theorem refs_eq_zero : refs live h a = 0 ↔ ∀ x ∈ live, h x ≠ some a := by
  rw [refs, Finset.card_eq_zero, Finset.filter_eq_empty_iff]

variable [DecidableEq H]

theorem refs_insert (hx : x ∉ live) (r : Option P) : refs (insert x live) (Function.update h x r) a =
    refs live h a + if r = some a then 1 else 0 := by
  have hsame : (live.filter fun y => Function.update h x r y = some a) =
      live.filter fun y => h y = some a := by
    refine Finset.filter_congr fun y hy => ?_
    have hne : y ≠ x := fun hyx => hx (hyx ▸ hy)
    rw [Function.update_of_ne hne]
  rw [refs, Finset.filter_insert, Function.update_self, hsame]
  split_ifs with hr
  · have hnew : x ∉ live.filter fun y => h y = some a := fun hmem => hx (Finset.mem_filter.1 hmem).1
    rw [Finset.card_insert_of_notMem hnew, refs]
  · rfl

theorem refs_erase_of_ne (ha : h x ≠ some a) : refs (live.erase x) h a = refs live h a := by
  have hnot : x ∉ live.filter fun y => h y = some a := fun hmem => ha (Finset.mem_filter.1 hmem).2
  rw [refs, Finset.filter_erase, Finset.erase_eq_of_notMem hnot, refs]

theorem refs_erase (hx : x ∈ live) (ha : h x = some a) :
    refs (live.erase x) h = Function.update (refs live h) a (refs live h a - 1) := by
  funext b
  rw [Function.update_apply]
  split_ifs with hb
  · rw [hb, refs, Finset.filter_erase]
    exact Finset.card_erase_of_mem (Finset.mem_filter.2 ⟨hx, ha⟩)
  · apply refs_erase_of_ne
    rw [ha]
    exact fun h => hb (Option.some.inj h).symm

end Yfs.Lib
