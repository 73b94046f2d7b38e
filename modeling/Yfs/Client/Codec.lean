import Yfs.Client.Scan
import Mathlib.Data.Nat.Digits.Lemmas

/-! Lists of entries written by the rule with which `create` and its kin append and read back by
`nlock_readdir`. -/
namespace Yfs.Client
open Yfs.Extent

/-- The text that comes from adding entries one after the other to an empty one, as `create`, `mkdir`,
`createlink` and `Rename` do it. -/
def build (l : List (Str × UInt64)) : Str :=
  l.foldl (fun dirList e => addEntry dirList (e.1, filename e.2)) []

def written (e : Str × UInt64) : Str × Str := (e.1, filename e.2)

def readBack (e : Str × Str) : Str × UInt64 := (e.1, n2i e.2)

theorem readBack_written (e : Str × UInt64) : readBack (written e) = e := Prod.ext rfl (n2i_filename e.2)

theorem map_readBack_written (l : List (Str × UInt64)) : (l.map written).map readBack = l := by
  have hid : readBack ∘ written = id := funext readBack_written
  rw [List.map_map, hid, List.map_id]

theorem build_eq_render (l : List (Str × UInt64)) : build l = render (l.map written) := by
  induction l using List.reverseRecOn with
  | nil => rfl
  | append_singleton l e ih =>
    rw [build, List.foldl_append, ← build, ih, List.map_append, List.map_singleton, ← addEntry_render]
    rfl

theorem count_entry {e : Str × Str} (h : Plain e) : (entry e).count semi = 1 := by
  rw [entry, List.count_append, List.count_cons_self, List.count_eq_zero.2 h.1, List.count_eq_zero.2 h.2.1]

theorem length_filename_le (inum : UInt64) : (filename inum).length ≤ 20 := by
  unfold filename
  split_ifs with h
  · decide
  · rw [List.length_map, List.length_reverse]
    have hlt := inum.toNat_lt
    exact (Nat.digits_length_le_iff (by decide) _).2 (by omega)

/-- `nlock_readdir` reads a list back from the text that was built of it, and the text can be built
again from what it reads. -/
def ReadsBack (finum : UInt64) (l : List (Str × UInt64)) : Prop :=
  ∃ list, readdirText (extractInum finum) (build l) = some list ∧ (list.map fun e => (e.name, e.inum)) = l ∧
    build (list.map fun e => (e.name, e.inum)) = build l

section
variable {l : List (Str × UInt64)}

theorem plain_written {e : Str × UInt64} (h : semi ∉ e.1) : Plain (written e) :=
  ⟨h, semi_not_mem_filename e.2, filename_ne_nil e.2⟩

theorem plain_map_written (h : ∀ e ∈ l, semi ∉ e.1) : ∀ a ∈ l.map written, Plain a := by
  intro a ha
  obtain ⟨e, he, rfl⟩ := List.mem_map.1 ha
  exact plain_written (h e he)

theorem entries_build (h : ∀ e ∈ l, semi ∉ e.1) : entries (build l) = l.map written := by
  rw [build_eq_render]
  exact entries_render (plain_map_written h)

/-- Every list of entries comes back, as long as an inode has room for its text. -/
theorem readsBack (h : ∀ e ∈ l, semi ∉ e.1) (hlen : (build l).length ≤ maxFile * blockSize)
    (finum : UInt64) : ReadsBack finum l := by
  have hread := readdirText_eq (extractInum finum) (length_lt_of_le_maxFile hlen)
  rw [entries_build h, List.map_map] at hread
  have hentry : ∀ e : Str × UInt64, (e.1, extractInum finum (filename e.2)) = e := fun e =>
    Prod.ext rfl (extractInum_filename finum e.2)
  have hlist : (l.map ((fun e : Str × Str => (⟨e.1, extractInum finum e.2⟩ : Dirent)) ∘ written)).map
      (fun e => (e.name, e.inum)) = l := by
    rw [List.map_map]
    exact (List.map_congr_left fun e _ => hentry e).trans (List.map_id l)
  exact ⟨_, hread, hlist, by rw [hlist]⟩

end

/-- An empty name, the greatest inum and a name that comes twice. -/
def fourEntries : List (Str × UInt64) := [([97, 98], 2), ([], 18446744073709551615), ([97], 0), ([97], 10)]

theorem readsBack_four : (∀ e ∈ fourEntries, semi ∉ e.1) ∧
    (build fourEntries).length ≤ maxFile * blockSize ∧ ∀ finum, ReadsBack finum fourEntries := by
  have hnames : ∀ e ∈ fourEntries, semi ∉ e.1 := by decide
  have hlen : (build fourEntries).length ≤ maxFile * blockSize := by decide
  exact ⟨hnames, hlen, readsBack hnames hlen⟩

end Yfs.Client
