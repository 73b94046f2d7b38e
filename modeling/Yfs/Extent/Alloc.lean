import Yfs.Extent.File

/-! The allocating and freeing loops of the file operations, in terms of the list of free
blocks. -/
namespace Yfs.Extent
open Yfs.Lib

namespace Disk

def mark (d : Disk) (l : List ℕ) : Disk :=
  l.foldl (fun d b => d.writeBlock 2 ((d 2).setBit b)) d

def unmark (d : Disk) (l : List UInt32) : Disk := l.foldl freeBlock d

theorem mark_nil (d : Disk) : d.mark [] = d := rfl

theorem mark_concat (d : Disk) (l : List ℕ) (b : ℕ) :
    d.mark (l ++ [b]) = (d.mark l).writeBlock 2 ((d.mark l 2).setBit b) := by
  simp [mark]

theorem mark_of_ne {d : Disk} {b : ℕ} (hb : b ≠ 2) (l : List ℕ) : d.mark l b = d b := by
  induction l using List.reverseRecOn with
  | nil => rfl
  | append_singleton l c ih => rw [mark_concat, writeBlock_of_ne hb, ih]

theorem used_mark {d : Disk} {c : ℕ} (hc : c < bpb) (l : List ℕ) :
    (d.mark l).used c = (d.used c || decide (c ∈ l)) := by
  induction l using List.reverseRecOn with
  | nil => simp [mark]
  | append_singleton l b ih =>
    rw [mark_concat, used_writeBlock hc, if_pos rfl, Buf.bit_setBit]
    rw [used] at ih
    simp [ih, Bool.or_assoc]

theorem freeBlocks_mark {d : Disk} {l r : List ℕ} (h : d.freeBlocks = l ++ r) :
    (d.mark l).freeBlocks = r := by
  induction l using List.reverseRecOn generalizing r with
  | nil => exact h
  | append_singleton l b ih =>
    have hl : (d.mark l).freeBlocks = b :: r := ih (by rw [h, List.append_assoc, List.singleton_append])
    rw [mark_concat, freeBlocks_setBit hl]

theorem unmark_of_ne {d : Disk} {b : ℕ} (hb : b ≠ 2) {l : List UInt32}
    (hl : ∀ id ∈ l, id.toNat < bpb) : d.unmark l b = d b := by
  induction l generalizing d with
  | nil => rfl
  | cons id l ih =>
    have hid := hl id List.mem_cons_self
    rw [unmark, List.foldl_cons, ← unmark, ih fun i hi => hl i (List.mem_cons_of_mem _ hi),
      freeBlock, bblock_eq hid, writeBlock_of_ne hb]

theorem used_unmark {d : Disk} {c : ℕ} (hc : c < bpb) {l : List UInt32}
    (hl : ∀ id ∈ l, id.toNat < bpb) :
    (d.unmark l).used c = (d.used c && !decide (c ∈ l.map UInt32.toNat)) := by
  induction l generalizing d with
  | nil => simp [unmark]
  | cons id l ih =>
    have hid := hl id List.mem_cons_self
    rw [unmark, List.foldl_cons, ← unmark, ih fun i hi => hl i (List.mem_cons_of_mem _ hi),
      freeBlock, bblock_eq hid, used_writeBlock hc, if_pos rfl, Buf.bit_clearBit,
      Nat.mod_eq_of_lt hid, ← used]
    simp [Bool.and_assoc]

end Disk

theorem allocBlock_mark_take {d : Disk} {k : ℕ} (hk : k < d.freeBlocks.length) :
    (d.mark (d.freeBlocks.take k)).allocBlock =
      (UInt32.ofNat (d.freeBlocks.getD k 0), d.mark (d.freeBlocks.take (k + 1))) := by
  have hrest : (d.mark (d.freeBlocks.take k)).freeBlocks =
      d.freeBlocks[k] :: d.freeBlocks.drop (k + 1) := by
    rw [← List.drop_eq_getElem_cons hk]
    exact Disk.freeBlocks_mark (List.take_append_drop k _).symm
  rw [Disk.allocBlock_of_cons hrest, List.take_succ_eq_append_getElem hk, Disk.mark_concat,
    List.getD_eq_getElem _ _ hk]

/-- A loop that allocates one block a turn and stores its id, after `k` allocations. -/
theorem allocLoop_eq {τ : Type} (store : ℕ → UInt32 → τ → τ) {d : Disk} (k lo : ℕ) {n : ℕ}
    (hn : k + n ≤ d.freeBlocks.length) (x : τ) :
    forRange lo (lo + n) (fun i s => (store i s.2.allocBlock.1 s.1, s.2.allocBlock.2))
        (x, d.mark (d.freeBlocks.take k)) =
      (forRange lo (lo + n) (fun i => store i (UInt32.ofNat (d.freeBlocks.getD (k + (i - lo)) 0))) x,
        d.mark (d.freeBlocks.take (k + n))) := by
  induction n with
  | zero => simp [forRange_of_le]
  | succ n ih =>
    rw [← Nat.add_assoc lo, forRange_succ (Nat.le_add_right lo n), ih (by omega),
      forRange_succ (Nat.le_add_right lo n), allocBlock_mark_take (by omega), Nat.add_sub_cancel_left,
      Nat.add_assoc]

theorem allocDirect_times (lo hi : ℕ) (s : Inode × Disk) :
    (allocDirect lo hi s).1.type = s.1.type ∧ (allocDirect lo hi s).1.atime = s.1.atime := by
  rcases Nat.le_total lo hi with hle | hge
  · unfold allocDirect
    refine forRange_induction (fun _ (s' : Inode × Disk) => s'.1.type = s.1.type ∧ s'.1.atime = s.1.atime)
      hle ⟨rfl, rfl⟩ ?_
    intro i s' _ _ h
    exact h
  · rw [allocDirect, forRange_of_le hge]
    exact ⟨rfl, rfl⟩

theorem allocDirect_eq {d : Disk} (ino : Inode) (k : ℕ) {lo hi : ℕ} (h : lo ≤ hi)
    (hfree : k + (hi - lo) ≤ d.freeBlocks.length) :
    allocDirect lo hi (ino, d.mark (d.freeBlocks.take k)) =
      (forRange lo hi
          (fun i ino => ino.setBlock i (UInt32.ofNat (d.freeBlocks.getD (k + (i - lo)) 0))) ino,
        d.mark (d.freeBlocks.take (k + (hi - lo)))) := by
  have heq := allocLoop_eq (fun i id (ino : Inode) => ino.setBlock i id) k lo hfree ino
  rwa [Nat.add_sub_cancel' h] at heq

theorem allocTable_eq {d : Disk} (table : Buf) (k : ℕ) {lo hi : ℕ} (h : lo ≤ hi)
    (hfree : k + (hi - lo) ≤ d.freeBlocks.length) :
    allocTable lo hi (table, d.mark (d.freeBlocks.take k)) =
      (forRange lo hi (fun i table =>
          table.setWord (4 * i) (UInt32.ofNat (d.freeBlocks.getD (k + (i - lo)) 0))) table,
        d.mark (d.freeBlocks.take (k + (hi - lo)))) := by
  have heq := allocLoop_eq (fun i id (table : Buf) => table.setWord (4 * i) id) k lo hfree table
  rwa [Nat.add_sub_cancel' h] at heq

theorem block_setBlocks (ino : Inode) (f : ℕ → UInt32) {lo hi : ℕ} (h : lo ≤ hi)
    (hhi : hi ≤ nDirect + 1) (j : ℕ) :
    (forRange lo hi (fun i ino => ino.setBlock i (f i)) ino).block j =
      if lo ≤ j ∧ j < hi then f j else ino.block j := by
  refine forRange_induction
    (fun i (ino' : Inode) => ino'.block j = if lo ≤ j ∧ j < i then f j else ino.block j) h ?_ ?_
  · rw [if_neg (by omega)]
  · intro i ino' hlo hi' ih
    rw [Inode.block_setBlock, ih]
    by_cases hij : j = i
    · subst hij
      rw [if_pos ⟨rfl, by omega⟩, if_pos ⟨hlo, by omega⟩]
    · have hiff : lo ≤ j ∧ j < i + 1 ↔ lo ≤ j ∧ j < i := by omega
      simp only [hij, hiff, false_and, if_false]

theorem setBlocks_eq (ino : Inode) (f : ℕ → UInt32) {lo hi : ℕ} (h : lo ≤ hi) :
    ∃ blocks, forRange lo hi (fun i ino => ino.setBlock i (f i)) ino = { ino with blocks := blocks } := by
  refine forRange_induction (fun _ (ino' : Inode) => ∃ blocks, ino' = { ino with blocks := blocks }) h
    ⟨ino.blocks, rfl⟩ ?_
  rintro i _ - - ⟨blocks, rfl⟩
  exact ⟨_, rfl⟩

theorem word_setWords (table : Buf) (f : ℕ → UInt32) {lo hi : ℕ} (h : lo ≤ hi) (j : ℕ) :
    (forRange lo hi (fun i table => table.setWord (4 * i) (f i)) table).word (4 * j) =
      if lo ≤ j ∧ j < hi then f j else table.word (4 * j) := by
  refine forRange_induction (fun i (table' : Buf) =>
    table'.word (4 * j) = if lo ≤ j ∧ j < i then f j else table.word (4 * j)) h ?_ ?_
  · rw [if_neg (by omega)]
  · intro i table' hlo _ ih
    rw [Buf.word_setWord, ih]
    by_cases hij : j = i
    · subst hij
      rw [if_pos rfl, if_pos ⟨hlo, by omega⟩]
    · have hiff : lo ≤ j ∧ j < i + 1 ↔ lo ≤ j ∧ j < i := by omega
      simp only [hij, hiff, if_false]

theorem setWords_of_le (table : Buf) (f : ℕ → UInt32) {lo hi : ℕ} (h : lo ≤ hi) {i : ℕ}
    (hi' : 4 * hi ≤ i) :
    forRange lo hi (fun i table => table.setWord (4 * i) (f i)) table i = table i := by
  refine forRange_induction (fun k (table' : Buf) => table' i = table i) h rfl ?_
  intro k table' _ hk ih
  rw [Buf.setWord, Buf.copy, if_neg (by omega), ih]

theorem freeDirect_eq (ino : Inode) (lo hi : ℕ) (d : Disk) :
    freeDirect ino lo hi d = d.unmark ((List.range' lo (hi - lo)).map ino.block) := by
  rw [freeDirect, forRange, Disk.unmark, List.foldl_map]

theorem freeTable_eq (table : Buf) (lo hi : ℕ) (d : Disk) :
    freeTable table lo hi d =
      d.unmark ((List.range' lo (hi - lo)).map fun i => table.word (4 * i)) := by
  rw [freeTable, forRange, Disk.unmark, List.foldl_map]

end Yfs.Extent
