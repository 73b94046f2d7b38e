import Yfs.Extent.File

/-! The loops of `write_file` that write data: what a block holds after them is what the last
write to it put there. -/
namespace Yfs.Extent
open Yfs.Lib

def writeLoop (a b : ℕ → ℕ) (u v : ℕ → Buf) (n : ℕ) (d : Disk) : Disk :=
  forRange 0 n (fun k d => (d.writeBlock (a k) (u k)).writeBlock (b k) (v k)) d

section
variable {a b : ℕ → ℕ} {u v : ℕ → Buf} {n : ℕ} {d : Disk} {x : ℕ}

theorem writeLoop_zero : writeLoop a b u v 0 d = d := forRange_of_le le_rfl _ d

theorem writeLoop_succ : writeLoop a b u v (n + 1) d =
    ((writeLoop a b u v n d).writeBlock (a n) (u n)).writeBlock (b n) (v n) :=
  forRange_succ n.zero_le _ d

theorem writeLoop_of_ne (h : ∀ k < n, x ≠ a k ∧ x ≠ b k) : writeLoop a b u v n d x = d x := by
  induction n with
  | zero => rfl
  | succ n ih =>
    obtain ⟨ha, hb⟩ := h n n.lt_succ_self
    rw [writeLoop_succ, Disk.writeBlock_of_ne hb, Disk.writeBlock_of_ne ha,
      ih fun k hk => h k (hk.trans n.lt_succ_self)]

/-- Turns that do not touch a block after turn `k` leave it as turn `k` did. -/
theorem writeLoop_after {k : ℕ} (hk : k < n) (h : ∀ j, k < j → j < n → x ≠ a j ∧ x ≠ b j) :
    writeLoop a b u v n d x = writeLoop a b u v (k + 1) d x := by
  induction n, hk using Nat.le_induction with
  | base => rfl
  | succ n hn ih =>
    obtain ⟨ha, hb⟩ := h n hn n.lt_succ_self
    rw [writeLoop_succ, Disk.writeBlock_of_ne hb, Disk.writeBlock_of_ne ha,
      ih fun j h₁ h₂ => h j h₁ (h₂.trans n.lt_succ_self)]

theorem writeLoop_second {k i : ℕ} (hk : k < n) (hx : x = b k)
    (h : ∀ j, k < j → j < n → x ≠ a j ∧ x ≠ b j) (hlt : x < blockNum) (hi : i < blockSize) :
    writeLoop a b u v n d x i = v k i := by
  rw [writeLoop_after hk h, writeLoop_succ, Disk.writeBlock_apply, if_pos ⟨hx, hx ▸ hlt, hi⟩]

theorem writeLoop_first {k i : ℕ} (hk : k < n) (hx : x = a k) (hb : x ≠ b k)
    (h : ∀ j, k < j → j < n → x ≠ a j ∧ x ≠ b j) (hlt : x < blockNum) (hi : i < blockSize) :
    writeLoop a b u v n d x i = u k i := by
  rw [writeLoop_after hk h, writeLoop_succ, Disk.writeBlock_of_ne hb, Disk.writeBlock_apply,
    if_pos ⟨hx, hx ▸ hlt, hi⟩]

/-- What holds of a byte of a block after turn `k` still holds at the end if it holds of
everything that is written to the block later. -/
theorem writeLoop_induction {P : UInt8 → Prop} {k i : ℕ} (hk : k ≤ n)
    (hinit : P (writeLoop a b u v k d x i))
    (ha : ∀ j, k ≤ j → j < n → x = a j → P (u j i))
    (hb : ∀ j, k ≤ j → j < n → x = b j → P (v j i)) : P (writeLoop a b u v n d x i) := by
  induction n, hk using Nat.le_induction with
  | base => exact hinit
  | succ n hn ih =>
    rw [writeLoop_succ, Disk.writeBlock_apply]
    split_ifs with h
    · exact hb n hn n.lt_succ_self h.1
    · rw [Disk.writeBlock_apply]
      split_ifs with h'
      · exact ha n hn n.lt_succ_self h'.1
      · exact ih (fun j h₁ h₂ => ha j h₁ (h₂.trans n.lt_succ_self))
          fun j h₁ h₂ => hb j h₁ (h₂.trans n.lt_succ_self)

end

def writeData (rt : Runtime) (buf : Buf) (ino : Inode) (table : Buf) (need : ℕ) (d : Disk) : Disk :=
  if need ≤ nDirect then writeDirect buf ino need d else writeLarge rt buf ino table need d

theorem writeDirect_eq (buf : Buf) (ino : Inode) (n : ℕ) (d : Disk) :
    writeDirect buf ino n d = writeLoop (fun k => (ino.block k).toNat) (fun k => (ino.block k).toNat)
      (fun _ => zero) (fun k => buf.shift (k * blockSize)) n d := rfl

theorem writeIndirect_eq (rt : Runtime) (buf : Buf) (ino : Inode) (table : Buf) (n : ℕ) (d : Disk) :
    writeIndirect rt buf ino table n d =
      writeLoop (fun k => (ino.peek rt k).toNat) (fun k => (table.word (4 * k)).toNat)
        (fun _ => zero) (fun k => buf.shift ((nDirect + k) * blockSize)) n d := rfl

end Yfs.Extent
