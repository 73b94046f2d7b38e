import Mathlib.Data.Nat.Bitwise
import Mathlib.Data.Nat.Notation
import Mathlib.Data.List.Range
import Mathlib.Tactic.IntervalCases

/-! Byte buffers as functions of the offset, with bit, word and string access. A buffer is what
a C pointer shows: every offset has a byte, also those behind the end of the object. -/
namespace Yfs.Lib

abbrev Buf := ℕ → UInt8

namespace Buf

def shift (b : Buf) (off : ℕ) : Buf := fun i => b (off + i)

/-- `memcpy(dst + off, src, n)`. -/
def copy (dst : Buf) (off n : ℕ) (src : Buf) : Buf :=
  fun i => if off ≤ i ∧ i < off + n then src (i - off) else dst i

/-- The bytes of a string; `tail` lies behind it. -/
def ofList (l : List UInt8) (tail : Buf) : Buf :=
  fun i => if h : i < l.length then l[i] else tail (i - l.length)

def toList (b : Buf) (n : ℕ) : List UInt8 := (List.range n).map b

@[simp] theorem length_toList (b : Buf) (n : ℕ) : (b.toList n).length = n := by
  simp [toList]

theorem toList_eq_iff {b : Buf} {l : List UInt8} {n : ℕ} (tail : Buf) :
    b.toList n = l ↔ l.length = n ∧ ∀ i < n, b i = ofList l tail i := by
  constructor
  · rintro rfl
    refine ⟨length_toList b n, fun i hi => ?_⟩
    simp [ofList, hi, toList]
  · rintro ⟨rfl, h⟩
    refine List.ext_getElem (length_toList b _) fun i hi _ => ?_
    rw [length_toList] at hi
    simp [toList, h i hi, ofList, hi]

theorem toList_add (b : Buf) (m n : ℕ) : b.toList (m + n) = b.toList m ++ (b.shift m).toList n := by
  rw [toList, List.range_add, List.map_append, List.map_map]
  rfl

theorem take_toList (b : Buf) (m n : ℕ) : (b.toList n).take m = b.toList (min m n) := by
  rw [toList, ← List.map_take, List.take_range, toList]

def chunkLen (c n j : ℕ) : ℕ := min c (n - j * c)

theorem min_add_chunkLen (c n k : ℕ) : min (k * c) n + chunkLen c n k = min ((k + 1) * c) n := by
  rw [chunkLen, Nat.succ_mul]
  omega

theorem toList_chunks (b : Buf) (c n k : ℕ) :
    ((List.range k).flatMap fun j => (b.shift (j * c)).toList (chunkLen c n j)) =
      b.toList (min (k * c) n) := by
  induction k with
  | zero => simp [toList]
  | succ k ih =>
    rw [List.range_succ, List.flatMap_append, ih, List.flatMap_singleton, ← min_add_chunkLen, toList_add]
    rcases Nat.le_total (k * c) n with hle | hge
    · rw [Nat.min_eq_left hle]
    · have hempty : chunkLen c n k = 0 := by
        rw [chunkLen]
        omega
      rw [hempty]
      rfl

theorem sum_chunkLen (c n k : ℕ) : ((List.range k).map (chunkLen c n)).sum = min (k * c) n := by
  induction k with
  | zero => simp
  | succ k ih =>
    rw [List.range_succ, List.map_append, List.sum_append, ih, List.map_singleton, List.sum_singleton,
      min_add_chunkLen]

theorem map_chunkLen {c n : ℕ} (m : ℕ) (hn : n ≤ c) :
    (List.range (m + 1)).map (chunkLen c (m * c + n)) = List.replicate m c ++ [n] := by
  have hfull : ∀ j ∈ List.range m, chunkLen c (m * c + n) j = c := by
    intro j hj
    have hle := Nat.mul_le_mul_right c (Nat.succ_le_of_lt (List.mem_range.1 hj))
    rw [Nat.succ_mul] at hle
    rw [chunkLen]
    omega
  have hlast : chunkLen c (m * c + n) m = n := by
    rw [chunkLen]
    omega
  rw [List.range_succ, List.map_append, List.map_congr_left hfull, List.map_const', List.length_range,
    List.map_singleton, hlast]

def bit (b : Buf) (i : ℕ) : Bool := (b (i / 8)).toNat.testBit (7 - i % 8)

def mask (i : ℕ) : UInt8 := 1 <<< UInt8.ofNat (7 - i % 8)

def setBit (b : Buf) (i : ℕ) : Buf := Function.update b (i / 8) (b (i / 8) ||| mask i)

def clearBit (b : Buf) (i : ℕ) : Buf := Function.update b (i / 8) (b (i / 8) &&& ~~~ mask i)

theorem mask_toNat (i : ℕ) : (mask i).toNat = 2 ^ (7 - i % 8) := by
  have h : 7 - i % 8 < 8 := by omega
  unfold mask
  generalize 7 - i % 8 = k at h
  interval_cases k <;> rfl

private theorem bit_pos_eq {i j : ℕ} (h : i / 8 = j / 8) : 7 - i % 8 = 7 - j % 8 ↔ i = j := by
  omega

theorem bit_setBit (b : Buf) (i j : ℕ) : (b.setBit i).bit j = (b.bit j || decide (j = i)) := by
  by_cases h : j / 8 = i / 8
  · simp only [bit, setBit, h, Function.update_self, UInt8.toNat_or, Nat.testBit_or, mask_toNat,
      Nat.testBit_two_pow]
    congr 1
    rw [decide_eq_decide, bit_pos_eq h.symm, eq_comm]
  · have hne : j ≠ i := fun hji => h (by rw [hji])
    simp [bit, setBit, Function.update_of_ne h, hne]

theorem bit_clearBit (b : Buf) (i j : ℕ) : (b.clearBit i).bit j = (b.bit j && !decide (j = i)) := by
  by_cases h : j / 8 = i / 8
  · have hj : 7 - j % 8 < 8 := by omega
    have hnot : (~~~ mask i).toNat = 2 ^ 8 - (2 ^ (7 - i % 8) + 1) := by
      rw [UInt8.toNat_not, mask_toNat]
      simp only [UInt8.size]
      omega
    have hlt : 2 ^ (7 - i % 8) < 2 ^ 8 := Nat.pow_lt_pow_right (by omega) (by omega)
    simp only [bit, clearBit, h, Function.update_self, UInt8.toNat_and, Nat.testBit_and, hnot,
      Nat.testBit_two_pow_sub_succ hlt, Nat.testBit_two_pow, hj, decide_true, Bool.true_and]
    congr 2
    rw [decide_eq_decide, bit_pos_eq h.symm, eq_comm]
  · have hne : j ≠ i := fun hji => h (by rw [hji])
    simp [bit, clearBit, Function.update_of_ne h, hne]

theorem bit_congr {b c : Buf} {i : ℕ} (h : b (i / 8) = c (i / 8)) : b.bit i = c.bit i := by
  rw [bit, h, bit]

theorem eq_of_bit {b c : Buf} {k : ℕ} (h : ∀ i, i / 8 = k → b.bit i = c.bit i) : b k = c k := by
  rw [← UInt8.toNat_inj]
  apply Nat.eq_of_testBit_eq
  intro q
  rcases Nat.lt_or_ge q 8 with hq | hq
  · have hdiv : (8 * k + (7 - q)) / 8 = k := by omega
    have hmod : 7 - (8 * k + (7 - q)) % 8 = q := by omega
    have hbit := h _ hdiv
    rwa [bit, bit, hdiv, hmod] at hbit
  · have hpow : 2 ^ 8 ≤ 2 ^ q := Nat.pow_le_pow_right (by omega) hq
    rw [Nat.testBit_lt_two_pow ((b k).toNat_lt.trans_le hpow),
      Nat.testBit_lt_two_pow ((c k).toNat_lt.trans_le hpow)]

def byteOf (n i : ℕ) : UInt8 := UInt8.ofNat (n / 256 ^ i)

theorem byteOf_toNat (n i : ℕ) : (byteOf n i).toNat = n / 256 ^ i % 256 := by
  simp [byteOf]

def half (b : Buf) (off : ℕ) : UInt16 :=
  UInt16.ofNat ((b off).toNat + 256 * (b (off + 1)).toNat)

def word (b : Buf) (off : ℕ) : UInt32 :=
  UInt32.ofNat ((b off).toNat + 256 * (b (off + 1)).toNat + 65536 * (b (off + 2)).toNat +
    16777216 * (b (off + 3)).toNat)

def setWord (b : Buf) (off : ℕ) (w : UInt32) : Buf := b.copy off 4 (byteOf w.toNat)

theorem half_of_bytes {b : Buf} {off : ℕ} {w : UInt16}
    (h : ∀ i < 2, b (off + i) = byteOf w.toNat i) : b.half off = w := by
  have h₀ := h 0 (by omega)
  have h₁ := h 1 (by omega)
  have hw := w.toNat_lt
  rw [Nat.add_zero] at h₀
  rw [half, h₀, h₁, byteOf_toNat, byteOf_toNat, ← UInt16.toNat_inj, UInt16.toNat_ofNat']
  omega

theorem word_of_bytes {b : Buf} {off : ℕ} {w : UInt32}
    (h : ∀ i < 4, b (off + i) = byteOf w.toNat i) : b.word off = w := by
  have h₀ := h 0 (by omega)
  have h₁ := h 1 (by omega)
  have h₂ := h 2 (by omega)
  have h₃ := h 3 (by omega)
  have hw := w.toNat_lt
  rw [Nat.add_zero] at h₀
  rw [word, h₀, h₁, h₂, h₃, byteOf_toNat, byteOf_toNat, byteOf_toNat, byteOf_toNat,
    ← UInt32.toNat_inj, UInt32.toNat_ofNat']
  omega

theorem byteOf_word (b : Buf) (off : ℕ) {i : ℕ} (hi : i < 4) :
    byteOf (b.word off).toNat i = b (off + i) := by
  have h₀ := (b off).toNat_lt
  have h₁ := (b (off + 1)).toNat_lt
  have h₂ := (b (off + 2)).toNat_lt
  have h₃ := (b (off + 3)).toNat_lt
  have hw : (b.word off).toNat = (b off).toNat + 256 * (b (off + 1)).toNat +
      65536 * (b (off + 2)).toNat + 16777216 * (b (off + 3)).toNat := by
    rw [word, UInt32.toNat_ofNat', Nat.mod_eq_of_lt (by omega)]
  rw [← UInt8.toNat_inj, byteOf_toNat, hw]
  interval_cases i
  · change _ = (b off).toNat
    omega
  · omega
  · omega
  · omega

theorem byteOf_half (b : Buf) (off : ℕ) {i : ℕ} (hi : i < 2) :
    byteOf (b.half off).toNat i = b (off + i) := by
  have h₀ := (b off).toNat_lt
  have h₁ := (b (off + 1)).toNat_lt
  have hw : (b.half off).toNat = (b off).toNat + 256 * (b (off + 1)).toNat := by
    rw [half, UInt16.toNat_ofNat', Nat.mod_eq_of_lt (by omega)]
  rw [← UInt8.toNat_inj, byteOf_toNat, hw]
  interval_cases i
  · change _ = (b off).toNat
    omega
  · omega

theorem word_congr {b c : Buf} {i j : ℕ} (h : ∀ k < 4, b (i + k) = c (j + k)) :
    b.word i = c.word j := by
  have h₀ := h 0 (by omega)
  rw [Nat.add_zero, Nat.add_zero] at h₀
  rw [word, word, h₀, h 1 (by omega), h 2 (by omega), h 3 (by omega)]

theorem half_congr {b c : Buf} {i j : ℕ} (h : ∀ k < 2, b (i + k) = c (j + k)) :
    b.half i = c.half j := by
  have h₀ := h 0 (by omega)
  rw [Nat.add_zero, Nat.add_zero] at h₀
  rw [half, half, h₀, h 1 (by omega)]

theorem word_setWord (b : Buf) (i j : ℕ) (w : UInt32) :
    (b.setWord (4 * i) w).word (4 * j) = if j = i then w else b.word (4 * j) := by
  split_ifs with h
  · subst h
    refine word_of_bytes fun k hk => ?_
    have hin : 4 * j ≤ 4 * j + k ∧ 4 * j + k < 4 * j + 4 := by omega
    simp [setWord, copy, hin]
  · refine word_congr fun k hk => ?_
    have hout : ¬(4 * i ≤ 4 * j + k ∧ 4 * j + k < 4 * i + 4) := by omega
    simp only [setWord, copy, if_neg hout]

end Buf
end Yfs.Lib
