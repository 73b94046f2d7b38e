import Mathlib.Data.Nat.Bitwise
import Mathlib.Data.Nat.Notation
import Mathlib.Tactic.Ring

/-! Numbers on the wire: `int`s, fixed big-endian fields and base-128 varints. -/
namespace Yfs.Lib

theorem toInt_toInt32 (x : UInt32) : x.toInt32.toInt = Int.bmod x.toNat (2 ^ 32) := by
  rw [UInt32.toInt32, Int32.toInt, BitVec.toInt_eq_toNat_bmod]
  rfl

/-- The last `k` bytes of a number, the highest first. -/
def bigEndian : ℕ → ℕ → List UInt8
  | 0, _ => []
  | k + 1, n => bigEndian k (n / 256) ++ [UInt8.ofNat n]

def ofBigEndian (l : List UInt8) : ℕ := l.foldl (fun n b => n * 256 + b.toNat) 0

@[simp] theorem length_bigEndian (k n : ℕ) : (bigEndian k n).length = k := by
  induction k generalizing n with
  | zero => rfl
  | succ k ih => rw [bigEndian, List.length_append, ih, List.length_singleton]

theorem ofBigEndian_bigEndian (k n : ℕ) : ofBigEndian (bigEndian k n) = n % 256 ^ k := by
  induction k generalizing n with
  | zero => exact (Nat.mod_one n).symm
  | succ k ih =>
    have hlast : (UInt8.ofNat n).toNat = n % 256 := UInt8.toNat_ofNat'
    rw [bigEndian, ofBigEndian, List.foldl_append]
    change ofBigEndian (bigEndian k (n / 256)) * 256 + (UInt8.ofNat n).toNat = _
    rw [ih, hlast, Nat.pow_succ, Nat.mul_comm (256 ^ k), Nat.mod_mul]
    ring

namespace Varint

/-- Seven bits a byte, the lowest first; all bytes but the last have their high bit set. -/
def encode (n : ℕ) : List UInt8 :=
  if n < 128 then [UInt8.ofNat n] else UInt8.ofNat (n % 128 + 128) :: encode (n / 128)

/-- The number at the start, and the bytes behind it; `none` if they end inside it. -/
def decode : List UInt8 → Option (ℕ × List UInt8)
  | [] => none
  | b :: l => if b.toNat < 128 then some (b.toNat, l)
    else (decode l).map fun x => (b.toNat % 128 + 128 * x.1, x.2)

theorem encode_of_lt {n : ℕ} (h : n < 128) : encode n = [UInt8.ofNat n] := by
  rw [encode, if_pos h]

theorem encode_of_le {n : ℕ} (h : 128 ≤ n) :
    encode n = UInt8.ofNat (n % 128 + 128) :: encode (n / 128) := by
  rw [encode, if_neg (Nat.not_lt.2 h)]

theorem decode_of_lt {b : UInt8} (h : b.toNat < 128) (l : List UInt8) :
    decode (b :: l) = some (b.toNat, l) := by
  rw [decode, if_pos h]

theorem decode_of_le {b : UInt8} (h : 128 ≤ b.toNat) (l : List UInt8) :
    decode (b :: l) = (decode l).map fun x => (b.toNat % 128 + 128 * x.1, x.2) := by
  rw [decode, if_neg (Nat.not_lt.2 h)]

theorem decode_encode (n : ℕ) (l : List UInt8) : decode (encode n ++ l) = some (n, l) := by
  induction n using Nat.strongRecOn with
  | ind n ih =>
    by_cases hn : n < 128
    · have hbyte : (UInt8.ofNat n).toNat = n := by
        rw [UInt8.toNat_ofNat', Nat.mod_eq_of_lt (by omega)]
      rw [encode_of_lt hn, List.singleton_append, decode_of_lt (by rwa [hbyte]), hbyte]
    · have hbyte : (UInt8.ofNat (n % 128 + 128)).toNat = n % 128 + 128 := by
        rw [UInt8.toNat_ofNat', Nat.mod_eq_of_lt (by omega)]
      rw [encode_of_le (Nat.not_lt.1 hn), List.cons_append, decode_of_le (by omega), ih (n / 128) (by omega),
        Option.map_some, hbyte]
      congr 2
      omega

theorem length_encode (k : ℕ) {n : ℕ} (hle : 128 ^ k ≤ n) (hlt : n < 128 ^ (k + 1)) :
    (encode n).length = k + 1 := by
  induction k generalizing n with
  | zero => rw [encode_of_lt (by omega), List.length_singleton]
  | succ k ih =>
    have hpow : 128 ^ (k + 1) = 128 ^ k * 128 := Nat.pow_succ _ _
    have hpow' : 128 ^ (k + 1 + 1) = 128 ^ (k + 1) * 128 := Nat.pow_succ _ _
    have hone : 1 ≤ 128 ^ k := Nat.one_le_pow _ _ (by omega)
    rw [encode_of_le (by omega), List.length_cons, ih]
    · rw [Nat.le_div_iff_mul_le (by omega)]
      omega
    · rw [Nat.div_lt_iff_lt_mul (by omega)]
      omega

end Varint
end Yfs.Lib
