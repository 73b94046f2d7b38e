import Yfs.Lib.Wire

/-! Values written into a stream of bytes one after the other, and read back from its front. -/
namespace Yfs.Lib

/-- A writer and a reader. What is written is read back, whatever follows it; `Fits` is for the values that
can be written, as lengths are limited. -/
structure Marshal (A : Type) where
  Fits : A → Prop
  put : A → List UInt8
  get : List UInt8 → Option (A × List UInt8)
  get_put : ∀ a rest, Fits a → get (put a ++ rest) = some (a, rest)

namespace Marshal
variable {A B : Type}

def pair (a : Marshal A) (b : Marshal B) : Marshal (A × B) where
  Fits p := a.Fits p.1 ∧ b.Fits p.2
  put p := a.put p.1 ++ b.put p.2
  get l := (a.get l).bind fun x => (b.get x.2).map fun y => ((x.1, y.1), y.2)
  get_put p rest h := by
    rw [List.append_assoc, a.get_put _ _ h.1, Option.bind_some, b.get_put _ _ h.2, Option.map_some]

def record (a : Marshal A) (make : A → B) (fields : B → A) (h : ∀ b, make (fields b) = b) : Marshal B where
  Fits b := a.Fits (fields b)
  put b := a.put (fields b)
  get l := (a.get l).map fun x => (make x.1, x.2)
  get_put b rest hfits := by rw [a.get_put _ _ hfits, Option.map_some, h]

def getMany (a : Marshal A) : ℕ → List A → List UInt8 → Option (List A × List UInt8)
  | 0, v, l => some (v, l)
  | n + 1, v, l => (a.get l).bind fun x => a.getMany n (v ++ [x.1]) x.2

theorem getMany_flatMap (a : Marshal A) {l : List A} (h : ∀ x ∈ l, a.Fits x) (v : List A)
    (rest : List UInt8) : a.getMany l.length v (l.flatMap a.put ++ rest) = some (v ++ l, rest) := by
  induction l generalizing v with
  | nil => rw [List.append_nil]; rfl
  | cons x l ih =>
    obtain ⟨hx, hl⟩ := List.forall_mem_cons.1 h
    rw [List.flatMap_cons, List.append_assoc, List.length_cons, getMany, a.get_put _ _ hx, Option.bind_some,
      ih hl, List.append_assoc, List.singleton_append]

/-- A word of `k` bytes, the high byte first. -/
def word (k : ℕ) (ofNat : ℕ → A) (toNat : A → ℕ) (hlt : ∀ a, toNat a < 256 ^ k)
    (h : ∀ a, ofNat (toNat a) = a) : Marshal A where
  Fits _ := True
  put a := bigEndian k (toNat a)
  get l := if l.length < k then none else some (ofNat (ofBigEndian (l.take k)), l.drop k)
  get_put a rest _ := by
    have hk := length_bigEndian k (toNat a)
    rw [if_neg (by rw [List.length_append, hk]; omega), List.take_left' hk, List.drop_left' hk,
      ofBigEndian_bigEndian, Nat.mod_eq_of_lt (hlt a), h]

def int32 : Marshal Int32 :=
  word 4 (fun n => (UInt32.ofNat n).toInt32) (fun x => x.toUInt32.toNat) (fun x => x.toUInt32.toNat_lt)
    fun x => by rw [UInt32.ofNat_toNat, Int32.toInt32_toUInt32]

def uint32 : Marshal UInt32 := word 4 UInt32.ofNat UInt32.toNat UInt32.toNat_lt fun _ => UInt32.ofNat_toNat

def uint64 : Marshal UInt64 := word 8 UInt64.ofNat UInt64.toNat UInt64.toNat_lt fun _ => UInt64.ofNat_toNat

def text : Marshal (List UInt8) where
  Fits _ := True
  put s := Varint.encode s.length ++ s
  get l := (Varint.decode l).bind fun x =>
    if x.2.length < x.1 then none else some (x.2.take x.1, x.2.drop x.1)
  get_put s rest _ := by
    rw [List.append_assoc, Varint.decode_encode, Option.bind_some, if_neg, List.take_left, List.drop_left]
    rw [List.length_append]
    omega

end Marshal
end Yfs.Lib
