import Yfs.Client.Directory
import Yfs.Lib.Wire

/-! The frames of HRPC: a length of four bytes, and messages that each come behind the varint of their
length. -/
namespace Yfs.Hdfs
open Yfs.Lib Yfs.Client

/-- A message type of protobuf, with `SerializeWithCachedSizes` and `ParseFromArray`. -/
structure Codec (T : Type) where
  serialize : T → Str
  parse : Str → Option T
  parse_serialize : ∀ t, parse (serialize t) = some t

structure Message where
  T : Type
  codec : Codec T
  value : T

def Message.bytes (m : Message) : Str := m.codec.serialize m.value

/-- `VarintSize64` of `google/protobuf/io/coded_stream.h`. -/
def varintSize64 (n : ℕ) : ℕ :=
  if n < 2 ^ 7 then 1
  else if n < 2 ^ 14 then 2
  else if n < 2 ^ 21 then 3
  else if n < 2 ^ 28 then 4
  else if n < 2 ^ 35 then 5
  else if n < 2 ^ 42 then 6
  else if n < 2 ^ 49 then 7
  else if n < 2 ^ 56 then 8
  else if n < 2 ^ 63 then 9
  else 10

def getDelimitedLength (m : Message) : ℕ := m.bytes.length + varintSize64 m.bytes.length

def writeVarint32 (v : UInt32) : Str := Varint.encode v.toNat

def Message.delimited (m : Message) : Str := writeVarint32 (.ofNat m.bytes.length) ++ m.bytes

def payload (ms : List Message) : Str := ms.flatMap Message.delimited

/-- `HrpcWrite`; its overloads take one, two and three messages. The length is summed up in a `uint32_t`
and sent in network order. -/
def hrpcWrite (ms : List Message) : Str :=
  bigEndian 4 (ms.foldl (fun len m => len + .ofNat (getDelimitedLength m)) (0 : UInt32)).toNat ++ payload ms

/-- A descriptor: the bytes that are still to come, and how many of them are there at each `read`. -/
structure Fd where
  stream : Str
  ready : ℕ → ℕ

/-- `read(2)` returns what is there, and may so return less than it is asked for. -/
def Fd.read (n : ℕ) (fd : Fd) : Str × Fd :=
  (fd.stream.take (min n (fd.ready 0)), ⟨fd.stream.drop (min n (fd.ready 0)), fun k => fd.ready (k + 1)⟩)

/-- `HrpcRead` of a frame. There is one `read` for the length and one for the rest, and both must be
complete. -/
def hrpcRead (fd : Fd) : Option (Str × Fd) :=
  let (len, fd) := fd.read 4
  if len.length ≠ 4 then none
  else
    let (a1, fd) := fd.read (ofBigEndian len)
    if a1.length ≠ ofBigEndian len then none else some (a1, fd)

/-- A `std::string` in memory; `base` is its `data()`. -/
structure Buffer where
  base : UInt64
  bytes : Str
  fits : base.toNat + bytes.length < 2 ^ 64
  short : bytes.length < 2 ^ 63

/-- `((**p) & 0x7f) << shift`, an `int`. A shift by 32 or more is undefined; `wide` is what it gives. -/
def shifted (wide : UInt8 → ℕ → UInt32) (b : UInt8) (shift : ℕ) : UInt32 :=
  if shift < 32 then ⟨BitVec.ofNat 32 (b &&& 0x7f).toNat <<< shift⟩ else wide (b &&& 0x7f) shift

def signed (x : UInt32) : UInt64 := ⟨x.toBitVec.signExtend 64⟩

/-- The loop of `ReadVariant`: the value, and the bytes behind it. -/
def readVariant (wide : UInt8 → ℕ → UInt32) (shift : ℕ) (res : UInt64) : Str → Option (UInt64 × Str)
  | [] => none
  | b :: l => if 0x80 ≤ b then readVariant wide (shift + 7) (res ||| signed (shifted wide b shift)) l
    else some (res ||| signed (shifted wide b shift), l)

def Buffer.pos (buf : Buffer) (rest : Str) : ℕ := buf.bytes.length - rest.length

/-- What `ReadDelimited` does: it returns -1, or 0 with a message and the new buffer, or `substr` throws. -/
inductive Delimited (T : Type) where
  | refused
  | accepted (t : T) (buf : Str)
  | thrown

/-- `ReadDelimited` on a string, with the range that it hands to `ParseFromArray`: where it starts, and
its size as an `int`. Behind the buffer the parser finds whatever is there: `beyond`. -/
def readDelimited {T : Type} (wide : UInt8 → ℕ → UInt32) (parse : Str → Option T)
    (beyond : ℕ → Int32 → Option T) (buf : Buffer) : Option (ℕ × Int32) × Delimited T :=
  match readVariant wide 0 0 buf.bytes with
  | none => (none, .refused)
  | some (len, rest) =>
    if buf.base + .ofNat buf.bytes.length < buf.base + .ofNat (buf.pos rest) + len then (none, .refused)
    else
      let size := len.toUInt32.toInt32
      let parsed := if 0 ≤ size.toInt ∧ size.toInt ≤ rest.length then parse (rest.take size.toInt.toNat)
        else beyond (buf.pos rest) size
      (some (buf.pos rest, size),
        match parsed with
        | none => .refused
        | some t =>
          if (UInt64.ofNat (buf.pos rest) + len).toNat ≤ buf.bytes.length then
            .accepted t (buf.bytes.drop (UInt64.ofNat (buf.pos rest) + len).toNat)
          else .thrown)

theorem signed_or (x y : UInt32) : signed x ||| signed y = signed (x ||| y) := by
  unfold signed
  rw [UInt32.toBitVec_or, BitVec.signExtend_or, UInt64.ofBitVec_or]

theorem toNat_signed (x : UInt32) :
    (signed x).toNat = if x.toNat < 2 ^ 31 then x.toNat else x.toNat + (2 ^ 64 - 2 ^ 32) := by
  have hlt := x.toNat_lt
  have hword : x.toBitVec.toNat = x.toNat := rfl
  rw [signed, UInt64.toNat, BitVec.toNat_signExtend, BitVec.toNat_setWidth, BitVec.msb_eq_decide, hword,
    Nat.mod_eq_of_lt (hlt.trans (by decide))]
  by_cases hx : x.toNat < 2 ^ 31
  · rw [if_pos hx, if_neg (by simpa using hx), Nat.add_zero]
  · rw [if_neg hx, if_pos (by simpa using hx)]

theorem toInt_size (x : UInt32) : (signed x).toUInt32.toInt32.toInt = Int.bmod x.toNat (2 ^ 32) := by
  have hlow : (signed x).toUInt32 = x := by
    have hlt := x.toNat_lt
    rw [← UInt32.toNat_inj, UInt64.toNat_toUInt32, toNat_signed]
    split_ifs <;> omega
  rw [hlow, toInt_toInt32]

section
variable {wide : UInt8 → ℕ → UInt32}

private theorem exists_of_readVariant_signed {l rest : Str} {shift : ℕ} {res : UInt32} {len : UInt64}
    (h : readVariant wide shift (signed res) l = some (len, rest)) :
    (∃ x, len = signed x) ∧ ∃ pre, pre ≠ [] ∧ l = pre ++ rest := by
  induction l generalizing shift res with
  | nil => cases h
  | cons b l ih =>
    rw [readVariant, signed_or] at h
    split_ifs at h with hb
    · obtain ⟨hlen, pre, -, rfl⟩ := ih h
      exact ⟨hlen, b :: pre, List.cons_ne_nil _ _, rfl⟩
    · cases h
      exact ⟨⟨_, rfl⟩, [b], List.cons_ne_nil _ _, rfl⟩

theorem signed_zero : signed 0 = 0 := rfl

/-- `ReadVariant` gives an `int`, whatever the bytes are, and reads one of them at least. -/
theorem exists_of_readVariant {l rest : Str} {len : UInt64} (h : readVariant wide 0 0 l = some (len, rest)) :
    (∃ x, len = signed x) ∧ ∃ pre, pre ≠ [] ∧ l = pre ++ rest := by
  rw [← signed_zero] at h
  exact exists_of_readVariant_signed h

private theorem shifted_of_lt {shift : ℕ} (h : shift < 32) (b : UInt8) :
    shifted wide b shift = UInt32.ofNat (b.toNat % 128 * 2 ^ shift) := by
  have hand : (b &&& 0x7f).toNat = b.toNat % 128 := Nat.and_two_pow_sub_one_eq_mod b.toNat 7
  have hshift : BitVec.ofNat 32 (b.toNat % 128) <<< shift = BitVec.ofNat 32 (b.toNat % 128 * 2 ^ shift) := by
    refine BitVec.eq_of_toNat_eq ?_
    simp [Nat.shiftLeft_eq]
  rw [shifted, if_pos h, hand, hshift]
  rfl

private theorem ofNat_or {m k : ℕ} (hm : m < 2 ^ k) (n : ℕ) :
    UInt32.ofNat m ||| UInt32.ofNat (2 ^ k * n) = UInt32.ofNat (m + 2 ^ k * n) := by
  rw [Nat.add_comm, Nat.two_pow_add_eq_or_of_lt hm, Nat.lor_comm, UInt32.ofNat_or]

/-- What `WriteVarint32` writes for an `int` that is not negative has at most five bytes, and is read. -/
theorem readVariant_encode (n : ℕ) (l : Str) {shift : ℕ} (hshift : shift < 32) (hn : n * 2 ^ shift < 2 ^ 32)
    (res : UInt32) : readVariant wide shift (signed res) (Varint.encode n ++ l) =
      some (signed (res ||| UInt32.ofNat (n * 2 ^ shift)), l) := by
  induction n using Nat.strongRecOn generalizing shift res with
  | ind n ih =>
    by_cases hlt : n < 128
    · have hbyte : (UInt8.ofNat n).toNat = n := by
        rw [UInt8.toNat_ofNat', Nat.mod_eq_of_lt (by omega)]
      have hlast : ¬0x80 ≤ UInt8.ofNat n := by
        rw [UInt8.le_iff_toNat_le, hbyte]
        exact Nat.not_le.2 hlt
      rw [Varint.encode_of_lt hlt, List.singleton_append, readVariant, if_neg hlast, shifted_of_lt hshift,
        signed_or, hbyte, Nat.mod_eq_of_lt hlt]
    · have hbyte : (UInt8.ofNat (n % 128 + 128)).toNat = n % 128 + 128 := by
        rw [UInt8.toNat_ofNat', Nat.mod_eq_of_lt (by omega)]
      have hmore : 0x80 ≤ UInt8.ofNat (n % 128 + 128) := by
        rw [UInt8.le_iff_toNat_le, hbyte]
        exact Nat.le_add_left _ _
      have hpow : 2 ^ (shift + 7) = 128 * 2 ^ shift := by
        rw [Nat.pow_add, Nat.mul_comm]
      have hsplit : n % 128 * 2 ^ shift + 2 ^ (shift + 7) * (n / 128) = n * 2 ^ shift := by
        calc n % 128 * 2 ^ shift + 2 ^ (shift + 7) * (n / 128)
            = (n % 128 + 128 * (n / 128)) * 2 ^ shift := by rw [hpow]; ring
          _ = n * 2 ^ shift := by rw [Nat.mod_add_div]
      have hlow : n % 128 * 2 ^ shift < 2 ^ (shift + 7) := by
        rw [hpow]
        exact Nat.mul_lt_mul_of_pos_right (Nat.mod_lt _ (by decide)) (Nat.two_pow_pos shift)
      have hnext : n / 128 * 2 ^ (shift + 7) < 2 ^ 32 := by
        rw [Nat.mul_comm]
        omega
      -- the next group is not empty, so that its shift is in range
      have hshift' : shift + 7 < 32 := by
        have hone : 1 ≤ n / 128 := by omega
        have hle : 2 ^ (shift + 7) ≤ n / 128 * 2 ^ (shift + 7) := Nat.le_mul_of_pos_left _ hone
        exact (Nat.pow_lt_pow_iff_right (by decide)).1 (hle.trans_lt hnext)
      rw [Varint.encode_of_le (Nat.not_lt.1 hlt), List.cons_append, readVariant, if_pos hmore,
        shifted_of_lt hshift, signed_or, ih (n / 128) (by omega) hshift' hnext, hbyte, Nat.add_mod_right,
        Nat.mod_mod, Nat.mul_comm (n / 128), UInt32.or_assoc, ofNat_or hlow, hsplit]

end

section
variable {T : Type} {wide : UInt8 → ℕ → UInt32} {parse : Str → Option T} {beyond : ℕ → Int32 → Option T}
variable {buf : Buffer} {len : UInt64} {rest : Str}

theorem drop_pos (h : readVariant wide 0 0 buf.bytes = some (len, rest)) (k : ℕ) :
    buf.pos rest + rest.length = buf.bytes.length ∧ buf.bytes.drop (buf.pos rest + k) = rest.drop k := by
  obtain ⟨-, pre, -, hpre⟩ := exists_of_readVariant h
  have hpos : buf.pos rest = pre.length := by
    rw [Buffer.pos, hpre, List.length_append, Nat.add_sub_cancel]
  refine ⟨?_, ?_⟩
  · rw [hpos, hpre, List.length_append]
  · rw [hpos, hpre, List.drop_append, List.drop_of_length_le (by omega), List.nil_append,
      Nat.add_sub_cancel_left]

/-- The check `p + len > pend`, in 64-bit arithmetic. -/
theorem lt_end_iff (h : readVariant wide 0 0 buf.bytes = some (len, rest)) :
    buf.base + .ofNat buf.bytes.length < buf.base + .ofNat (buf.pos rest) + len ↔
      buf.base.toNat + buf.bytes.length < (buf.base.toNat + buf.pos rest + len.toNat) % 2 ^ 64 := by
  have hpos := (drop_pos h 0).1
  have hfits := buf.fits
  rw [UInt64.lt_iff_toNat_lt, UInt64.toNat_add, UInt64.toNat_add, UInt64.toNat_add, UInt64.toNat_ofNat',
    UInt64.toNat_ofNat']
  omega

theorem toInt_size_of_lt {x : UInt32} (hx : x.toNat < 2 ^ 31) :
    (signed x).toUInt32.toInt32.toInt = x.toNat := by
  rw [toInt_size, Int.bmod_def, if_pos (by omega)]
  omega

theorem readDelimited_of_le {x : UInt32} (h : readVariant wide 0 0 buf.bytes = some (signed x, rest))
    (hlt : x.toNat < 2 ^ 31) (hle : x.toNat ≤ rest.length) :
    readDelimited wide parse beyond buf = (some (buf.pos rest, (signed x).toUInt32.toInt32),
      match parse (rest.take x.toNat) with
      | none => .refused
      | some t => .accepted t (rest.drop x.toNat)) := by
  have hlen : (signed x).toNat = x.toNat := by rw [toNat_signed, if_pos hlt]
  have hsize := toInt_size_of_lt hlt
  obtain ⟨hpos, hdrop⟩ := drop_pos h x.toNat
  have hfits := buf.fits
  have hcheck : ¬buf.base + .ofNat buf.bytes.length < buf.base + .ofNat (buf.pos rest) + signed x := by
    rw [lt_end_iff h, hlen]
    omega
  have hend : (UInt64.ofNat (buf.pos rest) + signed x).toNat = buf.pos rest + x.toNat := by
    rw [UInt64.toNat_add, UInt64.toNat_ofNat', hlen]
    omega
  have hin : 0 ≤ (signed x).toUInt32.toInt32.toInt ∧ (signed x).toUInt32.toInt32.toInt ≤ rest.length := by
    rw [hsize]
    omega
  unfold readDelimited
  rw [h]
  dsimp only
  rw [if_neg hcheck, if_pos hin, hsize, Int.toNat_natCast, hend]
  cases parse (rest.take x.toNat) with
  | none => rfl
  | some t =>
    dsimp only
    rw [if_pos (by omega), hdrop]

end

section
variable {T : Type} {wide : UInt8 → ℕ → UInt32} {parse : Str → Option T} {beyond : ℕ → Int32 → Option T}
variable {buf : Buffer} {x : UInt32} {rest : Str}

end

/-- A shift takes the last five bits of its width, as on x86. -/
def maskedShift (b : UInt8) (shift : ℕ) : UInt32 := ⟨BitVec.ofNat 32 b.toNat <<< (shift % 32)⟩

private theorem varintSize64_eq {n : ℕ} (hn : n < 2 ^ 35) : varintSize64 n = (Varint.encode n).length := by
  unfold varintSize64
  split_ifs with h₁ h₂ h₃ h₄
  · rw [Varint.encode_of_lt h₁, List.length_singleton]
  · exact (Varint.length_encode 1 (by omega) (by omega)).symm
  · exact (Varint.length_encode 2 (by omega) (by omega)).symm
  · exact (Varint.length_encode 3 (by omega) (by omega)).symm
  · exact (Varint.length_encode 4 (by omega) (by omega)).symm

section
variable {m : Message} {ms : List Message}

theorem delimited_eq (h : m.bytes.length < 2 ^ 31) :
    m.delimited = Varint.encode m.bytes.length ++ m.bytes := by
  rw [Message.delimited, writeVarint32, UInt32.toNat_ofNat', Nat.mod_eq_of_lt (by omega)]

theorem length_delimited (h : m.bytes.length < 2 ^ 31) : m.delimited.length = getDelimitedLength m := by
  rw [delimited_eq h, List.length_append, getDelimitedLength, varintSize64_eq (by omega), Nat.add_comm]

theorem payload_cons : payload (m :: ms) = m.delimited ++ payload ms := List.flatMap_cons

theorem toNat_foldl_length (h : ∀ m ∈ ms, m.bytes.length < 2 ^ 31) (len : UInt32) :
    (ms.foldl (fun len m => len + .ofNat (getDelimitedLength m)) len).toNat =
      (len.toNat + (payload ms).length) % 2 ^ 32 := by
  induction ms generalizing len with
  | nil =>
    rw [List.foldl_nil, payload, List.flatMap_nil, List.length_nil, Nat.add_zero,
      Nat.mod_eq_of_lt len.toNat_lt]
  | cons m ms ih =>
    rw [List.forall_mem_cons] at h
    rw [List.foldl_cons, ih h.2, payload_cons, List.length_append, length_delimited h.1, UInt32.toNat_add,
      UInt32.toNat_ofNat']
    omega

/-- The messages come back one by one, wherever the buffers lie and whatever lies behind them. -/
def Decoded : List Message → Str → Prop
  | [], bytes => bytes = []
  | m :: ms, bytes => (∀ buf : Buffer, buf.bytes = bytes → ∀ wide beyond,
      (readDelimited wide m.codec.parse beyond buf).2 = .accepted m.value (payload ms)) ∧
      Decoded ms (payload ms)

theorem readDelimited_delimited (h : m.bytes.length < 2 ^ 31) {buf : Buffer}
    (hbuf : buf.bytes = m.delimited ++ payload ms) (wide : UInt8 → ℕ → UInt32)
    (beyond : ℕ → Int32 → Option m.T) :
    (readDelimited wide m.codec.parse beyond buf).2 = .accepted m.value (payload ms) := by
  have hlen : (UInt32.ofNat m.bytes.length).toNat = m.bytes.length := by
    rw [UInt32.toNat_ofNat', Nat.mod_eq_of_lt (by omega)]
  have hread : readVariant wide 0 0 buf.bytes =
      some (signed (UInt32.ofNat m.bytes.length), m.bytes ++ payload ms) := by
    rw [hbuf, delimited_eq h, List.append_assoc, ← signed_zero,
      readVariant_encode m.bytes.length _ (by decide) (by omega), UInt32.zero_or, Nat.pow_zero, Nat.mul_one]
  have hparse : m.codec.parse m.bytes = some m.value := m.codec.parse_serialize m.value
  have hle : m.bytes.length ≤ (m.bytes ++ payload ms).length := by
    rw [List.length_append]
    omega
  rw [readDelimited_of_le hread (by rwa [hlen]) (by rwa [hlen]), hlen, List.take_left, List.drop_left, hparse]

theorem decoded_payload (h : ∀ m ∈ ms, m.bytes.length < 2 ^ 31) : Decoded ms (payload ms) := by
  induction ms with
  | nil => rfl
  | cons m ms ih =>
    rw [List.forall_mem_cons] at h
    rw [payload_cons]
    refine ⟨fun buf hbuf wide beyond => ?_, ih h.2⟩
    exact readDelimited_delimited h.1 hbuf wide beyond

def Framable (ms : List Message) : Prop := (∀ m ∈ ms, m.bytes.length < 2 ^ 31) ∧ (payload ms).length < 2 ^ 32

theorem Framable.tail (h : Framable (m :: ms)) : Framable ms := by
  refine ⟨fun m' hm => h.1 m' (List.mem_cons_of_mem m hm), ?_⟩
  have hlen := h.2
  rw [payload_cons, List.length_append] at hlen
  omega

theorem hrpcWrite_eq (h : Framable ms) :
    hrpcWrite ms = bigEndian 4 (payload ms).length ++ payload ms := by
  rw [hrpcWrite, toNat_foldl_length h.1, UInt32.toNat_zero, Nat.zero_add, Nat.mod_eq_of_lt h.2]

theorem ofBigEndian_length (h : Framable ms) :
    ofBigEndian (bigEndian 4 (payload ms).length) = (payload ms).length := by
  rw [ofBigEndian_bigEndian]
  exact Nat.mod_eq_of_lt h.2

theorem read_append (l later : Str) (ready : ℕ → ℕ) :
    (l.length ≤ ready 0 → Fd.read l.length ⟨l ++ later, ready⟩ = (l, ⟨later, fun k => ready (k + 1)⟩)) ∧
    (ready 0 < l.length → (Fd.read l.length ⟨l ++ later, ready⟩).1.length ≠ l.length) := by
  constructor
  · intro hle
    rw [Fd.read, Nat.min_eq_left hle, List.take_left, List.drop_left]
  · intro hlt
    rw [Fd.read, Nat.min_eq_right hlt.le, List.length_take]
    omega

/-- What `HrpcWrite` sends is read as one frame, unless a `read` is short. -/
theorem hrpcRead_hrpcWrite (h : Framable ms) (later : Str) (ready : ℕ → ℕ) :
    hrpcRead ⟨hrpcWrite ms ++ later, ready⟩ =
      if 4 ≤ ready 0 ∧ (payload ms).length ≤ ready 1 then
        some (payload ms, ⟨later, fun k => ready (k + 2)⟩)
      else none := by
  have hfour := length_bigEndian 4 (payload ms).length
  have hhead := read_append (bigEndian 4 (payload ms).length) (payload ms ++ later) ready
  have hbody := read_append (payload ms) later fun k => ready (k + 1)
  rw [hfour] at hhead
  rw [hrpcWrite_eq h, List.append_assoc, hrpcRead]
  rcases Nat.lt_or_ge (ready 0) 4 with hshort | hready
  · rw [if_neg fun hboth => absurd hboth.1 (Nat.not_le.2 hshort)]
    exact if_pos (hhead.2 hshort)
  · rw [hhead.1 hready]
    dsimp only
    rw [if_neg (not_not.2 hfour), ofBigEndian_length h]
    rcases Nat.lt_or_ge (ready 1) (payload ms).length with hshort | hready'
    · rw [if_pos (hbody.2 hshort), if_neg fun hboth => absurd hboth.2 (Nat.not_le.2 hshort)]
    · rw [hbody.1 hready', if_neg (not_not.2 rfl), if_pos ⟨hready, hready'⟩]

/-- What `HrpcWrite` sends is read as one frame, its length is that of the messages, and they are decoded
one after the other. -/
theorem hrpc_round_trip (ms : List Message) (hsize : ∀ m ∈ ms, m.bytes.length < 2 ^ 31)
    (htotal : (payload ms).length < 2 ^ 32) (later : Str) :
    (∀ ready : ℕ → ℕ, 4 ≤ ready 0 → (payload ms).length ≤ ready 1 →
      hrpcRead ⟨hrpcWrite ms ++ later, ready⟩ = some (payload ms, ⟨later, fun k => ready (k + 2)⟩)) ∧
    ofBigEndian ((hrpcWrite ms).take 4) = (payload ms).length ∧ (hrpcWrite ms).drop 4 = payload ms ∧
    Decoded ms (payload ms) := by
  have hsend : Framable ms := ⟨hsize, htotal⟩
  have hfour := length_bigEndian 4 (payload ms).length
  refine ⟨?_, ?_, ?_, decoded_payload hsize⟩
  · intro ready hhead hbody
    rw [hrpcRead_hrpcWrite hsend, if_pos ⟨hhead, hbody⟩]
  · rw [hrpcWrite_eq hsend, List.take_left' hfour, ofBigEndian_length hsend]
  · rw [hrpcWrite_eq hsend, List.drop_left' hfour]

end

def rawCodec : Codec Str := ⟨id, some, fun _ => rfl⟩

theorem hrpc_round_trip_two :
    hrpcRead ⟨hrpcWrite [⟨Str, rawCodec, [1, 2]⟩, ⟨Str, rawCodec, []⟩] ++ [9], fun _ => 4⟩ =
      some ([2, 1, 2, 0], ⟨[9], fun _ => 4⟩) := by
  have hsize : ∀ m ∈ [(⟨Str, rawCodec, [1, 2]⟩ : Message), ⟨Str, rawCodec, []⟩], m.bytes.length < 2 ^ 31 := by
    rw [List.forall_mem_cons, List.forall_mem_singleton]
    exact ⟨by decide, by decide⟩
  have hpayload : payload [⟨Str, rawCodec, [1, 2]⟩, ⟨Str, rawCodec, []⟩] = [2, 1, 2, 0] := by
    simp [payload, Message.delimited, writeVarint32, Message.bytes, rawCodec, Varint.encode]
  have h := (hrpc_round_trip _ hsize (by rw [hpayload]; decide) [9]).1 (fun _ => 4) le_rfl
    (by rw [hpayload]; decide)
  rwa [hpayload] at h

end Yfs.Hdfs
