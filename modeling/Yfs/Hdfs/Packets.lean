import Yfs.Hdfs.BlockIo
import Yfs.Lib.Wire

/-! The packets in which `_ReadBlock` sends a block. -/
namespace Yfs.Hdfs
open Yfs.Lib Yfs.Extent Yfs.Client

/-- `PacketHeaderProto`; `syncBlock` is never set. -/
structure PacketHeader where
  offsetInBlock : Int64
  seqno : Int64
  lastPacketInBlock : Bool
  dataLen : Int32
  deriving DecidableEq

structure Packet where
  header : PacketHeader
  data : Str
  deriving DecidableEq

/-- The header that the second `WritePacket` fills in from its unsigned arguments. -/
def packetHeader (offset seqno : UInt64) (last : Bool) (len : UInt64) : PacketHeader :=
  ⟨offset.toInt64, seqno.toInt64, last, len.toUInt32.toInt32⟩

section
variable (offset seqno : UInt64) (last : Bool) (len : UInt64)

@[simp] theorem offset_packetHeader :
    (packetHeader offset seqno last len).offsetInBlock = offset.toInt64 := rfl

@[simp] theorem seqno_packetHeader : (packetHeader offset seqno last len).seqno = seqno.toInt64 := rfl

@[simp] theorem last_packetHeader : (packetHeader offset seqno last len).lastPacketInBlock = last := rfl

@[simp] theorem dataLen_packetHeader :
    (packetHeader offset seqno last len).dataLen = len.toUInt32.toInt32 := rfl

end

/-- `WritePacket` sends `datalen` bytes from `buf` on. A negative number of them crashes: `none`. -/
def writePacket (header : PacketHeader) (buf : Str) : Option Packet :=
  if header.dataLen < 0 then none else some ⟨header, buf.take header.dataLen.toInt.toNat⟩

def intArg (i : Int32) : UInt64 := i.toInt64.toUInt64

/-- The loop of `_ReadBlock` at `it = block.begin() + pos`, where `rest` is what follows; `total` is the
size of the block. -/
def sendPackets (size : ℕ) (hsize : 0 < size) (offset : UInt64) (total pos : ℕ) (i : Int32) (rest : Str) :
    Option (List Packet) :=
  if hrest : rest = [] then some []
  else if hlong : size < rest.length then do
    let p ← writePacket (packetHeader (offset + .ofNat pos) (intArg i) false (.ofNat size)) rest
    let ps ← sendPackets size hsize offset total (pos + size) (i + 1) (rest.drop size)
    pure (p :: ps)
  else do
    let p ← writePacket (packetHeader (offset + .ofNat pos) (intArg i) false (.ofNat rest.length)) rest
    let q ← writePacket (packetHeader (offset + .ofNat total) (intArg (i + 1)) true 0) []
    pure [p, q]
  termination_by rest.length
  decreasing_by
    rw [List.length_drop]
    omega

def blockPackets (size : ℕ) (hsize : 0 < size) (offset : UInt64) (block : Str) : Option (List Packet) :=
  sendPackets size hsize offset block.length 0 0 block

def carried (ps : List Packet) : Str := ps.flatMap Packet.data

/-- The packets carry `block` from `offset` on, in packets of up to `size` bytes that are numbered from
`seq` on, and an empty one at the end says that it is the last. -/
structure Packetised (size : ℕ) (offset : UInt64) (seq : ℕ) (block : Str) (ps : List Packet) : Prop where
  seqno : ∀ j (hj : j < ps.length), ps[j].header.seqno.toInt = (seq + j : ℕ)
  contiguous : ∀ j (hj : j < ps.length),
    ps[j].header.offsetInBlock = (offset + .ofNat (carried (ps.take j)).length).toInt64
  dataLen : ∀ p ∈ ps, p.header.dataLen.toInt = p.data.length
  data : carried ps = block
  marker : ∃ init last, ps = init ++ [last] ∧
    (∀ p ∈ init, p.header.lastPacketInBlock = false ∧ p.data ≠ [] ∧ p.data.length ≤ size) ∧
    last.header.lastPacketInBlock = true ∧ last.data = [] ∧
    last.header.offsetInBlock = (offset + .ofNat block.length).toInt64

section
variable {size : ℕ} {offset : UInt64} {block rest : Str} {p q : Packet} {ps : List Packet}

@[simp] theorem carried_cons : carried (p :: ps) = p.data ++ carried ps := rfl

theorem toInt_intArg (i : Int32) : (intArg i).toInt64.toInt = i.toInt := by
  rw [intArg, Int64.toInt64_toUInt64, Int32.toInt_toInt64]

theorem toInt_dataLen (n : ℕ) : (UInt64.ofNat n).toUInt32.toInt32.toInt = Int.bmod n (2 ^ 32) := by
  have hmod : n % 2 ^ 64 % 2 ^ 32 = n % 2 ^ 32 := Nat.mod_mod_of_dvd n (by decide)
  rw [toInt_toInt32, UInt64.toNat_toUInt32, UInt64.toNat_ofNat', hmod, Int.natCast_mod]
  exact Int.emod_bmod n (2 ^ 32)

theorem toInt_dataLen_of_lt {n : ℕ} (hn : n < 2 ^ 31) : (UInt64.ofNat n).toUInt32.toInt32.toInt = n :=
  (toInt_dataLen n).trans (Int.bmod_eq_of_le (by omega) (by omega))

theorem writePacket_of_lt {n : ℕ} (hn : n < 2 ^ 31) (offset seqno : UInt64) (last : Bool) (buf : Str) :
    writePacket (packetHeader offset seqno last (.ofNat n)) buf =
      some ⟨packetHeader offset seqno last (.ofNat n), buf.take n⟩ := by
  have hlen : (packetHeader offset seqno last (.ofNat n)).dataLen.toInt = n := toInt_dataLen_of_lt hn
  have hneg : ¬(packetHeader offset seqno last (.ofNat n)).dataLen < 0 := by
    rw [Int32.lt_iff_toInt_lt, hlen]
    exact Int.not_lt.2 (Int.natCast_nonneg n)
  rw [writePacket, if_neg hneg, hlen, Int.toNat_natCast]

/-- A packet carries fewer bytes than were asked for if that number does not fit. -/
theorem length_of_writePacket {n : ℕ} {offset seqno : UInt64} {last : Bool} {buf : Str}
    (h : writePacket (packetHeader offset seqno last (.ofNat n)) buf = some p) :
    p.data.length ≤ n ∧ (2 ^ 31 ≤ n → p.data.length < n) := by
  have hlen : (packetHeader offset seqno last (.ofNat n)).dataLen.toInt = Int.bmod n (2 ^ 32) :=
    toInt_dataLen n
  unfold writePacket at h
  split_ifs at h
  cases h
  have hle := List.length_take_le (packetHeader offset seqno last (.ofNat n)).dataLen.toInt.toNat buf
  have hmod : Int.bmod n (2 ^ 32) ≤ n := by
    rw [Int.bmod_def]
    omega
  have hlt : Int.bmod (n : ℤ) (2 ^ 32) < 2 ^ 31 := by
    rw [Int.bmod_def]
    omega
  rw [hlen] at hle
  dsimp only
  rw [hlen]
  omega

def packetCount (size n : ℕ) : ℕ := (n + size - 1) / size

theorem packetCount_of_lt {n : ℕ} (hsize : 0 < size) (h : size < n) :
    packetCount size n = packetCount size (n - size) + 1 := by
  have hsub : n + size - 1 = n - size + size - 1 + size := by omega
  rw [packetCount, packetCount, hsub, Nat.add_div_right _ hsize]

theorem packetCount_of_le {n : ℕ} (hn : n ≠ 0) (h : n ≤ size) : packetCount size n = 1 := by
  rw [packetCount]
  exact Nat.div_eq_of_lt_le (by omega) (by omega)

theorem seqno_of_writePacket {i : Int32} {offset : UInt64} {last : Bool} {len : UInt64} {buf : Str}
    (h : writePacket (packetHeader offset (intArg i) last len) buf = some p) :
    p.header.seqno.toInt = i.toInt := by
  unfold writePacket at h
  split_ifs at h
  cases h
  exact toInt_intArg i

/-- What holds of the packets for `rest` in any case: they carry no more than that, and less if a length
does not fit; their number is right; and they are numbered by an `int`. -/
structure Sendable (size : ℕ) (rest : Str) (ps : List Packet) : Prop where
  le : (carried ps).length ≤ rest.length
  lt : rest ≠ [] → 2 ^ 31 ≤ min size rest.length → (carried ps).length < rest.length
  count : rest ≠ [] → ps.length = packetCount size rest.length + 1
  seqno : ∀ p ∈ ps, p.header.seqno.toInt < 2 ^ 31

theorem Sendable.cons (hsize : 0 < size) (hlong : size < rest.length) (h : Sendable size (rest.drop size) ps)
    (hlen : p.data.length ≤ size ∧ (2 ^ 31 ≤ size → p.data.length < size))
    (hseq : p.header.seqno.toInt < 2 ^ 31) :
    Sendable size rest (p :: ps) := by
  have hdrop : (rest.drop size).length = rest.length - size := List.length_drop
  have hne : rest.drop size ≠ [] := by
    rw [Ne, List.drop_eq_nil_iff]
    omega
  have hle := h.le
  rw [hdrop] at hle
  refine ⟨?_, fun _ hbig => ?_, fun _ => ?_, List.forall_mem_cons.2 ⟨hseq, h.seqno⟩⟩
  · rw [carried_cons, List.length_append]
    omega
  · rw [carried_cons, List.length_append]
    omega
  · rw [List.length_cons, h.count hne, hdrop, packetCount_of_lt hsize hlong]

private theorem sendable_pair (hrest : rest ≠ []) (hshort : rest.length ≤ size)
    (hlen : p.data.length ≤ rest.length ∧ (2 ^ 31 ≤ rest.length → p.data.length < rest.length))
    (hq : q.data.length ≤ 0) (hp : p.header.seqno.toInt < 2 ^ 31) (hq' : q.header.seqno.toInt < 2 ^ 31) :
    Sendable size rest [p, q] := by
  have hcarried : (carried [p, q]).length = p.data.length := by
    rw [carried_cons, carried_cons, List.length_append, List.length_append, Nat.le_zero.1 hq]
    rfl
  have hpos := List.length_pos_iff.2 hrest
  refine ⟨?_, fun _ hbig => ?_, fun _ => ?_, ?_⟩
  · rw [hcarried]
    exact hlen.1
  · rw [hcarried]
    omega
  · rw [packetCount_of_le (by omega) hshort]
    rfl
  · rw [List.forall_mem_cons, List.forall_mem_singleton]
    exact ⟨hp, hq'⟩

theorem sendable_of_sendPackets (hsize : 0 < size) {total pos : ℕ} {i : Int32}
    (h : sendPackets size hsize offset total pos i rest = some ps) : Sendable size rest ps := by
  fun_induction sendPackets size hsize offset total pos i rest generalizing ps with
  | case1 pos i =>
    cases h
    exact ⟨le_rfl, fun hne => absurd rfl hne, fun hne => absurd rfl hne, fun _ hp => by cases hp⟩
  | case2 pos i rest hrest hlong ih =>
    obtain ⟨p, hp, h⟩ := Option.bind_eq_some_iff.1 h
    obtain ⟨ps', hps', heq⟩ := Option.bind_eq_some_iff.1 h
    cases heq
    refine (ih hps').cons hsize hlong (length_of_writePacket hp) ?_
    rw [seqno_of_writePacket hp]
    exact i.toInt_lt
  | case3 pos i rest hrest hlong =>
    obtain ⟨p, hp, h⟩ := Option.bind_eq_some_iff.1 h
    obtain ⟨q, hq, heq⟩ := Option.bind_eq_some_iff.1 h
    cases heq
    refine sendable_pair hrest (Nat.not_lt.1 hlong) (length_of_writePacket hp) ?_ ?_ ?_
    · exact (length_of_writePacket (n := 0) hq).1
    · rw [seqno_of_writePacket hp]
      exact i.toInt_lt
    · rw [seqno_of_writePacket hq]
      exact (i + 1).toInt_lt

theorem Packetised.cons {seq : ℕ} (hps : Packetised size (offset + .ofNat p.data.length) (seq + 1) rest ps)
    (hseq : p.header.seqno.toInt = seq) (hoff : p.header.offsetInBlock = offset.toInt64)
    (hlen : p.header.dataLen.toInt = p.data.length) (hlast : p.header.lastPacketInBlock = false)
    (hdata : p.data ≠ []) (hsize : p.data.length ≤ size) :
    Packetised size offset seq (p.data ++ rest) (p :: ps) := by
  have hadd : ∀ n, offset + .ofNat p.data.length + .ofNat n = offset + .ofNat (p.data.length + n) := by
    intro n
    rw [UInt64.add_assoc, ← UInt64.ofNat_add]
  constructor
  · intro j hj
    cases j with
    | zero => exact hseq
    | succ j =>
      rw [List.getElem_cons_succ, hps.seqno]
      congr 1
      omega
  · intro j hj
    cases j with
    | zero =>
      rw [List.getElem_cons_zero, hoff, List.take_zero]
      exact congrArg UInt64.toInt64 (UInt64.add_zero offset).symm
    | succ j =>
      rw [List.getElem_cons_succ, hps.contiguous, List.take_succ_cons, carried_cons, List.length_append, hadd]
  · rw [List.forall_mem_cons]
    exact ⟨hlen, hps.dataLen⟩
  · rw [carried_cons, hps.data]
  · obtain ⟨init, last, rfl, hinit, hmark, hempty, hend⟩ := hps.marker
    refine ⟨p :: init, last, rfl, ?_, hmark, hempty, ?_⟩
    · rw [List.forall_mem_cons]
      exact ⟨⟨hlast, hdata, hsize⟩, hinit⟩
    · rw [hend, hadd, List.length_append]

theorem packetised_marker {seq : ℕ} (hseq : q.header.seqno.toInt = seq)
    (hoff : q.header.offsetInBlock = offset.toInt64) (hlen : q.header.dataLen.toInt = 0)
    (hlast : q.header.lastPacketInBlock = true) (hdata : q.data = []) :
    Packetised size offset seq [] [q] := by
  have hzero : offset.toInt64 = (offset + .ofNat 0).toInt64 :=
    congrArg UInt64.toInt64 (UInt64.add_zero offset).symm
  constructor
  · intro j hj
    obtain rfl : j = 0 := Nat.lt_one_iff.1 hj
    exact hseq
  · intro j hj
    obtain rfl : j = 0 := Nat.lt_one_iff.1 hj
    exact hoff.trans hzero
  · rw [List.forall_mem_singleton, hlen, hdata]
    rfl
  · rw [carried_cons, hdata]
    rfl
  · refine ⟨[], q, rfl, ?_, hlast, hdata, hoff.trans hzero⟩
    intro p hp
    cases hp

private theorem toInt_succ {i : Int32} {seq : ℕ} (hi : i.toInt = seq) (h : seq + 1 < 2 ^ 31) :
    (i + 1).toInt = (seq + 1 : ℕ) := by
  have hone : (1 : Int32).toInt = 1 := rfl
  rw [Int32.toInt_add, hi, hone]
  exact Int.bmod_eq_of_le (by omega) (by omega)

theorem Packetised.cons_writePacket {seq n : ℕ} {i : Int32} {data : Str}
    (h : Packetised size (offset + .ofNat n) (seq + 1) rest ps) (hi : i.toInt = seq) (hn : data.length = n)
    (hpos : 0 < n) (hle : n ≤ size) (hlt : n < 2 ^ 31) :
    Packetised size offset seq (data ++ rest)
      (⟨packetHeader offset (intArg i) false (.ofNat n), data⟩ :: ps) := by
  subst hn
  refine Packetised.cons (p := ⟨packetHeader offset (intArg i) false (.ofNat data.length), data⟩) h
    ?_ ?_ ?_ ?_ (List.ne_nil_of_length_pos hpos) hle
  · rw [seqno_packetHeader, toInt_intArg, hi]
  · rw [offset_packetHeader]
  · rw [dataLen_packetHeader, toInt_dataLen_of_lt hlt]
  · rw [last_packetHeader]

theorem packetised_sendPackets (hsize : 0 < size) {total pos seq : ℕ} {i : Int32} (hi : i.toInt = seq)
    (hrest : rest ≠ []) (hcount : seq + packetCount size rest.length < 2 ^ 31)
    (hlen : min size rest.length < 2 ^ 31) (htotal : total = pos + rest.length) :
    ∃ ps, sendPackets size hsize offset total pos i rest = some ps ∧
      Packetised size (offset + .ofNat pos) seq rest ps := by
  have hadd : ∀ pos n, offset + .ofNat (pos + n) = offset + .ofNat pos + .ofNat n := by
    intro pos n
    rw [UInt64.add_assoc, ← UInt64.ofNat_add]
  fun_induction sendPackets size hsize offset total pos i rest generalizing seq with
  | case1 pos i => exact absurd rfl hrest
  | case2 pos i rest hne hlong ih =>
    have hdrop : (rest.drop size).length = rest.length - size := List.length_drop
    rw [packetCount_of_lt hsize hlong] at hcount
    obtain ⟨ps, hps, hpack⟩ := ih (toInt_succ hi (by omega)) (by rw [Ne, List.drop_eq_nil_iff]; omega)
      (by rw [hdrop]; omega) (by omega) (by omega)
    have hwrite := writePacket_of_lt (by omega : size < 2 ^ 31) (offset + .ofNat pos) (intArg i) false rest
    refine ⟨⟨packetHeader (offset + .ofNat pos) (intArg i) false (.ofNat size), rest.take size⟩ :: ps, ?_, ?_⟩
    · rw [hwrite, Option.bind_eq_bind, Option.bind_some, hps]
      rfl
    · rw [hadd] at hpack
      have htake : (rest.take size).length = size := List.length_take_of_le hlong.le
      have hcons := hpack.cons_writePacket hi htake hsize le_rfl (by omega)
      rwa [List.take_append_drop] at hcons
  | case3 pos i rest hne hlong =>
    have hpos := List.length_pos_iff.2 hne
    rw [packetCount_of_le (by omega) (by omega)] at hcount
    have hwrite := writePacket_of_lt (by omega : rest.length < 2 ^ 31) (offset + .ofNat pos) (intArg i) false
      rest
    have hmark := writePacket_of_lt (by omega : 0 < 2 ^ 31) (offset + .ofNat total) (intArg (i + 1)) true []
    rw [List.take_length] at hwrite
    refine ⟨[⟨packetHeader (offset + .ofNat pos) (intArg i) false (.ofNat rest.length), rest⟩,
      ⟨packetHeader (offset + .ofNat total) (intArg (i + 1)) true (.ofNat 0), []⟩], ?_, ?_⟩
    · rw [hwrite, Option.bind_eq_bind, Option.bind_some]
      change (writePacket (packetHeader _ _ true (.ofNat 0)) []).bind _ = _
      rw [hmark]
      rfl
    · have hseq := (toInt_intArg (i + 1)).trans (toInt_succ hi hcount)
      have hend : Packetised size (offset + .ofNat pos + .ofNat rest.length) (seq + 1) []
          [⟨packetHeader (offset + .ofNat total) (intArg (i + 1)) true (.ofNat 0), []⟩] := by
        rw [htotal, hadd]
        exact packetised_marker hseq rfl rfl rfl rfl
      have hcons := hend.cons_writePacket hi rfl hpos (by omega) (by omega)
      rwa [List.append_nil] at hcons

theorem Packetised.ne_nil {seq : ℕ} (h : Packetised size offset seq block ps) : ps ≠ [] := by
  obtain ⟨init, last, rfl, -⟩ := h.marker
  exact List.append_ne_nil_of_right_ne_nil init (List.cons_ne_nil last [])

theorem blockPackets_nil (hsize : 0 < size) (offset : UInt64) :
    blockPackets size hsize offset [] = some [] := by
  rw [blockPackets, sendPackets, dif_pos rfl]

theorem packetised_blockPackets (hsize : 0 < size) (offset : UInt64) (hne : block ≠ [])
    (hcount : packetCount size block.length < 2 ^ 31) (hlen : min size block.length < 2 ^ 31) :
    ∃ ps, blockPackets size hsize offset block = some ps ∧ Packetised size offset 0 block ps := by
  have hi : (0 : Int32).toInt = (0 : ℕ) := rfl
  have hcount' : 0 + packetCount size block.length < 2 ^ 31 := by rwa [Nat.zero_add]
  have hoff : offset + .ofNat 0 = offset := UInt64.add_zero offset
  obtain ⟨ps, hps, hpack⟩ := packetised_sendPackets hsize hi hne hcount' hlen (Nat.zero_add _).symm
  rw [hoff] at hpack
  exact ⟨ps, hps, hpack⟩

/-- The packets are right exactly if there are bytes to send, the packets can be counted by an `int` and
the lengths of the packets fit into an `int32`. -/
theorem packetised_iff (hsize : 0 < size) (offset : UInt64) (block : Str) :
    (∃ ps, blockPackets size hsize offset block = some ps ∧ Packetised size offset 0 block ps) ↔
      block ≠ [] ∧ packetCount size block.length < 2 ^ 31 ∧ min size block.length < 2 ^ 31 := by
  constructor
  · rintro ⟨ps, hps, hpack⟩
    have hsend := sendable_of_sendPackets hsize hps
    have hne : block ≠ [] := by
      rintro rfl
      rw [blockPackets_nil] at hps
      cases hps
      exact absurd rfl hpack.ne_nil
    have hcount := hsend.count hne
    refine ⟨hne, ?_, ?_⟩
    · have hlast : packetCount size block.length < ps.length := by omega
      have hseq := hsend.seqno _ (List.getElem_mem hlast)
      rw [hpack.seqno _ hlast] at hseq
      omega
    · by_contra hbig
      have hlt := hsend.lt hne (Nat.not_lt.1 hbig)
      rw [hpack.data] at hlt
      exact lt_irrefl _ hlt
  · rintro ⟨hne, hcount, hlen⟩
    exact packetised_blockPackets hsize offset hne hcount hlen

end

/-- `Status` of the datanode protocol. -/
inductive OpStatus where
  | success | error
  deriving DecidableEq

structure BlockOpResponse where
  status : OpStatus
  chunkOffset : Option UInt64
  deriving DecidableEq

def packetSize : ℕ := 16384

/-- `_ReadBlock`: the response and the packets behind it. -/
def DataNode.readBlockOp (bid : UInt32) (offset len : UInt64) :
    M (BlockOpResponse × Option (List Packet)) := do
  let block ← DataNode.readBlock bid offset len
  pure (⟨.success, some offset⟩, blockPackets packetSize (by decide) offset block)

theorem packetised_iff_five : (∃ ps, blockPackets 2 (by decide) 9 [1, 2, 3, 4, 5] = some ps ∧
      Packetised 2 9 0 [1, 2, 3, 4, 5] ps) ∧ packetCount 2 5 = 3 :=
  ⟨(packetised_iff (by decide) 9 [1, 2, 3, 4, 5]).2 ⟨List.cons_ne_nil _ _, by decide, by decide⟩, by decide⟩

/-- Nothing is sent for an empty block, no end marker either. -/
theorem blockPackets_empty : blockPackets packetSize (by decide) 16384 [] = some [] ∧
    ¬∃ ps, blockPackets packetSize (by decide) 16384 [] = some ps ∧ Packetised packetSize 16384 0 [] ps := by
  refine ⟨blockPackets_nil _ _, ?_⟩
  rintro ⟨ps, hps, hpack⟩
  rw [blockPackets_nil] at hps
  cases hps
  exact absurd rfl hpack.ne_nil

private theorem length_extract_blockBytes (d : Disk) (b : ℕ) (offset len : UInt64) :
    ((blockBytes d b).extract offset.toNat (min (offset.toNat + len.toNat) blockSize)).length =
      min len.toNat (blockSize - offset.toNat) := by
  rw [List.extract_eq_take_drop, List.length_take, List.length_drop, length_blockBytes]
  omega

section
variable (s : Store) {bid : UInt32} (hb : bid.toNat < blockNum) {offset len : UInt64}
include hb

theorem run_readBlockOp (hoff : offset.toNat < blockSize) (hlen : 0 < len.toNat) :
    ∃ ps, (DataNode.readBlockOp bid offset len).run Store.serve s =
        some ((⟨.success, some offset⟩, some ps), s.next s.disk) ∧
      Packetised packetSize offset 0 ((blockBytes s.disk bid.toNat).extract offset.toNat
        (min (offset.toNat + len.toNat) blockSize)) ps := by
  have hread := length_extract_blockBytes s.disk bid.toNat offset len
  have hpos : min len.toNat (blockSize - offset.toNat) ≠ 0 := by omega
  have hle : min len.toNat (blockSize - offset.toNat) ≤ packetSize :=
    (Nat.min_le_right _ _).trans (Nat.sub_le _ _)
  have hcount : packetCount packetSize (min len.toNat (blockSize - offset.toNat)) < 2 ^ 31 := by
    rw [packetCount_of_le hpos hle]
    decide
  have hfit : min packetSize (min len.toNat (blockSize - offset.toNat)) < 2 ^ 31 :=
    (Nat.min_le_left _ _).trans_lt (by decide)
  rw [← hread] at hpos hcount hfit
  obtain ⟨ps, hps, hpack⟩ := packetised_blockPackets (by decide) offset
    (List.ne_nil_of_length_pos (Nat.pos_of_ne_zero hpos)) hcount hfit
  refine ⟨ps, ?_, hpack⟩
  rw [DataNode.readBlockOp, Prog.run_bind_some (run_readBlock_eq s hb offset len), Prog.run_pure, hps]

end
end Yfs.Hdfs
