import Yfs.Hdfs.Packets

/-! Replication of a block: `ReplicateBlock` of the namenode, the worker threads of the datanodes with
`_TransferBlock`, `_WriteBlock` and `_ReadBlock`, and the streams between them. -/
namespace Yfs.Hdfs
open Yfs.Lib Yfs.Extent Yfs.Client

/-- The threads that take part: the namenode, the worker that it connects to, and the worker that this one
connects to in turn. -/
inductive Role where
  | namenode | source | target
  deriving DecidableEq

def Role.next : Role → Option Role
  | .namenode => some .source
  | .source => some .target
  | .target => none

structure OpTransferBlock (D : Type) where
  blockId : UInt64
  targets : List D

/-- `OpWriteBlockProto`. The other fields are not looked at. -/
structure OpWriteBlock (D : Type) where
  blockId : UInt64
  targets : List D

structure OpReadBlock where
  blockId : UInt64
  offset : UInt64
  len : UInt64

structure PipelineAck where
  seqno : Int64
  reply : List OpStatus

/-- What is in a stream: raw bytes, messages with their lengths before them, and packet headers. -/
inductive Token (D : Type) where
  | byte (c : UInt8)
  | transferBlock (m : OpTransferBlock D)
  | writeBlock (m : OpWriteBlock D)
  | readBlock (m : OpReadBlock)
  | response (m : BlockOpResponse)
  | ack (m : PipelineAck)
  | header (h : PacketHeader)

namespace Token
variable {D : Type}

def toByte : Token D → Option UInt8
  | .byte c => some c
  | _ => none

def toTransferBlock : Token D → Option (OpTransferBlock D)
  | .transferBlock m => some m
  | _ => none

def toWriteBlock : Token D → Option (OpWriteBlock D)
  | .writeBlock m => some m
  | _ => none

def toReadBlock : Token D → Option OpReadBlock
  | .readBlock m => some m
  | _ => none

def toResponse : Token D → Option BlockOpResponse
  | .response m => some m
  | _ => none

def toAck : Token D → Option PipelineAck
  | .ack m => some m
  | _ => none

def toHeader : Token D → Option PacketHeader
  | .header h => some h
  | _ => none

end Token

def raw {D : Type} (l : Str) : List (Token D) := l.map .byte

theorem mapM_toByte_raw {D : Type} (l : Str) : (raw l : List (Token D)).mapM Token.toByte = some l := by
  induction l with
  | nil => rfl
  | cons b l ih =>
    change ((Token.byte b : Token D) :: raw l).mapM Token.toByte = some (b :: l)
    rw [List.mapM_cons, ih]
    rfl

/-- What a thread asks for: a call of its extent server, a connection to a datanode, and the next `n` items of
the stream that comes from `src`. -/
inductive NetCall (D : Type) where
  | extent (c : Call)
  | connect (id : D)
  | send (dst : Role) (l : List (Token D))
  | recv (src : Role) (n : ℕ)

/-- A connection or a read can fail. `send` tells if the stream has had an error. -/
abbrev NetReply {D : Type} : NetCall D → Type
  | .extent c => Reply c
  | .connect _ => Option Role
  | .send _ _ => Bool
  | .recv _ _ => Option (List (Token D))

abbrev NetM (D : Type) := Prog (NetCall D) (NetReply (D := D))

section
variable {D : Type}

def request (c : NetCall D) : NetM D (NetReply c) := Prog.perform c

/-- A program of the datanode on its extent server. -/
def onExtent {α : Type} (p : M α) : NetM D α := p.lift NetCall.extent fun _ r => r

def readRaw (src : Role) (n : ℕ) : NetM D (Option Str) := do
  match ← request (.recv src n) with
  | none => pure none
  | some l => pure (l.mapM Token.toByte)

/-- `ReadLengthAndPushLimit`, `ParseFromCodedStream` and `CheckEntireMessageConsumedAndPopLimit`. -/
def readMessage {α : Type} (src : Role) (parse : Token D → Option α) : NetM D (Option α) := do
  match ← request (.recv src 1) with
  | none => pure none
  | some l => pure (l.head?.bind parse)

def readOp (src : Role) : NetM D (Option UInt8) := do
  match ← readRaw src 3 with
  | some [v₀, v₁, op] => pure (if v₀ ≠ 0 ∨ v₁ ≠ 28 then none else some op)
  | _ => pure none

/-- What `WritePacket` writes: `plen`, `hlen`, the header and the data. -/
def packetTokens (p : Packet) : List (Token D) :=
  raw (bigEndian 4 (p.header.dataLen.toUInt32 + 4).toNat) ++ raw (bigEndian 2 25) ++ .header p.header ::
    raw p.data

/-- The argument of `Skip` in `ReadPacket`, cut down to an `int`. -/
def skipCount (plen : UInt32) (dataLen : Int32) : Int32 := (plen - 4 - dataLen.toUInt32).toInt32

/-- Nothing is skipped in a packet that was written with its right length. -/
theorem skipCount_eq (dataLen : Int32) :
    skipCount (.ofNat (ofBigEndian (bigEndian 4 (dataLen.toUInt32 + 4).toNat))) dataLen = 0 := by
  have hlt : (dataLen.toUInt32 + 4).toNat < 256 ^ 4 := (dataLen.toUInt32 + 4).toNat_lt
  rw [ofBigEndian_bigEndian, Nat.mod_eq_of_lt hlt, UInt32.ofNat_toNat, skipCount]
  simp

/-- `Skip`; nobody asks if it has succeeded. -/
def skip (src : Role) (count : Int32) : NetM D Unit := do
  if 0 < count then
    let _ ← request (.recv src count.toInt.toNat)
  else pure ()

/-- `ReadPacket`. An invalid packet comes with the sequence number as far as it is known; `none` is the
exception of `resize`. -/
def readPacket (src : Role) : NetM D (Option (Except Int64 Packet)) := do
  match ← readRaw src 4 with
  | none => pure (some (.error 0))
  | some plen =>
    match ← readRaw src 2 with
    | none => pure (some (.error 0))
    | some hlen =>
      if ofBigEndian hlen ≠ 25 then pure (some (.error 0))
      else
        match ← readMessage src Token.toHeader with
        | none => pure (some (.error 0))
        | some header =>
          skip src (skipCount (.ofNat (ofBigEndian plen)) header.dataLen)
          if header.dataLen < 0 then pure none
          else
            match ← readRaw src header.dataLen.toInt.toNat with
            | none => pure (some (.error header.seqno))
            | some data => pure (some (.ok ⟨header, data⟩))

/-- `ConnectToMirror` with the first of the targets; the request goes on with the others. -/
def connectToMirror (blockId : UInt64) (id : D) (targets : List D) : NetM D (Option Role) := do
  match ← request (.connect id) with
  | none => pure none
  | some mirror =>
    let _ ← request (.send mirror (raw [0, 28, 80] ++ [.writeBlock ⟨blockId, targets⟩]))
    match ← readMessage mirror Token.toResponse with
    | none => pure none
    | some resp => pure (if resp.status = .success then some mirror else none)

/-- The part of `_WriteBlock` that passes a packet on: what the mirror and those behind it reply. -/
def forward (mirror : Option Role) (targets : ℕ) (p : Packet) : NetM D (List OpStatus) := do
  match mirror with
  | none => pure []
  | some mirror =>
    if ← request (.send mirror (packetTokens p)) then
      match ← readMessage mirror Token.toAck with
      | none => pure (List.replicate targets .error)
      | some ack => pure ack.reply
    else pure (List.replicate targets .error)

/-- The loop of `_WriteBlock` for up to `n` packets; `none` is an exception, or more packets. -/
def receivePackets (client : Role) (blockId : UInt64) (mirror : Option Role) (targets : ℕ) :
    ℕ → NetM D (Option Bool)
  | 0 => pure none
  | n + 1 => do
    match ← readPacket client with
    | none => pure none
    | some (.error seqno) =>
      let _ ← request (.send client [.ack ⟨seqno, [.error]⟩])
      pure (some false)
    | some (.ok p) =>
      match ← onExtent (DataNode.writeBlock blockId.toUInt32 p.header.offsetInBlock.toUInt64
          (.ofNat p.data.length) p.data) with
      | none => pure none
      | some false =>
        let _ ← request (.send client [.ack ⟨p.header.seqno, [.error]⟩])
        pure (some false)
      | some true =>
        let replies ← forward mirror targets p
        let _ ← request (.send client [.ack ⟨p.header.seqno, .success :: replies⟩])
        if p.header.lastPacketInBlock then pure (some true)
        else receivePackets client blockId mirror targets n

def writeBlockOp (n : ℕ) (client : Role) : NetM D (Option Bool) := do
  match ← readMessage client Token.toWriteBlock with
  | none =>
    let _ ← request (.send client [.response ⟨.error, none⟩])
    pure (some false)
  | some param =>
    match param.targets with
    | [] =>
      let _ ← request (.send client [.response ⟨.success, none⟩])
      receivePackets client param.blockId none 0 n
    | id :: targets =>
      match ← connectToMirror param.blockId id targets with
      | none =>
        let _ ← request (.send client [.response ⟨.error, none⟩])
        pure (some false)
      | some mirror =>
        let _ ← request (.send client [.response ⟨.success, none⟩])
        receivePackets client param.blockId (some mirror) (targets.length + 1) n

/-- A packet that `_TransferBlock` sends, and the first reply to it. `none` is the crash of `WriteRaw` or of
`reply(0)`. -/
def sendPacket (mirror : Role) (header : PacketHeader) (buf : Str) : NetM D (Option Bool) := do
  match writePacket header buf with
  | none => pure none
  | some p =>
    if ← request (.send mirror (packetTokens p)) then
      match ← readMessage mirror Token.toAck with
      | none => pure (some false)
      | some ack => pure (ack.reply.head?.map fun status => status = .success)
    else pure (some false)

/-- The part of `_TransferBlock` behind its connection: the block in one packet, an empty packet at its end,
and the response. -/
def copyBlock (client mirror : Role) (block : Str) : NetM D (Option Bool) := do
  match ← sendPacket mirror (packetHeader 0 0 false (.ofNat blockSize)) block with
  | some true =>
    match ← sendPacket mirror (packetHeader (.ofNat blockSize) 1 true 0) [] with
    | some true =>
      let _ ← request (.send client [.response ⟨.success, none⟩])
      pure (some true)
    | r => pure r
  | r => pure r

def blockPacket (block : Str) : Packet := ⟨packetHeader 0 0 false (.ofNat blockSize), block⟩

def endPacket : Packet := ⟨packetHeader (.ofNat blockSize) 1 true 0, []⟩

section
variable {block : Str} (hblock : block.length = blockSize)
include hblock

theorem writePacket_block : writePacket (packetHeader 0 0 false (.ofNat blockSize)) block =
    some (blockPacket block) := by
  rw [writePacket_of_lt (by decide), blockPacket, List.take_of_length_le hblock.le]

theorem dataLen_blockPacket : (blockPacket block).header.dataLen.toInt = (blockPacket block).data.length := by
  rw [blockPacket, dataLen_packetHeader, toInt_dataLen_of_lt (by decide), hblock]

theorem end_blockPacket : ((blockPacket block).header.offsetInBlock.toUInt64 +
    .ofNat (blockPacket block).data.length).toNat = blockSize := by
  rw [blockPacket, offset_packetHeader, UInt64.toUInt64_toInt64, hblock]
  rfl

end

theorem writePacket_end : writePacket (packetHeader (.ofNat blockSize) 1 true 0) [] = some endPacket :=
  writePacket_of_lt (by decide : 0 < 2 ^ 31) (.ofNat blockSize) 1 true []

theorem offset_blockPacket (block : Str) : (blockPacket block).header.offsetInBlock.toUInt64 = 0 := by
  rw [blockPacket, offset_packetHeader, UInt64.toUInt64_toInt64]

theorem data_blockPacket (block : Str) : (blockPacket block).data = block := by rw [blockPacket]

theorem offset_endPacket : endPacket.header.offsetInBlock.toUInt64 = .ofNat blockSize := by
  rw [endPacket, offset_packetHeader, UInt64.toUInt64_toInt64]

/-- `_TransferBlock`; `none` is a crash. -/
def transferBlockOp (client : Role) : NetM D (Option Bool) := do
  match ← readMessage client Token.toTransferBlock with
  | none => pure (some false)
  | some param =>
    let block ← onExtent (DataNode.readBlock param.blockId.toUInt32 0 (.ofNat blockSize))
    match param.targets with
    | [] => pure none
    | id :: targets =>
      match ← connectToMirror param.blockId id targets with
      | none => pure (some false)
      | some mirror => copyBlock client mirror block

/-- The packets of `_ReadBlock`, until a write fails. -/
def sendBlock (client : Role) : List Packet → NetM D (Option Bool)
  | [] => pure (some true)
  | p :: ps => do
    if ← request (.send client (packetTokens p)) then sendBlock client ps else pure (some false)

def readBlockOp (client : Role) : NetM D (Option Bool) := do
  match ← readMessage client Token.toReadBlock with
  | none =>
    let _ ← request (.send client [.response ⟨.error, none⟩])
    pure (some false)
  | some param =>
    let (resp, packets) ← onExtent (DataNode.readBlockOp param.blockId.toUInt32 param.offset param.len)
    let _ ← request (.send client [.response resp])
    match packets with
    | none => pure none
    | some ps => sendBlock client ps

/-- `worker` for up to `m` requests, with up to `n` packets in each of them. -/
def worker (n : ℕ) (client : Role) : ℕ → NetM D Unit
  | 0 => pure ()
  | m + 1 => do
    match ← readOp client with
    | none => pure ()
    | some op =>
      if op = 81 then
        match ← readBlockOp client with
        | some true => worker n client m
        | _ => pure ()
      else if op = 80 then
        match ← writeBlockOp n client with
        | some true => worker n client m
        | _ => pure ()
      else if op = 86 then
        match ← transferBlockOp client with
        | some true => worker n client m
        | some false =>
          let _ ← request (.send client [.response ⟨.error, none⟩])
          pure ()
        | none => pure ()
      else pure ()

/-- `ReplicateBlock` of the namenode. -/
def replicateBlock (bid : UInt32) (src dst : D) : NetM D Bool := do
  match ← request (.connect src) with
  | none => pure false
  | some worker =>
    if ← request (.send worker (raw [0, 28, 86] ++ [.transferBlock ⟨bid.toUInt64, [dst]⟩])) then
      match ← readMessage worker Token.toResponse with
      | none => pure false
      | some resp => pure (resp.status = .success)
    else pure false

/-- All threads. Only the namenode has a result. -/
def replication (n m : ℕ) (bid : UInt32) (src dst : D) : Role → NetM D (Option Bool)
  | .namenode => do
    let r ← replicateBlock bid src dst
    pure (some r)
  | .source => do
    worker n .namenode m
    pure none
  | .target => do
    worker n .source m
    pure none

end

/-- The ends of its streams that belong to a thread: what it has sent, if a stream has had an error, and how
much it has taken of what the others sent. -/
structure Endpoint (D : Type) where
  sent : Role → List (Token D)
  broken : Role → Bool
  taken : Role → ℕ

namespace Endpoint
variable {D : Type} (e : Endpoint D) (peer : Role)

def write (l : List (Token D)) : Endpoint D :=
  { e with sent := Function.update e.sent peer (e.sent peer ++ l) }

def fail : Endpoint D := { e with broken := Function.update e.broken peer true }

def take (n : ℕ) : Endpoint D := { e with taken := Function.update e.taken peer (e.taken peer + n) }

@[simp] theorem sent_write_self (l : List (Token D)) : (e.write peer l).sent peer = e.sent peer ++ l :=
  Function.update_self _ _ _

@[simp] theorem sent_fail : (e.fail peer).sent = e.sent := rfl

@[simp] theorem broken_fail_self : (e.fail peer).broken peer = true := Function.update_self _ _ _

@[simp] theorem taken_take_self (n : ℕ) : (e.take peer n).taken peer = e.taken peer + n :=
  Function.update_self _ _ _

end Endpoint

/-- The extent servers of the datanodes, and the streams. -/
structure Net (D : Type) where
  store : D → Store
  party : Role → Endpoint D

namespace Net
variable {D : Type} [DecidableEq D]

def start (store : D → Store) : Net D := ⟨store, fun _ => ⟨fun _ => [], fun _ => false, fun _ => 0⟩⟩

def setStore (s : Net D) (id : D) (store' : Store) : Net D :=
  { s with store := Function.update s.store id store' }

def setParty (s : Net D) (t : Role) (e : Endpoint D) : Net D :=
  { s with party := Function.update s.party t e }

@[simp] theorem store_setStore_self (s : Net D) (id : D) (store' : Store) :
    (s.setStore id store').store id = store' := Function.update_self _ _ _

theorem store_setStore_of_ne {id id' : D} (h : id' ≠ id) (s : Net D) (store' : Store) :
    (s.setStore id store').store id' = s.store id' := Function.update_of_ne h _ _

omit [DecidableEq D] in
@[simp] theorem party_setParty_self (s : Net D) (t : Role) (e : Endpoint D) : (s.setParty t e).party t = e :=
  Function.update_self _ _ _

omit [DecidableEq D] in
theorem party_setParty_of_ne {t u : Role} (h : u ≠ t) (s : Net D) (e : Endpoint D) :
    (s.setParty t e).party u = s.party u := Function.update_of_ne h _ _

omit [DecidableEq D] in
theorem congr_party_setParty {α : Type} (f : Endpoint D → α) {s : Net D} {t : Role} {e : Endpoint D}
    (h : f e = f (s.party t)) (u : Role) : f ((s.setParty t e).party u) = f (s.party u) := by
  by_cases hu : u = t
  · rw [hu, party_setParty_self, h]
  · rw [party_setParty_of_ne hu]

def host (src dst : D) : Role → Option D
  | .namenode => none
  | .source => some src
  | .target => some dst

/-- What a call of thread `t` can lead to. A write may reach the other side in part, and nothing is written
after that; a read takes the next items in their order. -/
inductive Serve (src dst : D) (t : Role) : (c : NetCall D) → Net D → NetReply c → Net D → Prop
  | extent {c : Call} {s : Net D} {id : D} {r : Reply c} {store' : Store} (hhost : host src dst t = some id)
      (hserve : Store.serve c (s.store id) = some (r, store')) :
      Serve src dst t (.extent c) s r (s.setStore id store')
  | connect {id : D} {s : Net D} {peer : Role} (hnext : t.next = some peer)
      (hhost : host src dst peer = some id) : Serve src dst t (.connect id) s (some peer) s
  | unreachable {id : D} {s : Net D} : Serve src dst t (.connect id) s none s
  | send {peer : Role} {l : List (Token D)} {s : Net D} (hopen : (s.party t).broken peer = false) :
      Serve src dst t (.send peer l) s true (s.setParty t ((s.party t).write peer l))
  | cut {peer : Role} {l : List (Token D)} {s : Net D} (k : ℕ) (hopen : (s.party t).broken peer = false) :
      Serve src dst t (.send peer l) s false (s.setParty t (((s.party t).write peer (l.take k)).fail peer))
  | lost {peer : Role} {l : List (Token D)} {s : Net D} (hbroken : (s.party t).broken peer = true) :
      Serve src dst t (.send peer l) s false s
  | recv {peer : Role} {n : ℕ} {s : Net D}
      (hthere : (s.party t).taken peer + n ≤ ((s.party peer).sent t).length) :
      Serve src dst t (.recv peer n) s
        (some ((((s.party peer).sent t).drop ((s.party t).taken peer)).take n))
        (s.setParty t ((s.party t).take peer n))
  | closed {peer : Role} {n : ℕ} {s : Net D} : Serve src dst t (.recv peer n) s none s

end Net
end Yfs.Hdfs
