import Yfs.Hdfs.Pipeline
import Yfs.Hdfs.Delivery

/-! A pipeline in which nothing fails: both datanodes write every packet, and the client gets all
acknowledgements. -/
namespace Yfs.Hdfs
open Yfs.Lib Yfs.Extent Yfs.Client

def Packet.success (p : Packet) : PipelineAck := ⟨p.header.seqno, [.success, .success]⟩

/-- The client waits for the acknowledgement of a packet before it sends the next. -/
def oneByOne (ps : List Packet) : List Turn := ps.flatMap fun _ => [.write, .await]

section
variable {D : Type} [DecidableEq D] {src dst : D} {t : Role} {q q' : Queues D} {acks : List PipelineAck}
  {bid : UInt32}

theorem Packet.Sound.end_le {p : Packet} (h : p.Sound)
    (hend : p.header.offsetInBlock.toUInt64.toNat + p.data.length ≤ blockSize) :
    (p.header.offsetInBlock.toUInt64 + .ofNat p.data.length).toNat ≤ blockSize := by
  have hrange := h.range
  rw [UInt64.toNat_add, UInt64.toNat_ofNat']
  omega

theorem CanReturn.packetAcked (hb : bid.toNat < blockNum) {p : Packet} (hp : p.Sound)
    (hend : p.header.offsetInBlock.toUInt64.toNat + p.data.length ≤ blockSize) {n : ℕ} {turns : List Turn}
    {ps : List Packet} {f : List PipelineAck → NetM D (List PipelineAck)}
    {g g' : Option Bool → NetM D (List PipelineAck)}
    (h : CanReturn src dst acks (fun _ => []) (exchange .source turns ps >>= fun as => f (p.success :: as))
      ((if p.header.lastPacketInBlock then pure (some true)
        else receivePackets .namenode bid.toUInt64 (some .target) 1 n) >>= g)
      ((if p.header.lastPacketInBlock then pure (some true)
        else receivePackets .source bid.toUInt64 none 0 n) >>= g')) :
    CanReturn src dst acks (fun _ => []) (exchange .source (.write :: .await :: turns) (p :: ps) >>= f)
      (receivePackets .namenode bid.toUInt64 (some .target) 1 (n + 1) >>= g)
      (receivePackets .source bid.toUInt64 none 0 (n + 1) >>= g') := by
  rw [exchange, receivePackets, receivePackets, bind_assoc, bind_assoc, bind_assoc]
  refine .namenode (runs_send _) ?_
  refine .source (runs_readPacket hp.length) ?_
  dsimp only
  rw [bind_assoc]
  refine .source (runs_writeBlock hb rfl (hp.end_le hend)) ?_
  -- the second datanode
  dsimp only
  rw [forward, bind_assoc, bind_assoc]
  refine .source (runs_send _) ?_
  rw [if_pos rfl, bind_assoc]
  refine .target (runs_readPacket hp.length) ?_
  dsimp only
  rw [bind_assoc]
  refine .target (runs_writeBlock hb rfl (hp.end_le hend)) ?_
  dsimp only
  rw [forward, pure_bind, bind_assoc]
  refine .target (runs_send _) ?_
  -- the way back
  refine .source (runs_readMessage _ _) ?_
  dsimp only [Token.toAck]
  rw [pure_bind, bind_assoc, only_nil]
  refine .source (runs_send _) ?_
  rw [exchange, bind_assoc]
  refine .namenode (runs_readMessage _ _) ?_
  dsimp only [Token.toAck]
  rw [bind_assoc, only_nil]
  simp only [pure_bind]
  exact h

/-- All packets, if only the last one says that it is the last. -/
theorem CanReturn.packetsAcked (hb : bid.toNat < blockNum) {ps : List Packet} (hsound : ∀ p ∈ ps, p.Sound)
    (hend : ∀ p ∈ ps, p.header.offsetInBlock.toUInt64.toNat + p.data.length ≤ blockSize)
    (hlast : ∀ p ∈ ps.dropLast, p.header.lastPacketInBlock = false) (n : ℕ)
    {f : List PipelineAck → NetM D (List PipelineAck)} {g g' : Option Bool → NetM D (List PipelineAck)}
    (h : ∀ y z, CanReturn src dst acks (fun _ => []) (f (ps.map Packet.success)) y z) :
    CanReturn src dst acks (fun _ => []) (exchange .source (oneByOne ps) ps >>= f)
      (receivePackets .namenode bid.toUInt64 (some .target) 1 (ps.length + n) >>= g)
      (receivePackets .source bid.toUInt64 none 0 (ps.length + n) >>= g') := by
  induction ps generalizing f with
  | nil => exact h _ _
  | cons p ps ih =>
    rw [List.length_cons, Nat.add_right_comm]
    refine .packetAcked hb (hsound p List.mem_cons_self) (hend p List.mem_cons_self) ?_
    cases ps with
    | nil => exact h _ _
    | cons p' ps =>
      have hnot : ¬p.header.lastPacketInBlock = true := by
        rw [hlast p List.mem_cons_self]
        decide
      rw [if_neg hnot, if_neg hnot]
      refine ih (fun p hp => hsound p (List.mem_cons_of_mem _ hp))
        (fun p hp => hend p (List.mem_cons_of_mem _ hp)) (fun p hp => hlast p (List.mem_cons_of_mem _ hp)) h

theorem exists_acknowledged (hb : bid.toNat < blockNum) (src dst : D) {ps : List Packet}
    (hsound : ∀ p ∈ ps, p.Sound)
    (hend : ∀ p ∈ ps, p.header.offsetInBlock.toUInt64.toNat + p.data.length ≤ blockSize)
    (hlast : ∀ p ∈ ps.dropLast, p.header.lastPacketInBlock = false) (store : D → Store) (n m : ℕ) :
    ∃ p, Relation.ReflTransGen (Pool.Step (Net.Serve src dst))
        ⟨Net.start store, pipeline (ps.length + n) (m + 1) bid src dst ps (oneByOne ps)⟩ p ∧
      p.prog .namenode = pure (ps.map Packet.success) := by
  suffices hall : Pool.May (Net.Serve src dst) (Queued fun _ => [])
      (pipeline (ps.length + n) (m + 1) bid src dst ps (oneByOne ps)) fun p =>
        p.prog .namenode = pure (ps.map Packet.success) from hall _ (queued_start store)
  rw [← threads_eta (pipeline (ps.length + n) (m + 1) bid src dst ps (oneByOne ps))]
  simp only [pipeline, putBlock]
  -- the request goes to the first datanode
  refine CanReturn.namenode (runs_connect rfl rfl) ?_
  dsimp only
  refine .namenode (runs_send _) ?_
  rw [worker, bind_assoc]
  refine .source (runs_readOp 80) ?_
  dsimp only
  rw [if_neg (by decide), if_pos rfl, writeBlockOp, bind_assoc, bind_assoc]
  refine .source (runs_readMessage _ _) ?_
  dsimp only [Token.toWriteBlock]
  rw [bind_assoc, only_nil]
  -- and on to the second
  refine .connectToMirror fun g => ?_
  -- the packets
  dsimp only
  rw [bind_assoc]
  refine .source (runs_send _) ?_
  refine .namenode (runs_readMessage _ _) ?_
  dsimp only [Token.toResponse]
  rw [if_pos rfl, only_nil, ← bind_pure (exchange .source (oneByOne ps) ps)]
  exact CanReturn.packetsAcked hb hsound hend hlast n fun y z => Pool.may_of_all fun _ _ => rfl

end
end Yfs.Hdfs
