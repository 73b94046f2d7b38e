import Yfs.Hdfs.Transfer
import Yfs.Lib.Turns

/-! A replication in which nothing fails: the threads take turns, and `ReplicateBlock` returns `true`. -/
namespace Yfs.Hdfs
open Yfs.Lib Yfs.Extent Yfs.Client

section
variable {D : Type}

abbrev Queues (D : Type) := Role × Role → List (Token D)

/-- No stream has had an error, and `q` is what was sent and not yet taken. -/
structure Queued (q : Queues D) (s : Net D) : Prop where
  unbroken : ∀ t peer, (s.party t).broken peer = false
  taken_le : ∀ t peer, (s.party peer).taken t ≤ ((s.party t).sent peer).length
  rest : ∀ t peer, ((s.party t).sent peer).drop ((s.party peer).taken t) = q (t, peer)

def only (t peer : Role) (l : List (Token D)) : Queues D := Function.update (fun _ => []) (t, peer) l

theorem queued_start (store : D → Store) : Queued (fun _ => []) (Net.start store) :=
  ⟨fun _ _ => rfl, fun _ _ => Nat.le_refl _, fun _ _ => rfl⟩

variable {src dst : D} {t peer : Role} {s : Net D} {q : Queues D} {l rest : List (Token D)}

theorem Queued.write (h : Queued q s) (t peer : Role) (l : List (Token D)) :
    Queued (Function.update q (t, peer) (q (t, peer) ++ l)) (s.setParty t ((s.party t).write peer l)) := by
  have htaken := Net.congr_party_setParty Endpoint.taken (rfl : ((s.party t).write peer l).taken = _)
  have hbroken := Net.congr_party_setParty Endpoint.broken (rfl : ((s.party t).write peer l).broken = _)
  have hsent : ∀ u v, ((s.setParty t ((s.party t).write peer l)).party u).sent v =
      if (u, v) = (t, peer) then (s.party t).sent peer ++ l else (s.party u).sent v := by
    intro u v
    by_cases hu : u = t
    · subst hu
      rw [Net.party_setParty_self]
      by_cases hv : v = peer
      · subst hv
        rw [Endpoint.sent_write_self, if_pos rfl]
      · rw [if_neg fun h => hv (Prod.mk.inj h).2]
        exact Function.update_of_ne hv _ _
    · rw [Net.party_setParty_of_ne hu, if_neg fun h => hu (Prod.mk.inj h).1]
  constructor
  · intro u v
    rw [hbroken]
    exact h.unbroken u v
  · intro u v
    rw [htaken, hsent]
    have hle := h.taken_le u v
    split_ifs with huv
    · cases huv
      rw [List.length_append]
      omega
    · exact hle
  · intro u v
    rw [htaken, hsent]
    split_ifs with huv
    · cases huv
      rw [Function.update_self, List.drop_append_of_le_length (h.taken_le t peer), h.rest]
    · rw [Function.update_of_ne huv, h.rest]

theorem Queued.take (h : Queued q s) (hl : q (peer, t) = l ++ rest) :
    Queued (Function.update q (peer, t) rest) (s.setParty t ((s.party t).take peer l.length)) := by
  have hsent := Net.congr_party_setParty Endpoint.sent (rfl : ((s.party t).take peer l.length).sent = _)
  have hbroken := Net.congr_party_setParty Endpoint.broken (rfl : ((s.party t).take peer l.length).broken = _)
  have htaken : ∀ u v, ((s.setParty t ((s.party t).take peer l.length)).party u).taken v =
      if (v, u) = (peer, t) then (s.party t).taken peer + l.length else (s.party u).taken v := by
    intro u v
    by_cases hu : u = t
    · subst hu
      rw [Net.party_setParty_self]
      by_cases hv : v = peer
      · subst hv
        rw [Endpoint.taken_take_self, if_pos rfl]
      · rw [if_neg fun h => hv (Prod.mk.inj h).1]
        exact Function.update_of_ne hv _ _
    · rw [Net.party_setParty_of_ne hu, if_neg fun h => hu (Prod.mk.inj h).2]
  have hqueue := (h.rest peer t).trans hl
  constructor
  · intro u v
    rw [hbroken]
    exact h.unbroken u v
  · intro u v
    rw [hsent, htaken]
    split_ifs with huv
    · cases huv
      have hlength := congrArg List.length hqueue
      have hle := h.taken_le peer t
      rw [List.length_drop, List.length_append] at hlength
      omega
    · exact h.taken_le u v
  · intro u v
    rw [hsent, htaken]
    split_ifs with huv
    · cases huv
      rw [Function.update_self, ← List.drop_drop, hqueue, List.drop_left]
    · rw [Function.update_of_ne huv, h.rest]

theorem only_nil (t peer : Role) : (only t peer [] : Queues D) = fun _ => [] := Function.update_eq_self _ _

end

section
variable {D : Type} [DecidableEq D] {src dst : D} {t peer : Role} {q q' : Queues D} {l rest : List (Token D)}

def Runs {α : Type} (src dst : D) (t : Role) (q : Queues D) (p : NetM D α) (B : α → Prop) (q' : Queues D) :
    Prop :=
  p.May (Net.Serve src dst t) (Queued q) fun r s => B r ∧ Queued q' s

theorem Runs.pure {α : Type} (a : α) : Runs src dst t q (pure a) (· = a) q :=
  Prog.May.pure fun _ hs => ⟨rfl, hs⟩

theorem Runs.bind {α β : Type} {p : NetM D α} {a : α} {f : α → NetM D β} {B : β → Prop} {q'' : Queues D}
    (hp : Runs src dst t q p (· = a) q') (hf : Runs src dst t q' (f a) B q'') :
    Runs src dst t q (p >>= f) B q'' := Prog.May.bind_returns hp hf

theorem runs_send (l : List (Token D)) :
    Runs src dst t (fun _ => []) (request (.send peer l)) (· = true) (only t peer l) :=
  Prog.May.perform fun _ hs => ⟨_, _, .send (hs.unbroken t peer), rfl, hs.write t peer l⟩

theorem runs_connect {id : D} (hnext : t.next = some peer) (hhost : Net.host src dst peer = some id) :
    Runs src dst t q (request (.connect id)) (· = some peer) q :=
  Prog.May.perform fun _ hs => ⟨_, _, .connect hnext hhost, rfl, hs⟩

theorem runs_recv {n : ℕ} (hn : n = l.length) :
    Runs src dst t (only peer t (l ++ rest)) (request (.recv peer n)) (· = some l) (only peer t rest) := by
  refine Prog.May.perform fun s hs => ?_
  have hqueue : only peer t (l ++ rest) (peer, t) = l ++ rest := Function.update_self _ _ _
  have hdrop := (hs.rest peer t).trans hqueue
  have hlength := congrArg List.length hdrop
  have hle := hs.taken_le peer t
  rw [List.length_drop, List.length_append] at hlength
  refine ⟨_, _, .recv (by omega), ?_, ?_⟩
  · rw [hdrop, hn, List.take_left]
  · have htake := hs.take hqueue
    rw [only, Function.update_idem] at htake
    rw [hn]
    exact htake

theorem runs_readRaw {n : ℕ} {l : Str} (hn : n = l.length) :
    Runs src dst t (only peer t (raw l ++ rest)) (readRaw peer n) (· = some l) (only peer t rest) := by
  have hlen : n = (raw l : List (Token D)).length := by rw [hn, raw, List.length_map]
  refine (runs_recv hlen).bind ?_
  dsimp only
  rw [mapM_toByte_raw]
  exact .pure _

theorem runs_readMessage {α : Type} (m : Token D) (parse : Token D → Option α) :
    Runs src dst t (only peer t (m :: rest)) (readMessage peer parse) (· = parse m) (only peer t rest) :=
  (runs_recv (l := [m]) rfl).bind (.pure _)

theorem runs_readOp (op : UInt8) :
    Runs src dst t (only peer t (raw [0, 28, op] ++ rest)) (readOp peer) (· = some op) (only peer t rest) :=
  (runs_readRaw rfl).bind (.pure _)

theorem runs_readPacket {p : Packet} (hlen : p.header.dataLen.toInt = p.data.length) :
    Runs src dst t (only peer t (packetTokens p)) (readPacket peer) (· = some (.ok p)) (fun _ => []) := by
  have hnonneg : ¬p.header.dataLen < 0 := by
    rw [Int32.lt_iff_toInt_lt, hlen]
    exact Int.not_lt.2 (Int.natCast_nonneg _)
  rw [packetTokens, List.append_assoc]
  refine (runs_readRaw (length_bigEndian _ _).symm).bind ?_
  refine (runs_readRaw (length_bigEndian _ _).symm).bind ?_
  dsimp only
  rw [if_neg (by rw [ofBigEndian_bigEndian]; decide)]
  refine (runs_readMessage (.header p.header) Token.toHeader).bind ?_
  dsimp only [Token.toHeader]
  rw [skipCount_eq, skip, if_neg (by decide), if_neg hnonneg]
  refine (Runs.pure ()).bind ?_
  rw [← only_nil peer t, ← List.append_nil (raw p.data)]
  refine (runs_readRaw (by rw [hlen, Int.toNat_natCast])).bind ?_
  exact .pure _

private theorem exec_onExtent {α : Type} {p : M α} {id : D} {a : α} {s : Net D} {store' : Store}
    (hhost : Net.host src dst t = some id) (hrun : p.run Store.serve (s.store id) = some (a, store')) :
    (onExtent p).Exec (Net.Serve src dst t) s a (s.setStore id store') := by
  induction p generalizing s with
  | pure b =>
    cases hrun
    refine ⟨rfl, ?_⟩
    rw [Net.setStore, Function.update_eq_self]
  | call c next ih =>
    obtain ⟨r, hserve, hrest⟩ := Option.bind_eq_some_iff.1 hrun
    have hexec := ih r.1 (s := s.setStore id r.2) (by rw [Net.store_setStore_self]; exact hrest)
    have hsame : (s.setStore id r.2).setStore id store' = s.setStore id store' := by
      simp only [Net.setStore, Function.update_idem]
    exact ⟨r.1, s.setStore id r.2, .extent hhost hserve, hsame ▸ hexec⟩

theorem runs_onExtent {α : Type} {p : M α} {id : D} {B : α → Prop} (hhost : Net.host src dst t = some id)
    (h : ∀ store, ∃ a store', p.run Store.serve store = some (a, store') ∧ B a) :
    Runs src dst t q (onExtent p) B q := by
  intro s hs
  obtain ⟨a, store', hrun, ha⟩ := h (s.store id)
  exact ⟨a, _, exec_onExtent hhost hrun, ha, hs.unbroken, hs.taken_le, hs.rest⟩

theorem runs_writeBlock {id : D} {bid : UInt32} (hb : bid.toNat < blockNum)
    (hhost : Net.host src dst t = some id) {p : Packet}
    (hend : (p.header.offsetInBlock.toUInt64 + .ofNat p.data.length).toNat ≤ blockSize) :
    Runs src dst t q (onExtent (DataNode.writeBlock bid.toUInt64.toUInt32 p.header.offsetInBlock.toUInt64
      (.ofNat p.data.length) p.data)) (· = some true) q := by
  refine runs_onExtent hhost fun store => ?_
  rw [UInt32.toUInt32_toUInt64, run_writeBlock_reads store hb, if_neg (Nat.not_lt.2 hend)]
  exact ⟨_, _, rfl, rfl⟩

section
variable {β : Type}

def threads (x y z : NetM D β) : Role → NetM D β
  | .namenode => x
  | .source => y
  | .target => z

omit [DecidableEq D] in
theorem threads_eta (prog : Role → NetM D β) :
    threads (prog .namenode) (prog .source) (prog .target) = prog := by
  funext t
  cases t <;> rfl

/-- The threads can go on so that the first of them returns `b`. -/
def CanReturn (src dst : D) (b : β) (q : Queues D) (x y z : NetM D β) : Prop :=
  Pool.May (Net.Serve src dst) (Queued q) (threads x y z) fun p => p.prog .namenode = pure b

variable {α : Type} {p : NetM D α} {f : α → NetM D β} {a : α} {b : β} {x y z : NetM D β}

theorem CanReturn.turn {t : Role} {B : α → Prop} (hprog : threads x y z t = p >>= f)
    (hp : Runs src dst t q p B q')
    (h : ∀ r, B r → ∃ x' y' z', Function.update (threads x y z) t (f r) = threads x' y' z' ∧
      CanReturn src dst b q' x' y' z') : CanReturn src dst b q x y z := by
  refine Pool.May.turn hprog hp fun r => ?_
  rintro s ⟨hr, hs⟩
  obtain ⟨x', y', z', hthreads, hnext⟩ := h r hr
  rw [hthreads]
  exact hnext s hs

theorem CanReturn.namenode (hp : Runs src dst .namenode q p (· = a) q')
    (h : CanReturn src dst b q' (f a) y z) : CanReturn src dst b q (p >>= f) y z := by
  refine .turn rfl hp fun r hr => ⟨_, _, _, funext fun t => ?_, hr ▸ h⟩
  cases t <;> rfl

theorem CanReturn.source (hp : Runs src dst .source q p (· = a) q') (h : CanReturn src dst b q' x (f a) z) :
    CanReturn src dst b q x (p >>= f) z := by
  refine .turn rfl hp fun r hr => ⟨_, _, _, funext fun t => ?_, hr ▸ h⟩
  cases t <;> rfl

theorem CanReturn.target (hp : Runs src dst .target q p (· = a) q') (h : CanReturn src dst b q' x y (f a)) :
    CanReturn src dst b q x y (p >>= f) := by
  refine .turn rfl hp fun r hr => ⟨_, _, _, funext fun t => ?_, hr ▸ h⟩
  cases t <;> rfl

theorem CanReturn.connectToMirror {blockId : UInt64} {n m : ℕ} {f : Option Role → NetM D β}
    {g : Unit → NetM D β} (h : ∀ g', CanReturn src dst b (fun _ => []) x (f (some .target))
      (receivePackets .source blockId none 0 n >>= g')) :
    CanReturn src dst b (fun _ => []) x (connectToMirror blockId dst [] >>= f)
      (worker n .source (m + 1) >>= g) := by
  rw [Hdfs.connectToMirror, worker, bind_assoc, bind_assoc]
  refine .source (runs_connect rfl rfl) ?_
  dsimp only
  rw [bind_assoc]
  refine .source (runs_send _) ?_
  refine .target (runs_readOp 80) ?_
  dsimp only
  rw [if_neg (by decide), if_pos rfl, writeBlockOp]
  simp only [bind_assoc]
  refine .target (runs_readMessage _ _) ?_
  dsimp only [Token.toWriteBlock]
  rw [bind_assoc, only_nil]
  refine .target (runs_send _) ?_
  refine .source (runs_readMessage _ _) ?_
  dsimp only [Token.toResponse]
  rw [if_pos rfl, pure_bind, only_nil]
  exact h _

end

/-- The packets of `_TransferBlock` go one by one. -/
theorem CanReturn.packet {bid : UInt32} (hb : bid.toNat < blockNum) {header : PacketHeader} {buf : Str}
    {p : Packet} (hp : writePacket header buf = some p)
    (hlen : p.header.dataLen.toInt = p.data.length)
    (hend : (p.header.offsetInBlock.toUInt64 + .ofNat p.data.length).toNat ≤ blockSize) {n : ℕ}
    {β : Type} {b : β} {x : NetM D β} {f g : Option Bool → NetM D β}
    (h : CanReturn src dst b (fun _ => []) x (f (some true))
      ((if p.header.lastPacketInBlock then pure (some true)
        else receivePackets .source bid.toUInt64 none 0 n) >>= g)) :
    CanReturn src dst b (fun _ => []) x (sendPacket .target header buf >>= f)
      (receivePackets .source bid.toUInt64 none 0 (n + 1) >>= g) := by
  rw [sendPacket, hp, receivePackets]
  dsimp only
  rw [bind_assoc, bind_assoc]
  refine .source (runs_send _) ?_
  refine .target (runs_readPacket hlen) ?_
  dsimp only
  rw [bind_assoc]
  refine .target (runs_writeBlock hb rfl hend) ?_
  dsimp only
  rw [bind_assoc]
  refine .target (.pure []) ?_
  rw [bind_assoc]
  refine .target (runs_send _) ?_
  rw [if_pos rfl, bind_assoc]
  refine .source (runs_readMessage _ _) ?_
  rw [only_nil]
  exact h

theorem CanReturn.copyBlock {bid : UInt32} (hb : bid.toNat < blockNum) {block : Str}
    (hblock : block.length = blockSize) {n : ℕ} {β : Type} {b : β} {x : NetM D β}
    {f g : Option Bool → NetM D β}
    (h : CanReturn src dst b (only .source .namenode [.response ⟨.success, none⟩]) x (f (some true))
      (g (some true))) :
    CanReturn src dst b (fun _ => []) x (copyBlock .namenode .target block >>= f)
      (receivePackets .source bid.toUInt64 none 0 (n + 2) >>= g) := by
  rw [Hdfs.copyBlock, bind_assoc]
  refine .packet hb (writePacket_block hblock) (dataLen_blockPacket hblock) (end_blockPacket hblock).le ?_
  dsimp only
  rw [bind_assoc]
  refine .packet hb writePacket_end rfl (by decide) ?_
  dsimp only
  rw [bind_assoc]
  refine .source (runs_send _) ?_
  exact h

theorem CanReturn.readBlock {bid : UInt32} (hb : bid.toNat < blockNum) {β : Type} {b : β} {x z : NetM D β}
    {f : Str → NetM D β} (h : ∀ block : Str, block.length = blockSize → CanReturn src dst b q x (f block) z) :
    CanReturn src dst b q x (onExtent (DataNode.readBlock bid 0 (.ofNat blockSize)) >>= f) z := by
  have hread : Runs src dst .source q (onExtent (DataNode.readBlock bid 0 (.ofNat blockSize)))
      (fun block => block.length = blockSize) q := by
    refine runs_onExtent rfl fun store => ⟨_, _, run_readBlock_eq store hb _ _, ?_⟩
    have hend : min ((0 : UInt64).toNat + (UInt64.ofNat blockSize).toNat) blockSize = blockSize := rfl
    rw [hend, List.extract_eq_take_drop, List.length_take, List.length_drop, length_blockBytes]
    rfl
  refine .turn (t := .source) rfl hread fun block hblock => ⟨_, _, _, funext fun t => ?_, h block hblock⟩
  cases t <;> rfl

theorem may_replicate {bid : UInt32} (hb : bid.toNat < blockNum) (n m : ℕ) :
    Pool.May (Net.Serve src dst) (Queued fun _ => []) (replication (n + 2) (m + 1) bid src dst) fun p =>
      p.prog .namenode = pure (some true) := by
  rw [← threads_eta (replication (n + 2) (m + 1) bid src dst)]
  simp only [replication, replicateBlock, bind_assoc]
  -- the namenode asks the source
  refine CanReturn.namenode (runs_connect rfl rfl) ?_
  dsimp only
  rw [bind_assoc]
  refine .namenode (runs_send _) ?_
  rw [if_pos rfl, bind_assoc]
  rw [worker, bind_assoc]
  refine .source (runs_readOp 86) ?_
  dsimp only
  rw [if_neg (by decide), if_neg (by decide), if_pos rfl, transferBlockOp, bind_assoc, bind_assoc]
  refine .source (runs_readMessage _ _) ?_
  dsimp only [Token.toTransferBlock]
  rw [bind_assoc, only_nil, UInt32.toUInt32_toUInt64]
  refine .readBlock hb fun block hblock => ?_
  -- the source asks the target
  rw [bind_assoc]
  refine .connectToMirror fun g => ?_
  -- the block, and the way back
  refine .copyBlock hb hblock ?_
  refine .namenode (runs_readMessage _ _) ?_
  exact Pool.may_of_all fun _ _ => rfl

theorem exists_replicated {bid : UInt32} (hb : bid.toNat < blockNum) (src dst : D) (store : D → Store)
    (n m : ℕ) :
    ∃ p, Relation.ReflTransGen (Pool.Step (Net.Serve src dst))
        ⟨Net.start store, replication (n + 2) (m + 1) bid src dst⟩ p ∧
      p.prog .namenode = pure (some true) := may_replicate hb n m _ (queued_start store)

end
end Yfs.Hdfs
