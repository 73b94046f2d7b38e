import Yfs.Hdfs.Streams
import Yfs.Hdfs.Delivery

/-! `ReplicateBlock` says `true` only if the block has arrived. -/
namespace Yfs.Hdfs
open Yfs.Lib Yfs.Extent Yfs.Client

namespace Copy
variable {D : Type} (c : Copy D)

theorem first_prefix : c.opening ++ packetTokens (blockPacket c.content) <+: c.script :=
  List.prefix_append _ _

theorem opening_prefix : c.opening <+: c.script := (List.prefix_append _ _).trans c.first_prefix

theorem length_content : c.content.length = blockSize := length_blockBytes _ _

theorem reads_target : Reads c .target .source c.script fun _ => True := ⟨fun _ h => h.script, fun _ _ h => h⟩

theorem reads_source (out : List (Token D)) : Reads c .source .namenode c.order (Sending .target out) :=
  ⟨fun _ h => h.order, fun _ _ h => h⟩

section
variable [DecidableEq D] {s s' : Net D} {F : Endpoint D → Prop} {w : Prop} {out : List (Token D)}

theorem does_receivePacket {pre : List (Token D)} {p : Packet} (n : ℕ)
    (hp : pre ++ packetTokens p <+: c.script) (hlen : p.header.dataLen.toInt = p.data.length)
    (hend : (p.header.offsetInBlock.toUInt64 + .ofNat p.data.length).toNat ≤ blockSize)
    (hsplice : ∀ block : Str, block.length = blockSize → (w → block = c.content) →
      spliced block p.header.offsetInBlock.toUInt64 (.ofNat p.data.length) p.data = c.content)
    (hnext : c.Does .target (c.At .target (Took .source (pre ++ packetTokens p) fun _ => True) True)
      (if p.header.lastPacketInBlock then pure (some true)
        else receivePackets .source c.bid.toUInt64 none 0 n) (c.Served .target .source c.script)) :
    c.Does .target (c.At .target (Took .source pre fun _ => True) w)
      (receivePackets .source c.bid.toUInt64 none 0 (n + 1)) (c.Served .target .source c.script) := by
  have hbid : c.bid.toUInt64.toUInt32 = c.bid := UInt32.toUInt32_toUInt64 c.bid
  refine (c.reads_target.reader.readPacket hp hlen).bind fun r => .or (.of_and ?_) (.of_and ?_)
  · rintro ⟨seqno, rfl⟩
    refine (does_reply ?_ (.inr ⟨rfl, rfl⟩) fun _ _ _ h => h).bind fun _ => served_of_ne (by decide)
    intro hsignal
    cases hsignal
  · rintro rfl
    dsimp only
    rw [hbid]
    refine (does_writeBlock hend hsplice).bind fun r => .of_and ?_
    rintro rfl
    refine .bind (.pure (Q := fun _ => c.At .target (Took .source (pre ++ packetTokens p) fun _ => True) True)
      (stable_at _ _ _) fun _ hs => hs) fun replies => ?_
    -- the acknowledgement is a signal, and from here on the block is written
    refine (does_reply (fun _ => trivial) (.inr ⟨rfl, rfl⟩) ?_).bind fun _ => hnext
    rintro e e' htaken ⟨hpre, -⟩
    exact ⟨htaken ▸ hpre, trivial⟩

private theorem does_receiveLast (n : ℕ) :
    c.Does .target
      (c.At .target (Took .source (c.opening ++ packetTokens (blockPacket c.content)) fun _ => True) True)
      (receivePackets .source c.bid.toUInt64 none 0 n) (c.Served .target .source c.script) := by
  cases n with
  | zero => exact served_of_ne (by decide)
  | succ n =>
    refine c.does_receivePacket n List.prefix_rfl rfl (by decide) ?_ ?_
    · intro block hlen hblock
      have hsum : (UInt64.ofNat blockSize + UInt64.ofNat ([] : Str).length).toNat = blockSize := rfl
      have hsize : (UInt64.ofNat blockSize).toNat = blockSize := rfl
      rw [spliced, offset_endPacket, hblock trivial, endPacket, hsum, hsize, List.append_nil,
        List.take_append_drop]
    · exact .pure (stable_at _ _ _) fun s hs => ⟨hs.1, fun _ => hs.2.1.1, False.elim⟩

private theorem does_receivePackets (n : ℕ) :
    c.Does .target (c.At .target (Took .source c.opening fun _ => True) w)
      (receivePackets .source c.bid.toUInt64 none 0 n) (c.Served .target .source c.script) := by
  cases n with
  | zero => exact served_of_ne (by decide)
  | succ n =>
    have hlen : (0 + UInt64.ofNat c.content.length).toNat = blockSize := by
      rw [length_content]
      rfl
    refine c.does_receivePacket n c.first_prefix (dataLen_blockPacket c.length_content) ?_ ?_
      (c.does_receiveLast n)
    · exact (end_blockPacket c.length_content).le
    · intro block hblock _
      rw [spliced, offset_blockPacket, data_blockPacket, hlen, UInt64.toNat_zero, List.take_zero,
        List.nil_append, List.drop_eq_nil_of_le hblock.le, List.append_nil]

private theorem does_writeBlockOp (n : ℕ) :
    c.Does .target (c.At .target (Took .source (raw [0, 28, 80]) fun _ => True) w) (writeBlockOp n .source)
      (c.Served .target .source c.script) := by
  refine (c.reads_target.reader.readMessage c.opening_prefix Token.toWriteBlock).bind fun r =>
    .or (.of_and ?_) (.of_and ?_) <;> rintro rfl
  · refine (does_reply ?_ (.inr ⟨rfl, rfl⟩) fun _ _ _ h => h).bind fun _ => served_of_ne (by decide)
    intro hsignal
    cases hsignal
  · refine (does_reply ?_ (.inr ⟨rfl, rfl⟩) ?_).bind fun _ => c.does_receivePackets n
    · intro hsignal
      cases hsignal
    · rintro e e' htaken ⟨hpre, -⟩
      exact ⟨htaken ▸ hpre, trivial⟩

theorem does_target (n m : ℕ) :
    c.Does .target (c.At .target (Took .source [] fun _ => True) w) (worker n .source m) fun _ =>
      c.At .target (fun _ => True) False := by
  have hop : [] ++ raw [0, 28, 80] <+: c.script := (List.prefix_append _ _).trans c.opening_prefix
  refine (c.reads_target.reader (w := w)).worker (c.reads_target.reader (w := False)) hop
    (c.does_writeBlockOp n) (fun s hs => ⟨hs.1, trivial, False.elim⟩)
    (fun r s hs => ⟨hs.1, trivial, False.elim⟩) (fun s hs => ?_) m
  exact ⟨hs.1, ⟨hs.2.1 rfl, trivial⟩, hs.2.2⟩

omit [DecidableEq D] in
theorem not_signal_packetTokens {p : Packet} :
    ∀ m ∈ (packetTokens p : List (Token D)), ¬Signal .source m := by
  intro m hm
  simp only [packetTokens, raw, List.mem_append, List.mem_map, List.mem_cons] at hm
  rcases hm with (⟨_, -, rfl⟩ | ⟨_, -, rfl⟩) | rfl | ⟨_, -, rfl⟩ <;> exact False.elim

omit [DecidableEq D] in
private theorem not_signal_opening : ∀ m ∈ c.opening, ¬Signal .source m := by
  intro m hm
  simp only [opening, raw, List.mem_append, List.mem_map, List.mem_singleton] at hm
  rcases hm with ⟨_, -, rfl⟩ | rfl <;> exact False.elim

def AtSource (out : List (Token D)) (w : Prop) : Net D → Prop :=
  c.At .source (Took .namenode c.order (Sending .target out)) w

theorem does_sendScript {l : List (Token D)} (hl : out ++ l <+: c.script)
    (hsignal : ∀ m ∈ l, ¬Signal .source m) :
    c.Does .source (c.AtSource out w) (request (.send .target l)) fun _ => c.AtSource (out ++ l) w := by
  refine does_send (fun m hm h => absurd h (hsignal m hm)) fun e sent e' he hsends => ⟨?_, ?_, ?_⟩
  · exact ⟨by rw [hsends.taken, he.1], hsends.sending he.2⟩
  · intro h
    cases h
  · exact fun _ _ => (hsends.sending he.2).1.trans hl

theorem does_connectToMirror :
    c.Does .source (c.AtSource [] w) (connectToMirror c.bid.toUInt64 c.dst []) fun r s =>
      (r = none ∧ c.At .source (fun _ => True) w s) ∨ (r = some .target ∧ c.AtSource c.opening w s) := by
  have hstable : ∀ r : Option Role, (c.interference .source).Stable fun s =>
      (r = none ∧ c.At .source (fun _ => True) w s) ∨ (r = some .target ∧ c.AtSource c.opening w s) :=
    fun r => ((stable_at _ _ _).const_and _).or ((stable_at _ _ _).const_and _)
  refine (does_connect c.dst).bind fun r => .of_and fun hr => ?_
  cases r with
  | none => exact .pure (hstable _) fun s hs => .inl ⟨rfl, hs.1, trivial, hs.2.2⟩
  | some mirror =>
    cases hr mirror rfl
    refine (c.does_sendScript (l := c.opening) c.opening_prefix c.not_signal_opening).bind fun _ => ?_
    refine (does_readMessage (fun e n h => h) Token.toResponse).bind fun r =>
      .or (.of_and ?_) (.of_exists fun m => .of_and fun hm => ?_)
    · rintro rfl
      exact .pure (hstable _) fun s hs => .inl ⟨rfl, hs.1, trivial, hs.2.2⟩
    · cases r with
      | none => exact .pure (hstable _) fun s hs => .inl ⟨rfl, hs.1, trivial, fun h => hs.2.2 (.inl h)⟩
      | some resp =>
        refine .pure (hstable _) fun s hs => ?_
        split_ifs
        · exact .inr ⟨rfl, hs.1, hs.2.1, fun h => hs.2.2 (.inl h)⟩
        · exact .inl ⟨rfl, hs.1, trivial, fun h => hs.2.2 (.inl h)⟩

theorem does_sendPacket {header : PacketHeader} {buf : Str} {p : Packet}
    (hp : writePacket header buf = some p) (hout : out ++ packetTokens p <+: c.script) :
    c.Does .source (c.AtSource out w) (sendPacket .target header buf) fun r =>
      c.AtSource (out ++ packetTokens p) (w ∨ r = some true) := by
  have hstable : ∀ r : Option Bool, (c.interference .source).Stable
      (c.AtSource (out ++ packetTokens p) (w ∨ r = some true)) := fun r => stable_at _ _ _
  have hfail : c.Does .source (c.AtSource (out ++ packetTokens p) w) (pure (some false)) fun r =>
      c.AtSource (out ++ packetTokens p) (w ∨ r = some true) := by
    refine .pure (hstable _) fun s hs => ⟨hs.1, hs.2.1, ?_⟩
    rintro (h | h)
    · exact hs.2.2 h
    · cases h
  rw [sendPacket, hp]
  refine (c.does_sendScript hout not_signal_packetTokens).bind fun sent => ?_
  cases sent with
  | false => exact hfail
  | true =>
    refine (does_readMessage (fun e n h => h) Token.toAck).bind fun r =>
      .or (.of_and ?_) (.of_exists fun m => .of_and fun hm => ?_)
    · rintro rfl
      exact hfail
    · cases r with
      | none => exact hfail.strengthen fun s hs => ⟨hs.1, hs.2.1, fun h => hs.2.2 (.inl h)⟩
      | some ack =>
        refine .pure (hstable _) fun s hs => ⟨hs.1, hs.2.1, ?_⟩
        rintro (h | h)
        · exact hs.2.2 (.inl h)
        · -- a first reply of success is a signal of the target
          apply hs.2.2
          right
          cases m with
          | ack m =>
            cases hm
            obtain ⟨status, hstatus, hsuccess⟩ := Option.map_eq_some_iff.1 h
            rw [decide_eq_true_eq] at hsuccess
            exact hstatus.trans (congrArg some hsuccess)
          | _ => cases hm

theorem does_copyBlock : c.Does .source (c.AtSource c.opening w) (copyBlock .namenode .target c.content)
    (c.Served .source .namenode c.order) := by
  have hfail : ∀ {out : List (Token D)} {w : Prop} {r : Option Bool}, r ≠ some true →
      c.Does .source (c.AtSource out w) (pure r) (c.Served .source .namenode c.order) :=
    fun hr => served_of_ne hr
  refine (c.does_sendPacket (writePacket_block c.length_content) c.first_prefix).bind fun r => ?_
  rcases r with _ | _ | _
  · exact hfail (by decide)
  · exact hfail (by decide)
  refine (c.does_sendPacket writePacket_end List.prefix_rfl).bind fun r => ?_
  rcases r with _ | _ | _
  · exact hfail (by decide)
  · exact hfail (by decide)
  -- the last acknowledgement was a signal of the target, so the response may be one
  have hreply : c.Does .source (c.At .source (fun e => e.taken .namenode = c.order.length) True)
      (request (.send .namenode [.response ⟨.success, none⟩])) fun _ =>
        c.At .source (fun e => e.taken .namenode = c.order.length) True :=
    does_reply (fun _ => trivial) (.inl ⟨rfl, rfl⟩) fun e e' htaken h => htaken ▸ h
  refine (hreply.strengthen fun s hs => ⟨hs.1, hs.2.1.1, fun _ => hs.2.2 (.inr rfl)⟩).bind fun _ => ?_
  exact .pure (stable_at _ _ _) fun s hs => ⟨hs.1, fun _ => hs.2.1, False.elim⟩

private theorem does_transferBlockOp :
    c.Does .source (c.At .source (Took .namenode (raw [0, 28, 86]) (Sending .target [])) w)
      (transferBlockOp .namenode) (c.Served .source .namenode c.order) := by
  refine ((c.reads_source []).reader.readMessage List.prefix_rfl Token.toTransferBlock).bind fun r =>
    .or (.of_and ?_) (.of_and ?_) <;> rintro rfl
  · exact served_of_ne (by decide)
  · dsimp only [Token.toTransferBlock]
    rw [UInt32.toUInt32_toUInt64]
    refine does_readBlock.bind fun block => .of_and fun hblock => ?_
    rw [hblock]
    refine c.does_connectToMirror.bind fun r => .or (.of_and ?_) (.of_and ?_) <;> rintro rfl
    · exact served_of_ne (by decide)
    · exact c.does_copyBlock

theorem does_source (n m : ℕ) :
    c.Does .source (c.At .source (Took .namenode [] (Sending .target [])) w) (worker n .namenode m) fun _ =>
      c.At .source (fun _ => True) False := by
  cases m with
  | zero => exact does_stop
  | succ m =>
    have hop : [] ++ raw [0, 28, 86] <+: c.order := List.prefix_append _ _
    refine ((c.reads_source []).reader.readOp hop).bind fun r => .or (.of_and ?_) (.of_and ?_) <;> rintro rfl
    · exact does_stop
    dsimp only
    rw [if_neg (by decide), if_neg (by decide), if_pos rfl]
    refine c.does_transferBlockOp.bind fun r => ?_
    rcases r with _ | _ | _
    · exact does_stop
    · refine Prog.Assured.bind (Q := fun _ => c.Served .source .namenode c.order (some false)) ?_ fun _ =>
        does_stop
      refine does_reply ?_ (.inl ⟨rfl, rfl⟩) fun e e' _ h hr => by cases hr
      intro hsignal
      cases hsignal
    · have hend : Reads c .source .namenode c.order fun _ => True := ⟨fun _ h => h.order, fun _ _ h => h⟩
      refine (hend.reader.worker_end n m).strengthen fun s hs => ?_
      exact ⟨hs.1, ⟨hs.2.1 rfl, trivial⟩, hs.2.2⟩

/-- The thread of the namenode: its `true` is a signal of the source. -/
theorem does_namenode :
    c.Does .namenode (c.At .namenode (Sending .source []) False) (replicateBlock c.bid c.src c.dst) fun r =>
      c.At .namenode (fun _ => True) (r = true) := by
  have hfalse : ∀ {F : Endpoint D → Prop} {w : Prop}, c.Does .namenode (c.At .namenode F w)
      (pure false : NetM D Bool) fun r => c.At .namenode (fun _ => True) (r = true) :=
    .pure (stable_at _ _ _) fun s hs => ⟨hs.1, trivial, fun h => by cases h⟩
  refine (does_connect c.src).bind fun r => .of_and fun hr => ?_
  cases r with
  | none => exact hfalse
  | some worker =>
    cases hr worker rfl
    have hsend : c.Does .namenode (c.At .namenode (Sending .source []) False)
        (request (.send .source c.order)) fun _ => c.At .namenode (fun _ => True) False := by
      refine does_send (fun m _ hsignal => ?_) fun e sent e' he hsends => ⟨trivial, fun _ _ => ?_, ?_⟩
      · cases hsignal
      · exact (hsends.sending he).1
      · intro h
        cases h
    refine hsend.bind fun sent => ?_
    cases sent with
    | false => exact hfalse
    | true =>
      refine (does_readMessage (fun e n h => h) Token.toResponse).bind fun r =>
        .or (.of_and ?_) (.of_exists fun m => .of_and fun hm => ?_)
      · rintro rfl
        exact hfalse
      · cases r with
        | none => exact hfalse
        | some resp =>
          refine .pure (stable_at _ _ _) fun s hs => ⟨hs.1, trivial, fun h => hs.2.2 (.inr ?_)⟩
          cases m with
          | response m =>
            cases hm
            have hstatus : resp.status = .success := of_decide_eq_true h
            exact hstatus
          | _ => cases hm

omit [DecidableEq D] in
private theorem inv_start (store : D → Store) (hdisk : ∀ id, (store id).disk = c.disk id) :
    c.Inv (Net.start store) := by
  refine ⟨List.nil_prefix, List.nil_prefix, ?_, ?_, .inr ?_⟩
  · intro t peer m hm
    cases hm
  · intro id b _
    exact congrFun (hdisk id) b
  · exact congrFun (hdisk c.dst) _

theorem withstands_start (store : D → Store) (hdisk : ∀ id, (store id).disk = c.disk id) (n m : ℕ) :
    Pool.Withstands (Net.Serve c.src c.dst) c.interference
      (fun t r s => t = .namenode → r = some true → c.Inv s ∧ c.Written s)
      ⟨Net.start store, replication n m c.bid c.src c.dst⟩ := by
  have hinv := c.inv_start store hdisk
  intro t
  cases t with
  | namenode =>
    refine (c.does_namenode.bind fun r => ?_) _ ⟨hinv, ⟨List.nil_prefix, fun _ => rfl⟩, False.elim⟩
    refine .pure ?_ fun s hs _ hr => ⟨hs.1, hs.2.2 (Option.some.inj hr)⟩
    intro s s' hrely h ht hr
    obtain ⟨hinv, hwritten⟩ := h ht hr
    exact ⟨hrely.2.1 hinv, hrely.2.2 hwritten⟩
  | source =>
    refine ((c.does_source n m).bind fun r => ?_) _
      ⟨hinv, ⟨rfl, List.nil_prefix, fun _ => rfl⟩, False.elim⟩
    refine .pure ?_ ?_
    · intro s s' _ _ ht
      cases ht
    · intro s _ ht
      cases ht
  | target =>
    refine ((c.does_target n m).bind fun r => ?_) _ ⟨hinv, ⟨rfl, trivial⟩, False.elim⟩
    refine .pure ?_ ?_
    · intro s s' _ _ ht
      cases ht
    · intro s _ ht
      cases ht

omit [DecidableEq D] in
private theorem rely_of_guar (t u : Role) (h : t ≠ u) (s s' : Net D) (hguar : (c.interference t).guar s s') :
    (c.interference u).rely s s' := ⟨hguar.1 u (Ne.symm h), hguar.2⟩

end
end Copy

/-- When `ReplicateBlock` has returned `true`, the block of the target is the block of the source, and no
other block of the target has changed. -/
theorem replicated {D : Type} [DecidableEq D] {n m : ℕ} {bid : UInt32} {src dst : D}
    (hb : bid.toNat < blockNum) (store : D → Store)
    {p : Pool (NetCall D) NetReply Role (Net D) (Option Bool)}
    (hrun : Relation.ReflTransGen (Pool.Step (Net.Serve src dst))
      ⟨Net.start store, replication n m bid src dst⟩ p)
    (htrue : p.prog .namenode = .pure (some true)) :
    blockBytes (p.state.store dst).disk bid.toNat = blockBytes (store src).disk bid.toNat ∧
      blockBytes (p.state.store src).disk bid.toNat = blockBytes (store src).disk bid.toNat ∧
        ∀ b, b ≠ bid.toNat → (p.state.store dst).disk b = (store dst).disk b := by
  let c : Copy D := ⟨bid, src, dst, fun id => (store id).disk, hb⟩
  have hpool := (c.withstands_start store (fun _ => rfl) n m).run c.rely_of_guar hrun
  obtain ⟨hinv, hwritten⟩ := hpool.result htrue rfl rfl
  exact ⟨hwritten, hinv.content_eq, fun b hne => hinv.others dst b fun h => hne h.2⟩

def oneFilled (bid : UInt32) (id : Bool) : Store :=
  if id then freshStore else
    freshStore.next (freshStore.disk.writeBlock bid.toNat
      (.ofList (List.replicate blockSize 1) freshStore.now.tail))

theorem replicated_oneFilled : ∃ p, Relation.ReflTransGen (Pool.Step (Net.Serve false true))
      ⟨Net.start (oneFilled 7), replication 2 1 7 false true⟩ p ∧ p.prog .namenode = .pure (some true) ∧
    blockBytes (p.state.store true).disk 7 = List.replicate blockSize 1 ∧
      ∀ b, b ≠ 7 → (p.state.store true).disk b = freshStore.disk b := by
  obtain ⟨p, hrun, htrue⟩ := exists_replicated (by decide : (7 : UInt32).toNat < blockNum) false true
    (oneFilled 7) 0 0
  have hfilled : blockBytes (oneFilled 7 false).disk 7 = List.replicate blockSize 1 := by
    rw [oneFilled, if_neg Bool.false_ne_true, Store.disk_next]
    exact blockBytes_writeBlock (by decide) List.length_replicate _
  obtain ⟨hblock, -, hothers⟩ := replicated (by decide) (oneFilled 7) hrun htrue
  exact ⟨p, hrun, htrue, hblock.trans hfilled, hothers⟩

end Yfs.Hdfs
