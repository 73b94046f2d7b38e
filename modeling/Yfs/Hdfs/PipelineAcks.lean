import Yfs.Hdfs.PipelineRun

/-! The acknowledgements of a pipeline are honest: a client never gets more of them, with success from both
datanodes, than there are packets on both disks. -/
namespace Yfs.Hdfs
open Yfs.Lib Yfs.Extent Yfs.Client

namespace Pipe
variable {D : Type} (c : Pipe D)

theorem stream_succ (targets : List D) {k : ℕ} (hk : k < c.packets.length) :
    c.stream targets (k + 1) = c.stream targets k ++ packetTokens c.packets[k] := by
  rw [stream, List.take_add_one, List.getElem?_eq_getElem hk, Option.toList_some, List.flatMap_append,
    List.flatMap_singleton, ← List.append_assoc, ← stream]

theorem le_of_length_stream {k k' : ℕ} (hk : k ≤ c.packets.length) {targets : List D}
    (h : (c.stream targets k).length ≤ (c.stream targets k').length) : k ≤ k' := by
  by_contra hlt
  have hlt' : k' < c.packets.length := by omega
  have hle := (c.stream_prefix targets (by omega : k' + 1 ≤ k)).length_le
  have hpos : 0 < (packetTokens c.packets[k'] : List (Token D)).length := by
    rw [packetTokens, List.length_append, List.length_cons]
    omega
  rw [c.stream_succ targets hlt', List.length_append] at hle
  omega

/-- What the second datanode knows when it has written `j` packets and acknowledged no more than `a`. -/
def AtTarget (j a : ℕ) (v : View D) : Prop :=
  v.written .target = j ∧ ((v.party .target).sent .source).countP (clean 1) ≤ a

def AtSource (i : ℕ) (out : List (Token D)) (v : View D) : Prop :=
  v.written .source = i ∧ Copy.Sending .target out (v.party .source)

def Served (t peer : Role) (targets : List D) (r : Option Bool) : State D → Prop :=
  c.At fun v => r = some true → (v.party t).taken peer = (c.stream targets c.packets.length).length

section
variable {c} {s : State D} {t peer : Role} {i j a : ℕ} {e e' : Endpoint D} {G : View D → Prop}

theorem lasting_target (j a : ℕ) : Lasting .target (AtTarget (D := D) j a) :=
  lasting_own (fun e k => k = j ∧ (e.sent .source).countP (clean 1) ≤ a) .target

theorem lasting_source (i : ℕ) (out : List (Token D)) : Lasting .source (AtSource i out) :=
  lasting_own (fun e k => k = i ∧ Copy.Sending .target out e) .source

theorem lasting_served (c : Pipe D) (t peer : Role) (targets : List D) (r : Option Bool) :
    Lasting t fun v : View D => r = some true →
      (v.party t).taken peer = (c.stream targets c.packets.length).length :=
  lasting_own (fun e _ => r = some true → e.taken peer = (c.stream targets c.packets.length).length) t

theorem reads_target (c : Pipe D) (j a : ℕ) :
    Reads c .target .source (c.stream [] c.packets.length) (AtTarget j a) := by
  refine ⟨fun s h => h.script.trans (c.stream_prefix [] h.count), lasting_target j a, fun v n hv => ?_⟩
  rw [AtTarget, party_set_self]
  exact hv

theorem reads_source (c : Pipe D) (i : ℕ) (out : List (Token D)) :
    Reads c .source .namenode (c.stream [c.dst] c.packets.length) (AtSource i out) := by
  refine ⟨fun s h => h.order, lasting_source i out, fun v n hv => ?_⟩
  rw [AtSource, party_set_self]
  exact hv

theorem countP_of_sends {l : List (Token D)} {sent : Bool} (h : Copy.Sends peer l e sent e')
    (good : Token D → Bool) (other : Role) :
    (e'.sent other).countP good ≤ (e.sent other).countP good + l.countP good := by
  by_cases hother : other = peer
  · subst hother
    rcases h with ⟨-, -, rfl⟩ | ⟨-, -, k, rfl⟩ | ⟨-, -, rfl⟩
    · rw [Endpoint.sent_write_self, List.countP_append]
    · rw [Endpoint.sent_fail, Endpoint.sent_write_self, List.countP_append]
      exact Nat.add_le_add_left (List.take_sublist k l).countP_le _
    · exact Nat.le_add_right _ _
  · rw [h.sent_other hother]
    exact Nat.le_add_right _ _

theorem sending_of_sends {l out : List (Token D)} {sent : Bool} {other : Role}
    (h : Copy.Sends peer l e sent e') (hother : other ≠ peer) (hout : Copy.Sending other out e) :
    Copy.Sending other out e' := by
  have hbroken : e'.broken other = e.broken other := by
    rcases h with ⟨-, -, rfl⟩ | ⟨-, -, k, rfl⟩ | ⟨-, -, rfl⟩
    · rfl
    · exact Function.update_of_ne hother _ _
    · rfl
  unfold Copy.Sending
  rw [h.sent_other hother, hbroken]
  exact hout

end

section
variable [DecidableEq D] {c} {t peer : Role} {i j a : ℕ} {out pre : List (Token D)} {G : View D → Prop}

theorem served_of_ne {r : Option Bool} {targets : List D} (hr : r ≠ some true) :
    c.Does t (c.At G) (pure r) (c.Served t peer targets) :=
  .pure (stable_at (lasting_served c t peer targets r)) fun _ hs => ⟨hs.1, fun h => absurd h hr⟩

/-- A datanode that serves the request, with what it knows: `W i` before it reads packet `i`, and `V i` when
it has written that packet and has to answer. -/
structure Station (c : Pipe D) (t peer : Role) (targets : List D) (mirror : Option Role) (k : ℕ)
    (W V : ℕ → View D → Prop) : Prop where
  host : ∃ id, Net.host c.src c.dst t = some id
  reads : ∀ i, Reads c t peer (c.stream targets c.packets.length) (W i)
  lasting : ∀ i, Lasting t (V i)
  count : ∀ i v, W i v → v.written t = i
  ahead : ∀ i s, i < c.packets.length → t = .target → c.Inv s →
    (s.1.party t).taken peer = (c.stream targets (i + 1)).length → i < s.2 .source
  tick : ∀ i v, W i v → V i (v.tick t)
  fails : ∀ i m, clean 1 m = false → clean 2 m = false → c.Does t (c.At (W i)) (do
    let _ ← request (.send peer [m])
    pure (some false)) (c.Served t peer targets)
  answers : ∀ i (hi : i < c.packets.length),
    c.Does t (c.At (Took t peer (c.stream targets (i + 1)) (V i))) (do
    let replies ← forward mirror k c.packets[i]
    request (.send peer [.ack ⟨c.packets[i].header.seqno, .success :: replies⟩])) fun _ =>
      c.At (Took t peer (c.stream targets (i + 1)) (W (i + 1)))

section
variable {targets : List D} {mirror : Option Role} {k : ℕ} {W V : ℕ → View D → Prop}

theorem Station.receivePacket (h : Station c t peer targets mirror k W V) (hi : i < c.packets.length) (n : ℕ)
    (hnext : c.Does t (c.At (Took t peer (c.stream targets (i + 1)) (W (i + 1))))
      (if c.packets[i].header.lastPacketInBlock then pure (some true)
        else receivePackets peer c.bid.toUInt64 mirror k n) (c.Served t peer targets)) :
    c.Does t (c.At (Took t peer (c.stream targets i) (W i)))
      (receivePackets peer c.bid.toUInt64 mirror k (n + 1)) (c.Served t peer targets) := by
  have hsucc := c.stream_succ targets hi
  have hprefix := c.stream_prefix targets (by omega : i + 1 ≤ c.packets.length)
  have hbid : c.bid.toUInt64.toUInt32 = c.bid := UInt32.toUInt32_toUInt64 c.bid
  have hread := (h.reads i).reader.readPacket (hsucc ▸ hprefix) (c.sound _ (List.getElem_mem hi)).length
  obtain ⟨id, hhost⟩ := h.host
  refine hread.bind fun r => .or (.of_and ?_) (.of_and ?_)
  · rintro ⟨seqno, rfl⟩
    exact h.fails i _ rfl rfl
  · rintro rfl
    dsimp only
    rw [hbid, ← hsucc]
    refine (does_writeBlock (H := Took t peer (c.stream targets (i + 1)) (V i)) ((h.reads i).lasting.took _ _)
      ((h.lasting i).took _ _) hhost hi (fun v hv => h.count i v hv.2)
      (fun ht s hinv hs => h.ahead i s hi ht hinv hs.1)
      fun v hv => ⟨hv.1, h.tick i v hv.2⟩).bind fun r => .or (.of_and ?_) (.of_and ?_)
    · rintro rfl
      exact served_of_ne (by decide)
    · rintro rfl
      have hall := (h.answers i hi).bind fun _ => hnext
      rwa [bind_assoc] at hall

theorem Station.receivePackets (h : Station c t peer targets mirror k W V) (n : ℕ)
    (hi : i ≤ c.packets.length) :
    c.Does t (c.At (Took t peer (c.stream targets i) (W i)))
      (receivePackets peer c.bid.toUInt64 mirror k n) (c.Served t peer targets) := by
  induction n generalizing i with
  | zero => exact served_of_ne (by decide)
  | succ n ih =>
    rcases hi.lt_or_eq with hlt | rfl
    · refine h.receivePacket hlt n ?_
      split_ifs with hlast
      · refine .pure (stable_at (lasting_served c _ _ _ _)) fun s hs => ⟨hs.1, fun _ => ?_⟩
        rw [← c.last i hlt hlast]
        exact hs.2.1
      · exact ih hlt
    · refine (h.reads _).reader.readPacket_end.bind fun r => .of_and ?_
      rintro rfl
      exact h.fails _ _ rfl rfl

end

theorem Reads.worker {targets : List D} (h : Reads c t peer (c.stream targets c.packets.length) G) {n : ℕ}
    (hop : c.Does t (c.At (Took t peer (raw [0, 28, 80]) G)) (writeBlockOp n peer) (c.Served t peer targets))
    (m : ℕ) : c.Does t (c.At (Took t peer [] G)) (worker n peer m) fun _ => c.At fun _ => True := by
  have hprefix : [] ++ raw [0, 28, 80] <+: c.stream targets c.packets.length :=
    (List.prefix_append _ _).trans (List.prefix_append _ _)
  have hend : Reads c t peer (c.stream targets c.packets.length) fun _ => True :=
    ⟨h.stream, fun _ _ _ h => h, fun _ _ h => h⟩
  exact h.reader.worker hend.reader hprefix hop (fun s hs => ⟨hs.1, trivial⟩)
    (fun r s hs => ⟨hs.1, trivial⟩) (fun s hs => ⟨hs.1, hs.2 rfl, trivial⟩) m

theorem does_reply_target (F : (Role → ℕ) → Prop) {m : Token D}
    (hm : a + (if clean 1 m then 1 else 0) ≤ j) :
    c.Does .target (c.At fun v => F (v.party .target).taken ∧ AtTarget j a v) (request (.send .source [m]))
      fun _ => c.At fun v => F (v.party .target).taken ∧ AtTarget j (a + if clean 1 m then 1 else 0) v := by
  have hlasting : ∀ a, Lasting .target fun v : View D => F (v.party .target).taken ∧ AtTarget j a v :=
    fun a => (lasting_own (fun e _ => F e.taken) .target).and (lasting_target j a)
  refine does_send (hlasting a) (fun _ => hlasting _) ?_
  rintro s sent e' hinv ⟨hF, hwritten, hcount⟩ hsends
  have hcount' := countP_of_sends hsends (clean 1) .source
  rw [List.countP_singleton] at hcount'
  have hacks : (e'.sent .source).countP (clean 1) ≤ a + if clean 1 m then 1 else 0 :=
    hcount'.trans (Nat.add_le_add_right hcount _)
  have hj : s.2 .target = j := hwritten
  refine ⟨hinv.setParty (sent_prefix_of_sends hsends) ?_ ?_ ?_ ?_ ?_, ?_, hwritten, ?_⟩
  · intro peer
    rw [hsends.taken]
    exact hinv.taken .target peer
  · intro h
    cases h
  · intro h
    cases h
  · intro _
    rw [hj]
    exact hacks.trans hm
  · intro h
    cases h
  · rw [party_set_self, hsends.taken]
    exact hF
  · rw [party_set_self]
    exact hacks

theorem target_fails {m : Token D} (hm : clean 1 m = false) (haj : a ≤ j) :
    c.Does .target (c.At (AtTarget j a)) (do
      let _ ← request (.send .source [m])
      pure (some false)) (c.Served .target .source []) := by
  have hreply := does_reply_target (c := c) (j := j) (a := a) (m := m) (fun _ => True) (by rw [hm]; exact haj)
  refine (hreply.strengthen fun s hs => ⟨hs.1, trivial, hs.2⟩).bind fun _ => ?_
  exact served_of_ne (by decide)

private theorem target_station (c : Pipe D) :
    Station c .target .source [] none 0 (fun j => AtTarget j j) fun j => AtTarget (j + 1) j where
  host := ⟨_, rfl⟩
  reads j := reads_target c j j
  lasting j := lasting_target (j + 1) j
  count _ _ hv := hv.1
  ahead j s hj _ hinv htaken := by
    -- what was read was sent, and the first datanode sends what it has written
    have hle := hinv.taken .target .source
    have hsent := hinv.script.length_le
    exact c.le_of_length_stream hj (htaken.symm.le.trans (hle.trans hsent))
  tick _ v hv := ⟨by rw [written_tick_self, hv.1], hv.2⟩
  fails _ _ hm _ := target_fails hm le_rfl
  answers j hj := by
    rw [forward, pure_bind]
    exact does_reply_target (fun taken => taken .source = (c.stream [] (j + 1)).length) le_rfl

theorem target_writeBlockOp (n : ℕ) :
    c.Does .target (c.At (Took .target .source (raw [0, 28, 80]) (AtTarget 0 0))) (writeBlockOp n .source)
      (c.Served .target .source []) := by
  have hzero : c.stream [] 0 = raw [0, 28, 80] ++ [.writeBlock ⟨c.bid.toUInt64, []⟩] := List.append_nil _
  have hprefix := c.stream_prefix [] (Nat.zero_le c.packets.length)
  refine ((reads_target c 0 0).reader.readMessage (hzero ▸ hprefix) Token.toWriteBlock).bind fun r =>
    .or (.of_and ?_) (.of_and ?_) <;> rintro rfl
  · exact target_fails rfl le_rfl
  · rw [← hzero]
    refine .bind (Q := fun _ => c.At (Took .target .source (c.stream [] 0) (AtTarget 0 0))) ?_ fun _ =>
      (target_station c).receivePackets n (Nat.zero_le _)
    exact does_reply_target (fun taken => taken .source = (c.stream [] 0).length) le_rfl

theorem source_send {l : List (Token D)} (hl : out ++ l <+: c.stream [] i) :
    c.Does .source (c.At (Took .source .namenode pre (AtSource i out))) (request (.send .target l)) fun _ =>
      c.At (Took .source .namenode pre (AtSource i (out ++ l))) := by
  refine does_send ((lasting_source i out).took _ _) (fun _ => (lasting_source i _).took _ _) ?_
  rintro s sent e' hinv ⟨hpre, hwritten, hsending⟩ hsends
  have hsending' := hsends.sending hsending
  have hi : s.2 .source = i := hwritten
  refine ⟨hinv.setParty (sent_prefix_of_sends hsends) ?_ ?_ ?_ ?_ ?_, ?_, hwritten, ?_⟩
  · intro peer
    rw [hsends.taken]
    exact hinv.taken .source peer
  · intro h
    cases h
  · intro _
    rw [hi]
    exact hsending'.1.trans hl
  · intro h
    cases h
  · intro _
    rw [hsends.sent_other (by decide), hsends.taken]
    exact hinv.credit
  · rw [party_set_self, hsends.taken]
    exact hpre
  · rw [party_set_self]
    exact hsending'

/-- The clean acknowledgements that the first datanode has sent. -/
def told (e : Endpoint D) : ℕ := (e.sent .namenode).countP (clean 2)

/-- What the first datanode sends to the client. A clean acknowledgement must have come from the second
datanode, too. -/
theorem source_reply (F : (Role → ℕ) → Prop) {w : ℕ} {m : Token D} (hm : (if clean 2 m then 1 else 0) ≤ w) :
    c.Does .source (c.At fun v => (F (v.party .source).taken ∧ AtSource i out v) ∧
        told (v.party .source) + w ≤ heard .source .target (clean 1) v) (request (.send .namenode [m]))
      fun _ => c.At fun v => F (v.party .source).taken ∧ AtSource i out v := by
  have hlasting : Lasting .source fun v : View D => F (v.party .source).taken ∧ AtSource i out v :=
    (lasting_own (fun e _ => F e.taken) .source).and (lasting_source i out)
  refine does_send (hlasting.and (lasting_heard (fun e => told e + w) _ _ _)) (fun _ => hlasting) ?_
  rintro s sent e' hinv ⟨⟨hF, hwritten, hsending⟩, hcredit⟩ hsends
  have hcount := countP_of_sends hsends (clean 2) .namenode
  rw [List.countP_singleton] at hcount
  refine ⟨hinv.setParty (sent_prefix_of_sends hsends) ?_ ?_ ?_ ?_ ?_, ?_, hwritten, ?_⟩
  · intro peer
    rw [hsends.taken]
    exact hinv.taken .source peer
  · intro h
    cases h
  · intro _
    rw [hsends.sent_other (by decide)]
    exact hinv.script
  · intro h
    cases h
  · intro _
    rw [hsends.taken]
    exact hcount.trans ((Nat.add_le_add_left hm _).trans hcredit)
  · rw [party_set_self, hsends.taken]
    exact hF
  · rw [party_set_self]
    exact sending_of_sends hsends (by decide) hsending

theorem source_fails {m : Token D} (hm : clean 2 m = false) :
    c.Does .source (c.At (AtSource i out)) (do
      let _ ← request (.send .namenode [m])
      pure (some false)) (c.Served .source .namenode [c.dst]) := by
  have hle : (if clean 2 m then 1 else 0) ≤ 0 := by
    rw [hm]
    exact le_rfl
  refine .bind (Q := fun _ => c.At fun v => True ∧ AtSource i out v) ?_ fun _ => served_of_ne (by decide)
  exact (source_reply (fun _ => True) hle).strengthen fun s hs => ⟨hs.1, ⟨trivial, hs.2⟩, hs.1.credit⟩

theorem source_readMessage {α : Type} (parse : Token D → Option α) :
    c.Does .source (c.At (Took .source .namenode pre (AtSource i out))) (readMessage .target parse) fun r s =>
      (r = none ∧ c.At (Took .source .namenode pre (AtSource i out)) s) ∨
      ∃ m : Token D, r = parse m ∧ c.At (fun v => Took .source .namenode pre (AtSource i out) v ∧
        told (v.party .source) + (if clean 1 m then 1 else 0) ≤ heard .source .target (clean 1) v) s := by
  have hkeep : ∀ (v : View D) n, Took .source .namenode pre (AtSource i out) v →
      Took .source .namenode pre (AtSource i out) (v.set .source ((v.party .source).take .target n)) := by
    rintro v n ⟨htaken, hwritten, hsending⟩
    refine ⟨?_, hwritten, ?_⟩ <;> rw [party_set_self]
    · exact htaken
    · exact hsending
  have hread : c.Does .source (c.At fun v => Took .source .namenode pre (AtSource i out) v ∧
      told (v.party .source) ≤ heard .source .target (clean 1) v) (readMessage .target parse) _ :=
    does_readMessage ((lasting_source i out).took .namenode pre) hkeep (by decide) (fun e n => rfl) parse
  refine (hread.strengthen fun s hs => ⟨hs.1, hs.2, hs.1.credit⟩).weaken ?_
  rintro r s (⟨hr, hs⟩ | hs)
  · exact .inl ⟨hr, hs.1, hs.2.1⟩
  · exact .inr hs

/-- The first datanode has passed on a packet, and if `success` is all that came back, the second one has
sent that. -/
def PassedOn (c : Pipe D) (pre : List (Token D)) (i : ℕ) (replies : List OpStatus) (v : View D) : Prop :=
  Took .source .namenode pre (AtSource i (c.stream [] i)) v ∧
    told (v.party .source) + (if replies = [.success] then 1 else 0) ≤ heard .source .target (clean 1) v

omit [DecidableEq D] in
private theorem lasting_passedOn (c : Pipe D) (pre : List (Token D)) (i : ℕ) (replies : List OpStatus) :
    Lasting .source (c.PassedOn pre i replies) :=
  ((lasting_source _ _).took _ _).and
    (lasting_heard (fun e => told e + if replies = [.success] then 1 else 0) _ _ _)

theorem source_forward (hi : i < c.packets.length) :
    c.Does .source (c.At (Took .source .namenode pre (AtSource (i + 1) (c.stream [] i))))
      (forward (some .target) 1 c.packets[i]) fun replies => c.At (c.PassedOn pre (i + 1) replies) := by
  have hsucc := c.stream_succ [] hi
  have hfail : c.Does .source (c.At (Took .source .namenode pre (AtSource (i + 1) (c.stream [] (i + 1)))))
      (pure (List.replicate 1 OpStatus.error)) fun replies => c.At (c.PassedOn pre (i + 1) replies) :=
    .pure (stable_at (lasting_passedOn c _ _ _)) fun s hs => ⟨hs.1, hs.2, hs.1.credit⟩
  have hsend : c.Does .source (c.At (Took .source .namenode pre (AtSource (i + 1) (c.stream [] i))))
      (request (.send .target (packetTokens c.packets[i]))) fun _ =>
        c.At (Took .source .namenode pre (AtSource (i + 1) (c.stream [] (i + 1)))) := by
    rw [hsucc]
    exact source_send (by rw [hsucc])
  refine hsend.bind fun sent => ?_
  cases sent with
  | false => exact hfail
  | true =>
    refine (source_readMessage Token.toAck).bind fun r =>
      .or (.of_and ?_) (.of_exists fun m => .of_and fun hm => ?_)
    · rintro rfl
      exact hfail
    · cases m with
      | ack ack =>
        cases hm
        refine .pure (stable_at (lasting_passedOn c _ _ _)) fun s hs => ⟨hs.1, hs.2.1, ?_⟩
        have hclean : (clean 1 (.ack ack : Token D) = true) = (ack.reply = [.success]) :=
          decide_eq_true_eq
        have hheard := hs.2.2
        simp only [hclean] at hheard
        exact hheard
      | _ =>
        cases hm
        exact hfail.strengthen fun s hs => ⟨hs.1, hs.2.1⟩

theorem source_station (c : Pipe D) : Station c .source .namenode [c.dst] (some .target) 1
    (fun i => AtSource i (c.stream [] i)) fun i => AtSource (i + 1) (c.stream [] i) where
  host := ⟨_, rfl⟩
  reads i := reads_source c i _
  lasting i := lasting_source (i + 1) _
  count _ _ hv := hv.1
  ahead _ _ _ h := by cases h
  tick _ v hv := ⟨by rw [written_tick_self, hv.1], hv.2⟩
  fails _ _ _ hm := source_fails hm
  answers i hi := by
    refine (source_forward hi).bind fun replies => ?_
    refine source_reply (fun taken => taken .namenode = (c.stream [c.dst] (i + 1)).length) ?_
    have hclean : (clean 2 (.ack ⟨c.packets[i].header.seqno, .success :: replies⟩ : Token D) = true) =
        (OpStatus.success :: replies = [.success, .success]) := decide_eq_true_eq
    simp only [hclean, List.cons.injEq, true_and]
    exact le_rfl

omit [DecidableEq D] in
theorem stream_zero (c : Pipe D) (targets : List D) :
    c.stream targets 0 = raw [0, 28, 80] ++ [.writeBlock ⟨c.bid.toUInt64, targets⟩] := List.append_nil _

theorem source_connectToMirror :
    c.Does .source (c.At (Took .source .namenode pre (AtSource 0 [])))
      (connectToMirror c.bid.toUInt64 c.dst []) fun r s =>
        (r = none ∧ c.At (fun v => ∃ out, AtSource 0 out v) s) ∨
        (r = some .target ∧ c.At (Took .source .namenode pre (AtSource 0 (c.stream [] 0))) s) := by
  have hlasting : Lasting .source fun v : View D => ∃ out, AtSource 0 out v := by
    rintro v v' hkeeps ⟨out, hv⟩
    exact ⟨out, lasting_source 0 out v v' hkeeps hv⟩
  have hstable : ∀ r : Option Role, (c.interference .source).Stable fun s =>
      (r = none ∧ c.At (fun v => ∃ out, AtSource 0 out v) s) ∨
      (r = some .target ∧ c.At (Took .source .namenode pre (AtSource 0 (c.stream [] 0))) s) :=
    fun r => ((stable_at hlasting).const_and _).or ((stable_at ((lasting_source _ _).took _ _)).const_and _)
  refine (does_connect ((lasting_source _ _).took _ _) c.dst).bind fun r => .of_and fun hr => ?_
  cases r with
  | none => exact .pure (hstable _) fun s hs => .inl ⟨rfl, hs.1, [], hs.2.2⟩
  | some mirror =>
    cases hr mirror rfl
    have hsend : c.Does .source (c.At (Took .source .namenode pre (AtSource 0 [])))
        (request (.send .target (raw [0, 28, 80] ++ [.writeBlock ⟨c.bid.toUInt64, []⟩]))) fun _ =>
          c.At (Took .source .namenode pre (AtSource 0 (c.stream [] 0))) := by
      rw [c.stream_zero]
      exact source_send (by rw [c.stream_zero]; exact List.prefix_rfl)
    refine hsend.bind fun _ => ?_
    refine (source_readMessage Token.toResponse).bind fun r =>
      .or (.of_and ?_) (.of_exists fun m => .of_and fun hm => ?_)
    · rintro rfl
      exact .pure (hstable _) fun s hs => .inl ⟨rfl, hs.1, _, hs.2.2⟩
    · cases r with
      | none => exact .pure (hstable _) fun s hs => .inl ⟨rfl, hs.1, _, hs.2.1.2⟩
      | some resp =>
        refine .pure (hstable _) fun s hs => ?_
        split_ifs
        · exact .inr ⟨rfl, hs.1, hs.2.1⟩
        · exact .inl ⟨rfl, hs.1, _, hs.2.1.2⟩

theorem source_writeBlockOp (n : ℕ) :
    c.Does .source (c.At (Took .source .namenode (raw [0, 28, 80]) (AtSource 0 [])))
      (writeBlockOp n .namenode) (c.Served .source .namenode [c.dst]) := by
  have hzero := c.stream_zero [c.dst]
  have hprefix := c.stream_prefix [c.dst] (Nat.zero_le c.packets.length)
  refine ((reads_source c 0 []).reader.readMessage (hzero ▸ hprefix) Token.toWriteBlock).bind fun r =>
    .or (.of_and ?_) (.of_and ?_) <;> rintro rfl
  · exact source_fails rfl
  · dsimp only [Token.toWriteBlock]
    rw [← hzero]
    refine source_connectToMirror.bind fun r => .or (.of_and ?_) (.of_and ?_) <;> rintro rfl
    · refine Prog.Assured.strengthen (P := fun s => ∃ out, c.At (AtSource 0 out) s)
        (.of_exists fun out => source_fails rfl) ?_
      rintro s ⟨hinv, out, hs⟩
      exact ⟨out, hinv, hs⟩
    · refine .bind (Q := fun _ => c.At (Took .source .namenode (c.stream [c.dst] 0)
        (AtSource 0 (c.stream [] 0)))) ?_ fun _ =>
        (source_station c).receivePackets n (Nat.zero_le _)
      refine (source_reply (fun taken => taken .namenode = (c.stream [c.dst] 0).length)
        (le_refl 0)).strengthen fun s hs => ⟨hs.1, hs.2, hs.1.credit⟩

/-- What the client knows when it has sent `out` and got `base` clean acknowledgements. -/
def AtClient (out : List (Token D)) (base : ℕ) (v : View D) : Prop :=
  Copy.Sending .source out (v.party .namenode) ∧ base ≤ heard .namenode .source (clean 2) v

omit [DecidableEq D] in
theorem lasting_client (out : List (Token D)) (base : ℕ) : Lasting .namenode (AtClient out base) :=
  (lasting_own (fun e _ => Copy.Sending .source out e) .namenode).and
    (lasting_heard (fun _ => base) .namenode .source (clean 2))

omit [DecidableEq D] in
theorem lasting_acks (base : ℕ) : Lasting .namenode fun v : View D =>
    base ≤ heard .namenode .source (clean 2) v := lasting_heard (fun _ => base) .namenode .source (clean 2)

theorem client_send {l : List (Token D)} {base : ℕ} (hl : out ++ l <+: c.stream [c.dst] c.packets.length) :
    c.Does .namenode (c.At (AtClient out base)) (request (.send .source l)) fun _ =>
      c.At (AtClient (out ++ l) base) := by
  refine does_send (lasting_client out base) (fun _ => lasting_client _ base) ?_
  rintro s sent e' hinv ⟨hsending, hbase⟩ hsends
  have hsending' := hsends.sending hsending
  refine ⟨hinv.setParty (sent_prefix_of_sends hsends) ?_ ?_ ?_ ?_ ?_, ?_, ?_⟩
  · intro peer
    rw [hsends.taken]
    exact hinv.taken .namenode peer
  · intro _
    exact hsending'.1.trans hl
  · intro h
    cases h
  · intro h
    cases h
  · intro h
    cases h
  · rw [party_set_self]
    exact hsending'
  · rw [heard, party_set_self, hsends.taken, party_set_of_ne _ _ (by decide)]
    exact hbase

theorem client_readMessage {α : Type} {base : ℕ} (parse : Token D → Option α) :
    c.Does .namenode (c.At (AtClient out base)) (readMessage .source parse) fun r s =>
      (r = none ∧ c.At (AtClient out base) s) ∨
      ∃ m : Token D, r = parse m ∧ c.At (AtClient out (base + if clean 2 m then 1 else 0)) s := by
  refine does_readMessage (f := fun _ => base)
    (lasting_own (fun e _ => Copy.Sending .source out e) .namenode) (fun v n hv => ?_) (by decide)
    (fun _ _ => rfl) parse
  rw [party_set_self]
  exact hv

/-- The client sends its packets and waits for acknowledgements, in any order. -/
theorem does_exchange (turns : List Turn) {k : ℕ} (base : ℕ) (hk : k ≤ c.packets.length) :
    c.Does .namenode (c.At (AtClient (c.stream [c.dst] k) base))
      (exchange .source turns (c.packets.drop k)) fun acks => c.At fun v =>
        base + acks.countP (fun ack => ack.reply = [.success, .success]) ≤
          heard .namenode .source (clean 2) v := by
  have hnil : ∀ k base, c.Does .namenode (c.At (AtClient (c.stream [c.dst] k) base)) (pure []) fun acks =>
      c.At fun v => base + acks.countP (fun ack : PipelineAck => ack.reply = [.success, .success]) ≤
        heard .namenode .source (clean 2) v :=
    fun k base => .pure (stable_at (lasting_acks _)) fun s hs => ⟨hs.1, hs.2.2⟩
  induction turns generalizing k base with
  | nil => exact hnil k base
  | cons turn turns ih =>
    cases turn with
    | write =>
      rcases hk.lt_or_eq with hlt | rfl
      · have hsucc := c.stream_succ [c.dst] hlt
        rw [List.drop_eq_getElem_cons hlt]
        refine (client_send ?_).bind fun _ => ?_
        · rw [← hsucc]
          exact c.stream_prefix [c.dst] hlt
        · rw [← hsucc]
          exact ih base hlt
      · have hih := ih base hk
        rw [List.drop_length] at hih ⊢
        exact hih
    | await =>
      refine (client_readMessage Token.toAck).bind fun r =>
        .or (.of_and ?_) (.of_exists fun m => .of_and fun hm => ?_)
      · rintro rfl
        exact hnil k base
      · cases m with
        | ack ack =>
          cases hm
          refine (ih _ hk).bind fun acks => .pure (stable_at (lasting_acks _)) fun s hs => ⟨hs.1, ?_⟩
          have hclean : clean 2 (.ack ack : Token D) = decide (ack.reply = [.success, .success]) := rfl
          have hcount := hs.2
          rw [hclean] at hcount
          rw [List.countP_cons]
          omega
        | _ =>
          cases hm
          exact hnil k base

theorem does_client (turns : List Turn) :
    c.Does .namenode (c.At (AtClient [] 0)) (putBlock c.src c.bid.toUInt64 [c.dst] c.packets turns)
      fun acks => c.At fun v => acks.countP (fun ack => ack.reply = [.success, .success]) ≤
        heard .namenode .source (clean 2) v := by
  have hnil : ∀ out base, c.Does .namenode (c.At (AtClient out base)) (pure []) fun acks =>
      c.At fun v => acks.countP (fun ack : PipelineAck => ack.reply = [.success, .success]) ≤
        heard .namenode .source (clean 2) v :=
    fun out base => .pure (stable_at (lasting_acks _)) fun s hs => ⟨hs.1, Nat.zero_le _⟩
  refine (does_connect (lasting_client [] 0) c.src).bind fun r => .of_and fun hr => ?_
  cases r with
  | none => exact hnil [] 0
  | some first =>
    cases hr first rfl
    have hzero := c.stream_zero [c.dst]
    refine (client_send (hzero ▸ c.stream_prefix [c.dst] (Nat.zero_le _))).bind fun _ => ?_
    refine (client_readMessage Token.toResponse).bind fun r =>
      .or (.of_and ?_) (.of_exists fun m => .of_and fun hm => ?_)
    · rintro rfl
      exact hnil _ _
    · cases r with
      | none => exact hnil _ _
      | some resp =>
        dsimp only
        by_cases hstatus : resp.status = .success
        · rw [if_pos hstatus]
          have hexchange := does_exchange (c := c) turns (0 + if clean 2 m then 1 else 0) (Nat.zero_le _)
          rw [hzero, List.drop_zero] at hexchange
          refine hexchange.weaken fun acks s hs => ⟨hs.1, ?_⟩
          exact (Nat.le_add_left _ _).trans hs.2
        · rw [if_neg hstatus]
          exact hnil _ _

omit [DecidableEq D] in
theorem inv_start (store : D → Store) (hdisk : ∀ id, (store id).disk = c.disk id) :
    c.Inv (Net.start store, fun _ => 0) where
  order := List.nil_prefix
  script := List.nil_prefix
  taken _ _ := Nat.zero_le _
  ahead := le_rfl
  count := Nat.zero_le _
  acks := Nat.zero_le _
  credit := Nat.zero_le _
  block t id _ := by
    rw [List.take_zero, laid, List.foldl_nil, ← hdisk id, Net.start]
  others id b _ := congrFun (hdisk id) b

omit [DecidableEq D] in
/-- A client has no more clean acknowledgements than the second datanode has written packets. -/
theorem Inv.heard_le_written {s : State D} (h : c.Inv s) :
    heard .namenode .source (clean 2) (view s) ≤ s.2 .target :=
  calc heard .namenode .source (clean 2) (view s)
      ≤ ((s.1.party .source).sent .namenode).countP (clean 2) := (List.take_sublist _ _).countP_le
    _ ≤ heard .source .target (clean 1) (view s) := h.credit
    _ ≤ ((s.1.party .target).sent .source).countP (clean 1) := (List.take_sublist _ _).countP_le
    _ ≤ s.2 .target := h.acks

theorem withstands_start (store : D → Store) (hdisk : ∀ id, (store id).disk = c.disk id) (n m : ℕ)
    (turns : List Turn) :
    Pool.Withstands (recorded (Net.Serve c.src c.dst) note) c.interference
      (fun t acks s => t = .namenode → c.At (fun v =>
        acks.countP (fun ack : PipelineAck => ack.reply = [.success, .success]) ≤
          heard .namenode .source (clean 2) v) s)
      ⟨(Net.start store, fun _ => 0), pipeline n m c.bid c.src c.dst c.packets turns⟩ := by
  have hinv := inv_start store hdisk
  intro t
  cases t with
  | namenode =>
    refine ((does_client turns).weaken fun acks s hs _ => hs) _ ⟨hinv, ⟨List.nil_prefix, fun _ => rfl⟩, ?_⟩
    exact Nat.zero_le _
  | source =>
    refine (((reads_source c 0 []).worker (source_writeBlockOp n) m).bind fun _ => ?_) _
      ⟨hinv, rfl, rfl, List.nil_prefix, fun _ => rfl⟩
    refine .pure ?_ ?_
    · intro s s' _ _ ht
      cases ht
    · intro s _ ht
      cases ht
  | target =>
    refine (((reads_target c 0 0).worker (target_writeBlockOp n) m).bind fun _ => ?_) _
      ⟨hinv, rfl, rfl, Nat.zero_le _⟩
    refine .pure ?_ ?_
    · intro s s' _ _ ht
      cases ht
    · intro s _ ht
      cases ht

end
end Pipe

/-- Whatever fails and however the threads take turns, each replica has a first part of the packets over what
it had before, the second one no more than the first, and when the client has returned, at least as many as
were acknowledged with success from both. No other block has changed. -/
theorem pipeline_honest {D : Type} [DecidableEq D] {n m : ℕ} {bid : UInt32} {src dst : D} {ps : List Packet}
    {turns : List Turn} (hb : bid.toNat < blockNum) (hne : src ≠ dst) (hsound : ∀ p ∈ ps, p.Sound)
    (hlast : ∀ k (hk : k < ps.length), ps[k].header.lastPacketInBlock = true → k + 1 = ps.length)
    (store : D → Store) {p : Pool (NetCall D) NetReply Role (Net D) (List PipelineAck)}
    (hrun : Relation.ReflTransGen (Pool.Step (Net.Serve src dst))
      ⟨Net.start store, pipeline n m bid src dst ps turns⟩ p) :
    ∃ i j, j ≤ i ∧ i ≤ ps.length ∧
      blockBytes (p.state.store src).disk bid.toNat =
        laid (blockBytes (store src).disk bid.toNat) (ps.take i) ∧
      blockBytes (p.state.store dst).disk bid.toNat =
        laid (blockBytes (store dst).disk bid.toNat) (ps.take j) ∧
      (∀ id b, ¬((id = src ∨ id = dst) ∧ b = bid.toNat) → (p.state.store id).disk b = (store id).disk b) ∧
      ∀ acks, p.prog .namenode = .pure acks →
        acks.countP (fun ack => ack.reply = [.success, .success]) ≤ j := by
  let c : Pipe D := ⟨bid, src, dst, ps, fun id => (store id).disk, hb, hne, hsound, hlast⟩
  obtain ⟨written, hrecorded⟩ := Pool.exists_recorded hrun Pipe.note fun _ => 0
  have hstart := Pipe.withstands_start (c := c) store (fun _ => rfl) n m turns
  have hi : ∀ t u, t ≠ u → ∀ s s', (c.interference t).guar s s' → (c.interference u).rely s s' :=
    fun t u htu s s' hguar => ⟨hguar.1 u (Ne.symm htu), hguar.2⟩
  have hinv : c.Inv (p.state, written) :=
    hstart.invariant hi (fun _ _ _ hguar => hguar.2) hrecorded (Pipe.inv_start store fun _ => rfl)
  refine ⟨written .source, written .target, hinv.ahead, hinv.count, hinv.block .source src rfl,
    hinv.block .target dst rfl, hinv.others, fun acks hdone => ?_⟩
  have hheard := ((hstart.run hi hrecorded).result hdone rfl).2
  exact hheard.trans hinv.heard_le_written

def twoPackets : List Packet :=
  [⟨packetHeader 0 0 false 3, [1, 2, 3]⟩, ⟨packetHeader 2 1 true 2, [9, 9]⟩]

theorem pipeline_honest_two : ∃ p, Relation.ReflTransGen (Pool.Step (Net.Serve false true))
      ⟨Net.start (fun _ => freshStore), pipeline 2 1 7 false true twoPackets (oneByOne twoPackets)⟩ p ∧
    p.prog .namenode = .pure [⟨0, [.success, .success]⟩, ⟨1, [.success, .success]⟩] ∧
    ∀ id, (blockBytes (p.state.store id).disk 7).take 4 = [1, 2, 9, 9] := by
  have hsound : ∀ p ∈ twoPackets, p.Sound := by
    intro p hp
    rcases List.mem_pair.1 hp with rfl | rfl
    · exact ⟨rfl, by decide⟩
    · exact ⟨rfl, by decide⟩
  have hend : ∀ p ∈ twoPackets, p.header.offsetInBlock.toUInt64.toNat + p.data.length ≤ blockSize := by
    decide
  obtain ⟨p, hrun, hdone⟩ := exists_acknowledged (by decide : (7 : UInt32).toNat < blockNum) false true hsound
    hend (by decide) (fun _ => freshStore) 0 0
  have hhonest := pipeline_honest (by decide) (by decide) hsound (by decide) (fun _ => freshStore) hrun
  obtain ⟨i, j, hji, hi, hsrc, hdst, -, hacks⟩ := hhonest
  have hj : 2 ≤ j := hacks _ hdone
  have htaken : ∀ k, 2 ≤ k → twoPackets.take k = twoPackets := fun k hk => List.take_of_length_le hk
  have hblock : ∀ block : Str, 4 ≤ block.length → (laid block twoPackets).take 4 = [1, 2, 9, 9] := by
    intro block hblock
    change (overlay (overlay block 0 [1, 2, 3]) 2 [9, 9]).take 4 = _
    rw [overlay_eq_append (by rw [length_overlay]; exact hblock),
      overlay_eq_append (le_trans (by decide : 0 + 3 ≤ 4) hblock)]
    rfl
  have hlength : 4 ≤ (blockBytes freshStore.disk 7).length := by
    rw [length_blockBytes]
    decide
  refine ⟨p, hrun, hdone, fun id => ?_⟩
  cases id with
  | false =>
    rw [htaken i (hj.trans hji)] at hsrc
    exact (congrArg (List.take 4) hsrc).trans (hblock _ hlength)
  | true =>
    rw [htaken j hj] at hdst
    exact (congrArg (List.take 4) hdst).trans (hblock _ hlength)

end Yfs.Hdfs
