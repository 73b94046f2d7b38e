import Yfs.Hdfs.Streams
import Yfs.Lib.History

/-! A block that is written through a pipeline: a client sends its packets to a datanode, which writes them,
passes them on to a second one and acknowledges them. An invariant ties the acknowledgements to the blocks,
and the calls of the threads have rules under it. -/
namespace Yfs.Hdfs
open Yfs.Lib Yfs.Extent Yfs.Client

/-- What a client does next: it sends a packet or waits for an acknowledgement. -/
inductive Turn where
  | write | await

section
variable {D : Type}

/-- A client whose request was accepted, with the packets that it has left, and the acknowledgements that it
gets. -/
def exchange (first : Role) : List Turn → List Packet → NetM D (List PipelineAck)
  | [], _ => pure []
  | .write :: turns, [] => exchange first turns []
  | .write :: turns, p :: ps => do
    let _ ← request (.send first (packetTokens p))
    exchange first turns ps
  | .await :: turns, ps => do
    match ← readMessage first Token.toAck with
    | none => pure []
    | some ack =>
      let acks ← exchange first turns ps
      pure (ack :: acks)

/-- A client that writes a block through datanode `id` and those behind it. -/
def putBlock (id : D) (blockId : UInt64) (targets : List D) (ps : List Packet) (turns : List Turn) :
    NetM D (List PipelineAck) := do
  match ← request (.connect id) with
  | none => pure []
  | some first =>
    let _ ← request (.send first (raw [0, 28, 80] ++ [.writeBlock ⟨blockId, targets⟩]))
    match ← readMessage first Token.toResponse with
    | none => pure []
    | some resp => if resp.status = .success then exchange first turns ps else pure []

/-- All threads. The client is in the place of the namenode. -/
def pipeline (n m : ℕ) (bid : UInt32) (src dst : D) (ps : List Packet) (turns : List Turn) :
    Role → NetM D (List PipelineAck)
  | .namenode => putBlock src bid.toUInt64 [dst] ps turns
  | .source => do
    worker n .namenode m
    pure []
  | .target => do
    worker n .source m
    pure []

end

/-- The header has the length of the data, and the range of the packet does not wrap around. -/
structure Packet.Sound (p : Packet) : Prop where
  length : p.header.dataLen.toInt = p.data.length
  range : p.header.offsetInBlock.toUInt64.toNat + p.data.length < 2 ^ 64

def laid (block : Str) (ps : List Packet) : Str :=
  ps.foldl (fun block p => overlay block p.header.offsetInBlock.toUInt64.toNat p.data) block

@[simp] theorem length_laid (block : Str) (ps : List Packet) : (laid block ps).length = block.length := by
  induction ps generalizing block with
  | nil => rfl
  | cons p ps ih =>
    rw [laid, List.foldl_cons, ← laid, ih, length_overlay]

theorem laid_take_succ {block : Str} {ps : List Packet} {k : ℕ} (hk : k < ps.length)
    (hsound : ps[k].Sound) (hend : ¬block.length <
      (ps[k].header.offsetInBlock.toUInt64 + .ofNat ps[k].data.length).toNat) :
    spliced (laid block (ps.take k)) ps[k].header.offsetInBlock.toUInt64 (.ofNat ps[k].data.length)
      ps[k].data = laid block (ps.take (k + 1)) := by
  have hrange := hsound.range
  have hsum : (ps[k].header.offsetInBlock.toUInt64 + .ofNat ps[k].data.length).toNat =
      ps[k].header.offsetInBlock.toUInt64.toNat + ps[k].data.length := by
    rw [UInt64.toNat_add, UInt64.toNat_ofNat']
    omega
  rw [hsum] at hend
  rw [List.take_add_one, List.getElem?_eq_getElem hk, Option.toList_some, laid, laid, List.foldl_append,
    ← laid, List.foldl_cons, List.foldl_nil, overlay_eq_append (by rw [length_laid]; omega), spliced, hsum]

/-- An acknowledgement of `k` datanodes that all have written the packet. -/
def clean {D : Type} (k : ℕ) : Token D → Bool
  | .ack m => m.reply = List.replicate k .success
  | _ => false

/-- A block that goes through a pipeline of two datanodes, and the disks before that. Only the last packet
may say that it is the last. -/
structure Pipe (D : Type) where
  bid : UInt32
  src : D
  dst : D
  packets : List Packet
  disk : D → Disk
  valid : bid.toNat < blockNum
  ne : src ≠ dst
  sound : ∀ p ∈ packets, p.Sound
  last : ∀ k (hk : k < packets.length), packets[k].header.lastPacketInBlock = true → k + 1 = packets.length

namespace Pipe
variable {D : Type} (c : Pipe D)

/-- What a pipeline shows of its state: the ends of the streams, and how many packets each datanode has
written. The second part is not in the code. -/
structure View (D : Type) where
  party : Role → Endpoint D
  written : Role → ℕ

def note (t : Role) (call : NetCall D) (written : Role → ℕ) : Role → ℕ :=
  match call with
  | .extent (.writeBlock _ _) => Function.update written t (written t + 1)
  | _ => written

abbrev State (D : Type) := Net D × (Role → ℕ)

def view (s : State D) : View D := ⟨s.1.party, s.2⟩

/-- The request and the first `k` packets, as they are sent. -/
def stream (targets : List D) (k : ℕ) : List (Token D) :=
  raw [0, 28, 80] ++ [.writeBlock ⟨c.bid.toUInt64, targets⟩] ++ (c.packets.take k).flatMap packetTokens

/-- How many good messages a thread has taken out of a stream. -/
def heard (t peer : Role) (good : Token D → Bool) (v : View D) : ℕ :=
  (((v.party peer).sent t).take ((v.party t).taken peer)).countP good

/-- The streams are what they should be; each datanode has laid its packets over its block, the second one no
more than the first; and there are no more clean acknowledgements than packets that were written. -/
structure Inv (s : State D) : Prop where
  order : (s.1.party .namenode).sent .source <+: c.stream [c.dst] c.packets.length
  script : (s.1.party .source).sent .target <+: c.stream [] (s.2 .source)
  taken : ∀ t peer, (s.1.party t).taken peer ≤ ((s.1.party peer).sent t).length
  ahead : s.2 .target ≤ s.2 .source
  count : s.2 .source ≤ c.packets.length
  acks : ((s.1.party .target).sent .source).countP (clean 1) ≤ s.2 .target
  credit : ((s.1.party .source).sent .namenode).countP (clean 2) ≤ heard .source .target (clean 1) (view s)
  block : ∀ t id, Net.host c.src c.dst t = some id → blockBytes (s.1.store id).disk c.bid.toNat =
    laid (blockBytes (c.disk id) c.bid.toNat) (c.packets.take (s.2 t))
  others : ∀ id b, ¬((id = c.src ∨ id = c.dst) ∧ b = c.bid.toNat) → (s.1.store id).disk b = c.disk id b

/-- What the other threads leave to thread `t`: its own ends and its count. Streams and counts grow. -/
structure Keeps (t : Role) (v v' : View D) : Prop where
  own : v'.party t = v.party t
  count : v'.written t = v.written t
  mono : ∀ u, v.written u ≤ v'.written u
  grow : ∀ u peer, (v.party u).sent peer <+: (v'.party u).sent peer

theorem Keeps.refl (t : Role) (v : View D) : Keeps t v v :=
  ⟨rfl, rfl, fun _ => le_rfl, fun _ _ => List.prefix_rfl⟩

theorem Keeps.trans {t : Role} {v v₁ v₂ : View D} (h : Keeps t v v₁) (h' : Keeps t v₁ v₂) : Keeps t v v₂ :=
  ⟨h'.own.trans h.own, h'.count.trans h.count, fun u => (h.mono u).trans (h'.mono u),
    fun u peer => (h.grow u peer).trans (h'.grow u peer)⟩

def interference (t : Role) : Interference (State D) where
  rely s s' := Keeps t (view s) (view s') ∧ (c.Inv s → c.Inv s')
  guar s s' := (∀ u, u ≠ t → Keeps u (view s) (view s')) ∧ (c.Inv s → c.Inv s')
  refl s := ⟨Keeps.refl t (view s), id⟩
  trans _ _ _ h h' := ⟨h.1.trans h'.1, h'.2 ∘ h.2⟩

/-- The invariant, and something that a thread knows besides. -/
def At (G : View D → Prop) (s : State D) : Prop := c.Inv s ∧ G (view s)

/-- What the others do does not make `G` false. -/
def Lasting (t : Role) (G : View D → Prop) : Prop := ∀ v v', Keeps t v v' → G v → G v'

def Took (t peer : Role) (pre : List (Token D)) (G : View D → Prop) (v : View D) : Prop :=
  (v.party t).taken peer = pre.length ∧ G v

def View.set (v : View D) (t : Role) (e : Endpoint D) : View D := ⟨Function.update v.party t e, v.written⟩

def View.tick (v : View D) (t : Role) : View D :=
  ⟨v.party, Function.update v.written t (v.written t + 1)⟩

section
variable {c} {s s' : State D} {v : View D} {t u peer : Role} {e : Endpoint D} {G G' : View D → Prop}
  {good : Token D → Bool}

theorem stable_at (h : Lasting t G) : (c.interference t).Stable (c.At G) :=
  fun s s' hrely hs => ⟨hrely.2 hs.1, h (view s) (view s') hrely.1 hs.2⟩

theorem Lasting.and (h : Lasting t G) (h' : Lasting t G') : Lasting t fun v => G v ∧ G' v :=
  fun v v' hkeeps hv => ⟨h v v' hkeeps hv.1, h' v v' hkeeps hv.2⟩

theorem lasting_own (F : Endpoint D → ℕ → Prop) (t : Role) :
    Lasting t fun v => F (v.party t) (v.written t) := by
  intro v v' hkeeps hv
  rw [hkeeps.own, hkeeps.count]
  exact hv

theorem Lasting.took (h : Lasting t G) (peer : Role) (pre : List (Token D)) :
    Lasting t (Took t peer pre G) :=
  Lasting.and (lasting_own (fun e _ => e.taken peer = pre.length) t) h

theorem heard_le (h : Keeps t v v') : heard t peer good v ≤ heard t peer good v' := by
  unfold heard
  rw [h.own]
  exact ((h.grow peer t).take _).sublist.countP_le

theorem lasting_heard (f : Endpoint D → ℕ) (t peer : Role) (good : Token D → Bool) :
    Lasting t fun v => f (v.party t) ≤ heard t peer good v := by
  intro v v' hkeeps hv
  refine le_trans ?_ (heard_le hkeeps)
  rw [hkeeps.own]
  exact hv

@[simp] theorem party_set_self (v : View D) (t : Role) (e : Endpoint D) : (v.set t e).party t = e :=
  Function.update_self _ _ _

theorem party_set_of_ne (v : View D) (e : Endpoint D) (hu : u ≠ t) : (v.set t e).party u = v.party u :=
  Function.update_of_ne hu _ _

@[simp] theorem written_tick_self (v : View D) (t : Role) : (v.tick t).written t = v.written t + 1 :=
  Function.update_self _ _ _

private theorem written_tick_of_ne (v : View D) (hu : u ≠ t) : (v.tick t).written u = v.written u :=
  Function.update_of_ne hu _ _

theorem keeps_set (hgrow : ∀ peer, (v.party t).sent peer <+: e.sent peer) (hu : u ≠ t) :
    Keeps u v (v.set t e) := by
  refine ⟨party_set_of_ne v e hu, rfl, fun _ => le_rfl, fun w peer => ?_⟩
  by_cases hw : w = t
  · subst hw
    rw [party_set_self]
    exact hgrow peer
  · rw [party_set_of_ne v e hw]

theorem keeps_tick (v : View D) (hu : u ≠ t) : Keeps u v (v.tick t) := by
  refine ⟨rfl, written_tick_of_ne v hu, fun w => ?_, fun _ _ => List.prefix_rfl⟩
  by_cases hw : w = t
  · subst hw
    rw [written_tick_self]
    exact Nat.le_succ _
  · rw [written_tick_of_ne v hw]

theorem Inv.setParty (h : c.Inv s) (hgrow : ∀ peer, (s.1.party t).sent peer <+: e.sent peer)
    (htaken : ∀ peer, e.taken peer ≤ ((s.1.party peer).sent t).length)
    (horder : t = .namenode → e.sent .source <+: c.stream [c.dst] c.packets.length)
    (hscript : t = .source → e.sent .target <+: c.stream [] (s.2 .source))
    (hacks : t = .target → (e.sent .source).countP (clean 1) ≤ s.2 .target)
    (hcredit : t = .source → (e.sent .namenode).countP (clean 2) ≤
      (((s.1.party .target).sent .source).take (e.taken .target)).countP (clean 1)) :
    c.Inv (s.1.setParty t e, s.2) := by
  have hself : (s.1.setParty t e).party t = e := Net.party_setParty_self _ _ _
  have hother : ∀ {u}, u ≠ t → (s.1.setParty t e).party u = s.1.party u :=
    fun hu => Net.party_setParty_of_ne hu _ _
  have hsent : ∀ u peer, (s.1.party u).sent peer <+: ((s.1.setParty t e).party u).sent peer := by
    intro u peer
    by_cases hu : u = t
    · rw [hu, hself]
      exact hgrow peer
    · rw [hother hu]
  constructor
  · by_cases ht : Role.namenode = t
    · rw [ht, hself]
      exact horder ht.symm
    · rw [hother ht]
      exact h.order
  · by_cases ht : Role.source = t
    · rw [← ht] at hself ⊢
      rw [hself]
      exact hscript ht.symm
    · rw [hother ht]
      exact h.script
  · intro u peer
    refine le_trans ?_ (hsent peer u).length_le
    by_cases hu : u = t
    · subst hu
      rw [hself]
      exact htaken peer
    · rw [hother hu]
      exact h.taken u peer
  · exact h.ahead
  · exact h.count
  · by_cases ht : Role.target = t
    · rw [← ht] at hself ⊢
      rw [hself]
      exact hacks ht.symm
    · rw [hother ht]
      exact h.acks
  · by_cases ht : Role.source = t
    · subst ht
      have hne : Role.target ≠ .source := by decide
      change ((((view s).set .source e).party .source).sent .namenode).countP (clean 2) ≤
        (((((view s).set .source e).party .target).sent .source).take
          ((((view s).set .source e).party .source).taken .target)).countP (clean 1)
      rw [party_set_self, party_set_of_ne _ _ hne]
      exact hcredit rfl
    · dsimp only
      rw [hother ht]
      exact h.credit.trans (heard_le (keeps_set hgrow ht))
  · exact h.block
  · exact h.others

theorem sent_prefix_of_sends {l : List (Token D)} {sent : Bool} {e' : Endpoint D}
    (h : Copy.Sends peer l e sent e') (other : Role) : e.sent other <+: e'.sent other := by
  by_cases hother : other = peer
  · subst hother
    rcases h with ⟨-, -, rfl⟩ | ⟨-, -, k, rfl⟩ | ⟨-, -, rfl⟩
    · rw [Endpoint.sent_write_self]
      exact List.prefix_append _ _
    · rw [Endpoint.sent_fail, Endpoint.sent_write_self]
      exact List.prefix_append _ _
    · exact List.prefix_rfl
  · rw [h.sent_other hother]

theorem Inv.take (h : c.Inv s) {n : ℕ}
    (hthere : (s.1.party t).taken peer + n ≤ ((s.1.party peer).sent t).length) :
    c.Inv (s.1.setParty t ((s.1.party t).take peer n), s.2) := by
  have hle : ∀ q, (s.1.party t).taken q ≤ ((s.1.party t).take peer n).taken q := by
    intro q
    by_cases hq : q = peer
    · rw [hq, Endpoint.taken_take_self]
      exact Nat.le_add_right _ _
    · exact (Function.update_of_ne hq _ _).ge
  refine h.setParty (fun _ => List.prefix_rfl) (fun q => ?_) ?_ ?_ ?_ ?_
  · by_cases hq : q = peer
    · rw [hq, Endpoint.taken_take_self]
      exact hthere
    · exact (Function.update_of_ne hq _ _).le.trans (h.taken t q)
  · rintro rfl
    exact h.order
  · rintro rfl
    exact h.script
  · rintro rfl
    exact h.acks
  · rintro rfl
    exact h.credit.trans (List.take_prefix_take_left (hle .target)).sublist.countP_le

end

section
variable [DecidableEq D] {c} {s s' : State D} {v : View D} {t peer : Role} {e : Endpoint D}
  {G : View D → Prop}

abbrev Does {α : Type} (c : Pipe D) (t : Role) (P : State D → Prop) (p : NetM D α)
    (Q : α → State D → Prop) : Prop :=
  p.Assured (recorded (Net.Serve c.src c.dst) note t) (c.interference t) P Q

theorem does_send {l : List (Token D)} {H : Bool → View D → Prop} (hG : Lasting t G)
    (hH : ∀ sent, Lasting t (H sent))
    (h : ∀ s sent e', c.Inv s → G (view s) → Copy.Sends peer l (s.1.party t) sent e' →
      c.Inv (s.1.setParty t e', s.2) ∧ H sent ((view s).set t e')) :
    c.Does t (c.At G) (request (.send peer l)) fun sent => c.At (H sent) := by
  refine Prog.Assured.perform (stable_at hG) (fun sent => stable_at (hH sent)) ?_
  rintro s sent ⟨net, written⟩ ⟨hinv, hs⟩ ⟨hserve, hnote⟩
  dsimp only at hserve hnote
  obtain ⟨e', hsends, rfl⟩ := Copy.sends_of_serve (c := ⟨c.bid, c.src, c.dst, c.disk, c.valid⟩) hserve
  obtain ⟨hinv', hs'⟩ := h s sent e' hinv hs hsends
  subst hnote
  exact ⟨⟨fun u hu => keeps_set (sent_prefix_of_sends hsends) hu, fun _ => hinv'⟩, hinv', hs'⟩

theorem does_connect (hG : Lasting t G) (id : D) : c.Does t (c.At G) (request (.connect id)) fun r s =>
    (∀ peer, r = some peer → t.next = some peer) ∧ c.At G s := by
  refine Prog.Assured.perform (stable_at hG) (fun r => (stable_at hG).const_and _) ?_
  rintro s r ⟨net, written⟩ hs ⟨hserve, hnote⟩
  dsimp only at hserve hnote
  subst hnote
  cases hserve with
  | connect hnext hhost =>
    refine ⟨⟨fun u _ => Keeps.refl u _, fun h => h⟩, fun peer hpeer => ?_, hs⟩
    cases hpeer
    exact hnext
  | unreachable =>
    refine ⟨⟨fun u _ => Keeps.refl u _, fun h => h⟩, fun peer hpeer => ?_, hs⟩
    cases hpeer

theorem does_recv {n : ℕ} {H : Option (List (Token D)) → View D → Prop} (hG : Lasting t G)
    (hH : ∀ r, Lasting t (H r)) (hnone : ∀ v, G v → H none v)
    (h : ∀ s, c.Inv s → G (view s) → (s.1.party t).taken peer + n ≤ ((s.1.party peer).sent t).length →
      H (some ((((s.1.party peer).sent t).drop ((s.1.party t).taken peer)).take n))
        ((view s).set t ((s.1.party t).take peer n))) :
    c.Does t (c.At G) (request (.recv peer n)) fun r => c.At (H r) := by
  refine Prog.Assured.perform (stable_at hG) (fun r => stable_at (hH r)) ?_
  rintro s r ⟨net, written⟩ ⟨hinv, hs⟩ ⟨hserve, hnote⟩
  dsimp only at hserve hnote
  subst hnote
  cases hserve with
  | recv hthere =>
    have hinv' := hinv.take hthere
    refine ⟨⟨fun u hu => keeps_set (fun _ => List.prefix_rfl) hu, fun _ => hinv'⟩, hinv', ?_⟩
    exact h s hinv hs hthere
  | closed => exact ⟨⟨fun u _ => Keeps.refl u _, fun h => h⟩, hinv, hnone _ hs⟩

/-- A stream that is a part of `K`, and what its reader knows besides. -/
structure Reads (c : Pipe D) (t peer : Role) (K : List (Token D)) (G : View D → Prop) : Prop where
  stream : ∀ s, c.Inv s → (s.1.party peer).sent t <+: K
  lasting : Lasting t G
  keep : ∀ v n, G v → G (v.set t ((v.party t).take peer n))

theorem Reads.reader {K : List (Token D)} (h : Reads c t peer K G) :
    StreamReader (recorded (Net.Serve c.src c.dst) note t) (c.interference t) peer K
      (fun pre => c.At (Took t peer pre G)) (c.At G) where
  stable _ := stable_at (h.lasting.took peer _)
  stable_lost := stable_at h.lasting
  stop _ s hs := ⟨hs.1, hs.2.2⟩
  recv pre A n hA hn := by
    refine (does_recv (h.lasting.took peer pre) (H := fun r v => (r = none ∧ G v) ∨
      (r = some A ∧ Took t peer (pre ++ A) G v)) ?_ ?_ ?_).weaken ?_
    · rintro r v v' hkeeps (⟨hr, hv⟩ | ⟨hr, hv⟩)
      · exact .inl ⟨hr, h.lasting v v' hkeeps hv⟩
      · exact .inr ⟨hr, h.lasting.took peer _ v v' hkeeps hv⟩
    · exact fun v hv => .inl ⟨rfl, hv.2⟩
    · rintro s hinv ⟨htaken, hs⟩ hthere
      change (s.1.party t).taken peer = pre.length at htaken
      rw [htaken, hn, ← List.length_append] at hthere
      obtain ⟨rest, hrest⟩ := List.prefix_of_prefix_length_le hA (h.stream s hinv) hthere
      refine .inr ⟨?_, ?_, h.keep _ n hs⟩
      · rw [← hrest, htaken, hn, List.append_assoc, List.drop_left, List.take_left]
      · rw [party_set_self, Endpoint.taken_take_self, htaken, List.length_append, hn]
    · rintro r s ⟨hinv, ⟨hr, hs⟩ | ⟨hr, hs⟩⟩
      · exact .inl ⟨hr, hinv, hs⟩
      · exact .inr ⟨hr, hinv, hs⟩
  recv_end n hn := by
    refine (does_recv (h.lasting.took peer K) (H := fun r v => r = none ∧ G v) ?_ ?_ ?_).weaken ?_
    · rintro r v v' hkeeps ⟨hr, hv⟩
      exact ⟨hr, h.lasting v v' hkeeps hv⟩
    · exact fun v hv => ⟨rfl, hv.2⟩
    · rintro s hinv ⟨htaken, -⟩ hthere
      have hle := (h.stream s hinv).length_le
      change (s.1.party t).taken peer = K.length at htaken
      omega
    · rintro r s ⟨hinv, hr, hs⟩
      exact ⟨hr, hinv, hs⟩

theorem does_readMessage {α : Type} {f : Endpoint D → ℕ} {good : Token D → Bool} (hG : Lasting t G)
    (hkeep : ∀ v n, G v → G (v.set t ((v.party t).take peer n))) (hne : peer ≠ t)
    (hf : ∀ e n, f (e.take peer n) = f e) (parse : Token D → Option α) :
    c.Does t (c.At fun v => G v ∧ f (v.party t) ≤ heard t peer good v) (readMessage peer parse) fun r s =>
      (r = none ∧ c.At (fun v => G v ∧ f (v.party t) ≤ heard t peer good v) s) ∨
      ∃ m, r = parse m ∧
        c.At (fun v => G v ∧ f (v.party t) + (if good m then 1 else 0) ≤ heard t peer good v) s := by
  have hlasting : ∀ k, Lasting t fun v => G v ∧ f (v.party t) + k ≤ heard t peer good v :=
    fun k => hG.and (lasting_heard (fun e => f e + k) t peer good)
  have hstable : ∀ r : Option α, (c.interference t).Stable fun s =>
      (r = none ∧ c.At (fun v => G v ∧ f (v.party t) ≤ heard t peer good v) s) ∨
      ∃ m, r = parse m ∧
        c.At (fun v => G v ∧ f (v.party t) + (if good m then 1 else 0) ≤ heard t peer good v) s := by
    intro r
    refine ((stable_at (hlasting 0)).const_and _).or ?_
    rintro s s' hrely ⟨m, hm, hs⟩
    exact ⟨m, hm, stable_at (hlasting _) s s' hrely hs⟩
  have hrecv : c.Does t (c.At fun v => G v ∧ f (v.party t) ≤ heard t peer good v) (request (.recv peer 1))
      fun r => c.At fun v => (r = none ∧ G v ∧ f (v.party t) ≤ heard t peer good v) ∨
        ∃ m, r = some [m] ∧ G v ∧ f (v.party t) + (if good m then 1 else 0) ≤ heard t peer good v := by
    refine does_recv (hlasting 0) ?_ (fun v hv => .inl ⟨rfl, hv⟩) ?_
    · rintro r v v' hkeeps (⟨hr, hv⟩ | ⟨m, hr, hv⟩)
      · exact .inl ⟨hr, hlasting 0 v v' hkeeps hv⟩
      · exact .inr ⟨m, hr, hlasting _ v v' hkeeps hv⟩
    · rintro s hinv ⟨hs, hheard⟩ hthere
      have hlt : (s.1.party t).taken peer < ((s.1.party peer).sent t).length := by omega
      refine .inr ⟨((s.1.party peer).sent t)[(s.1.party t).taken peer], ?_, hkeep _ 1 hs, ?_⟩
      · rw [List.drop_eq_getElem_cons hlt, List.take_succ_cons, List.take_zero]
      · -- what was taken is now longer by this message
        rw [heard, party_set_self, party_set_of_ne _ _ hne, hf, Endpoint.taken_take_self, List.take_add_one]
        change _ ≤ List.countP good (_ ++ (((s.1.party peer).sent t)[(s.1.party t).taken peer]?).toList)
        rw [List.getElem?_eq_getElem hlt, Option.toList_some, List.countP_append, List.countP_singleton]
        exact Nat.add_le_add_right hheard _
  refine hrecv.bind fun r => ?_
  intro s hs
  obtain ⟨hinv, ⟨rfl, hs⟩ | ⟨m, rfl, hs⟩⟩ := hs
  · exact (Prog.Assured.pure (hstable none) fun s hs => .inl ⟨rfl, hs⟩) s ⟨hinv, hs⟩
  · exact (Prog.Assured.pure (hstable (parse m)) fun s hs => .inr ⟨m, rfl, hs⟩) s
      (show c.At (fun v => G v ∧ f (v.party t) + (if good m then 1 else 0) ≤ heard t peer good v) s from
        ⟨hinv, hs⟩)

omit [DecidableEq D] in
theorem Inv.congr_store (h : c.Inv s) {store : D → Store}
    (hdisk : ∀ id, (store id).disk = (s.1.store id).disk) : c.Inv (⟨store, s.1.party⟩, s.2) := by
  refine ⟨h.order, h.script, h.taken, h.ahead, h.count, h.acks, h.credit, fun t id hhost => ?_,
    fun id b hb => ?_⟩
  · rw [hdisk, h.block t id hhost]
  · rw [hdisk, h.others id b hb]

omit [DecidableEq D] in
theorem host_inj {u : Role} {id : D} (ht : Net.host c.src c.dst t = some id)
    (hu : Net.host c.src c.dst u = some id) : u = t := by
  have hid := ht.trans hu.symm
  cases t with
  | namenode => cases ht
  | source =>
    cases u with
    | namenode => cases hu
    | source => rfl
    | target => exact absurd (Option.some.inj hid) c.ne
  | target =>
    cases u with
    | namenode => cases hu
    | source => exact absurd (Option.some.inj hid).symm c.ne
    | target => rfl

omit [DecidableEq D] in
theorem stream_prefix (c : Pipe D) (targets : List D) {k k' : ℕ} (h : k ≤ k') :
    c.stream targets k <+: c.stream targets k' := by
  rw [stream, stream, List.prefix_append_right_inj]
  obtain ⟨rest, hrest⟩ := List.take_prefix_take_left h (l := c.packets)
  rw [← hrest, List.flatMap_append]
  exact List.prefix_append _ _

theorem does_extent_readBlock {id : D} {k : ℕ} (hG : Lasting t G)
    (hhost : Net.host c.src c.dst t = some id) (hcount : ∀ v, G v → v.written t = k) :
    c.Does t (c.At G) (request (.extent (.readBlock c.bid))) fun r s =>
      r.2 = laid (blockBytes (c.disk id) c.bid.toNat) (c.packets.take k) ∧ c.At G s := by
  refine Prog.Assured.perform (stable_at hG) (fun r => (stable_at hG).const_and _) ?_
  rintro s r ⟨net, written⟩ ⟨hinv, hs⟩ ⟨hserve, hnote⟩
  dsimp only at hserve hnote
  subst hnote
  cases hserve with
  | @extent _ _ id' _ store' hhost' hrun =>
    obtain rfl : id' = id := Option.some.inj (hhost'.symm.trans hhost)
    have hread := run_perform_readBlock (s.1.store id') c.valid
    rw [Prog.run_perform, hrun, Option.some.injEq, Prod.mk.injEq] at hread
    obtain ⟨hr, rfl⟩ := hread
    have hdisk : ∀ id, (Function.update s.1.store id' ((s.1.store id').next (s.1.store id').disk) id).disk =
        (s.1.store id).disk := by
      intro id
      by_cases hid : id = id'
      · rw [hid, Function.update_self, Store.disk_next]
      · rw [Function.update_of_ne hid]
    have hinv' := hinv.congr_store hdisk
    refine ⟨⟨fun u _ => Keeps.refl u _, fun _ => hinv'⟩, ?_, hinv', hs⟩
    rw [hr, hinv.block t id' hhost, ← hcount (view s) hs]
    rfl

theorem Inv.write (h : c.Inv s) {id : D} {store' : Store} {d : Disk}
    (hhost : Net.host c.src c.dst t = some id) (hk : s.2 t < c.packets.length)
    (hahead : t = .target → s.2 .target < s.2 .source) (hdisk : store'.disk = d)
    (hblock : blockBytes d c.bid.toNat =
      laid (blockBytes (c.disk id) c.bid.toNat) (c.packets.take (s.2 t + 1)))
    (hothers : ∀ b, b ≠ c.bid.toNat → d b = (s.1.store id).disk b) :
    c.Inv (s.1.setStore id store', Function.update s.2 t (s.2 t + 1)) := by
  have hid : id = c.src ∨ id = c.dst := by
    cases t with
    | namenode => cases hhost
    | source => exact .inl (Option.some.inj hhost).symm
    | target => exact .inr (Option.some.inj hhost).symm
  have hcounts : s.2 .target ≤ Function.update s.2 t (s.2 t + 1) .target ∧
      s.2 .source ≤ Function.update s.2 t (s.2 t + 1) .source ∧
      Function.update s.2 t (s.2 t + 1) .target ≤ Function.update s.2 t (s.2 t + 1) .source ∧
      Function.update s.2 t (s.2 t + 1) .source ≤ c.packets.length := by
    have hle := h.ahead
    have hlen := h.count
    cases t with
    | namenode => cases hhost
    | source =>
      have hne : Role.target ≠ .source := by decide
      rw [Function.update_self, Function.update_of_ne hne]
      omega
    | target =>
      have hne : Role.source ≠ .target := by decide
      have hlt := hahead rfl
      rw [Function.update_self, Function.update_of_ne hne]
      omega
  obtain ⟨htarget, hsource, hle, hlen⟩ := hcounts
  refine ⟨h.order, h.script.trans (c.stream_prefix [] hsource), h.taken, hle, hlen, h.acks.trans htarget,
    h.credit, ?_, ?_⟩
  · intro u id' hhost'
    dsimp only
    by_cases hu : u = t
    · subst hu
      obtain rfl : id = id' := Option.some.inj (hhost.symm.trans hhost')
      rw [Net.store_setStore_self, hdisk, Function.update_self]
      exact hblock
    · have hne : id' ≠ id := by
        rintro rfl
        exact hu (host_inj hhost hhost')
      rw [Net.store_setStore_of_ne hne, Function.update_of_ne hu]
      exact h.block u id' hhost'
  · intro id' b hb
    dsimp only
    by_cases heq : id' = id
    · subst heq
      rw [Net.store_setStore_self, hdisk, hothers b fun hbid => hb ⟨hid, hbid⟩]
      exact h.others _ b hb
    · rw [Net.store_setStore_of_ne heq]
      exact h.others id' b hb

theorem does_extent_writeBlock {id : D} {k : ℕ} {H : View D → Prop} (hG : Lasting t G) (hH : Lasting t H)
    (hhost : Net.host c.src c.dst t = some id) (hk : k < c.packets.length)
    (hcount : ∀ v, G v → v.written t = k)
    (hahead : t = .target → ∀ s, c.Inv s → G (view s) → k < s.2 .source)
    (htick : ∀ v, G v → H (v.tick t)) :
    c.Does t (c.At G) (request (.extent (.writeBlock c.bid
      (laid (blockBytes (c.disk id) c.bid.toNat) (c.packets.take (k + 1)))))) fun _ => c.At H := by
  refine Prog.Assured.perform (stable_at hG) (fun _ => stable_at hH) ?_
  rintro s r ⟨net, written⟩ ⟨hinv, hs⟩ ⟨hserve, hnote⟩
  dsimp only at hserve hnote
  subst hnote
  have hwritten : s.2 t = k := hcount (view s) hs
  cases hserve with
  | @extent _ _ id' _ store' hhost' hrun =>
    obtain rfl : id' = id := Option.some.inj (hhost'.symm.trans hhost)
    have hlen : (laid (blockBytes (c.disk id') c.bid.toNat) (c.packets.take (k + 1))).length = blockSize := by
      rw [length_laid, length_blockBytes]
    have hwrite := run_perform_writeBlock (s.1.store id') c.bid hlen
    rw [Prog.run_perform, hrun, Option.some.injEq, Prod.mk.injEq] at hwrite
    obtain ⟨-, hstore⟩ := hwrite
    have hdisk := congrArg Store.disk hstore
    rw [Store.disk_next] at hdisk
    have hblock := blockBytes_writeBlock (d := (s.1.store id').disk) c.valid hlen (s.1.store id').now.tail
    rw [← hwritten] at hblock hdisk
    have hlt : t = .target → s.2 .target < s.2 .source := by
      rintro rfl
      rw [hwritten]
      exact hahead rfl s hinv hs
    have hinv' := hinv.write hhost (hwritten ▸ hk) hlt hdisk hblock fun b hne => Disk.writeBlock_of_ne hne
    exact ⟨⟨fun u hu => keeps_tick (view s) hu, fun _ => hinv'⟩, hinv', htick (view s) hs⟩

/-- `WriteBlock` of the next packet, which may lie outside of the block. -/
theorem does_writeBlock {id : D} {k : ℕ} {H : View D → Prop} (hG : Lasting t G) (hH : Lasting t H)
    (hhost : Net.host c.src c.dst t = some id) (hk : k < c.packets.length)
    (hcount : ∀ v, G v → v.written t = k)
    (hahead : t = .target → ∀ s, c.Inv s → G (view s) → k < s.2 .source)
    (htick : ∀ v, G v → H (v.tick t)) :
    c.Does t (c.At G) (onExtent (DataNode.writeBlock c.bid c.packets[k].header.offsetInBlock.toUInt64
      (.ofNat c.packets[k].data.length) c.packets[k].data)) fun r s =>
        (r = none ∧ c.At G s) ∨ (r = some true ∧ c.At H s) := by
  have hstable : ∀ r : Option Bool, (c.interference t).Stable fun s =>
      (r = none ∧ c.At G s) ∨ (r = some true ∧ c.At H s) :=
    fun r => ((stable_at hG).const_and _).or ((stable_at hH).const_and _)
  rw [DataNode.writeBlock, onExtent, Prog.lift_bind]
  refine (does_extent_readBlock hG hhost hcount).bind fun _ => .of_and fun _ => ?_
  rw [Prog.lift_bind]
  refine (does_extent_readBlock hG hhost hcount).bind fun r => .of_and fun hr => ?_
  dsimp only
  rw [hr, length_laid]
  split_ifs with hend
  · exact .pure (hstable _) fun s hs => .inl ⟨rfl, hs⟩
  · have hsound := c.sound _ (List.getElem_mem hk)
    rw [← spliced, laid_take_succ hk hsound hend, Prog.lift_bind]
    refine (does_extent_writeBlock hG hH hhost hk hcount hahead htick).bind fun _ => ?_
    exact .pure (hstable _) fun s hs => .inr ⟨rfl, hs⟩

end
end Pipe
end Yfs.Hdfs
