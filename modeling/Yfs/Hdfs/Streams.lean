import Yfs.Hdfs.StreamReader

/-! The streams of a replication in rely and guarantee: an invariant that ties what is in them to what is on
the disks, and the rules for the calls of the threads under it. -/
namespace Yfs.Hdfs
open Yfs.Lib Yfs.Extent Yfs.Client

/-- A block that is to be copied from one datanode to another, and the disks before that. -/
structure Copy (D : Type) where
  bid : UInt32
  src : D
  dst : D
  disk : D → Disk
  valid : bid.toNat < blockNum

/-- The messages that mean that the block has been written. -/
def Signal {D : Type} : Role → Token D → Prop
  | .source, .response m => m.status = .success
  | .target, .ack m => m.reply.head? = some .success
  | _, _ => False

namespace Copy
variable {D : Type} (c : Copy D)

def content : Str := blockBytes (c.disk c.src) c.bid.toNat

def Written (s : Net D) : Prop := blockBytes (s.store c.dst).disk c.bid.toNat = c.content

def order : List (Token D) := raw [0, 28, 86] ++ [.transferBlock ⟨c.bid.toUInt64, [c.dst]⟩]

def opening : List (Token D) := raw [0, 28, 80] ++ [.writeBlock ⟨c.bid.toUInt64, []⟩]

def script : List (Token D) :=
  c.opening ++ packetTokens (blockPacket c.content) ++ packetTokens endPacket

/-- The streams are what they should be, a message that the block was written is true, and no disk has
changed but for the new block. -/
structure Inv (s : Net D) : Prop where
  order : (s.party .namenode).sent .source <+: c.order
  script : (s.party .source).sent .target <+: c.script
  signal : ∀ t peer, ∀ m ∈ (s.party t).sent peer, Signal t m → c.Written s
  others : ∀ id b, ¬(id = c.dst ∧ b = c.bid.toNat) → (s.store id).disk b = c.disk id b
  block : c.Written s ∨ (s.store c.dst).disk c.bid.toNat = c.disk c.dst c.bid.toNat

/-- A thread leaves the ends of the others alone; all of them keep the invariant, and what was written. -/
def interference (t : Role) : Interference (Net D) where
  rely s s' := s'.party t = s.party t ∧ (c.Inv s → c.Inv s') ∧ (c.Written s → c.Written s')
  guar s s' := (∀ u, u ≠ t → s'.party u = s.party u) ∧ (c.Inv s → c.Inv s') ∧ (c.Written s → c.Written s')
  refl _ := ⟨rfl, id, id⟩
  trans _ _ _ h h' := ⟨h'.1.trans h.1, h'.2.1 ∘ h.2.1, h'.2.2 ∘ h.2.2⟩

/-- What a thread knows: the invariant, something about its own ends, and where `w` holds that the block was
written. -/
def At (t : Role) (F : Endpoint D → Prop) (w : Prop) (s : Net D) : Prop :=
  c.Inv s ∧ F (s.party t) ∧ (w → c.Written s)

def Took (peer : Role) (pre : List (Token D)) (G : Endpoint D → Prop) (e : Endpoint D) : Prop :=
  e.taken peer = pre.length ∧ G e

/-- The thread has sent `out`, as far as the stream could take it. -/
def Sending (peer : Role) (out : List (Token D)) (e : Endpoint D) : Prop :=
  e.sent peer <+: out ∧ (e.broken peer = false → e.sent peer = out)

/-- What `send` can do to the ends of a thread. -/
def Sends (peer : Role) (l : List (Token D)) (e : Endpoint D) (sent : Bool) (e' : Endpoint D) : Prop :=
  (sent = true ∧ e.broken peer = false ∧ e' = e.write peer l) ∨
    (sent = false ∧ e.broken peer = false ∧ ∃ k, e' = (e.write peer (l.take k)).fail peer) ∨
    (sent = false ∧ e.broken peer = true ∧ e' = e)

section
variable {c} {s s' : Net D} {t peer : Role} {e e' : Endpoint D} {G : Endpoint D → Prop} {w : Prop}

theorem Written.congr (h : c.Written s) (hdisk : ∀ id, (s'.store id).disk = (s.store id).disk) :
    c.Written s' := by
  unfold Copy.Written
  rw [hdisk]
  exact h

theorem Inv.congr (h : c.Inv s) (hsent : ∀ u, (s'.party u).sent = (s.party u).sent)
    (hdisk : ∀ id, (s'.store id).disk = (s.store id).disk) : c.Inv s' := by
  constructor
  · rw [hsent]
    exact h.order
  · rw [hsent]
    exact h.script
  · intro t peer m hm hsignal
    rw [hsent] at hm
    exact (h.signal t peer m hm hsignal).congr hdisk
  · intro id b hne
    rw [hdisk]
    exact h.others id b hne
  · rw [hdisk]
    exact h.block.imp_left fun hw => hw.congr hdisk

theorem stable_at (t : Role) (F : Endpoint D → Prop) (w : Prop) : (c.interference t).Stable (c.At t F w) := by
  rintro s s' ⟨hparty, hinv, hwritten⟩ ⟨hs, hF, hw⟩
  refine ⟨hinv hs, ?_, fun h => hwritten (hw h)⟩
  rw [hparty]
  exact hF

theorem Inv.setParty (h : c.Inv s) (horder : t = .namenode → e.sent .source <+: c.order)
    (hscript : t = .source → e.sent .target <+: c.script)
    (hsignal : ∀ peer, ∀ m ∈ e.sent peer, Signal t m → c.Written s) : c.Inv (s.setParty t e) := by
  constructor
  · by_cases ht : t = .namenode
    · rw [← ht, Net.party_setParty_self]
      exact horder ht
    · rw [Net.party_setParty_of_ne (Ne.symm ht)]
      exact h.order
  · by_cases ht : t = .source
    · rw [← ht, Net.party_setParty_self]
      exact hscript ht
    · rw [Net.party_setParty_of_ne (Ne.symm ht)]
      exact h.script
  · intro u peer m hm hm'
    by_cases hu : u = t
    · rw [hu, Net.party_setParty_self] at hm
      rw [hu] at hm'
      exact hsignal peer m hm hm'
    · rw [Net.party_setParty_of_ne hu] at hm
      exact h.signal u peer m hm hm'
  · exact h.others
  · exact h.block

theorem guar_setParty (hinv : c.Inv s → c.Inv (s.setParty t e)) :
    (c.interference t).guar s (s.setParty t e) :=
  ⟨fun _ hu => Net.party_setParty_of_ne hu s e, hinv, fun h => h⟩

theorem Inv.take (h : c.Inv s) (t peer : Role) (n : ℕ) : c.Inv (s.setParty t ((s.party t).take peer n)) := by
  apply h.congr
  · exact Net.congr_party_setParty Endpoint.sent rfl
  · exact fun _ => rfl

theorem Sends.sending {out l : List (Token D)} {sent : Bool} (h : Sends peer l e sent e')
    (hout : Sending peer out e) : Sending peer (out ++ l) e' := by
  rcases h with ⟨-, hopen, rfl⟩ | ⟨-, hopen, k, rfl⟩ | ⟨-, hbroken, rfl⟩
  · have hsent : (e.write peer l).sent peer = out ++ l := by
      rw [Endpoint.sent_write_self, hout.2 hopen]
    exact ⟨hsent ▸ List.prefix_rfl, fun _ => hsent⟩
  · constructor
    · rw [Endpoint.sent_fail, Endpoint.sent_write_self, hout.2 hopen]
      exact (List.prefix_append_right_inj out).2 (List.take_prefix k l)
    · intro hunbroken
      rw [Endpoint.broken_fail_self] at hunbroken
      cases hunbroken
  · refine ⟨hout.1.trans (List.prefix_append out l), fun hunbroken => ?_⟩
    rw [hbroken] at hunbroken
    cases hunbroken

theorem Sends.taken {l : List (Token D)} {sent : Bool} (h : Sends peer l e sent e') : e'.taken = e.taken := by
  rcases h with ⟨-, -, rfl⟩ | ⟨-, -, k, rfl⟩ | ⟨-, -, rfl⟩ <;> rfl

theorem Sends.sent_other {l : List (Token D)} {sent : Bool} (h : Sends peer l e sent e') {other : Role}
    (hother : other ≠ peer) : e'.sent other = e.sent other := by
  rcases h with ⟨-, -, rfl⟩ | ⟨-, -, k, rfl⟩ | ⟨-, -, rfl⟩
  · exact Function.update_of_ne hother _ _
  · exact Function.update_of_ne hother _ _
  · rfl

theorem Sends.mem {l : List (Token D)} {sent : Bool} (h : Sends peer l e sent e') {other : Role} {m : Token D}
    (hm : m ∈ e'.sent other) : m ∈ e.sent other ∨ m ∈ l := by
  by_cases hother : other = peer
  · subst hother
    rcases h with ⟨-, -, rfl⟩ | ⟨-, -, k, rfl⟩ | ⟨-, -, rfl⟩
    · rw [Endpoint.sent_write_self] at hm
      exact List.mem_append.1 hm
    · rw [Endpoint.sent_fail, Endpoint.sent_write_self] at hm
      exact (List.mem_append.1 hm).imp_right List.mem_of_mem_take
    · exact .inl hm
  · rw [h.sent_other hother] at hm
    exact .inl hm

end

section
variable [DecidableEq D] {c} {s s' : Net D} {t peer : Role} {F G : Endpoint D → Prop} {w : Prop}

abbrev Does {α : Type} (c : Copy D) (t : Role) (P : Net D → Prop) (p : NetM D α) (Q : α → Net D → Prop) :
    Prop :=
  p.Assured (Net.Serve c.src c.dst t) (c.interference t) P Q

theorem sends_of_serve {l : List (Token D)} {sent : Bool}
    (h : Net.Serve c.src c.dst t (.send peer l) s sent s') :
    ∃ e', Sends peer l (s.party t) sent e' ∧ s' = s.setParty t e' := by
  cases h with
  | send hopen => exact ⟨_, .inl ⟨rfl, hopen, rfl⟩, rfl⟩
  | cut k hopen => exact ⟨_, .inr (.inl ⟨rfl, hopen, k, rfl⟩), rfl⟩
  | lost hbroken =>
    refine ⟨_, .inr (.inr ⟨rfl, hbroken, rfl⟩), ?_⟩
    rw [Net.setParty, Function.update_eq_self]

/-- The rule for `send`: what is sent must fit into the streams, and a signal must be true. -/
theorem does_send {l : List (Token D)} {F' : Bool → Endpoint D → Prop}
    (hsignal : ∀ m ∈ l, Signal t m → w)
    (h : ∀ e sent e', F e → Sends peer l e sent e' → F' sent e' ∧
      (t = .namenode → peer = .source → e'.sent .source <+: c.order) ∧
      (t = .source → peer = .target → e'.sent .target <+: c.script)) :
    c.Does t (c.At t F w) (request (.send peer l)) fun sent => c.At t (F' sent) w := by
  refine Prog.Assured.perform (stable_at t F w) (fun sent => stable_at t (F' sent) w) ?_
  rintro s sent s' ⟨hinv, hF, hw⟩ hserve
  obtain ⟨e', hsends, rfl⟩ := sends_of_serve hserve
  obtain ⟨hF', horder, hscript⟩ := h _ sent e' hF hsends
  have hinv' : c.Inv (s.setParty t e') := by
    apply hinv.setParty
    · intro ht
      by_cases hpeer : peer = .source
      · exact horder ht hpeer
      · rw [hsends.sent_other (Ne.symm hpeer), ht]
        exact hinv.order
    · intro ht
      by_cases hpeer : peer = .target
      · exact hscript ht hpeer
      · rw [hsends.sent_other (Ne.symm hpeer), ht]
        exact hinv.script
    · intro other m hm hm'
      rcases hsends.mem hm with hm | hm
      · exact hinv.signal t other m hm hm'
      · exact hw (hsignal m hm hm')
  refine ⟨guar_setParty fun _ => hinv', hinv', ?_, hw⟩
  rw [Net.party_setParty_self]
  exact hF'

theorem does_connect (id : D) : c.Does t (c.At t F w) (request (.connect id)) fun r s =>
    (∀ peer, r = some peer → t.next = some peer) ∧ c.At t F w s := by
  refine Prog.Assured.perform (stable_at t F w) (fun r => (stable_at t F w).const_and _) ?_
  intro s r s' hs hserve
  have hguar : (c.interference t).guar s s := ⟨fun _ _ => rfl, fun h => h, fun h => h⟩
  cases hserve with
  | connect hnext hhost =>
    refine ⟨hguar, fun peer hpeer => ?_, hs⟩
    cases hpeer
    exact hnext
  | unreachable =>
    refine ⟨hguar, fun peer hpeer => ?_, hs⟩
    cases hpeer

theorem does_recv {n : ℕ} {H : Endpoint D → Prop} {Q : List (Token D) → Prop} {v : List (Token D) → Prop}
    (hF : ∀ e, F e → H (e.take peer n))
    (h : ∀ s, c.At t F w s → (s.party t).taken peer + n ≤ ((s.party peer).sent t).length →
      Q ((((s.party peer).sent t).drop ((s.party t).taken peer)).take n) ∧
        (v ((((s.party peer).sent t).drop ((s.party t).taken peer)).take n) → c.Written s)) :
    c.Does t (c.At t F w) (request (.recv peer n)) fun r s => (r = none ∧ c.At t F w s) ∨
      ∃ l, r = some l ∧ Q l ∧ c.At t H (v l) s := by
  refine Prog.Assured.perform (stable_at t F w) ?_ ?_
  · intro r
    refine ((stable_at t F w).const_and _).or ?_
    rintro s s' hrely ⟨l, hl, hQ, hat⟩
    exact ⟨l, hl, hQ, stable_at t H (v l) s s' hrely hat⟩
  · intro s r s' hs hserve
    cases hserve with
    | recv hthere =>
      obtain ⟨hQ, hv⟩ := h s hs hthere
      have hinv := hs.1.take t peer n
      refine ⟨guar_setParty fun _ => hinv, .inr ⟨_, rfl, hQ, hinv, ?_, hv⟩⟩
      rw [Net.party_setParty_self]
      exact hF _ hs.2.1
    | closed => exact ⟨⟨fun _ _ => rfl, id, id⟩, .inl ⟨rfl, hs⟩⟩

/-- A stream that is a part of `K`, and what its reader knows besides. -/
structure Reads (c : Copy D) (t peer : Role) (K : List (Token D)) (G : Endpoint D → Prop) : Prop where
  stream : ∀ s, c.Inv s → (s.party peer).sent t <+: K
  keep : ∀ e n, G e → G (e.take peer n)

theorem Reads.reader {K : List (Token D)} (h : Reads c t peer K G) : StreamReader (Net.Serve c.src c.dst t)
    (c.interference t) peer K (fun pre => c.At t (Took peer pre G) w) (c.At t G w) where
  stable _ := stable_at t _ w
  stable_lost := stable_at t G w
  stop _ s hs := ⟨hs.1, hs.2.1.2, hs.2.2⟩
  recv pre A n hA hn := by
    have hF : ∀ e, Took peer pre G e → Took peer (pre ++ A) G (e.take peer n) := by
      intro e he
      refine ⟨?_, h.keep e n he.2⟩
      rw [Endpoint.taken_take_self, he.1, List.length_append, hn]
    refine (does_recv (Q := (· = A)) (v := fun _ => w) hF ?_).weaken ?_
    · rintro s ⟨hinv, he, hw⟩ hthere
      refine ⟨?_, hw⟩
      rw [he.1, hn, ← List.length_append] at hthere
      obtain ⟨rest, hrest⟩ := List.prefix_of_prefix_length_le hA (h.stream s hinv) hthere
      rw [← hrest, he.1, hn, List.append_assoc, List.drop_left, List.take_left]
    · rintro r s (⟨hr, hat⟩ | ⟨l, hr, rfl, hat⟩)
      · exact .inl ⟨hr, hat.1, hat.2.1.2, hat.2.2⟩
      · exact .inr ⟨hr, hat⟩
  recv_end n hn := by
    have hF : ∀ e, Took peer K G e → True := fun _ _ => trivial
    refine (does_recv (Q := fun _ => False) (H := fun _ => True) (v := fun _ => w) hF ?_).weaken ?_
    · rintro s ⟨hinv, he, -⟩ hthere
      have hle := (h.stream s hinv).length_le
      rw [he.1] at hthere
      omega
    · rintro r s (⟨hr, hat⟩ | ⟨l, -, hl, -⟩)
      · exact ⟨hr, hat.1, hat.2.1.2, hat.2.2⟩
      · exact hl.elim

theorem does_readMessage {α : Type} (hF : ∀ e n, F e → F (e.take peer n)) (parse : Token D → Option α) :
    c.Does t (c.At t F w) (readMessage peer parse) fun r s => (r = none ∧ c.At t F w s) ∨
      ∃ m, r = parse m ∧ c.At t F (w ∨ Signal peer m) s := by
  have hstable : ∀ r : Option α, (c.interference t).Stable fun s => (r = none ∧ c.At t F w s) ∨
      ∃ m, r = parse m ∧ c.At t F (w ∨ Signal peer m) s := by
    intro r
    refine ((stable_at t F w).const_and _).or ?_
    rintro s s' hrely ⟨m, hm, hat⟩
    exact ⟨m, hm, stable_at t F _ s s' hrely hat⟩
  have hrecv : c.Does t (c.At t F w) (request (.recv peer 1)) fun r s => (r = none ∧ c.At t F w s) ∨
      ∃ l, r = some l ∧ (∃ m, l = [m]) ∧ c.At t F (w ∨ ∃ m ∈ l, Signal peer m) s := by
    refine does_recv (hF · 1) fun s hs hthere => ⟨?_, ?_⟩
    · apply List.length_eq_one_iff.1
      rw [List.length_take, List.length_drop]
      omega
    · rintro (hw | ⟨m, hm, hsignal⟩)
      · exact hs.2.2 hw
      · exact hs.1.signal peer t m (List.mem_of_mem_drop (List.mem_of_mem_take hm)) hsignal
  refine hrecv.bind fun r => .or (.of_and ?_) (.of_exists fun l => .of_and ?_)
  · rintro rfl
    exact .pure (hstable _) fun s hs => .inl ⟨rfl, hs⟩
  · rintro rfl
    refine .of_and ?_
    rintro ⟨m, rfl⟩
    refine .pure (hstable _) fun s hs => .inr ⟨m, rfl, ?_⟩
    simpa only [List.mem_singleton, exists_eq_left] using hs

theorem Inv.content_eq (h : c.Inv s) : blockBytes (s.store c.src).disk c.bid.toNat = c.content := by
  have hsame : (s.store c.src).disk c.bid.toNat = c.disk c.src c.bid.toNat →
      blockBytes (s.store c.src).disk c.bid.toNat = c.content := by
    intro heq
    rw [blockBytes, heq]
    rfl
  by_cases hsrc : c.src = c.dst
  · rcases h.block with hw | heq
    · rw [hsrc]
      exact hw
    · apply hsame
      rw [hsrc]
      exact heq
  · exact hsame (h.others c.src _ fun hboth => hsrc hboth.1)

theorem does_extent_readBlock {id : D} (hhost : Net.host c.src c.dst t = some id) :
    c.Does t (c.At t F w) (request (.extent (.readBlock c.bid))) fun r s =>
      (r.2.length = blockSize ∧ (id = c.src → r.2 = c.content) ∧ (id = c.dst → w → r.2 = c.content)) ∧
        c.At t F w s := by
  refine Prog.Assured.perform (stable_at t F w) (fun r => (stable_at t F w).const_and _) ?_
  intro s r s' hs hserve
  obtain ⟨hinv, hF, hw⟩ := hs
  cases hserve with
  | @extent _ _ id' _ store' hhost' hrun =>
    obtain rfl : id' = id := Option.some.inj (hhost'.symm.trans hhost)
    have hread := run_perform_readBlock (s.store id') c.valid
    rw [Prog.run_perform, hrun, Option.some.injEq, Prod.mk.injEq] at hread
    obtain ⟨hr, rfl⟩ := hread
    have hbytes : r.2 = blockBytes (s.store id').disk c.bid.toNat := by rw [hr]
    have hdisk : ∀ id, ((s.setStore id' ((s.store id').next (s.store id').disk)).store id).disk =
        (s.store id).disk := by
      intro id
      by_cases hid : id = id'
      · rw [hid, Net.store_setStore_self, Store.disk_next]
      · rw [Net.store_setStore_of_ne hid]
    have hinv' : c.Inv (s.setStore id' ((s.store id').next (s.store id').disk)) :=
      hinv.congr (fun _ => rfl) hdisk
    refine ⟨⟨fun _ _ => rfl, fun _ => hinv', fun h => h.congr hdisk⟩, ⟨?_, ?_, ?_⟩,
      hinv', hF, fun h => (hw h).congr hdisk⟩
    · rw [hbytes, length_blockBytes]
    · rintro rfl
      exact hbytes.trans hinv.content_eq
    · rintro rfl h
      exact hbytes.trans (hw h)

theorem Inv.setStore (h : c.Inv s) {store' : Store} {d : Disk} (hdisk : store'.disk = d)
    (hblock : blockBytes d c.bid.toNat = c.content)
    (hothers : ∀ b, b ≠ c.bid.toNat → d b = (s.store c.dst).disk b) :
    c.Inv (s.setStore c.dst store') ∧ c.Written (s.setStore c.dst store') := by
  have hwritten : c.Written (s.setStore c.dst store') := by
    unfold Written
    rw [Net.store_setStore_self, hdisk]
    exact hblock
  refine ⟨⟨h.order, h.script, fun _ _ _ _ _ => hwritten, ?_, .inl hwritten⟩, hwritten⟩
  intro id b hne
  by_cases hid : id = c.dst
  · subst hid
    rw [Net.store_setStore_self, hdisk, hothers b fun hb => hne ⟨rfl, hb⟩]
    exact h.others _ b hne
  · rw [Net.store_setStore_of_ne hid]
    exact h.others id b hne

theorem does_extent_writeBlock :
    c.Does .target (c.At .target F w) (request (.extent (.writeBlock c.bid c.content))) fun _ =>
      c.At .target F True := by
  refine Prog.Assured.perform (stable_at _ F w) (fun _ => stable_at _ F True) ?_
  intro s r s' hs hserve
  obtain ⟨hinv, hF, -⟩ := hs
  cases hserve with
  | @extent _ _ id _ store' hhost hrun =>
    obtain rfl : c.dst = id := Option.some.inj hhost
    have hlen : c.content.length = blockSize := length_blockBytes _ _
    have hwrite := run_perform_writeBlock (s.store c.dst) c.bid hlen
    rw [Prog.run_perform, hrun, Option.some.injEq, Prod.mk.injEq] at hwrite
    obtain ⟨-, rfl⟩ := hwrite
    obtain ⟨hinv', hwritten⟩ := hinv.setStore (Store.disk_next (s.store c.dst) _)
      (blockBytes_writeBlock c.valid hlen _) fun b hne => Disk.writeBlock_of_ne hne
    exact ⟨⟨fun _ _ => rfl, fun _ => hinv', fun _ => hwritten⟩, hinv', hF, fun _ => hwritten⟩

theorem does_readBlock : c.Does .source (c.At .source F w)
    (onExtent (DataNode.readBlock c.bid 0 (.ofNat blockSize))) fun r s =>
      r = c.content ∧ c.At .source F w s := by
  rw [DataNode.readBlock, onExtent, Prog.lift_bind]
  refine (does_extent_readBlock (t := .source) rfl).bind fun r => .of_and fun hr => ?_
  refine .pure ((stable_at _ F w).const_and _) fun s hs => ⟨?_, hs⟩
  have hlen : (UInt64.ofNat blockSize).toNat = blockSize := rfl
  rw [UInt64.toNat_zero, if_neg (Nat.not_lt_zero _), List.drop_zero, hlen,
    List.take_of_length_le hr.1.le]
  exact hr.2.1 rfl

theorem does_writeBlock {offset len : UInt64} {buf : Str} (hend : (offset + len).toNat ≤ blockSize)
    (hsplice : ∀ block : Str, block.length = blockSize → (w → block = c.content) →
      spliced block offset len buf = c.content) :
    c.Does .target (c.At .target F w) (onExtent (DataNode.writeBlock c.bid offset len buf)) fun r s =>
      r = some true ∧ c.At .target F True s := by
  rw [DataNode.writeBlock, onExtent, Prog.lift_bind]
  refine (does_extent_readBlock (t := .target) rfl).bind fun _ => .of_and fun _ => ?_
  rw [Prog.lift_bind]
  refine (does_extent_readBlock (t := .target) rfl).bind fun r => .of_and fun hr => ?_
  have hblock := hsplice r.2 hr.1 (hr.2.2 rfl)
  rw [spliced] at hblock
  dsimp only
  rw [if_neg (by rw [hr.1]; exact Nat.not_lt.2 hend), hblock, Prog.lift_bind]
  refine does_extent_writeBlock.bind fun _ => ?_
  exact .pure ((stable_at _ F True).const_and _) fun s hs => ⟨rfl, hs⟩

def Served (c : Copy D) (t peer : Role) (K : List (Token D)) (r : Option Bool) : Net D → Prop :=
  c.At t (fun e => r = some true → e.taken peer = K.length) False

theorem served_of_ne {K : List (Token D)} {r : Option Bool} (hr : r ≠ some true) :
    c.Does t (c.At t F w) (pure r) (c.Served t peer K) :=
  .pure (stable_at _ _ _) fun _ hs => ⟨hs.1, fun h => absurd h hr, False.elim⟩

theorem does_stop : c.Does t (c.At t F w) (pure () : NetM D Unit) fun _ => c.At t (fun _ => True) False :=
  .pure (stable_at _ _ _) fun _ hs => ⟨hs.1, trivial, False.elim⟩

/-- What a worker sends to its client is no part of a script. -/
theorem does_reply {m : Token D} (hsignal : Signal t m → w)
    (hclient : (t = .source ∧ peer = .namenode) ∨ (t = .target ∧ peer = .source))
    (hF : ∀ e e', e'.taken = e.taken → F e → F e') :
    c.Does t (c.At t F w) (request (.send peer [m])) fun _ => c.At t F w := by
  refine does_send ?_ fun e sent e' he hsends => ⟨hF e e' hsends.taken he, ?_, ?_⟩
  · intro m' hm'
    rw [List.mem_singleton.1 hm']
    exact hsignal
  · rintro rfl
    rcases hclient with ⟨h, -⟩ | ⟨h, -⟩ <;> cases h
  · rintro rfl rfl
    rcases hclient with ⟨-, h⟩ | ⟨h, -⟩ <;> cases h

end

end Copy
end Yfs.Hdfs
