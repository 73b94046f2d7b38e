import Yfs.Hdfs.Transfer
import Yfs.Lib.Rely

/-! How a thread reads a stream under rely and guarantee, when all that its peer may send is known. -/
namespace Yfs.Hdfs
open Yfs.Lib Yfs.Client

section
variable {D S : Type} {act : (c : NetCall D) → S → NetReply c → S → Prop} {i : Interference S} {peer : Role}
  {K pre : List (Token D)} {took took' : List (Token D) → S → Prop} {lost lost' : S → Prop} {n : ℕ}

/-- A thread that reads a stream of which `K` is all: `took pre` holds when it has taken `pre` out of it, and
`lost` when it has stopped to read. -/
structure StreamReader (act : (c : NetCall D) → S → NetReply c → S → Prop) (i : Interference S) (peer : Role)
    (K : List (Token D)) (took : List (Token D) → S → Prop) (lost : S → Prop) : Prop where
  stable : ∀ pre, i.Stable (took pre)
  stable_lost : i.Stable lost
  stop : ∀ pre s, took pre s → lost s
  recv : ∀ pre A n, pre ++ A <+: K → n = A.length →
    Prog.Assured act i (took pre) (request (.recv peer n)) fun r s =>
      (r = none ∧ lost s) ∨ (r = some A ∧ took (pre ++ A) s)
  recv_end : ∀ n, 0 < n →
    Prog.Assured act i (took K) (request (.recv peer n)) fun r s => r = none ∧ lost s

/-- The outcome of a read: `b`, with `P` from then on, or nothing. -/
def Got {β : Type} (lost P : S → Prop) (b r : Option β) (s : S) : Prop :=
  (r = none ∧ lost s) ∨ (r = b ∧ P s)

def GotPacket (lost P : S → Prop) (p : Packet) (r : Option (Except Int64 Packet)) (s : S) : Prop :=
  ((∃ seqno, r = some (.error seqno)) ∧ lost s) ∨ (r = some (.ok p) ∧ P s)

namespace StreamReader

theorem stable_got (h : StreamReader act i peer K took lost) {β : Type} (pre : List (Token D))
    (b r : Option β) :
    i.Stable (Got lost (took pre) b r) :=
  (h.stable_lost.const_and _).or ((h.stable pre).const_and _)

theorem stable_gotPacket (h : StreamReader act i peer K took lost) (pre : List (Token D)) (p : Packet)
    (r : Option (Except Int64 Packet)) : i.Stable (GotPacket lost (took pre) p r) :=
  (h.stable_lost.const_and _).or ((h.stable pre).const_and _)

theorem readRaw (h : StreamReader act i peer K took lost) {l : Str} (hl : pre ++ raw l <+: K)
    (hn : n = l.length) :
    Prog.Assured act i (took pre) (Hdfs.readRaw peer n) (Got lost (took (pre ++ raw l)) (some l)) := by
  have hlen : n = (raw l : List (Token D)).length := by rw [hn, raw, List.length_map]
  refine (h.recv _ _ n hl hlen).bind fun r => ?_
  refine .or (.of_and ?_) (.of_and ?_) <;> rintro rfl
  · exact .pure (h.stable_got _ _ _) fun s hs => .inl ⟨rfl, hs⟩
  · exact .pure (h.stable_got _ _ _) fun s hs => .inr ⟨mapM_toByte_raw l, hs⟩

theorem readMessage (h : StreamReader act i peer K took lost) {α : Type} {m : Token D} (hm : pre ++ [m] <+: K)
    (parse : Token D → Option α) :
    Prog.Assured act i (took pre) (Hdfs.readMessage peer parse) (Got lost (took (pre ++ [m])) (parse m)) := by
  refine (h.recv _ _ 1 hm rfl).bind fun r => ?_
  refine .or (.of_and ?_) (.of_and ?_) <;> rintro rfl
  · exact .pure (h.stable_got _ _ _) fun s hs => .inl ⟨rfl, hs⟩
  · exact .pure (h.stable_got _ _ _) fun s hs => .inr ⟨rfl, hs⟩

theorem readOp (h : StreamReader act i peer K took lost) {op : UInt8} (hop : pre ++ raw [0, 28, op] <+: K) :
    Prog.Assured act i (took pre) (Hdfs.readOp peer)
      (Got lost (took (pre ++ raw [0, 28, op])) (some op)) := by
  refine (h.readRaw hop rfl).bind fun r => .or (.of_and ?_) (.of_and ?_) <;> rintro rfl
  · exact .pure (h.stable_got _ _ _) fun s hs => .inl ⟨rfl, hs⟩
  · exact .pure (h.stable_got _ _ _) fun s hs => .inr ⟨rfl, hs⟩

/-- A packet that was written is read as it is, or not at all. -/
theorem readPacket (h : StreamReader act i peer K took lost) {p : Packet} (hp : pre ++ packetTokens p <+: K)
    (hlen : p.header.dataLen.toInt = p.data.length) :
    Prog.Assured act i (took pre) (Hdfs.readPacket peer)
      (GotPacket lost (took (pre ++ packetTokens p)) p) := by
  have hfail : ∀ seqno, Prog.Assured act i lost (pure (some (.error seqno)) : NetM D _)
      (GotPacket lost (took (pre ++ packetTokens p)) p) :=
    fun seqno => .pure (h.stable_gotPacket _ p _) fun s hs => .inl ⟨⟨seqno, rfl⟩, hs⟩
  -- the four parts of a packet, one behind the other
  have htokens : pre ++ packetTokens p = pre ++ raw (bigEndian 4 (p.header.dataLen.toUInt32 + 4).toNat) ++
      raw (bigEndian 2 25) ++ [.header p.header] ++ raw p.data := by
    simp only [packetTokens, List.append_assoc, List.cons_append, List.nil_append]
  have hdata := htokens ▸ hp
  have hheader := (List.prefix_append _ _).trans hdata
  have hhlen := (List.prefix_append _ _).trans hheader
  have hplen := (List.prefix_append _ _).trans hhlen
  have hnonneg : ¬p.header.dataLen < 0 := by
    rw [Int32.lt_iff_toInt_lt, hlen]
    exact Int.not_lt.2 (Int.natCast_nonneg _)
  refine (h.readRaw hplen (length_bigEndian _ _).symm).bind fun r => ?_
  refine .or (.of_and ?_) (.of_and ?_) <;> rintro rfl
  · exact hfail 0
  refine (h.readRaw hhlen (length_bigEndian _ _).symm).bind fun r => ?_
  refine .or (.of_and ?_) (.of_and ?_) <;> rintro rfl
  · exact hfail 0
  dsimp only
  rw [if_neg (by rw [ofBigEndian_bigEndian]; decide)]
  refine (h.readMessage hheader Token.toHeader).bind fun r => ?_
  refine .or (.of_and ?_) (.of_and ?_) <;> rintro rfl
  · exact hfail 0
  dsimp only [Token.toHeader]
  rw [skipCount_eq, skip, if_neg (by decide), if_neg hnonneg]
  refine .bind (Q := fun _ => _) (.pure (h.stable _) fun _ hs => hs) fun _ => ?_
  refine (h.readRaw hdata (by rw [hlen, Int.toNat_natCast])).bind fun r => ?_
  refine .or (.of_and ?_) (.of_and ?_) <;> rintro rfl
  · exact hfail p.header.seqno
  · refine .pure (h.stable_gotPacket _ p _) fun s hs => .inr ⟨rfl, ?_⟩
    rw [htokens]
    exact hs

theorem readRaw_end (h : StreamReader act i peer K took lost) (hn : 0 < n) :
    Prog.Assured act i (took K) (Hdfs.readRaw peer n) fun r s => r = none ∧ lost s := by
  refine (h.recv_end n hn).bind fun r => .of_and ?_
  rintro rfl
  exact .pure (h.stable_lost.const_and _) fun s hs => ⟨rfl, hs⟩

theorem readPacket_end (h : StreamReader act i peer K took lost) :
    Prog.Assured act i (took K) (Hdfs.readPacket peer) fun r s => r = some (.error 0) ∧ lost s := by
  refine (h.readRaw_end (by decide)).bind fun r => .of_and ?_
  rintro rfl
  exact .pure (h.stable_lost.const_and _) fun s hs => ⟨rfl, hs⟩

theorem worker_end (h : StreamReader act i peer K took lost) (n m : ℕ) :
    Prog.Assured act i (took K) (Hdfs.worker n peer m) fun _ => lost := by
  cases m with
  | zero => exact .pure h.stable_lost fun s hs => h.stop K s hs
  | succ m =>
    refine Prog.Assured.bind (Q := fun r s => r = none ∧ lost s) ?_ fun r => .of_and ?_
    · refine (h.readRaw_end (by decide)).bind fun r => .of_and ?_
      rintro rfl
      exact .pure (h.stable_lost.const_and _) fun s hs => ⟨rfl, hs⟩
    · rintro rfl
      exact .pure h.stable_lost fun s hs => hs

/-- A worker whose peer sends one request, to write a block. -/
theorem worker (h : StreamReader act i peer K took lost) (hend : StreamReader act i peer K took' lost')
    {served : Option Bool → S → Prop} (hop : [] ++ raw [0, 28, 80] <+: K)
    (hserve : Prog.Assured act i (took ([] ++ raw [0, 28, 80])) (writeBlockOp n peer) served)
    (hlost : ∀ s, lost s → lost' s) (hserved : ∀ r s, served r s → lost' s)
    (hall : ∀ s, served (some true) s → took' K s) (m : ℕ) :
    Prog.Assured act i (took []) (Hdfs.worker n peer m) fun _ => lost' := by
  cases m with
  | zero => exact .pure hend.stable_lost fun s hs => hlost s (h.stop _ s hs)
  | succ m =>
    refine (h.readOp hop).bind fun r => .or (.of_and ?_) (.of_and ?_) <;> rintro rfl
    · exact .pure hend.stable_lost hlost
    dsimp only
    rw [if_neg (by decide), if_pos rfl]
    refine hserve.bind fun r => ?_
    rcases r with _ | _ | _
    · exact .pure hend.stable_lost (hserved none)
    · exact .pure hend.stable_lost (hserved (some false))
    · exact (hend.worker_end n m).strengthen hall

end StreamReader
end
end Yfs.Hdfs
