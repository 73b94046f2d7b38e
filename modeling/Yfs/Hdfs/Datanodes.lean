import Yfs.Hdfs.Nodes
import Yfs.Lib.OrderedMap

/-! How the namenode keeps track of the datanodes: registrations and heartbeats against the beats
of its own clock. -/
namespace Yfs.Hdfs
open Yfs.Lib

namespace NameNode
variable {D : Type}

/-- One turn of the loop of `SendHeartbeat`. -/
def sendHeartbeat (nn : NameNode D) : NameNode D := { nn with heartbeatCount := nn.heartbeatCount + 1 }

/-- `heartbeat_count` as the `int` that the map keeps. -/
def stamp (nn : NameNode D) : Int32 := nn.heartbeatCount.toUInt32.toInt32

def datanodeHeartbeat [LinearOrder D] (nn : NameNode D) (id : D) : NameNode D :=
  { nn with datanode := OrderedMap.assign id nn.stamp nn.datanode }

/-- What `RegisterDatanode` does to the namenode once the blocks are replicated: a datanode that
is in the map already keeps its time. -/
def registerDatanode [LinearOrder D] (nn : NameNode D) (id : D) : NameNode D :=
  { nn with datanode := OrderedMap.insert id nn.stamp nn.datanode }

theorem mem_getDatanodes {nn : NameNode D} {id : D} : id ∈ nn.getDatanodes ↔
    ∃ v, (id, v) ∈ nn.datanode ∧ nn.heartbeatCount - 3 ≤ v.toInt64.toUInt64 := by
  simp [getDatanodes]

theorem stamp_toUInt64 {nn : NameNode D} (h : nn.heartbeatCount.toNat < 2 ^ 31) :
    nn.stamp.toInt64.toUInt64 = nn.heartbeatCount := by
  have hword : nn.stamp.toBitVec.toNat = nn.heartbeatCount.toNat := by
    change nn.heartbeatCount.toUInt32.toNat = _
    rw [UInt64.toNat_toUInt32]
    omega
  have hint : nn.stamp.toInt64.toInt = nn.heartbeatCount.toNat := by
    rw [Int32.toInt_toInt64, Int32.toInt, BitVec.toInt_eq_toNat_cond, hword]
    omega
  rw [Int64.toInt, BitVec.toInt_eq_toNat_cond] at hint
  apply UInt64.toNat_inj.1
  change nn.stamp.toInt64.toBitVec.toNat = _
  split_ifs at hint <;> omega

end NameNode

inductive Beat (D : Type) where
  | tick
  | register (id : D)
  | heartbeat (id : D)

/-- The namenode, the number of ticks so far and the time of the most recent registration or
heartbeat of each datanode. -/
structure Watch (D : Type) where
  nn : NameNode D
  clock : ℕ
  last : D → Option ℕ

namespace Watch
variable {D : Type} [LinearOrder D]

def init : Watch D := ⟨.init D, 0, fun _ => none⟩

def step (w : Watch D) : Beat D → Watch D
  | .tick => { w with nn := w.nn.sendHeartbeat, clock := w.clock + 1 }
  | .register id =>
    { w with nn := w.nn.registerDatanode id, last := Function.update w.last id (some w.clock) }
  | .heartbeat id =>
    { w with nn := w.nn.datanodeHeartbeat id, last := Function.update w.last id (some w.clock) }

/-- Exactly the datanodes heard of at most three ticks ago are listed. -/
def Exact (w : Watch D) : Prop :=
  ∀ id, id ∈ w.nn.getDatanodes ↔ ∃ t, w.last id = some t ∧ w.clock ≤ t + 3

/-- The clock stays within an `int`, nobody is heard of in the first three ticks, and a datanode
registers again only if its entry is of the same tick. -/
def Timely (w : Watch D) : Beat D → Prop
  | .tick => w.clock + 1 < 2 ^ 31
  | .register id => 3 ≤ w.clock ∧ ∀ e ∈ w.nn.datanode, e.1 = id → e.2 = w.nn.stamp
  | .heartbeat _ => 3 ≤ w.clock

def AllTimely (w : Watch D) : List (Beat D) → Prop
  | [] => True
  | b :: beats => w.Timely b ∧ (w.step b).AllTimely beats

instance (w : Watch D) : (b : Beat D) → Decidable (w.Timely b)
  | .tick => inferInstanceAs (Decidable (_ < _))
  | .register _ => inferInstanceAs (Decidable (_ ∧ _))
  | .heartbeat _ => inferInstanceAs (Decidable (_ ≤ _))

instance decidableAllTimely : (w : Watch D) → (beats : List (Beat D)) → Decidable (w.AllTimely beats)
  | _, [] => isTrue trivial
  | w, b :: beats =>
    have := decidableAllTimely (w.step b) beats
    inferInstanceAs (Decidable (w.Timely b ∧ (w.step b).AllTimely beats))

structure Faithful (w : Watch D) : Prop where
  count : w.nn.heartbeatCount.toNat = w.clock
  clock_lt : w.clock < 2 ^ 31
  sorted : OrderedMap.Sorted w.nn.datanode
  value : ∀ id, (OrderedMap.get id w.nn.datanode).map (fun v => v.toInt64.toUInt64.toNat) = w.last id
  early : ∀ id t, w.last id = some t → 3 ≤ t ∧ t ≤ w.clock

theorem faithful_init : Faithful (init : Watch D) := by
  constructor
  · rfl
  · exact Nat.two_pow_pos 31
  · exact List.Pairwise.nil
  · intro id
    rfl
  · intro id t h
    cases h

theorem Faithful.tick {w : Watch D} (h : w.Faithful) (hclock : w.clock + 1 < 2 ^ 31) :
    (w.step .tick).Faithful := by
  constructor
  · change (w.nn.heartbeatCount + 1).toNat = w.clock + 1
    rw [UInt64.toNat_add, h.count]
    change (w.clock + 1) % 2 ^ 64 = w.clock + 1
    omega
  · exact hclock
  · exact h.sorted
  · exact h.value
  · intro id t ht
    obtain ⟨hlow, hhigh⟩ := h.early id t ht
    exact ⟨hlow, Nat.le_succ_of_le hhigh⟩

theorem Faithful.alter {w : Watch D} (h : w.Faithful) (hclock : 3 ≤ w.clock) (id : D)
    {f : Option Int32 → Int32} (hf : f (OrderedMap.get id w.nn.datanode) = w.nn.stamp) :
    Faithful { w with
      nn := { w.nn with datanode := OrderedMap.alter id f w.nn.datanode }
      last := Function.update w.last id (some w.clock) } := by
  have hstamp : w.nn.stamp.toInt64.toUInt64.toNat = w.clock := by
    rw [NameNode.stamp_toUInt64 (h.count ▸ h.clock_lt), h.count]
  constructor
  · exact h.count
  · exact h.clock_lt
  · exact (h.sorted.alter id f).1
  · intro id'
    dsimp only
    rw [OrderedMap.get_alter h.sorted]
    by_cases hid : id' = id
    · subst hid
      rw [if_pos rfl, hf, Option.map_some, hstamp, Function.update_self]
    · rw [if_neg hid, Function.update_of_ne hid, h.value]
  · intro id' t ht
    dsimp only at ht
    by_cases hid : id' = id
    · subst hid
      rw [Function.update_self] at ht
      cases ht
      exact ⟨hclock, le_rfl⟩
    · rw [Function.update_of_ne hid] at ht
      exact h.early id' t ht

theorem Faithful.step {w : Watch D} (h : w.Faithful) {b : Beat D} (hb : w.Timely b) :
    (w.step b).Faithful := by
  cases b with
  | tick => exact h.tick hb
  | heartbeat id =>
    apply h.alter hb id
    rfl
  | register id =>
    apply h.alter hb.1 id
    cases hget : OrderedMap.get id w.nn.datanode with
    | none => rfl
    | some v => exact hb.2 (id, v) ((OrderedMap.mem_iff_get h.sorted).2 hget) rfl

theorem Faithful.run {w : Watch D} (h : w.Faithful) {beats : List (Beat D)} (hbeats : w.AllTimely beats) :
    (beats.foldl Watch.step w).Faithful := by
  induction beats generalizing w with
  | nil => exact h
  | cons b beats ih => exact ih (h.step hbeats.1) hbeats.2

theorem Faithful.exact {w : Watch D} (h : w.Faithful) : w.Exact := by
  intro id
  have hvalue := h.value id
  have hsub : 3 ≤ w.clock → (w.nn.heartbeatCount - 3).toNat = w.clock - 3 := by
    intro hclock
    rw [UInt64.toNat_sub_of_le, h.count]
    · rfl
    · rw [UInt64.le_iff_toNat_le, h.count]
      exact hclock
  rw [NameNode.mem_getDatanodes]
  constructor
  · rintro ⟨v, hmem, hle⟩
    rw [(OrderedMap.mem_iff_get h.sorted).1 hmem, Option.map_some] at hvalue
    obtain ⟨hlow, hhigh⟩ := h.early id _ hvalue.symm
    rw [UInt64.le_iff_toNat_le, hsub (hlow.trans hhigh)] at hle
    exact ⟨_, hvalue.symm, by omega⟩
  · rintro ⟨t, ht, hle⟩
    obtain ⟨hlow, hhigh⟩ := h.early id t ht
    rw [ht, Option.map_eq_some_iff] at hvalue
    obtain ⟨v, hget, rfl⟩ := hvalue
    refine ⟨v, (OrderedMap.mem_iff_get h.sorted).2 hget, ?_⟩
    rw [UInt64.le_iff_toNat_le, hsub (hlow.trans hhigh)]
    omega

/-- The failure detector is exact in every state of a run whose steps are all timely. -/
theorem getDatanodes_exact {beats : List (Beat D)} (h : (init : Watch D).AllTimely beats) :
    (beats.foldl step (init : Watch D)).Exact := (faithful_init.run h).exact

/-- A datanode registers in the third tick, beats in the fourth and is listed in the seventh. -/
theorem getDatanodes_exact_seventh : 0 ∈ ([.tick, .tick, .tick, .register 0, .tick, .heartbeat 0,
    .tick, .tick, .tick].foldl step (init : Watch ℕ)).nn.getDatanodes :=
  (getDatanodes_exact (D := ℕ) (by decide) 0).2 ⟨4, rfl, by decide⟩

/-- A datanode that has just registered is not listed in the first three ticks, and neither is one
that registers again after it was not heard of for more than three ticks. -/
theorem registered_not_listed :
    ¬ ([.register 0].foldl step (init : Watch ℕ)).Exact ∧
    ¬ ([.tick, .tick, .tick, .register 0, .tick, .tick, .tick, .tick, .register 0].foldl step
      (init : Watch ℕ)).Exact := by
  constructor
  · intro h
    have hmem := (h 0).2 ⟨0, rfl, by decide⟩
    revert hmem
    decide
  · intro h
    have hmem := (h 0).2 ⟨7, rfl, by decide⟩
    revert hmem
    decide

end Watch
end Yfs.Hdfs
