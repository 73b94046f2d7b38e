import Yfs.Hdfs.Datanodes
import Mathlib.Data.Finset.Max
import Mathlib.Data.Finset.Image
import Mathlib.Data.Fintype.Basic

/-! Which datanodes hold which blocks. A registration runs in a thread of its own: it copies the
blocks one after the other and then enters the datanode into the map, while blocks are appended
and heartbeats arrive. -/
namespace Yfs.Hdfs
open Yfs.Lib

/-- The first block of the set from number `n` on. -/
def firstFrom (blocks : Finset UInt32) (n : ℕ) : Option UInt32 :=
  let later := (blocks.image UInt32.toNat).filter fun m => n ≤ m
  if h : later.Nonempty then some (UInt32.ofNat (later.min' h)) else none

/-- An iterator over the blocks is past block `bid`; `none` is the end. -/
def Passed (pos : Option UInt32) (bid : UInt32) : Prop := ∀ x, pos = some x → bid.toNat < x.toNat

theorem lt_of_passed_firstFrom {blocks : Finset UInt32} {n : ℕ} {bid : UInt32} (hbid : bid ∈ blocks)
    (h : Passed (firstFrom blocks n) bid) : bid.toNat < n := by
  by_contra hge
  have hmem : bid.toNat ∈ (blocks.image UInt32.toNat).filter fun m => n ≤ m :=
    Finset.mem_filter.2 ⟨Finset.mem_image_of_mem _ hbid, not_lt.1 hge⟩
  have hne : ((blocks.image UInt32.toNat).filter fun m => n ≤ m).Nonempty := ⟨_, hmem⟩
  have hlt := h _ (dif_pos hne)
  have hle := Finset.min'_le _ _ hmem
  rw [UInt32.toNat_ofNat', Nat.mod_eq_of_lt] at hlt
  · exact absurd hle (not_le.2 hlt)
  · exact lt_of_le_of_lt hle bid.toNat_lt

/-- The namenode with its registration threads. A thread works for a datanode and is at a block
of `HDFS_block`. `located` are the blocks in whose location list a datanode was, `replicated` those
that were copied to it since it last registered. -/
structure Cluster (D I : Type) where
  nn : NameNode D
  thread : I → Option (D × Option UInt32)
  located : D → Finset UInt32
  replicated : D → Finset UInt32

inductive Move (D I : Type) where
  | tick
  | appendBlock (bid : UInt32)
  | heartbeat (id : D)
  | register (i : I) (id : D)
  | replicateBlock (i : I)
  | enter (i : I)

namespace Cluster
variable {D I : Type} [LinearOrder D]

def init : Cluster D I := ⟨.init D, fun _ => none, fun _ => ∅, fun _ => ∅⟩

/-- `RegisterDatanode` copies blocks only after the fifth beat. -/
def firstBlock (nn : NameNode D) : Option UInt32 :=
    if 5 < nn.heartbeatCount then firstFrom nn.hdfsBlock 0 else none

def step [DecidableEq I] (c : Cluster D I) : Move D I → Option (Cluster D I)
  | .tick => some { c with nn := c.nn.sendHeartbeat }
  | .appendBlock bid => some { c with
      nn := { c.nn with hdfsBlock := insert bid c.nn.hdfsBlock }
      located := fun id => if id ∈ c.nn.getDatanodes then insert bid (c.located id) else c.located id }
  | .heartbeat id => some { c with nn := c.nn.datanodeHeartbeat id }
  | .register i id =>
    match c.thread i with
    | none => some { c with
        thread := Function.update c.thread i (some (id, firstBlock c.nn))
        replicated := Function.update c.replicated id ∅ }
    | some _ => none
  | .replicateBlock i =>
    match c.thread i with
    | some (id, some bid) => some { c with
        thread := Function.update c.thread i (some (id, firstFrom c.nn.hdfsBlock (bid.toNat + 1)))
        replicated := Function.update c.replicated id (insert bid (c.replicated id)) }
    | _ => none
  | .enter i =>
    match c.thread i with
    | some (id, none) => some { c with
        nn := c.nn.registerDatanode id
        thread := Function.update c.thread i none }
    | _ => none

def Holds (c : Cluster D I) (id : D) : Prop :=
  ∀ bid ∈ c.nn.hdfsBlock, bid ∈ c.located id ∨ bid ∈ c.replicated id

/-- Every live datanode holds every block. -/
def AllHold (c : Cluster D I) : Prop := ∀ id ∈ c.nn.getDatanodes, c.Holds id

/-- What keeps the blocks where they belong: the clock stays within an `int`; blocks are appended
from the third beat on and ahead of every running registration; a datanode beats when it is listed
or holds every block; it registers after the fifth beat or while there are no blocks, not twice at
a time, and, if it is still listed, only when all blocks came to it by their location lists. -/
def Safe (c : Cluster D I) : Move D I → Prop
  | .tick => c.nn.heartbeatCount.toNat + 1 < 2 ^ 31
  | .appendBlock bid => 3 ≤ c.nn.heartbeatCount ∧
      ∀ i, ∀ t ∈ c.thread i, ∃ x ∈ t.2, x.toNat < bid.toNat
  | .heartbeat id => id ∈ c.nn.getDatanodes ∨ c.Holds id
  | .register _ id => (5 < c.nn.heartbeatCount ∨ c.nn.hdfsBlock = ∅) ∧
      (∀ j, ∀ t ∈ c.thread j, t.1 ≠ id) ∧
      (id ∉ c.nn.getDatanodes ∨ c.nn.hdfsBlock ⊆ c.located id)
  | .replicateBlock _ => True
  | .enter _ => True

/-- All steps of a run are safe. -/
def AllSafe [DecidableEq I] (c : Cluster D I) : List (Move D I) → Prop
  | [] => True
  | m :: moves => c.Safe m ∧ ∀ c' ∈ c.step m, c'.AllSafe moves

instance [Fintype I] (c : Cluster D I) : (m : Move D I) → Decidable (c.Safe m)
  | .tick => inferInstanceAs (Decidable (_ < _))
  | .appendBlock bid => inferInstanceAs (Decidable (_ ∧ ∀ i, ∀ t ∈ c.thread i, ∃ x ∈ t.2,
      x.toNat < bid.toNat))
  | .heartbeat _ => inferInstanceAs (Decidable (_ ∨ ∀ bid ∈ c.nn.hdfsBlock, _))
  | .register _ id => inferInstanceAs (Decidable (_ ∧ (∀ j, ∀ t ∈ c.thread j, t.1 ≠ id) ∧ _))
  | .replicateBlock _ => isTrue trivial
  | .enter _ => isTrue trivial

instance decidableAllSafe [DecidableEq I] [Fintype I] :
    (c : Cluster D I) → (moves : List (Move D I)) → Decidable (c.AllSafe moves)
  | _, [] => isTrue trivial
  | c, m :: moves =>
    have := fun c' : Cluster D I => decidableAllSafe c' moves
    inferInstanceAs (Decidable (c.Safe m ∧ ∀ c' ∈ c.step m, c'.AllSafe moves))

structure Inv (c : Cluster D I) : Prop where
  sorted : OrderedMap.Sorted c.nn.datanode
  count_lt : c.nn.heartbeatCount.toNat < 2 ^ 31
  count_ge : c.nn.hdfsBlock ≠ ∅ → 3 ≤ c.nn.heartbeatCount
  all : c.AllHold
  passed : ∀ i id pos, c.thread i = some (id, pos) →
    ∀ bid ∈ c.nn.hdfsBlock, Passed pos bid → bid ∈ c.replicated id
  single : ∀ i j id pos pos', c.thread i = some (id, pos) → c.thread j = some (id, pos') → i = j

theorem inv_init : Inv (init : Cluster D I) := by
  constructor
  · exact List.Pairwise.nil
  · exact Nat.two_pow_pos 31
  · intro h
    exact absurd rfl h
  · intro id hid
    cases hid
  · intro i id pos h
    cases h
  · intro i j id pos pos' h
    cases h

theorem Inv.tick {c : Cluster D I} (h : c.Inv) (hsafe : c.nn.heartbeatCount.toNat + 1 < 2 ^ 31) :
    Inv { c with nn := c.nn.sendHeartbeat } := by
  have hcount : (c.nn.heartbeatCount + 1).toNat = c.nn.heartbeatCount.toNat + 1 := by
    rw [UInt64.toNat_add]
    change (c.nn.heartbeatCount.toNat + 1) % 2 ^ 64 = _
    omega
  have hge : c.nn.hdfsBlock ≠ ∅ → 3 ≤ c.nn.heartbeatCount.toNat := fun hne =>
    UInt64.le_iff_toNat_le.1 (h.count_ge hne)
  constructor
  · exact h.sorted
  · exact hcount ▸ hsafe
  · intro hne
    change 3 ≤ c.nn.heartbeatCount + 1
    rw [UInt64.le_iff_toNat_le, hcount]
    exact (hge hne).trans (Nat.le_succ _)
  · intro id hid bid hbid
    -- with a block in the map the beats are past three, so the list only shrinks
    obtain ⟨v, hmem, hle⟩ := NameNode.mem_getDatanodes.1 hid
    have hthree := hge (Finset.ne_empty_of_mem hbid)
    refine h.all id (NameNode.mem_getDatanodes.2 ⟨v, hmem, ?_⟩) bid hbid
    change c.nn.heartbeatCount + 1 - 3 ≤ v.toInt64.toUInt64 at hle
    rw [UInt64.le_iff_toNat_le, UInt64.toNat_sub_of_le _ _ (h.count_ge (Finset.ne_empty_of_mem hbid))]
    rw [UInt64.le_iff_toNat_le, UInt64.toNat_sub_of_le, hcount] at hle
    · change c.nn.heartbeatCount.toNat - 3 ≤ _
      change c.nn.heartbeatCount.toNat + 1 - 3 ≤ _ at hle
      omega
    · rw [UInt64.le_iff_toNat_le, hcount]
      exact hthree.trans (Nat.le_succ _)
  · exact h.passed
  · exact h.single

theorem Inv.appendBlock {c : Cluster D I} (h : c.Inv) {bid : UInt32} (hcount : 3 ≤ c.nn.heartbeatCount)
    (hahead : ∀ i, ∀ t ∈ c.thread i, ∃ x ∈ t.2, x.toNat < bid.toNat) :
    Inv { c with
      nn := { c.nn with hdfsBlock := insert bid c.nn.hdfsBlock }
      located := fun id => if id ∈ c.nn.getDatanodes then insert bid (c.located id) else c.located id } := by
  constructor
  · exact h.sorted
  · exact h.count_lt
  · intro _
    exact hcount
  · intro id hid b hb
    change id ∈ c.nn.getDatanodes at hid
    dsimp only
    rw [if_pos hid, Finset.mem_insert]
    rcases Finset.mem_insert.1 hb with rfl | hb
    · exact .inl (.inl rfl)
    · exact (h.all id hid b hb).imp_left .inr
  · intro i id pos hi b hb hpassed
    obtain ⟨x, hx, hlt⟩ := hahead i (id, pos) hi
    rcases Finset.mem_insert.1 hb with rfl | hb
    · exact absurd (hpassed x hx) (lt_asymm hlt)
    · exact h.passed i id _ hi b hb hpassed
  · exact h.single

/-- Registration and heartbeat make at most the datanode itself live. -/
theorem Inv.alter {c : Cluster D I} (h : c.Inv) (id : D) (f : Option Int32 → Int32) (hid : c.Holds id) :
    Inv { c with nn := { c.nn with datanode := OrderedMap.alter id f c.nn.datanode } } := by
  constructor
  · exact (h.sorted.alter id f).1
  · exact h.count_lt
  · exact h.count_ge
  · intro id' hid'
    by_cases heq : id' = id
    · rw [heq]
      exact hid
    · obtain ⟨v, hmem, hle⟩ := NameNode.mem_getDatanodes.1 hid'
      dsimp only at hmem
      rw [OrderedMap.mem_iff_get (h.sorted.alter id f).1, OrderedMap.get_alter h.sorted, if_neg heq,
        ← OrderedMap.mem_iff_get h.sorted] at hmem
      exact h.all id' (NameNode.mem_getDatanodes.2 ⟨v, hmem, hle⟩)
  · exact h.passed
  · exact h.single

variable [DecidableEq I]

theorem Inv.register {c : Cluster D I} (h : c.Inv) {i : I} {id : D}
    (hcount : 5 < c.nn.heartbeatCount ∨ c.nn.hdfsBlock = ∅) (hother : ∀ j, ∀ t ∈ c.thread j, t.1 ≠ id)
    (hlisted : id ∉ c.nn.getDatanodes ∨ c.nn.hdfsBlock ⊆ c.located id) :
    Inv { c with
      thread := Function.update c.thread i (some (id, firstBlock c.nn))
      replicated := Function.update c.replicated id ∅ } := by
  constructor
  · exact h.sorted
  · exact h.count_lt
  · exact h.count_ge
  · intro id' hid' bid hbid
    dsimp only
    by_cases heq : id' = id
    · subst heq
      rcases hlisted with hnot | hsub
      · exact absurd hid' hnot
      · exact .inl (hsub hbid)
    · rw [Function.update_of_ne heq]
      exact h.all id' hid' bid hbid
  · intro j id' pos hj bid hbid hpassed
    dsimp only at hj ⊢
    by_cases hji : j = i
    · subst hji
      rw [Function.update_self] at hj
      cases hj
      unfold firstBlock at hpassed
      rcases hcount with hcount | hempty
      · rw [if_pos hcount] at hpassed
        exact absurd (lt_of_passed_firstFrom hbid hpassed) (Nat.not_lt_zero _)
      · exact absurd hbid (hempty ▸ Finset.notMem_empty bid)
    · rw [Function.update_of_ne hji] at hj
      rw [Function.update_of_ne (hother j _ hj)]
      exact h.passed j id' pos hj bid hbid hpassed
  · intro j k id' pos pos' hj hk
    dsimp only at hj hk
    by_cases hji : j = i
    · by_cases hki : k = i
      · rw [hji, hki]
      · rw [hji, Function.update_self] at hj
        rw [Function.update_of_ne hki] at hk
        cases hj
        exact absurd rfl (hother k _ hk)
    · rw [Function.update_of_ne hji] at hj
      by_cases hki : k = i
      · rw [hki, Function.update_self] at hk
        cases hk
        exact absurd rfl (hother j _ hj)
      · rw [Function.update_of_ne hki] at hk
        exact h.single j k id' pos pos' hj hk

theorem Inv.single_update {c : Cluster D I} (h : c.Inv) {i : I} {id : D} {pos : Option UInt32}
    (hi : c.thread i = some (id, pos)) {next : Option (D × Option UInt32)}
    (hnext : ∀ id' pos', next = some (id', pos') → id' = id) (j k : I) (id' : D) (pos₁ pos₂ : Option UInt32)
    (hj : Function.update c.thread i next j = some (id', pos₁))
    (hk : Function.update c.thread i next k = some (id', pos₂)) : j = k := by
  have hback : ∀ l p, Function.update c.thread i next l = some (id', p) →
      ∃ p', c.thread l = some (id', p') := by
    intro l p hl
    by_cases hli : l = i
    · subst hli
      rw [Function.update_self] at hl
      exact ⟨pos, hnext id' p hl ▸ hi⟩
    · rw [Function.update_of_ne hli] at hl
      exact ⟨p, hl⟩
  obtain ⟨p, hp⟩ := hback j pos₁ hj
  obtain ⟨q, hq⟩ := hback k pos₂ hk
  exact h.single j k id' p q hp hq

theorem Inv.replicateBlock {c : Cluster D I} (h : c.Inv) {i : I} {id : D} {bid : UInt32}
    (hi : c.thread i = some (id, some bid)) :
    Inv { c with
      thread := Function.update c.thread i (some (id, firstFrom c.nn.hdfsBlock (bid.toNat + 1)))
      replicated := Function.update c.replicated id (insert bid (c.replicated id)) } := by
  have hgrow : ∀ id', c.replicated id' ⊆ Function.update c.replicated id
      (insert bid (c.replicated id)) id' := by
    intro id'
    by_cases heq : id' = id
    · rw [heq, Function.update_self]
      exact Finset.subset_insert _ _
    · rw [Function.update_of_ne heq]
  constructor
  · exact h.sorted
  · exact h.count_lt
  · exact h.count_ge
  · intro id' hid' b hb
    exact (h.all id' hid' b hb).imp_right fun hb' => hgrow id' hb'
  · intro j id' pos hj b hb hpassed
    dsimp only at hj ⊢
    by_cases hji : j = i
    · subst hji
      rw [Function.update_self] at hj
      cases hj
      rw [Function.update_self, Finset.mem_insert]
      have hle : b.toNat ≤ bid.toNat := Nat.lt_succ_iff.1 (lt_of_passed_firstFrom hb hpassed)
      rcases hle.lt_or_eq with hlt | heq
      · refine .inr (h.passed j id _ hi b hb ?_)
        intro x hx
        cases hx
        exact hlt
      · exact .inl (UInt32.toNat_inj.1 heq)
    · rw [Function.update_of_ne hji] at hj
      exact hgrow id' (h.passed j id' pos hj b hb hpassed)
  · exact h.single_update hi fun id' pos' heq => by cases heq; rfl

theorem Inv.enter {c : Cluster D I} (h : c.Inv) {i : I} {id : D} (hi : c.thread i = some (id, none)) :
    Inv { c with
      nn := c.nn.registerDatanode id
      thread := Function.update c.thread i none } := by
  have hholds : c.Holds id := by
    intro bid hbid
    refine .inr (h.passed i id none hi bid hbid ?_)
    intro x hx
    cases hx
  have halter := h.alter id (fun old => old.getD c.nn.stamp) hholds
  constructor
  · exact halter.sorted
  · exact halter.count_lt
  · exact halter.count_ge
  · exact halter.all
  · intro j id' pos hj
    dsimp only at hj
    by_cases hji : j = i
    · rw [hji, Function.update_self] at hj
      cases hj
    · rw [Function.update_of_ne hji] at hj
      exact h.passed j id' pos hj
  · exact h.single_update hi fun id' pos' heq => by cases heq

theorem Inv.step {c c' : Cluster D I} {m : Move D I} (h : c.Inv) (hsafe : c.Safe m)
    (hstep : c.step m = some c') : c'.Inv := by
  cases m with
  | tick =>
    cases hstep
    exact h.tick hsafe
  | appendBlock bid =>
    cases hstep
    exact h.appendBlock hsafe.1 hsafe.2
  | heartbeat id =>
    cases hstep
    apply h.alter id
    rcases hsafe with hlisted | hholds
    · exact h.all id hlisted
    · exact hholds
  | register i id =>
    simp only [Cluster.step] at hstep
    cases hi : c.thread i with
    | none =>
      rw [hi] at hstep
      cases hstep
      exact h.register hsafe.1 hsafe.2.1 hsafe.2.2
    | some t =>
      rw [hi] at hstep
      cases hstep
  | replicateBlock i =>
    simp only [Cluster.step] at hstep
    split at hstep
    next id bid hi =>
      cases hstep
      exact h.replicateBlock hi
    next => cases hstep
  | enter i =>
    simp only [Cluster.step] at hstep
    split at hstep
    next id hi =>
      cases hstep
      exact h.enter hi
    next => cases hstep

theorem Inv.run {c c' : Cluster D I} {moves : List (Move D I)} (h : c.Inv) (hsafe : c.AllSafe moves)
    (hrun : moves.foldlM Cluster.step c = some c') : c'.Inv := by
  induction moves generalizing c with
  | nil =>
    cases hrun
    exact h
  | cons m moves ih =>
    obtain ⟨c₁, hstep, hrest⟩ := Option.bind_eq_some_iff.1 hrun
    exact ih (h.step hsafe.1 hstep) (hsafe.2 c₁ hstep) hrest

/-- In every state of a run whose steps are all safe every live datanode holds every block. -/
theorem allHold_of_run {c : Cluster D I} {moves : List (Move D I)}
    (hsafe : (init : Cluster D I).AllSafe moves)
    (hrun : moves.foldlM step init = some c) : c.AllHold := (inv_init.run hsafe hrun).all

/-- A block is appended while datanode 0 is live; datanode 1 registers, gets a copy and is live. -/
theorem allHold_of_run_two : ∃ c : Cluster ℕ Unit, 1 ∈ c.nn.getDatanodes ∧ 9 ∈ c.nn.hdfsBlock ∧
    c.Holds 1 := by
  have hsafe : (init : Cluster ℕ Unit).AllSafe [.tick, .tick, .tick, .tick, .tick, .tick,
      .register () 0, .enter (),
      .appendBlock 9, .register () 1, .replicateBlock (), .enter ()] := by decide
  refine ⟨_, ?_, ?_, allHold_of_run hsafe rfl 1 ?_⟩
  · decide
  · decide
  · decide

/-- Datanode 1 registers before the sixth beat: it is live and has no copy of the block. -/
theorem not_allHold_early : ∃ c : Cluster ℕ Unit,
    [.tick, .tick, .tick, .register () 0, .enter (), .appendBlock 9, .register () 1, .enter ()].foldlM
    step init
      = some c ∧ ¬ c.AllHold := by
  refine ⟨_, rfl, fun h => ?_⟩
  have hholds := h 1 (by decide) 9 (by decide)
  revert hholds
  decide

end Cluster
end Yfs.Hdfs
