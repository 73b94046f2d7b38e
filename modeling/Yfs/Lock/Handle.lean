import Yfs.Lib.Refs
import Mathlib.Data.List.Chain
import Mathlib.Logic.Relation

/-! The cache of connections of `handle.cc`. A `handle` points to an `hinfo` that it shares with
the other handles for its destination; `handle_mgr` counts them and frees the `hinfo` of a
destination that is to be dropped with the last of them. Destinations, addresses, handle objects
and clients are types of their own. -/
namespace Yfs.Lock
open Yfs.Lib

structure HInfo (M X : Type) where
  cl : Option X
  /-- An `int`, which wraps around. -/
  refcnt : Int32
  del : Bool
  m : M

/-- The `hinfo` objects in memory, and `hmap`. -/
structure HandleMgr (M P X : Type) where
  heap : P → Option (HInfo M X)
  hmap : M → Option P

/-- How far `safebind` gets without a bind. -/
inductive Entered (X : Type)
  | returns (cl : Option X)
  | binds

namespace HandleMgr
variable {M P X : Type}

def empty : HandleMgr M P X := ⟨fun _ => none, fun _ => none⟩

variable [DecidableEq P]

def set (g : HandleMgr M P X) (a : P) (i : HInfo M X) : HandleMgr M P X :=
  { g with heap := Function.update g.heap a (some i) }

variable [DecidableEq M]

def add (g : HandleMgr M P X) (m : M) (p : P) : HandleMgr M P X where
  heap := Function.update g.heap p (some ⟨none, 1, false, m⟩)
  hmap := Function.update g.hmap m (some p)

def remove (g : HandleMgr M P X) (m : M) (a : P) : HandleMgr M P X where
  heap := Function.update g.heap a none
  hmap := Function.update g.hmap m none

/-- The result is the pointer, if it is not `NULL`, and the manager; there is none if freed memory
is used. `p` is where `new` puts a new object. -/
def getHandle (g : HandleMgr M P X) (m : M) (p : P) : Option (Option P × HandleMgr M P X) :=
  match g.hmap m with
  | none => some (some p, g.add m p)
  | some a => do
    let h ← g.heap a
    if !h.del then some (some a, g.set a { h with refcnt := h.refcnt + 1 }) else some (none, g)

def deleteHandleWo (g : HandleMgr M P X) (m : M) : Option (HandleMgr M P X) :=
  match g.hmap m with
  | none => some g
  | some a => do
    let h ← g.heap a
    if h.refcnt = 0 then some (g.remove m a) else some (g.set a { h with del := true })

def deleteHandle (g : HandleMgr M P X) (m : M) : Option (HandleMgr M P X) := g.deleteHandleWo m

def doneHandle (g : HandleMgr M P X) (a : P) : Option (HandleMgr M P X) := do
  let h ← g.heap a
  let g := g.set a { h with refcnt := h.refcnt - 1 }
  if h.refcnt - 1 = 0 ∧ h.del then g.deleteHandleWo h.m else some g

def destroy (g : HandleMgr M P X) : Option P → Option (HandleMgr M P X)
  | none => some g
  | some a => g.doneHandle a

def safebind (g : HandleMgr M P X) : Option P → Option (Entered X)
  | none => some (.returns none)
  | some a => do
    let h ← g.heap a
    if h.del then some (.returns none)
    else if h.cl.isSome then some (.returns h.cl)
    else some .binds

/-- `safebind` behind the bind of the new client `cl`: the result and the manager. -/
def bound (g : HandleMgr M P X) (a : P) (cl : X) (ret : Int32) : Option (Option X × HandleMgr M P X) := do
  let h ← g.heap a
  let h := if ret < 0 then { h with del := true } else { h with cl := some cl }
  some (h.cl, g.set a h)

end HandleMgr

/-- The handles of a program. -/
structure Handles (H M P X : Type) where
  mgr : HandleMgr M P X
  /-- The handle objects that exist. -/
  live : Finset H
  /-- Their member `h`. -/
  h : H → Option P
  /-- Those that wait for a bind, with `cl_mutex` held. -/
  binding : Finset H
  /-- The destinations with a failed bind or a `delete_handle` since a handle last got an entry for
  them. -/
  dropped : M → Bool

namespace Handles
variable {H M P X : Type} [DecidableEq H] [DecidableEq M] [DecidableEq P]

def init : Handles H M P X := ⟨.empty, ∅, fun _ => none, ∅, fun _ => false⟩

/-- What may happen next. An operation that would use freed memory has no step. -/
inductive Step (s : Handles H M P X) : Handles H M P X → Prop
  | construct {x : H} {m : M} {p : P} {r : Option P} {g : HandleMgr M P X} (hx : x ∉ s.live)
      (hp : s.mgr.hmap m = none → s.mgr.heap p = none) (hget : s.mgr.getHandle m p = some (r, g)) :
      Step s { s with
        mgr := g
        live := insert x s.live
        h := Function.update s.h x r
        dropped := if r = none then s.dropped else Function.update s.dropped m false }
  | safebind {x : H} {cl : Option X} (hx : x ∈ s.live) (hmutex : ∀ y ∈ s.binding, s.h y ≠ s.h x)
      (hbind : s.mgr.safebind (s.h x) = some (.returns cl)) : Step s s
  | bind {x : H} (hx : x ∈ s.live) (hmutex : ∀ y ∈ s.binding, s.h y ≠ s.h x)
      (hbind : s.mgr.safebind (s.h x) = some .binds) :
      Step s { s with binding := insert x s.binding }
  | bound {x : H} {a : P} {i : HInfo M X} {cl : X} {ret : Int32} {r : Option X}
      {g : HandleMgr M P X} (hx : x ∈ s.binding) (ha : s.h x = some a) (hi : s.mgr.heap a = some i)
      (hret : s.mgr.bound a cl ret = some (r, g)) :
      Step s { s with
        mgr := g
        binding := s.binding.erase x
        dropped := if ret < 0 then Function.update s.dropped i.m true else s.dropped }
  | destroy {x : H} {g : HandleMgr M P X} (hx : x ∈ s.live) (hidle : x ∉ s.binding)
      (hdone : s.mgr.destroy (s.h x) = some g) :
      Step s { s with mgr := g, live := s.live.erase x }
  | delete {m : M} {g : HandleMgr M P X} (hdel : s.mgr.deleteHandle m = some g) :
      Step s { s with mgr := g, dropped := Function.update s.dropped m true }

def Run (l : List (Handles H M P X)) : Prop := List.IsChain Step (init :: l)

def count (s : Handles H M P X) (a : P) : ℕ := refs s.live s.h a

/-- The handles are counted, what they point to is there, no operation uses freed memory, and a
dropped destination without handles can be used again. -/
structure Sound (s : Handles H M P X) : Prop where
  counted : ∀ m a, s.mgr.hmap m = some a →
    ∃ i, s.mgr.heap a = some i ∧ i.m = m ∧ i.refcnt.toInt = s.count a
  kept : ∀ x ∈ s.live, ∀ a, s.h x = some a → ∃ i, s.mgr.heap a = some i ∧ s.mgr.hmap i.m = some a
  defined : (∀ m p, s.mgr.getHandle m p ≠ none) ∧ (∀ m, s.mgr.deleteHandle m ≠ none) ∧
    ∀ x ∈ s.live, s.mgr.destroy (s.h x) ≠ none ∧ s.mgr.safebind (s.h x) ≠ none ∧
      ∀ a, s.h x = some a → ∀ cl ret, s.mgr.bound a cl ret ≠ none
  fresh : ∀ m, s.dropped m = true → (∀ x ∈ s.live, ∀ a, s.h x = some a → s.mgr.hmap m ≠ some a) →
    ∀ p, s.mgr.heap p = none → ∃ g, s.mgr.getHandle m p = some (some p, g) ∧
      g.hmap m = some p ∧ g.heap p = some ⟨none, 1, false, m⟩

end Handles
end Yfs.Lock
