import Yfs.Client.Linear
import Yfs.Lock.Calls

/-! The clients over the lock service as it is: each `acquire` and `release` goes through the cache of the
client process and the lock server, one mutex-protected section at a time. A cluster shows no history that
clients with atomic locks do not show. -/
namespace Yfs.Client.Atomic
open Yfs.Lib Yfs.Extent

/-- Processes `C` with threads `T` over one extent and one lock server. A thread that is in a lock call has
that call at the head of what it has left. -/
structure Cluster (C T : Type) where
  locks : Lock.World C T UInt64
  files : Files
  run : C × T → Option (Op × M Out)
  known : Set UInt64

variable {C T : Type}

def Cluster.start (C T : Type) (files : Files) : Cluster C T :=
  ⟨.init, files, fun _ => none, {id | files id ≠ none}⟩

def returned : Option (Op × M Out) → Option (Op × M Out)
  | some (op, .call (.acquire _) next) => some (op, next ())
  | some (op, .call (.release _) next) => some (op, next ())
  | rest => rest

/-- A thread calls an operation, gets an answer from the extent server, begins a lock call, goes on in it,
wakes up without a signal, or returns. -/
inductive Cluster.Step [LinearOrder C] [DecidableEq T] :
    Cluster C T → Option (Event (C × T)) → Cluster C T → Prop
  | invoke {c : Cluster C T} {p : C × T} {op : Op} (hidle : c.run p = none) (hknown : op.ino ∈ c.known)
      (hfits : op.Fits c.files) :
      Step c (some (.invoke p op)) { c with run := Function.update c.run p (some (op, op.call)) }
  | extent {c : Cluster C T} {p : C × T} {op : Op} {k : Call} {next : Reply k → M Out} {r : Reply k}
      {files' : Files} (hrun : c.run p = some (op, .call k next)) (hserve : Files.serve k c.files r files') :
      Step c none { c with files := files', run := Function.update c.run p (some (op, next r)) }
  | acquire {c : Cluster C T} {p : C × T} {op : Op} {lid : UInt64} {next : Reply (.acquire lid) → M Out}
      {locks' : Lock.World C T UInt64} (hrun : c.run p = some (op, .call (.acquire lid) next))
      (hstep : c.locks.step lid (.acquire p) = some locks') : Step c none { c with locks := locks' }
  | release {c : Cluster C T} {p : C × T} {op : Op} {lid : UInt64} {next : Reply (.release lid) → M Out}
      {locks' : Lock.World C T UInt64} (hrun : c.run p = some (op, .call (.release lid) next))
      (hstep : c.locks.step lid (.release p) = some locks') : Step c none { c with locks := locks' }
  | goOn {c : Cluster C T} {p : C × T} {lid : UInt64} {locks' : Lock.World C T UInt64}
      (hstep : c.locks.step lid (.run p) = some locks') :
      Step c none { c with
        locks := locks'
        run := Function.update c.run p (if locks'.current p = none then returned (c.run p) else c.run p) }
  | spurious {c : Cluster C T} {p : C × T} {lid : UInt64} {locks' : Lock.World C T UInt64}
      (hstep : c.locks.step lid (.spurious p) = some locks') : Step c none { c with locks := locks' }
  | ret {c : Cluster C T} {p : C × T} {op : Op} {out : Out} (hrun : c.run p = some (op, .pure out)) :
      Step c (some (.ret p op out)) { c with run := Function.update c.run p none, known := c.known ∪ out.new }

/-- What a thread has left in the cluster, and with atomic locks: there `acquire` happens when it returns and
`release` when it is called. -/
inductive Stands (locks : Lock.World C T UInt64) (p : C × T) :
    Option (Op × M Out) → Option (Op × M Out) → Prop
  | out {x : Option (Op × M Out)} (h : locks.current p = none) : Stands locks p x x
  | acquire (op : Op) {lid : UInt64} (next : Reply (.acquire lid) → M Out) (h : locks.InAcquire p lid) :
      Stands locks p (some (op, .call (.acquire lid) next)) (some (op, .call (.acquire lid) next))
  | release (op : Op) {lid : UInt64} (next : Reply (.release lid) → M Out) (h : locks.InRelease p lid) :
      Stands locks p (some (op, .call (.release lid) next)) (some (op, next ()))

section
variable {locks locks' : Lock.World C T UInt64} {q : C × T} {x y : Option (Op × M Out)}

theorem Stands.congr (h : Stands locks q x y) (hstays : locks.Stays locks' q) : Stands locks' q x y := by
  cases h with
  | out h => exact .out (hstays.current.trans h)
  | acquire op next h => exact .acquire op next (h.congr hstays)
  | release op next h => exact .release op next (h.congr hstays)

end

section
variable [LinearOrder C]

/-- The cluster with atomic locks in place of the lock service. -/
structure Abstracts (c : Cluster C T) (s : Clients (C × T)) : Prop where
  inv : c.locks.Inv
  files : s.world.files = c.files
  holds : c.locks.HeldBy s.world.lock
  known : s.known = c.known
  thread : ∀ p, Stands c.locks p (c.run p) (s.run p)

variable {c c' : Cluster C T} {s : Clients (C × T)} {p : C × T} {op : Op} {lid : UInt64}
  {locks' : Lock.World C T UInt64}

variable [DecidableEq T]

theorem Abstracts.thread_update (h : Abstracts c s) {x y : Option (Op × M Out)} (hp : Stands locks' p x y)
    (hother : ∀ q, q ≠ p → c.locks.Stays locks' q) (q : C × T) :
    Stands locks' q (Function.update c.run p x q) (Function.update s.run p y q) := by
  by_cases hq : q = p
  · subst hq
    rw [Function.update_self, Function.update_self]
    exact hp
  · rw [Function.update_of_ne hq, Function.update_of_ne hq]
    exact (h.thread q).congr (hother q hq)

theorem Abstracts.move (h : Abstracts c s) {e : Lock.Event C T} (hstep : c.locks.step lid e = some locks')
    {lock' : UInt64 → Option (C × T)} (hholds : locks'.HeldBy lock') {x y : Option (Op × M Out)}
    (hp : Stands locks' e.thread x y) :
    Abstracts ⟨locks', c.files, Function.update c.run e.thread x, c.known⟩
      ⟨⟨s.world.files, lock'⟩, Function.update s.run e.thread y, s.known⟩ :=
  ⟨h.inv.step ⟨lid, e, hstep⟩, h.files, hholds, h.known,
    h.thread_update hp fun _ hq => Lock.World.step_frame hstep hq⟩

theorem Abstracts.stay (h : Abstracts c s) {e : Lock.Event C T} (hstep : c.locks.step lid e = some locks')
    (hsame : c.locks.SameHolders locks') {x : Option (Op × M Out)}
    (hp : Stands locks' e.thread x (s.run e.thread)) :
    Abstracts ⟨locks', c.files, Function.update c.run e.thread x, c.known⟩ s := by
  have hmove := h.move hstep (h.holds.same hsame) hp
  rwa [Function.update_eq_self] at hmove

end

end Yfs.Client.Atomic
