import Yfs.Extent.Server
import Yfs.Lib.Prog

/-! The calls that client code makes, through `extent_client` and through the lock client, and
the extent server that answers them. -/
namespace Yfs.Client
open Yfs.Lib Yfs.Extent

inductive Call where
  | create (type : UInt32)
  | get (id : UInt64)
  | getattr (id : UInt64)
  | put (id : UInt64) (buf : List UInt8)
  | remove (id : UInt64)
  | getBlockIds (id : UInt64)
  | readBlock (bid : UInt32)
  | writeBlock (bid : UInt32) (buf : List UInt8)
  | appendBlock (id : UInt64)
  | complete (id : UInt64) (size : UInt32)
  | acquire (lid : UInt64)
  | release (lid : UInt64)
  deriving DecidableEq

/-- The status of an extent call comes with its result. -/
abbrev Reply : Call → Type
  | .create _ => Status × UInt64
  | .get _ => Status × List UInt8
  | .getattr _ => Status × Attr
  | .put _ _ => Status
  | .remove _ => Status
  | .getBlockIds _ => Status × List UInt32
  | .readBlock _ => Status × List UInt8
  | .writeBlock _ _ => Status
  | .appendBlock _ => Status × UInt32
  | .complete _ _ => Status
  | .acquire _ => Unit
  | .release _ => Unit

abbrev M := Prog Call Reply

abbrev perform (c : Call) : M (Reply c) := Prog.perform c

/-- An extent server with one client: its disk, what the runtime leaves open in the requests to
come, and the locks that the client holds. -/
structure Store where
  disk : Disk
  runtimes : ℕ → Runtime
  held : UInt64 → Bool

namespace Store

def now (s : Store) : Runtime := s.runtimes 0

def next (s : Store) (d : Disk) : Store := { s with disk := d, runtimes := fun n => s.runtimes (n + 1) }

/-- Every call succeeds. `none` is a crash of the server, a failed check of the client, or a wait
for a lock that the client holds itself. -/
def serve : (c : Call) → Store → Option (Reply c × Store)
  | .create type, s =>
    let (id, d) := Server.create s.now type s.disk
    some ((.ok, id), s.next d)
  | .get id, s =>
    match Server.get s.now id s.disk with
    | (some buf, d) => some ((.ok, buf), s.next d)
    | (none, _) => none
  | .getattr id, s => some ((.ok, Server.getattr id s.disk), s.next s.disk)
  | .put id buf, s => some (.ok, s.next (Server.put s.now id buf s.disk))
  | .remove id, s => some (.ok, s.next (Server.remove s.now id s.disk))
  | .getBlockIds id, s => (Server.getBlockIds s.now id s.disk).map fun ids => ((.ok, ids), s.next s.disk)
  | .readBlock bid, s => some ((.ok, Server.readBlock s.now bid s.disk), s.next s.disk)
  | .writeBlock bid buf, s =>
    let (r, d) := Server.writeBlock s.now bid buf s.disk
    some (r, s.next d)
  | .appendBlock id, s =>
    let (bid, d) := Server.appendBlock s.now id s.disk
    some ((.ok, bid.getD s.now.result), s.next d)
  | .complete id size, s => (Server.complete s.now id size s.disk).map fun d => (.ok, s.next d)
  | .acquire lid, s =>
    if s.held lid then none else some ((), { s with held := Function.update s.held lid true })
  | .release lid, s =>
    if s.held lid then some ((), { s with held := Function.update s.held lid false }) else none

@[simp] theorem disk_next (s : Store) (d : Disk) : (s.next d).disk = d := rfl

@[simp] theorem held_next (s : Store) (d : Disk) : (s.next d).held = s.held := rfl

end Store
end Yfs.Client
