import Yfs.Rpc.Marshall
import Yfs.Client.Call
import Yfs.Extent.RoundTrip
import Yfs.Lib.Hoare

/-! The stubs of `extent_client` and the registrations in `extent_smain.cc`: a call of the client as the
request that the server gets, and its answer. -/
namespace Yfs.Rpc
open Yfs.Lib Yfs.Extent Yfs.Client

def Basics.attr (b : Basics) : Marshal Attr :=
  (b.unsignedInt.pair (b.unsignedInt.pair (b.unsignedInt.pair (b.unsignedInt.pair b.unsignedInt)))).record
    (fun x => ⟨x.1, x.2.1, x.2.2.1, x.2.2.2.1, x.2.2.2.2⟩)
    (fun a => (a.type, a.atime, a.mtime, a.ctime, a.size)) fun _ => rfl

inductive ExtentProc where
  | put | get | getattr | remove | create | getBlockIds | readBlock | writeBlock | appendBlock | complete
  deriving DecidableEq

def ExtentProc.number : ExtentProc → UInt32
  | .put => 0x6001
  | .get => 0x6002
  | .getattr => 0x6003
  | .remove => 0x6004
  | .create => 0x6005
  | .getBlockIds => 0x6006
  | .readBlock => 0x6007
  | .writeBlock => 0x6008
  | .appendBlock => 0x6009
  | .complete => 0x600a

def statusCode : Status → Int32
  | .ok => 0
  | .rpcerr => 1
  | .noent => 2
  | .ioerr => 3

def ofStatusCode (r : Int32) : Option Status :=
  if r = 0 then some .ok
  else if r = 1 then some .rpcerr
  else if r = 2 then some .noent
  else if r = 3 then some .ioerr
  else none

/-- A method of the server that sets its result. -/
def withResult {R : Type} (x : (Status × R) × Store) : Int32 × R × Store := (statusCode x.1.1, x.1.2, x.2)

/-- A method that leaves its `int` as it was. -/
def withoutResult (s : Store) (x : Status × Store) : Int32 × Int32 × Store :=
  (statusCode x.1, s.now.result.toInt32, x.2)

/-- The handlers that `main` of the extent server registers, in its order. -/
def procs (b : Basics) : List (UInt32 × Handler Store) :=
  [(ExtentProc.get.number, reg b.unsignedLongLong b.string fun id s =>
      (Store.serve (.get id) s).map withResult),
    (ExtentProc.getattr.number, reg b.unsignedLongLong b.attr fun id s =>
      (Store.serve (.getattr id) s).map withResult),
    (ExtentProc.put.number, reg (b.unsignedLongLong.pair b.string) b.int fun x s =>
      (Store.serve (.put x.1 x.2) s).map (withoutResult s)),
    (ExtentProc.remove.number, reg b.unsignedLongLong b.int fun id s =>
      (Store.serve (.remove id) s).map (withoutResult s)),
    (ExtentProc.create.number, reg b.unsignedInt b.unsignedLongLong fun type s =>
      (Store.serve (.create type) s).map withResult),
    (ExtentProc.getBlockIds.number, reg b.unsignedLongLong (b.list b.unsignedInt) fun id s =>
      (Store.serve (.getBlockIds id) s).map withResult),
    (ExtentProc.readBlock.number, reg b.unsignedInt b.string fun bid s =>
      (Store.serve (.readBlock bid) s).map withResult),
    (ExtentProc.writeBlock.number, reg (b.unsignedInt.pair b.string) b.int fun x s =>
      (Store.serve (.writeBlock x.1 x.2) s).map (withoutResult s)),
    (ExtentProc.appendBlock.number, reg b.unsignedLongLong b.unsignedInt fun id s =>
      (Store.serve (.appendBlock id) s).map withResult),
    (ExtentProc.complete.number, reg (b.unsignedLongLong.pair b.unsignedInt) b.int fun x s =>
      (Store.serve (.complete x.1 x.2) s).map (withoutResult s))]

/-- What a stub with a result returns. -/
def stubResult {R : Type} (x : Int32 × R × Store) : Option ((Status × R) × Store) :=
  (ofStatusCode x.1).map fun r => ((r, x.2.1), x.2.2)

/-- What a stub without a result returns. -/
def stubStatus (x : Int32 × Int32 × Store) : Option (Status × Store) :=
  (ofStatusCode x.1).map fun r => (r, x.2.2)

/-- `put` and `remove` end with `VERIFY(ret == extent_protocol::OK)`. -/
def verified (x : Status × Store) : Option (Status × Store) := if x.1 = .ok then some x else none

/-- The stubs. Locks are not in the hands of the extent server. -/
def extentClient (call1 : Transport Store) (b : Basics) : (c : Call) → Store → Option (Reply c × Store)
  | .create type, s =>
    (callM call1 (procs b) ExtentProc.create.number (b.unsignedInt.put type) (afresh b.unsignedLongLong) 0
      s).bind stubResult
  | .get id, s =>
    (callM call1 (procs b) ExtentProc.get.number (b.unsignedLongLong.put id) (afresh b.string) [] s).bind
      stubResult
  | .getattr id, s =>
    (callM call1 (procs b) ExtentProc.getattr.number (b.unsignedLongLong.put id) (afresh b.attr)
      ⟨0, 0, 0, 0, 0⟩ s).bind stubResult
  | .put id buf, s =>
    ((callM call1 (procs b) ExtentProc.put.number ((b.unsignedLongLong.pair b.string).put (id, buf))
      (afresh b.int) 0 s).bind stubStatus).bind verified
  | .remove id, s =>
    ((callM call1 (procs b) ExtentProc.remove.number (b.unsignedLongLong.put id) (afresh b.int) 0 s).bind
      stubStatus).bind verified
  | .getBlockIds id, s =>
    (callM call1 (procs b) ExtentProc.getBlockIds.number (b.unsignedLongLong.put id)
      (b.getList b.unsignedInt) [] s).bind stubResult
  | .readBlock bid, s =>
    (callM call1 (procs b) ExtentProc.readBlock.number (b.unsignedInt.put bid) (afresh b.string) [] s).bind
      stubResult
  | .writeBlock bid buf, s =>
    (callM call1 (procs b) ExtentProc.writeBlock.number ((b.unsignedInt.pair b.string).put (bid, buf))
      (afresh b.int) 0 s).bind stubStatus
  | .appendBlock id, s =>
    (callM call1 (procs b) ExtentProc.appendBlock.number (b.unsignedLongLong.put id) (afresh b.unsignedInt) 0
      s).bind stubResult
  | .complete id size, s =>
    (callM call1 (procs b) ExtentProc.complete.number ((b.unsignedLongLong.pair b.unsignedInt).put (id, size))
      (afresh b.int) 0 s).bind stubStatus
  | .acquire lid, s => Store.serve (.acquire lid) s
  | .release lid, s => Store.serve (.release lid) s

theorem ofStatusCode_statusCode (r : Status) : ofStatusCode (statusCode r) = some r := by
  cases r <;> rfl

theorem statusCode_nonneg (r : Status) : 0 ≤ statusCode r := by
  cases r <;> decide

section
variable {call1 : Transport Store} {b : Basics} {A R : Type} {proc : UInt32} {args : Marshal A}
  {res : Marshal R} {a : A} {s : Store}

private theorem stubResult_withResult (x : (Status × R) × Store) : stubResult (withResult x) = some x := by
  rw [stubResult, withResult, ofStatusCode_statusCode, Option.map_some]

theorem stubStatus_withoutResult (s : Store) (x : Status × Store) :
    stubStatus (withoutResult s x) = some x := by
  rw [stubStatus, withoutResult, ofStatusCode_statusCode, Option.map_some]

theorem get_put_nil {res : Marshal R} {r : R} (h : res.Fits r) : res.get (res.put r) = some (r, []) := by
  have hget := res.get_put r [] h
  rwa [List.append_nil] at hget

theorem bind_stubResult {f : A → Store → Option ((Status × R) × Store)}
    {read : R → List UInt8 → Option (R × List UInt8)} {r : R}
    (honce : ExactlyOnce call1) (ha : args.Fits a)
    (hproc : (procs b).lookup proc = some (reg args res fun a s => (f a s).map withResult))
    (hres : ∀ x, f a s = some x → read r (res.put x.1.2) = some (x.1.2, [])) :
    (callM call1 (procs b) proc (args.put a) read r s).bind stubResult = f a s := by
  rw [callM_reg honce hproc ha]
  · cases f a s with
    | none => rfl
    | some x => exact stubResult_withResult x
  · intro x hx
    obtain ⟨y, hy, rfl⟩ := Option.map_eq_some_iff.1 hx
    exact ⟨statusCode_nonneg _, hres y hy⟩

theorem bind_stubStatus {f : A → Store → Option (Status × Store)}
    (honce : ExactlyOnce call1) (ha : args.Fits a)
    (hproc : (procs b).lookup proc = some (reg args b.int fun a s => (f a s).map (withoutResult s))) :
    (callM call1 (procs b) proc (args.put a) (afresh b.int) 0 s).bind stubStatus = f a s := by
  rw [callM_reg honce hproc ha]
  · cases f a s with
    | none => rfl
    | some x => exact stubStatus_withoutResult s x
  · intro x hx
    obtain ⟨y, hy, rfl⟩ := Option.map_eq_some_iff.1 hx
    exact ⟨statusCode_nonneg _, get_put_nil (b.fits_int _)⟩

theorem length_get_lt {rt : Runtime} {id : UInt64} {d : Disk} {buf : List UInt8}
    (h : (Server.get rt id d).1 = some buf) : buf.length < 2 ^ 31 := by
  cases hino : getInode d (maskId id) with
  | none =>
    rw [Server.get, readFile, hino] at h
    cases h
    exact Nat.two_pow_pos 31
  | some ino =>
    rw [Server.get, readFile, hino] at h
    dsimp only at h
    have hlt := Int.bmod_lt (x := (ino.size.toNat : ℤ)) (m := 2 ^ 32) (by decide)
    generalize Int.bmod (ino.size.toNat : ℤ) (2 ^ 32) = size at h hlt
    by_cases hneg : size < 0
    · rw [if_pos hneg] at h
      cases h
    · rw [if_neg hneg] at h
      rw [← Option.some.inj h, Buf.length_toList]
      omega

theorem length_getBlockIds_lt {rt : Runtime} {id : UInt64} {d : Disk} {ids : List UInt32}
    (h : Server.getBlockIds rt id d = some ids) : ids.length < 2 ^ 32 := by
  obtain ⟨ino, -, rfl⟩ := Option.map_eq_some_iff.1 h
  have hsize := ino.size.toNat_lt
  have hcount : blockCount ino.size.toNat < 2 ^ 32 := by
    unfold blockCount blockSize
    split_ifs <;> omega
  dsimp only
  split_ifs with hdirect
  · rwa [List.length_map, List.length_range]
  · rw [List.length_append, List.length_map, List.length_map, List.length_range, List.length_range]
    omega

end

/-- The strings that are sent have a length that is an `int`. -/
def CallFits : Call → Prop
  | .put _ buf => buf.length < 2 ^ 31
  | .writeBlock _ buf => buf.length < 2 ^ 31
  | _ => True

theorem extentClient_eq {call1 : Transport Store} (honce : ExactlyOnce call1) (b : Basics) {c : Call}
    (h : CallFits c) (s : Store) : extentClient call1 b c s = Store.serve c s := by
  cases c with
  | create type =>
    exact bind_stubResult (f := fun type s => Store.serve (.create type) s) honce
      (b.fits_unsignedInt type) rfl fun x _ => get_put_nil (b.fits_unsignedLongLong _)
  | get id =>
    refine bind_stubResult (f := fun id s => Store.serve (.get id) s) honce
      (b.fits_unsignedLongLong id) rfl ?_
    intro x hx
    refine get_put_nil (b.fits_string _ ?_)
    dsimp only [Store.serve] at hx
    split at hx
    · cases hx
      exact length_get_lt (congrArg Prod.fst ‹_›)
    · cases hx
  | getattr id =>
    exact bind_stubResult (f := fun id s => Store.serve (.getattr id) s) honce
      (b.fits_unsignedLongLong id) rfl fun x _ => get_put_nil ⟨b.fits_unsignedInt _, b.fits_unsignedInt _,
        b.fits_unsignedInt _, b.fits_unsignedInt _, b.fits_unsignedInt _⟩
  | put id buf =>
    have hargs : (b.unsignedLongLong.pair b.string).Fits (id, buf) :=
      ⟨b.fits_unsignedLongLong id, b.fits_string buf h⟩
    rw [extentClient, bind_stubStatus (f := fun x s => Store.serve (.put x.1 x.2) s) honce hargs rfl,
      Store.serve, Option.bind_some, verified, if_pos rfl]
  | remove id =>
    rw [extentClient, bind_stubStatus (f := fun id s => Store.serve (.remove id) s) honce
      (b.fits_unsignedLongLong id) rfl, Store.serve, Option.bind_some, verified, if_pos rfl]
  | getBlockIds id =>
    refine bind_stubResult (f := fun id s => Store.serve (.getBlockIds id) s) honce
      (b.fits_unsignedLongLong id) rfl ?_
    intro x hx
    obtain ⟨ids, hids, rfl⟩ := Option.map_eq_some_iff.1 hx
    have hfits : (b.list b.unsignedInt).Fits ids :=
      ⟨length_getBlockIds_lt hids, fun id _ => b.fits_unsignedInt id⟩
    exact get_put_nil hfits
  | readBlock bid =>
    refine bind_stubResult (f := fun bid s => Store.serve (.readBlock bid) s) honce
      (b.fits_unsignedInt bid) rfl ?_
    intro x hx
    cases hx
    refine get_put_nil (b.fits_string _ ?_)
    rw [Server.readBlock, Buf.length_toList]
    decide
  | writeBlock bid buf =>
    have hargs : (b.unsignedInt.pair b.string).Fits (bid, buf) :=
      ⟨b.fits_unsignedInt bid, b.fits_string buf h⟩
    rw [extentClient, bind_stubStatus (f := fun x s => Store.serve (.writeBlock x.1 x.2) s) honce hargs rfl]
  | appendBlock id =>
    exact bind_stubResult (f := fun id s => Store.serve (.appendBlock id) s) honce
      (b.fits_unsignedLongLong id) rfl fun x _ => get_put_nil (b.fits_unsignedInt _)
  | complete id size =>
    have hargs : (b.unsignedLongLong.pair b.unsignedInt).Fits (id, size) :=
      ⟨b.fits_unsignedLongLong id, b.fits_unsignedInt size⟩
    rw [extentClient, bind_stubStatus (f := fun x s => Store.serve (.complete x.1 x.2) s) honce hargs rfl]
  | acquire lid => rfl
  | release lid => rfl

/-- Over a transport that delivers each request once, a program runs through the stubs as it runs with the
server at hand, to its end or into a crash, if the strings that it sends are not too long. -/
theorem rpc_transparent {call1 : Transport Store} (honce : ExactlyOnce call1) (b : Basics) {α : Type}
    {p : M α} {s : Store}
    (h : p.Wp (fun c _ => CallFits c) (fun c s r s' => Store.serve c s = some (r, s')) (fun _ _ => True) s) :
    p.run (extentClient call1 b) s = p.run Store.serve s := by
  induction p generalizing s with
  | pure a => rfl
  | call c next ih =>
    obtain ⟨hfits, hnext⟩ := h
    rw [Prog.run, Prog.run, extentClient_eq honce b hfits]
    cases hserve : Store.serve c s with
    | none => rfl
    | some x => exact ih x.1 (hnext x.1 x.2 hserve)

/-- Words in network order, and strings behind their length. -/
def networkOrder : Basics where
  int := .int32
  unsignedInt := .uint32
  unsignedLongLong := .uint64
  string := .text
  fits_int _ := trivial
  fits_unsignedInt _ := trivial
  fits_unsignedLongLong _ := trivial
  fits_string _ _ := trivial

def direct : Transport Store := fun procs proc req s => (procs.lookup proc).bind fun h => h req s

private theorem exactlyOnce_direct : ExactlyOnce direct := by
  intro procs proc h req s hproc
  rw [direct, hproc, Option.bind_some]

def putThenGet : M (Status × List UInt8) := do
  let _ ← perform (.put 1 [104, 105])
  perform (.get 1)

theorem rpc_transparent_put :
    putThenGet.run (extentClient direct networkOrder) ⟨Server.init quiet, fun _ => quiet, fun _ => false⟩ =
      putThenGet.run Store.serve ⟨Server.init quiet, fun _ => quiet, fun _ => false⟩ := by
  have hshort : ([104, 105] : List UInt8).length < 2 ^ 31 := by decide
  exact rpc_transparent exactlyOnce_direct networkOrder ⟨hshort, fun _ _ _ => ⟨trivial, fun _ _ _ => trivial⟩⟩

end Yfs.Rpc
