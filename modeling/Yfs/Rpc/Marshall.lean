import Yfs.Lib.Marshal

/-! The templates of `rpc/marshall.h` and `rpc/rpc.h`: how the arguments and the result of a remote call
travel as bytes. The operators for the basic types and the transport are in a library that is not part of the
sources: they are parameters here, with what is asked of them. -/
namespace Yfs.Rpc
open Yfs.Lib

/-- The operators `<<` and `>>` that `marshall.h` declares. -/
structure Basics where
  int : Marshal Int32
  unsignedInt : Marshal UInt32
  unsignedLongLong : Marshal UInt64
  string : Marshal (List UInt8)
  fits_int : ∀ x, int.Fits x
  fits_unsignedInt : ∀ x, unsignedInt.Fits x
  fits_unsignedLongLong : ∀ x, unsignedLongLong.Fits x
  fits_string : ∀ s : List UInt8, s.length < 2 ^ 31 → string.Fits s

namespace Basics
variable (b : Basics) {C : Type}

/-- `<<` for `std::list` and `std::vector`. -/
def putList (c : Marshal C) (v : List C) : List UInt8 :=
  b.unsignedInt.put (.ofNat v.length) ++ v.flatMap c.put

/-- `>>` for `std::list` and `std::vector`: what is read comes behind what `v` has already. -/
def getList (c : Marshal C) (v : List C) (l : List UInt8) : Option (List C × List UInt8) :=
  (b.unsignedInt.get l).bind fun x => c.getMany x.1.toNat v x.2

private theorem getList_putList {c : Marshal C} {l : List C} (hlt : l.length < 2 ^ 32) (h : ∀ x ∈ l, c.Fits x)
    (v : List C) (rest : List UInt8) : b.getList c v (b.putList c l ++ rest) = some (v ++ l, rest) := by
  have hlen : (UInt32.ofNat l.length).toNat = l.length := by
    rw [UInt32.toNat_ofNat', Nat.mod_eq_of_lt hlt]
  rw [getList, putList, List.append_assoc, b.unsignedInt.get_put _ _ (b.fits_unsignedInt _), Option.bind_some,
    hlen, c.getMany_flatMap h]

def list (c : Marshal C) : Marshal (List C) where
  Fits v := v.length < 2 ^ 32 ∧ ∀ x ∈ v, c.Fits x
  put := b.putList c
  get := b.getList c []
  get_put _ rest h := b.getList_putList h.1 h.2 [] rest

end Basics

/-- A handler of the server takes the arguments as bytes, and returns a status and the result as bytes;
`none` if the server goes down. -/
abbrev Handler (σ : Type) := List UInt8 → σ → Option (Int32 × List UInt8 × σ)

def unmarshalArgsFailure : Int32 := -2

section
variable {σ A R : Type}

/-- `h1::fn` of `rpcs::reg`; the overloads are for one to seven arguments, which are read one after the
other. -/
def reg (args : Marshal A) (res : Marshal R) (meth : A → σ → Option (Int32 × R × σ)) : Handler σ :=
  fun bytes s =>
    match args.get bytes with
    | some (a, []) => (meth a s).map fun x => (x.1, res.put x.2.1, x.2.2)
    | _ => some (unmarshalArgsFailure, [], s)

/-- `rpcc::call1` to a server with these handlers: what comes back for a request of procedure `proc`, and
the state of the server then. -/
abbrev Transport (σ : Type) :=
  List (UInt32 × Handler σ) → UInt32 → List UInt8 → σ → Option (Int32 × List UInt8 × σ)

/-- The handler runs once, on the bytes that were sent, and its answer comes back: no request and no answer
is lost, none arrives twice, and no call is given up. -/
def ExactlyOnce (call1 : Transport σ) : Prop :=
  ∀ procs proc h req s, procs.lookup proc = some h → call1 procs proc req s = h req s

/-- `rpcc::call_m`; `read` is `>>` into the variable of the caller, which holds `r`. The caller goes down with
`VERIFY(0)` if the result is not read to its end. -/
def callM (call1 : Transport σ) (procs : List (UInt32 × Handler σ)) (proc : UInt32) (req : List UInt8)
    (read : R → List UInt8 → Option (R × List UInt8)) (r : R) (s : σ) : Option (Int32 × R × σ) :=
  (call1 procs proc req s).bind fun x =>
    if x.1 < 0 then some (x.1, r, x.2.2)
    else match read r x.2.1 with
      | some (r, []) => some (x.1, r, x.2.2)
      | _ => none

def afresh (res : Marshal R) (_ : R) (l : List UInt8) : Option (R × List UInt8) := res.get l

variable {call1 : Transport σ} {procs : List (UInt32 × Handler σ)} {proc : UInt32} {args : Marshal A}
  {res : Marshal R}
variable {meth : A → σ → Option (Int32 × R × σ)} {read : R → List UInt8 → Option (R × List UInt8)}

/-- A call comes to the method with its arguments, and the result comes back. -/
theorem callM_reg (honce : ExactlyOnce call1) (hproc : procs.lookup proc = some (reg args res meth)) {a : A}
    (ha : args.Fits a) {r : R} {s : σ}
    (hres : ∀ x, meth a s = some x → 0 ≤ x.1 ∧ read r (res.put x.2.1) = some (x.2.1, [])) :
    callM call1 procs proc (args.put a) read r s = meth a s := by
  have hargs : args.get (args.put a) = some (a, []) := by
    have hget := args.get_put a [] ha
    rwa [List.append_nil] at hget
  have hcall : call1 procs proc (args.put a) s = (meth a s).map fun x => (x.1, res.put x.2.1, x.2.2) := by
    rw [honce _ _ _ _ _ hproc, reg, hargs]
  rw [callM, hcall]
  cases hmeth : meth a s with
  | none => rfl
  | some x =>
    obtain ⟨hpos, hread⟩ := hres x hmeth
    dsimp only [Option.map_some, Option.bind_some]
    rw [if_neg (Int32.not_lt.2 hpos), hread]

end
end Yfs.Rpc
