import Yfs.Extent.File

/-! The requests of `extent_server`. The state of the server is the disk. -/
namespace Yfs.Extent
open Yfs.Lib

inductive FileType where
  | dir | file | symlink
  deriving DecidableEq, Repr

def FileType.code : FileType → UInt32
  | .dir => 1
  | .file => 2
  | .symlink => 3

inductive Status where
  | ok | rpcerr | noent | ioerr
  deriving DecidableEq, Repr

/-- `id &= 0x7fffffff`, and the conversion to the `uint32_t` of the inode layer. -/
def maskId (id : UInt64) : UInt32 := (id &&& 0x7fffffff).toUInt32

theorem toNat_maskId (id : UInt64) : (maskId id).toNat = id.toNat % 2 ^ 31 := by
  have hand : id.toNat &&& 2147483647 = id.toNat % 2 ^ 31 := Nat.and_two_pow_sub_one_eq_mod id.toNat 31
  rw [maskId, UInt64.toNat_toUInt32, UInt64.toNat_and]
  change (id.toNat &&& 2147483647) % 2 ^ 32 = id.toNat % 2 ^ 31
  omega

namespace Server

/-- A fresh server: the disk is cleared and inode 1 becomes the root directory. -/
def init (rt : Runtime) : Disk := (allocInode rt FileType.dir.code Disk.new).2

def create (rt : Runtime) (type : UInt32) (d : Disk) : UInt64 × Disk :=
  let (inum, d) := allocInode rt type d
  (inum.toUInt64, d)

/-- The string is read through `c_str()`, so a zero byte and then anything follows it; its
length is converted to `int`. -/
def put (rt : Runtime) (id : UInt64) (buf : List UInt8) (d : Disk) : Disk :=
  writeFile rt (maskId id) (Buf.ofList (buf ++ [0]) rt.tail) (Int.bmod buf.length (2 ^ 32)) d

/-- `none` is the exception that `assign` throws for a negative size. -/
def get (rt : Runtime) (id : UInt64) (d : Disk) : Option (List UInt8) × Disk :=
  match readFile rt (maskId id) d with
  | (none, d) => (some [], d)
  | (some (out, size), d) => (if size < 0 then none else some (out.toList size.toNat), d)

def getattr (id : UInt64) (d : Disk) : Attr := Extent.getattr d (maskId id)

def remove (rt : Runtime) (id : UInt64) (d : Disk) : Disk := removeFile rt (maskId id) d

def appendBlock (rt : Runtime) (id : UInt64) (d : Disk) : Option UInt32 × Disk :=
  Extent.appendBlock rt (maskId id) d

def getBlockIds (rt : Runtime) (id : UInt64) (d : Disk) : Option (List UInt32) :=
  Extent.getBlockIds rt (maskId id) d

def readBlock (rt : Runtime) (id : UInt32) (d : Disk) : List UInt8 :=
  (d.readBlock id.toNat rt.out 0).toList blockSize

def writeBlock (rt : Runtime) (id : UInt32) (buf : List UInt8) (d : Disk) : Status × Disk :=
  if buf.length ≠ blockSize then (.ioerr, d)
  else (.ok, d.writeBlock id.toNat (Buf.ofList buf rt.tail))

/-- The id is not masked here. -/
def complete (rt : Runtime) (id : UInt64) (size : UInt32) (d : Disk) : Option Disk :=
  Extent.complete rt id.toUInt32 size d

end Server
end Yfs.Extent
