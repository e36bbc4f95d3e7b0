import CppPlayground.HostBytes
import CppPlayground.ScanText

/-!
# The hello text of a destination

A hello carries the `lid`, `qpn`, `psn` and `gid` of an `app_dest` as colon
separated hexadecimal text. This module follows `get_hello_msg`, `get_dest`
and the two gid conversions at the level of bytes: the host's byte order is a
parameter, `app_dest` is a block of memory with its C layout, and whatever was
in memory before is kept in a `Scratch`, since `get_dest` clears none of it.
A decoding whose last field runs past `tmp_gid` has no result.

Heap blocks are taken to be large enough for what is stored in them.
-/
namespace CppPlayground.HelloText
open HostBytes ScanText

/-- `union ibv_gid`. -/
@[ext] structure Gid where
  raw : List UInt8
  size : raw.length = 16
  deriving DecidableEq

/-- The fields of `app_dest` that a hello carries. `qpn` and `psn` are `int`
in the source; `%x` prints and scans them as 32 unsigned bits. -/
@[ext] structure Dest where
  lid : UInt16
  qpn : UInt32
  psn : UInt32
  gid : Gid
  deriving DecidableEq

def colon : UInt8 := ':'.toUInt8

/-- The literal whose size is allocated and sent. -/
def helloTemplate : String := "0000:000000:000000:00000000000000000000000000000000"

def msgSize : ℕ := helloTemplate.length + 1

/-- `tmp_gid` of `gid_to_wire_gid`: four words loaded in host order. -/
def gidWords (e : Endian) (gid : Gid) : List ℕ :=
  (List.range 4).map fun i => ofBytes e ((gid.raw.drop (4*i)).take 4)

/-- The four `sprintf` calls write at distance eight; each overwrites the NUL
of the one before. -/
def gidToWireGid (e : Endian) (gid : Gid) : List UInt8 :=
  (gidWords e gid).flatMap fun w => printHex 8 (hostToBig e 4 w)

def getHelloMsg (e : Endian) (dest : Dest) : List UInt8 :=
  printHex 4 dest.lid.toNat ++ colon::(printHex 6 dest.qpn.toNat ++
    colon::(printHex 6 dest.psn.toNat ++ colon::gidToWireGid e dest.gid))

/-- The `msg_size` bytes at `hello_msg` that are handed to `sendto`. -/
def helloPayload (e : Endian) (dest : Dest) : List UInt8 :=
  (getHelloMsg e dest ++ [0]).take msgSize

/-- What `sscanf(msg, "%x:%x:%x:%s", ..)` stores; a conversion that is not
reached, or that fails, stores nothing. -/
structure HelloScan where
  lid : Option UInt32 := none
  qpn : Option UInt32 := none
  psn : Option UInt32 := none
  gid : Option (List UInt8) := none
  deriving DecidableEq, Repr

def scanHello (msg : List UInt8) : HelloScan :=
  match scanHex msg with
  | none => {}
  | some (lid, rest) =>
    match (scanChar colon rest).bind scanHex with
    | none => { lid := lid }
    | some (qpn, rest) =>
      match (scanChar colon rest).bind scanHex with
      | none => { lid := lid, qpn := qpn }
      | some (psn, rest) =>
        match (scanChar colon rest).bind scanWord with
        | none => { lid := lid, qpn := qpn, psn := psn }
        | some (gid, _) => { lid := lid, qpn := qpn, psn := psn, gid := gid }

/-- Memory that a decoding may find uninitialised: the `app_dest` block, the
array `tmp_gid` and the word `v32` of `wire_gid_to_gid`. -/
structure Scratch where
  block : Memory
  tmpGid : Memory
  v32 : UInt32

/-- The characters stored into `tmp_gid`, from its first one on. -/
def HelloScan.tmpGidStored (s : HelloScan) : List UInt8 :=
  match s.gid with
  | none => []
  | some word => word ++ [0]

def tmpGidSize : ℕ := 33

def lidOffset : ℕ := 0
def qpnOffset : ℕ := 4
def psnOffset : ℕ := 8

/-- `%x` stores a whole `unsigned int` at the address it is given. -/
def storeUnsigned (e : Endian) (m : Memory) (offset : ℕ) : Option UInt32 → Memory
  | none => m
  | some v => store m offset (toBytes e 4 v.toNat)

def HelloScan.storeInto (s : HelloScan) (e : Endian) (block : Memory) : Memory :=
  storeUnsigned e (storeUnsigned e (storeUnsigned e block lidOffset s.lid) qpnOffset s.qpn)
    psnOffset s.psn

/-- One round of `wire_gid_to_gid`: eight characters are copied and scanned;
`v32` keeps its value when they hold no number. -/
def wgidWord (wgid : Memory) (v32 : UInt32) (i : ℕ) : UInt32 :=
  match scanHex (cString (load wgid (8*i) 8)) with
  | none => v32
  | some (v, _) => v

def wireGidBytes (e : Endian) (wgid : Memory) : List ℕ → UInt32 → List UInt8
  | [], _ => []
  | i::is, v32 =>
      let v := wgidWord wgid v32 i
      toBytes e 4 (hostToBig e 4 v.toNat) ++ wireGidBytes e wgid is v

theorem wireGidBytes_length (e : Endian) (wgid : Memory) (is : List ℕ) (v32 : UInt32) :
    (wireGidBytes e wgid is v32).length = 4*is.length := by
  induction is generalizing v32 with
  | nil => rfl
  | cons i is ih =>
      simp only [wireGidBytes, List.length_append, toBytes_length, ih, List.length_cons]
      omega

def wireGidToGid (e : Endian) (wgid : Memory) (v32 : UInt32) : Gid :=
  ⟨wireGidBytes e wgid (List.range 4) v32, by simp [wireGidBytes_length]⟩

/-- The indices of `wgid` that the four `memcpy` calls read. -/
def wgidReads : List ℕ := (List.range 4).flatMap fun i => (List.range 8).map fun j => 8*i + j

/-- The fields of the block, read back with their own types. -/
def blockDest (e : Endian) (block : Memory) (gid : Gid) : Dest where
  lid := UInt16.ofNat (ofBytes e (load block lidOffset 2))
  qpn := UInt32.ofNat (ofBytes e (load block qpnOffset 4))
  psn := UInt32.ofNat (ofBytes e (load block psnOffset 4))
  gid := gid

def getDest (e : Endian) (scratch : Scratch) (msg : List UInt8) : Option Dest :=
  let scan := scanHello (cString msg)
  if scan.tmpGidStored.length ≤ tmpGidSize then
    some (blockDest e (scan.storeInto e scratch.block)
      (wireGidToGid e (store scratch.tmpGid 0 scan.tmpGidStored) scratch.v32))
  else none

/-- `recvbuf` of `server_receive_event`: zeroed, then filled from the front. -/
def recvbuf (payload : List UInt8) : List UInt8 :=
  payload ++ List.replicate (65536 - payload.length) 0

end CppPlayground.HelloText
