import CppPlayground.DestRecord
import CppPlayground.Dialogue

/-!
# Exchanging the destinations of queue pairs

`pp_client_exch_dest`, `pp_server_exch_dest` and what `main` does with their
result, for the programs with one queue pair and for `srq_pingpong.c`, whose
programs exchange `MAX_QP` records with loops of reads. The functions are
programs over the connection; where one goes on is passed to it, so that every
`goto out` is a branch. Setting up the connection is left out, and
`close(sockfd)` is the end of a program.

`pp_connect_ctx` is its list of calls into the verbs library, made in order
until one fails; with what it is made of it differs from program to program.
-/
namespace CppPlayground.DestExchange
open HostBytes HelloText DestRecord Dialogue

/-- `struct pingpong_dest`. `%x` prints and scans its `int` fields as 32
unsigned bits. -/
@[ext] structure Dest where
  lid : UInt32
  qpn : UInt32
  psn : UInt32
  gid : Gid
  deriving DecidableEq

/-- What `main` makes `my_dest` of: the port's `lid`, the number of a queue
pair, which has 24 bits, what `lrand48` returned, and the port's gid. -/
structure Own where
  lid : UInt16
  qpNum : BitVec 24
  random : UInt32
  gid : Gid
  deriving DecidableEq

def Own.dest (own : Own) : Dest :=
  ⟨own.lid.toUInt32, UInt32.ofNat own.qpNum.toNat, own.random &&& 0xffffff, own.gid⟩

def Dest.fields (d : Dest) : List (ℕ × UInt32) := [(4, d.lid), (6, d.qpn), (6, d.psn)]

/-- The `sizeof msg` bytes that are written. -/
def Dest.msg (e : Endian) (d : Dest) : List UInt8 := (printRecord e d.fields d.gid).take msgSize

/-- `sscanf` and `wire_gid_to_gid` into a destination that was there before. -/
def Dest.scan (e : Endian) (before : Dest) (scratch : GidScratch) (msg : List UInt8) :
    Option Dest :=
  (scanRecord e 3 scratch msg).map fun row =>
    ⟨row.1.getD 0 before.lid, row.1.getD 1 before.qpn, row.1.getD 2 before.psn, row.2⟩

/-- `"done"` with its NUL. -/
def doneMsg : List UInt8 := ['d', 'o', 'n', 'e'].map Char.toUInt8 ++ [0]

/-- `gid.global.interface_id` is not zero. -/
def hasInterfaceId (gid : Gid) : Bool := (gid.raw.drop 8).any (· != 0)

/-- The fields of `ah_attr` that depend on the destination; a gid is there when
`is_global` is set. -/
structure PathAttr where
  dlid : UInt16
  dgid : Option Gid
  deriving DecidableEq

def pathAttr (lid : UInt32) (gid : Gid) : PathAttr :=
  ⟨lid.toUInt16, if hasInterfaceId gid then some gid else none⟩

/-- Calls that may fail: `malloc`, `ibv_modify_qp` on the `i`-th queue pair to
RTR and to RTS, and `ibv_create_ah`. A queue pair that is not connected has no
peer in its attributes. -/
inductive Call where
  | malloc
  | rtr (i : ℕ) (peer : Option (UInt32 × UInt32 × PathAttr))
  | rts (i : ℕ) (sqPsn : UInt32)
  | createAh (attr : PathAttr)
  deriving DecidableEq

abbrev Talk (δ : Type) := Prog UInt8 Call δ

/-- `pp_connect_ctx` of `rc_pingpong.c` and `uc_pingpong.c`. -/
def rcConnectCtx (myPsn : UInt32) (dest : Dest) : List Call :=
  [.rtr 0 (some (dest.qpn, dest.psn, pathAttr dest.lid dest.gid)), .rts 0 myPsn]

/-- `pp_connect_ctx` of `ud_pingpong.c`. -/
def udConnectCtx (myPsn : UInt32) (dest : Dest) : List Call :=
  [.rtr 0 none, .rts 0 myPsn, .createAh (pathAttr dest.lid dest.gid)]

/-- `pp_connect_ctx` of `srq_pingpong.c`, which takes the gid of the first
destination for all of them. -/
def srqConnectCtx (numQp : ℕ) (myDest dest : ℕ → Dest) : List Call :=
  (List.range numQp).flatMap fun i =>
    [.rtr i (some ((dest i).qpn, (dest i).psn, pathAttr (dest i).lid (dest 0).gid)),
      .rts i (myDest i).psn]

/-- How a program ends: `main` returns 1, or goes on to its messages with the
remote destination; or an array was read past its end. -/
inductive Exit (δ : Type) where
  | failed
  | overrun
  | ready (remDest : δ)
  deriving DecidableEq

/-- The host of a program and what its memory held. -/
structure Host where
  endian : Endian
  before : ℕ → Dest
  scratch : ℕ → GidScratch

section Single
variable (host : Host) (myDest : Dest) (connectCtx : Dest → List Call)

def ppClientExchDest (next : Option Dest → Talk (Exit Dest)) : Talk (Exit Dest) :=
  .write (myDest.msg host.endian) fun ok =>
    if ok then .read msgSize msgSize fun r =>
      match r with
      | none => next none
      | some msg => .write doneMsg fun ok =>
        if ok then .call .malloc fun ok =>
          if ok then
            match Dest.scan host.endian (host.before 0) (host.scratch 0) msg with
            | none => .done .overrun
            | some remDest => next (some remDest)
          else next none
        else next none
    else next none

def ppServerExchDest (next : Option Dest → Talk (Exit Dest)) : Talk (Exit Dest) :=
  .read msgSize msgSize fun r =>
    match r with
    | none => next none
    | some msg => .call .malloc fun ok =>
      if ok then
        match Dest.scan host.endian (host.before 0) (host.scratch 0) msg with
        | none => .done .overrun
        | some remDest =>
          Prog.calls (fun ok =>
            if ok then .write (myDest.msg host.endian) fun ok =>
              if ok then .read msgSize doneMsg.length fun r =>
                if r.isSome then next (some remDest) else next none
              else next none
            else next none) (connectCtx remDest)
      else next none

/-- `main` up to its messages, with a server's name. -/
def clientMain : Talk (Exit Dest) :=
  ppClientExchDest host myDest fun remDest =>
    match remDest with
    | none => .done .failed
    | some remDest =>
      Prog.calls (fun ok => .done (if ok then .ready remDest else .failed)) (connectCtx remDest)

/-- `main` up to its messages, without one. -/
def serverMain : Talk (Exit Dest) :=
  ppServerExchDest host myDest connectCtx fun remDest =>
    match remDest with
    | none => .done .failed
    | some remDest => .done (.ready remDest)

end Single

namespace Srq

abbrev Talk := DestExchange.Talk (Exit (ℕ → Dest))

/-- The loop that writes the records of all queue pairs. -/
def sendAll (e : Endian) (maxQp : ℕ) (myDest : ℕ → Dest) (next : Bool → Talk) : Talk :=
  Prog.writes next ((List.range maxQp).map fun i => (myDest i).msg e)

/-- The loop that reads and stores them; what it has stored stays when a read fails. -/
def receiveAll (host : Host) (next : (ℕ → Dest) → Bool → Talk) : (ℕ → Dest) → List ℕ → Talk
  | remDest, [] => next remDest true
  | remDest, i::is => .fill msgSize fun r =>
    match r with
    | none => next remDest false
    | some msg =>
      match Dest.scan host.endian (remDest i) (host.scratch i) msg with
      | none => .done .overrun
      | some d => receiveAll host next (Function.update remDest i d) is

section Main
variable (host : Host) (maxQp numQp : ℕ) (myDest : ℕ → Dest)

def ppClientExchDest (next : Option (ℕ → Dest) → Talk) : Talk :=
  sendAll host.endian maxQp myDest fun ok =>
    if ok then .call .malloc fun ok =>
      if ok then
        receiveAll host (fun remDest ok =>
          if ok then .write doneMsg fun _ => next (some remDest)
          else next (some remDest)) host.before (List.range maxQp)
      else next none
    else next none

def ppServerExchDest (next : Option (ℕ → Dest) → Talk) : Talk :=
  .call .malloc fun ok =>
    if ok then
      receiveAll host (fun remDest ok =>
        if ok then
          Prog.calls (fun ok =>
            if ok then
              sendAll host.endian maxQp myDest fun ok =>
                if ok then .read msgSize doneMsg.length fun r =>
                  if r.isSome then next (some remDest) else next none
                else next none
            else next none) (srqConnectCtx numQp myDest remDest)
        else next (some remDest)) host.before (List.range maxQp)
    else next none

def clientMain : Talk :=
  ppClientExchDest host maxQp myDest fun remDest =>
    match remDest with
    | none => .done .failed
    | some remDest =>
      Prog.calls (fun ok => .done (if ok then .ready remDest else .failed))
        (srqConnectCtx numQp myDest remDest)

def serverMain : Talk :=
  ppServerExchDest host maxQp numQp myDest fun remDest =>
    match remDest with
    | none => .done .failed
    | some remDest => .done (.ready remDest)

end Main
end Srq

end CppPlayground.DestExchange
