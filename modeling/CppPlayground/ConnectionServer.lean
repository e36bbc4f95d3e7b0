import CppPlayground.HelloRoundTrip
import Mathlib.Data.Finmap

/-!
# One connection server

The state a `ConnectionServer` keeps between calls and the four functions that
change it or send. `neighbor_map` is a finite map from addresses, and
`pending_hello` a finite set of addresses. A call returns the new state with
the `sendto` calls it made, in order. The address handle comes from the verbs
library: a receiving step is given what `ibv_create_ah` answers to the
attributes it is called with, the clock and the uninitialised memory.

A neighbour entry is changed through the pointer kept in the map, so the
handle stored after the insertion is part of the entry.
-/
namespace CppPlayground

open HostBytes HelloText

/-- `sin_addr.s_addr`. -/
abbrev Addr := UInt32

/-- The attributes `add_neighbor` fills in for `ibv_create_ah`. -/
structure AhAttr where
  dlid : UInt16
  sl : UInt8
  srcPathBits : UInt8
  portNum : UInt8
  isGlobal : UInt8
  dgid : Gid
  hopLimit : UInt8
  sgidIndex : UInt8
  deriving DecidableEq

def ahAttr (dest : Dest) : AhAttr where
  dlid := dest.lid
  sl := 0
  srcPathBits := 0
  portNum := 1
  isGlobal := 1
  dgid := dest.gid
  hopLimit := 1
  sgidIndex := 0

/-- A value of `neighbor_map`; a failed `ibv_create_ah` leaves a null handle. -/
structure Neighbor (Ah : Type) where
  dest : Dest
  ah : Option Ah
  lastHello : ℤ

structure ConnectionServer (Ah : Type) where
  host : Endian
  localDest : Dest
  neighborMap : Finmap fun _ : Addr => Neighbor Ah
  pendingHello : Finset Addr

/-- One `sendto` call. -/
structure Sendto where
  dest : Addr
  payload : List UInt8
  deriving DecidableEq

/-- What a receiving step finds in its surroundings. -/
structure ReceiveEnv (Ah : Type) where
  scratch : Scratch
  now : ℤ
  createAh : AhAttr → Option Ah

namespace ConnectionServer

variable {Ah : Type}

/-- After `set_rdma_handler`: the hello text is made from `local_dest`. -/
def start (host : Endian) (localDest : Dest) : ConnectionServer Ah := ⟨host, localDest, ∅, ∅⟩

/-- The `send_hello` that takes a socket address. -/
def sendHelloAddr (s : ConnectionServer Ah) (dest : Addr) : Sendto :=
  ⟨dest, helloPayload s.host s.localDest⟩

/-- The `send_hello` that takes the peer's address as text, after `inet_addr`. -/
def sendHello (s : ConnectionServer Ah) (dest : Addr) : ConnectionServer Ah × List Sendto :=
  ({ s with pendingHello := insert dest s.pendingHello }, [s.sendHelloAddr dest])

def checkSendingHello (s : ConnectionServer Ah) (client : Addr) :
    ConnectionServer Ah × List Sendto :=
  if client ∉ s.pendingHello then
    ({ s with pendingHello := insert client s.pendingHello }, [s.sendHelloAddr client])
  else ({ s with pendingHello := s.pendingHello.erase client }, [])

/-- A known address keeps its destination; only `lastHello` moves. -/
def addNeighbor (s : ConnectionServer Ah) (env : ReceiveEnv Ah) (client : Addr) (remDest : Dest) :
    ConnectionServer Ah × List Sendto :=
  match s.neighborMap.lookup client with
  | none =>
      let n : Neighbor Ah := ⟨remDest, env.createAh (ahAttr remDest), env.now⟩
      checkSendingHello { s with neighborMap := s.neighborMap.insert client n } client
  | some n =>
      let n : Neighbor Ah := { n with lastHello := env.now }
      checkSendingHello { s with neighborMap := s.neighborMap.insert client n } client

/-- `memset(rem_dest, 0, sizeof rem_dest)` clears as many bytes as a pointer has. -/
def clearDest (scratch : Scratch) : Scratch :=
  { scratch with block := store scratch.block 0 (List.replicate 8 0) }

/-- `none` when the datagram drives the decoder past the end of `tmp_gid`. -/
def serverReceiveEvent (s : ConnectionServer Ah) (env : ReceiveEnv Ah) (client : Addr)
    (payload : List UInt8) : Option (ConnectionServer Ah × List Sendto) :=
  if payload.length > 0 then
    (getDest s.host (clearDest env.scratch) (recvbuf payload)).map (s.addNeighbor env client)
  else some (s, [])

@[simp] theorem checkSendingHello_neighborMap (s : ConnectionServer Ah) (client : Addr) :
    (s.checkSendingHello client).1.neighborMap = s.neighborMap := by
  unfold checkSendingHello
  split <;> rfl

@[simp] theorem checkSendingHello_host (s : ConnectionServer Ah) (client : Addr) :
    (s.checkSendingHello client).1.host = s.host := by
  unfold checkSendingHello
  split <;> rfl

@[simp] theorem checkSendingHello_localDest (s : ConnectionServer Ah) (client : Addr) :
    (s.checkSendingHello client).1.localDest = s.localDest := by
  unfold checkSendingHello
  split <;> rfl

/-- The pending bit of the client is toggled. -/
theorem checkSendingHello_pendingHello (s : ConnectionServer Ah) (client : Addr) :
    (s.checkSendingHello client).1.pendingHello =
      if client ∈ s.pendingHello then s.pendingHello.erase client
      else insert client s.pendingHello := by
  by_cases h : client ∈ s.pendingHello <;> simp [checkSendingHello, h]

/-- A reply is sent exactly when the bit was clear. -/
theorem checkSendingHello_sent (s : ConnectionServer Ah) (client : Addr) :
    (s.checkSendingHello client).2 =
      if client ∈ s.pendingHello then [] else [s.sendHelloAddr client] := by
  by_cases h : client ∈ s.pendingHello <;> simp [checkSendingHello, h]

section AddNeighbor
variable (s : ConnectionServer Ah) (env : ReceiveEnv Ah) (client : Addr) (remDest : Dest)

@[simp] theorem addNeighbor_host : (s.addNeighbor env client remDest).1.host = s.host := by
  unfold addNeighbor
  split <;> simp

@[simp] theorem addNeighbor_localDest :
    (s.addNeighbor env client remDest).1.localDest = s.localDest := by
  unfold addNeighbor
  split <;> simp

theorem addNeighbor_pendingHello :
    (s.addNeighbor env client remDest).1.pendingHello =
      if client ∈ s.pendingHello then s.pendingHello.erase client
      else insert client s.pendingHello := by
  unfold addNeighbor
  split <;> exact checkSendingHello_pendingHello _ _

theorem addNeighbor_sent :
    (s.addNeighbor env client remDest).2 =
      if client ∈ s.pendingHello then [] else [s.sendHelloAddr client] := by
  unfold addNeighbor
  split <;> exact checkSendingHello_sent _ _

theorem addNeighbor_lookup_ne {x : Addr} (h : x ≠ client) :
    (s.addNeighbor env client remDest).1.neighborMap.lookup x = s.neighborMap.lookup x := by
  unfold addNeighbor
  split <;> simp [Finmap.lookup_insert_of_ne _ h]

theorem mem_addNeighbor {x : Addr} :
    x ∈ (s.addNeighbor env client remDest).1.neighborMap ↔ x = client ∨ x ∈ s.neighborMap := by
  unfold addNeighbor
  split <;> simp

/-- The destination kept for the client is the first one decoded from it. -/
theorem addNeighbor_lookup_self {n : Neighbor Ah}
    (h : (s.addNeighbor env client remDest).1.neighborMap.lookup client = some n) :
    n.dest = remDest ∨ ∃ n₀, s.neighborMap.lookup client = some n₀ ∧ n.dest = n₀.dest := by
  unfold addNeighbor at h
  split at h
  · simp only [checkSendingHello_neighborMap, Finmap.lookup_insert, Option.some.injEq] at h
    exact .inl (h ▸ rfl)
  · rename_i n₀ hn₀
    simp only [checkSendingHello_neighborMap, Finmap.lookup_insert, Option.some.injEq] at h
    exact .inr ⟨n₀, hn₀, h ▸ rfl⟩

end AddNeighbor

theorem serverReceiveEvent_eq_some {s t : ConnectionServer Ah} {env : ReceiveEnv Ah}
    {client : Addr} {payload : List UInt8} {out : List Sendto} (hne : payload ≠ [])
    (h : s.serverReceiveEvent env client payload = some (t, out)) :
    ∃ remDest, getDest s.host (clearDest env.scratch) (recvbuf payload) = some remDest ∧
      s.addNeighbor env client remDest = (t, out) := by
  rw [serverReceiveEvent, if_pos (List.length_pos_of_ne_nil hne)] at h
  simpa only [Option.map_eq_some_iff] using h

/-- A hello sent by any server is received without a fault. -/
theorem serverReceiveEvent_hello (s : ConnectionServer Ah) (env : ReceiveEnv Ah) (client : Addr)
    (e : Endian) (dest : Dest) :
    ∃ remDest, s.serverReceiveEvent env client (helloPayload e dest) =
      some (s.addNeighbor env client remDest) := by
  have hzero : ∀ c ∈ List.replicate (65536 - (helloPayload e dest).length) (0 : UInt8), c = 0 :=
    fun c hc => List.eq_of_mem_replicate hc
  obtain ⟨remDest, h⟩ := getDest_payload e s.host dest (clearDest env.scratch) hzero
  refine ⟨remDest, ?_⟩
  rw [serverReceiveEvent, if_pos (List.length_pos_of_ne_nil (helloPayload_ne_nil e dest)),
    recvbuf, h, Option.map_some]

end ConnectionServer
end CppPlayground
