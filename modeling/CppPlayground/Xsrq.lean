import CppPlayground.PingPongVolley
import CppPlayground.RoundRobin
import CppPlayground.ScanText

/-!
# xsrq_pingpong

xsrq_pingpong.c plays ping-pong between a server and several clients over
queue pairs that the clients share. The server's queue pair `j` ends at a queue
pair of client `j`, but a message names the shared receive queue it is for, and
`pp_post_send` takes the queue pairs round robin: most messages for one client
pass through the queue pairs of others. Hence the exchange of END over the
sockets at the end, before anyone destroys its queue pairs.

A server and a client run one program with different settings. The model
begins where the queue pairs are connected and the first receives posted. A
connection is reliable and delivers in order; a message is delivered while
both its queue pairs and the shared receive queue it names are there. A
poll that finds nothing in polling mode is repeated and changes nothing, so it
is no step.
-/
namespace CppPlayground.Xsrq
open PingPong (soleQp)
open ScanText (cString)

/-- A send request, by the index it was posted for and the number of the
shared receive queue it names. -/
structure Request where
  wrId : ℕ
  srqn : ℕ
  signaled : Bool

/-- A completed send, and how many requests of its queue pair are over with it. -/
structure SendWc (m : ℕ) where
  wrId : ℕ
  qp : Fin m
  freed : ℕ

/-- Where a process is: posting the server's first sends, at the head of the
loop, waiting for an event, asking for the next, working through the
completions, collecting its own sends, hearing and sending END, closing. -/
inductive Phase where
  | opening (k : ℕ)
  | test
  | waiting
  | notify
  | poll
  | flush (cnt : ℕ)
  | acks (i : ℕ) (msg : List UInt8)
  | grants (i : ℕ)
  | closing
  | closed
  | failed
  deriving DecidableEq

/-- The process is there, and with it its queue pairs. -/
def Phase.up : Phase → Bool
  | .closed | .failed => false
  | _ => true

/-- What a process is started with and has learnt of its `num_clients` peers. -/
structure Settings (m : ℕ) where
  numTests : ℕ
  useEvent : Bool
  server : Bool
  qpNum : Fin m → ℕ
  srqn : Fin m → ℕ

/-- `struct pingpong_context` with the counters of `main` and the bytes written
to each socket that nobody has read, then the adapter's queues: posted receives,
send requests by queue pair (slots taken, not delivered, not acknowledged,
acknowledged since the last completion) and completions. -/
structure Process (m : ℕ) where
  phase : Phase
  ppCnt : Fin m → ℕ
  cnt : ℕ
  numCqEvents : ℕ
  out : Fin m → List UInt8
  recvQueue : ℕ
  slots : Fin m → ℕ
  wire : Fin m → List Request
  unacked : Fin m → List Request
  passed : Fin m → ℕ
  recvCq : List ℕ
  sendCq : List (SendWc m)
  armed : Bool
  events : ℕ
  unackedEvents : ℕ
  overrun : Bool
  notReady : Bool

variable {m : ℕ}

/-- Send to each index round robin on the queue pairs, and ask for a completion
with the last send. The result of posting is not looked at. -/
def ppPostSend (S : Settings m) (x : Process m) (index : Fin m) : Process m :=
  let qpi := RoundRobin.turn index (x.ppCnt index)
  let x := { x with ppCnt := Function.update x.ppCnt index (x.ppCnt index + 1) }
  if x.slots qpi < m * S.numTests then
    { x with
      slots := Function.update x.slots qpi (x.slots qpi + 1)
      wire := Function.update x.wire qpi
        (x.wire qpi ++ [⟨index, S.srqn index, S.numTests ≤ x.ppCnt index⟩]) }
  else x

/-- With one client it is that one; an unknown number counts as the first. -/
def findQp (S : Settings m) (qpn : ℕ) : Option (Fin m) :=
  if h : m = 1 then some ⟨0, by omega⟩
  else (PingPong.findQp S.qpNum qpn).or (if h : 0 < m then some ⟨0, h⟩ else none)

/-- The body of the loop over the completions: post the receive again, answer. -/
def serve (S : Settings m) (x : Process m) (qpn : ℕ) : Process m :=
  let x := { x with recvQueue := (PingPong.ppPostRecv m x.recvQueue 1).2, cnt := x.cnt + 1 }
  match findQp S qpn with
  | none => x
  | some qpi => if x.ppCnt qpi < S.numTests then ppPostSend S x qpi else x

/-- The bytes of "END". -/
def terminationMsg : List UInt8 := [69, 78, 68]

def terminationMsgSize : ℕ := 4

def sendTerminationAck (x : Process m) (i : Fin m) : Process m :=
  { x with out := Function.update x.out i (x.out i ++ terminationMsg ++ [0]) }

/-- The next step of a process, none when it waits or has ended. -/
def advance (S : Settings m) (x : Process m) : Option (Process m) :=
  match x.phase with
  | .opening k =>
      if h : k < m then some { ppPostSend S x ⟨k, h⟩ with phase := .opening (k + 1) }
      else some { x with phase := .test }
  | .test =>
      some { x with phase :=
        if x.cnt < m * S.numTests then if S.useEvent then .waiting else .poll else .flush 0 }
  | .waiting =>
      if 0 < x.events then
        some { x with
          phase := .notify, events := x.events - 1, unackedEvents := x.unackedEvents + 1 }
      else none
  | .notify => some { x with phase := .poll, armed := true, numCqEvents := x.numCqEvents + 1 }
  | .poll =>
      match x.recvCq with
      | [] =>
          if S.useEvent = false ∧ x.cnt < m * S.numTests then none
          else some { x with phase := .test }
      | qpn::rest => some (serve S { x with recvCq := rest } qpn)
  | .flush k =>
      if k < m then
        match x.sendCq with
        | [] => none
        | w::rest =>
            some { x with
              phase := .flush (k + 1), sendCq := rest
              slots := Function.update x.slots w.qp (x.slots w.qp - w.freed) }
      else
        some { x with
          phase := if S.server then .acks 0 [] else .grants 0
          unackedEvents :=
            if S.useEvent then x.unackedEvents - x.numCqEvents else x.unackedEvents }
  | .acks i msg =>
      if i < m then
        if msg.length < terminationMsgSize then none
        else
          some { x with
            phase := if cString msg = terminationMsg then .acks (i + 1) [] else .failed }
      else some { x with phase := if S.server then .grants 0 else .closing }
  | .grants i =>
      if h : i < m then some { sendTerminationAck x ⟨i, h⟩ with phase := .grants (i + 1) }
      else some { x with phase := if S.server then .closing else .acks 0 [] }
  | .closing => if x.unackedEvents = 0 then some { x with phase := .closed } else none
  | .closed | .failed => none

/-- The index whose END is awaited. -/
def Phase.awaits : Phase → Option ℕ
  | .acks i msg => if msg.length < terminationMsgSize then some i else none
  | _ => none

/-- A `read` returns bytes, at most those that are missing. -/
def hear (x : Process m) (bytes : List UInt8) : Option (Process m) :=
  match x.phase with
  | .acks i msg =>
      if bytes ≠ [] ∧ msg.length + bytes.length ≤ terminationMsgSize then
        some { x with phase := .acks i (msg ++ bytes) }
      else none
  | _ => none

/-- A message meets a posted receive. The queue of completions was made for
one for each client. -/
def receive (x : Process m) (qpn : ℕ) : Process m :=
  if 0 < x.recvQueue then
    if x.recvCq.length < m then
      { x with
        recvQueue := x.recvQueue - 1, recvCq := x.recvCq ++ [qpn]
        armed := false, events := x.events + x.armed.toNat }
    else { x with overrun := true }
  else { x with notReady := true }

/-- The first message of a queue pair has arrived. -/
def passOn (x : Process m) (j : Fin m) (r : Request) : Process m :=
  { x with
    wire := Function.update x.wire j (x.wire j).tail
    unacked := Function.update x.unacked j (x.unacked j ++ [r]) }

/-- The oldest message of a queue pair that has arrived is acknowledged; a
completion is queued if it was asked for. -/
def acknowledge (x : Process m) (j : Fin m) : Option (Process m) :=
  match x.unacked j with
  | [] => none
  | r::rest =>
      let x := { x with
        unacked := Function.update x.unacked j rest
        passed := Function.update x.passed j (x.passed j + 1) }
      if r.signaled = false then some x
      else if x.sendCq.length < m then
        some { x with
          sendCq := x.sendCq ++ [⟨r.wrId, j, x.passed j⟩]
          passed := Function.update x.passed j 0 }
      else some { x with overrun := true }

/-- The numbers of the server's receive queue pairs, of those of the clients,
and of the shared receive queues, and how everyone was started. `total` of the
server's `main` is an `int`. -/
structure Program (n : ℕ) where
  numTests : ℕ
  serverEvent : Bool
  clientEvent : Fin n → Bool
  qpNum : Fin n → ℕ
  clientQpNum : Fin n → ℕ
  serverSrqn : ℕ
  clientSrqn : Fin n → ℕ
  total_lt : n * numTests < 2 ^ 31
  qpNum_inj : Function.Injective qpNum
  clientSrqn_inj : Function.Injective clientSrqn

variable {n : ℕ}

def Program.server (P : Program n) : Settings n where
  numTests := P.numTests
  useEvent := P.serverEvent
  server := true
  qpNum := P.qpNum
  srqn := P.clientSrqn

def Program.client (P : Program n) (i : Fin n) : Settings 1 where
  numTests := P.numTests
  useEvent := P.clientEvent i
  server := false
  qpNum _ := P.clientQpNum i
  srqn _ := P.serverSrqn

structure Network (n : ℕ) where
  server : Process n
  client : Fin n → Process 1

def Network.setClient (N : Network n) (i : Fin n) (x : Process 1) : Network n :=
  { N with client := Function.update N.client i x }

/-- A step of a process; a read of `k` bytes of an END; the first message of a
queue pair arrives; the oldest that arrived is acknowledged. -/
inductive Event (n : ℕ) where
  | server
  | client (i : Fin n)
  | serverReads (i : Fin n) (k : ℕ)
  | clientReads (i : Fin n) (k : ℕ)
  | toClient (j : Fin n)
  | toServer (i : Fin n)
  | ackServer (j : Fin n)
  | ackClient (i : Fin n)
  deriving DecidableEq

def step (P : Program n) (N : Network n) : Event n → Option (Network n)
  | .server => (advance P.server N.server).map fun x => { N with server := x }
  | .client i => (advance (P.client i) (N.client i)).map (N.setClient i)
  | .serverReads i k =>
      let y := N.client i
      if N.server.phase.awaits = some (i : ℕ) ∧ k ≤ (y.out soleQp).length then
        (hear N.server ((y.out soleQp).take k)).map fun x =>
          { N with server := x }.setClient i { y with out := fun _ => (y.out soleQp).drop k }
      else none
  | .clientReads i k =>
      let y := N.server
      if (N.client i).phase.awaits = some 0 ∧ k ≤ (y.out i).length then
        (hear (N.client i) ((y.out i).take k)).map fun x =>
          { N with
            server := { y with out := Function.update y.out i ((y.out i).drop k) } }.setClient i x
      else none
  | .toClient j =>
      match N.server.wire j with
      | [] => none
      | r::_ =>
          match PingPong.findQp P.clientSrqn r.srqn with
          | none => none
          | some i =>
              if N.server.phase.up ∧ (N.client j).phase.up ∧ (N.client i).phase.up then
                some ({ N with server := passOn N.server j r }.setClient i
                  (receive (N.client i) (P.clientQpNum j)))
              else none
  | .toServer i =>
      match (N.client i).wire soleQp with
      | [] => none
      | r::_ =>
          if N.server.phase.up ∧ (N.client i).phase.up then
            some ({ N with server := receive N.server (P.qpNum i) }.setClient i
              (passOn (N.client i) soleQp r))
          else none
  | .ackServer j =>
      if N.server.phase.up then (acknowledge N.server j).map fun x => { N with server := x }
      else none
  | .ackClient i =>
      if (N.client i).phase.up then (acknowledge (N.client i) soleQp).map (N.setClient i) else none

/-- A process that is connected, its receives posted. -/
def Settings.connected (S : Settings m) : Process m where
  phase := if S.server then .opening 0 else .test
  ppCnt _ := 0
  cnt := 0
  numCqEvents := 0
  out _ := []
  recvQueue := (PingPong.ppPostRecv m 0 m).2
  slots _ := 0
  wire _ := []
  unacked _ := []
  passed _ := 0
  recvCq := []
  sendCq := []
  armed := S.useEvent
  events := 0
  unackedEvents := 0
  overrun := false
  notReady := false

def start (P : Program n) : Network n where
  server := P.server.connected
  client i := (P.client i).connected

end CppPlayground.Xsrq
