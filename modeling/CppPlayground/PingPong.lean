import CppPlayground.Volley

/-!
# The verbs ping-pong programs

rc_pingpong.c, uc_pingpong.c, ud_pingpong.c and srq_pingpong.c run one loop:
a side sends on a queue pair when both its last send there and the peer's
answer have completed, until it has counted `iters` sends and receives. The
first three have one queue pair and find two completions at a time;
srq_pingpong has several, which share a receive queue, and looks the queue
pair of a completion up by its number. With `-t` rc_pingpong finds its two
completions one after the other, and takes an empty queue behind an event for
a failure.

Two such processes and their adapters interleave freely. An adapter takes
requests up to the capacity of its queues and queues completions up to that
of the completion queue; what would go beyond is recorded. A message is read
from the sender's buffer at any time while it is under way, so that a receiver
may get bytes of any of the contents the buffer had meanwhile. A reliable
connection completes a send after it has been delivered and fails it when the
peer's queue pair is gone; the others complete sends at once and lose messages.

A `poll` that finds nothing in polling mode is repeated and changes nothing,
so it is no step. The counters of `main` are `int`s; `iters` is such that they
do not overflow.
-/
namespace CppPlayground.PingPong
open Volley (Player)

def pingpongRecvWrid : BitVec 64 := 1
def pingpongSendWrid : BitVec 64 := 2

/-- A work completion; `status` says whether it is IBV_WC_SUCCESS. -/
structure Wc where
  wrId : BitVec 64
  status : Bool
  qpNum : ℕ
  deriving DecidableEq

/-- A message under way: the contents the send buffer has had since the post. -/
structure Message where
  contents : List (List UInt8)

/-- The bytes an adapter may deliver for a message. -/
def Message.Carries (m : Message) (size : ℕ) (bytes : List UInt8) : Prop :=
  bytes.length = size ∧ ∀ j < size, ∃ buf ∈ m.contents, bytes[j]? = buf[j]?

instance (m : Message) (size : ℕ) (bytes : List UInt8) : Decidable (m.Carries size bytes) :=
  inferInstanceAs (Decidable (_ ∧ _))

/-- What one side holds: `struct pingpong_context` with the counters of `main`,
then the adapter's queues for it. `slots` counts the send requests whose
completion has not been polled, `unfinished` those without one yet. -/
structure Context (n : ℕ) where
  buf : List UInt8
  pending : Fin n → BitVec 32
  routs : ℕ
  rcnt : ℕ
  scnt : ℕ
  numCqEvents : ℕ
  recvQueue : ℕ
  slots : Fin n → ℕ
  unfinished : Fin n → ℕ
  wire : Fin n → List Message
  cq : List Wc
  armed : Bool
  events : ℕ
  unacked : ℕ
  overrun : Bool
  notReady : Bool

/-- Why a process returned 1. -/
inductive Failure where
  | status
  | unknownQpn
  | postReceive
  | unknownWrId
  | postSend
  | pollCq
  deriving DecidableEq

/-- Where a process is: sending on its first queue pairs, at the head of the
loop, waiting for an event, asking for the next one, polling, working through
the completions it polled, with one more poll to follow or not, past the loop,
and gone. -/
inductive Phase where
  | opening (k : ℕ)
  | test
  | waiting
  | notify
  | poll
  | batch (next : Bool) (wcs : List Wc)
  | done
  | closed
  | failed (f : Failure)
  deriving DecidableEq

structure Endpoint (n : ℕ) where
  ctx : Context n
  phase : Phase

/-- The first queue pair with the number, as `find_qp` searches it. -/
def findQp {n : ℕ} (qpNum : Fin n → ℕ) (qpn : ℕ) : Option (Fin n) :=
  (List.finRange n).find? fun i => qpNum i == qpn

theorem findQp_qpNum {n : ℕ} {qpNum : Fin n → ℕ} (h : Function.Injective qpNum) (i : Fin n) :
    findQp qpNum (qpNum i) = some i := by
  unfold findQp
  cases hfind : (List.finRange n).find? fun j => qpNum j == qpNum i with
  | none =>
      have hnone := List.find?_eq_none.mp hfind i (List.mem_finRange i)
      simp at hnone
  | some j =>
      have hsome := List.find?_some hfind
      rw [beq_iff_eq] at hsome
      rw [h hsome]

/-- What the two sides are started with; `idle` is `pending` of a queue pair
that a client has not sent on. A side has a receive for each queue pair and
polls two completions for each. The counters, which may pass `iters` once on
each queue pair but one, stay in the range of an `int`. -/
structure Program (n : ℕ) where
  iters : ℕ
  size : ℕ
  pageSize : ℕ
  fill : UInt8
  validateBuf : Player → Bool
  reliable : Bool
  idle : BitVec 32
  rxDepth : Player → ℕ
  numWc : Player → ℕ
  useEvent : Player → Bool
  useTs : Player → Bool
  qpNum : Player → Fin n → ℕ
  findQp : Player → ℕ → Option (Fin n)
  iters_le : max iters 1 + n ≤ 2 ^ 31
  useTs_numWc : ∀ p, useTs p = true → numWc p = 2 ∧ reliable = true
  le_rxDepth : ∀ p, n ≤ rxDepth p
  le_numWc : ∀ p, 2 * n ≤ numWc p
  findQp_qpNum : ∀ p i, findQp p (qpNum p i) = some i

/-- The `unsigned int` where it is passed on as an `int`. -/
def Program.intIters {n : ℕ} (P : Program n) : ℤ := (BitVec.ofNat 32 P.iters).toInt

section Programs
variable (iters size pageSize : ℕ) (validateBuf : Player → Bool) (rxDepth : Player → ℕ)
  (useEvent : Player → Bool)

theorem two_mul_le_numWc {n : ℕ} {rxDepth : Player → ℕ} (h : ∀ p, ¬ rxDepth p < n) (p : Player) :
    2 * n ≤ n + rxDepth p := by
  have hp := h p
  omega

/-- srq_pingpong, past the check of `main` that there are receives enough. -/
def srqPingpong {n : ℕ} (qpNum : Player → Fin n → ℕ) (hqp : ∀ p, Function.Injective (qpNum p))
    (hiters : max iters 1 + n ≤ 2 ^ 31) (hrx : ∀ p, ¬ rxDepth p < n) : Program n where
  iters := iters
  size := size
  pageSize := pageSize
  fill := 0
  validateBuf := validateBuf
  reliable := true
  idle := 0
  rxDepth := rxDepth
  numWc p := n + rxDepth p
  useEvent := useEvent
  useTs _ := false
  qpNum := qpNum
  findQp p := findQp (qpNum p)
  iters_le := hiters
  useTs_numWc _ h := by cases h
  le_rxDepth p := not_lt.mp (hrx p)
  le_numWc := two_mul_le_numWc hrx
  findQp_qpNum p := findQp_qpNum (hqp p)

/-- The queue pair of the programs that have only one. -/
def soleQp : Fin 1 := 0

theorem soleQp_eq (i : Fin 1) : soleQp = i :=
  Subsingleton.elim soleQp i

/-- rc_pingpong, and uc_pingpong and ud_pingpong when not `reliable`, which
have no `-t`. -/
def singlePingpong (reliable : Bool) (useTs : Player → Bool) (qpNum : Player → ℕ)
    (hts : ∀ p, useTs p = true → reliable = true) (hiters : max iters 1 + 1 ≤ 2 ^ 31)
    (hrx : ∀ p, 1 ≤ rxDepth p) : Program 1 where
  iters := iters
  size := size
  pageSize := pageSize
  fill := 0x7b
  validateBuf := validateBuf
  reliable := reliable
  idle := 1
  rxDepth := rxDepth
  numWc _ := 2
  useEvent := useEvent
  useTs := useTs
  qpNum p _ := qpNum p
  findQp _ _ := some soleQp
  iters_le := hiters
  useTs_numWc p h := ⟨rfl, hts p h⟩
  le_rxDepth := hrx
  le_numWc _ := le_refl _
  findQp_qpNum _ i := congrArg some (soleQp_eq i)

end Programs

variable {n : ℕ}

/-- Post up to `n` receives; how many the queue took, and the queue. -/
def ppPostRecv (maxWr : ℕ) : ℕ → ℕ → ℕ × ℕ
  | recvQueue, 0 => (0, recvQueue)
  | recvQueue, k + 1 =>
      if recvQueue < maxWr then
        let r := ppPostRecv maxWr (recvQueue + 1) k
        (r.1 + 1, r.2)
      else (0, recvQueue)

/-- A queue pair takes one send request at a time. -/
def ppPostSend (c : Context n) (i : Fin n) : Option (Context n) :=
  if c.slots i < 1 then
    some { c with
      slots := Function.update c.slots i (c.slots i + 1)
      unfinished := Function.update c.unfinished i (c.unfinished i + 1)
      wire := Function.update c.wire i (c.wire i ++ [⟨[c.buf]⟩]) }
  else none

/-- The PINGPONG_RECV_WRID case: post receives again once few are left. -/
def countRecv (P : Program n) (p : Player) (c : Context n) : Except Failure (Context n) :=
  let routs := c.routs - 1
  if routs ≤ n then
    let r := ppPostRecv (P.rxDepth p) c.recvQueue (P.rxDepth p - routs)
    if routs + r.1 < P.rxDepth p then .error .postReceive
    else .ok { c with routs := routs + r.1, recvQueue := r.2, rcnt := c.rcnt + 1 }
  else .ok { c with routs := routs, rcnt := c.rcnt + 1 }

def countWc (P : Program n) (p : Player) (c : Context n) (wrId : BitVec 64) :
    Except Failure (Context n) :=
  if wrId.setWidth 32 = 2 then .ok { c with scnt := c.scnt + 1 }
  else if wrId.setWidth 32 = 1 then countRecv P p c
  else .error .unknownWrId

def clearPending (c : Context n) (i : Fin n) (wrId : BitVec 64) : Context n :=
  { c with pending := Function.update c.pending i (c.pending i &&& ~~~(wrId.setWidth 32)) }

/-- The send at the end of the body. -/
def reply (P : Program n) (c : Context n) (i : Fin n) : Except Failure (Context n) :=
  if c.scnt < P.iters ∧ c.pending i = 0 then
    match ppPostSend c i with
    | none => .error .postSend
    | some c => .ok { c with pending := Function.update c.pending i (1 ||| 2) }
  else .ok c

/-- The body of the loop over the completions. -/
def parseWc (P : Program n) (p : Player) (c : Context n) (w : Wc) : Except Failure (Context n) :=
  if w.status = false then .error .status
  else
    match P.findQp p w.qpNum with
    | none => .error .unknownQpn
    | some i =>
        match countWc P p c w.wrId with
        | .error f => .error f
        | .ok c => reply P (clearPending c i w.wrId) i

/-- `ibv_poll_cq`: the first completions leave the queue, and the send
requests they complete leave theirs. `ibv_start_poll` and `ibv_next_poll` take
one completion each. -/
def pollCq (P : Program n) (p : Player) (numWc : ℕ) (c : Context n) : Context n × List Wc :=
  let wcs := c.cq.take numWc
  ({ c with
      cq := c.cq.drop numWc
      slots := fun i => c.slots i -
        wcs.countP fun w => w.wrId == pingpongSendWrid && w.qpNum == P.qpNum p i }, wcs)

/-- `ibv_ack_cq_events` and `pp_close_ctx`; destroying the completion queue
waits until every event has been acknowledged. -/
def closeCtx (c : Context n) : Option (Context n) :=
  let c := { c with unacked := c.unacked - c.numCqEvents }
  if c.unacked = 0 then some c else none

/-- The next step of a process, none when it waits or has ended. -/
def advance (P : Program n) (p : Player) (e : Endpoint n) : Option (Endpoint n) :=
  let c := e.ctx
  match e.phase with
  | .opening k =>
      if h : k < n then
        match ppPostSend c ⟨k, h⟩ with
        | none => some ⟨c, .failed .postSend⟩
        | some c =>
            some ⟨{ c with pending := Function.update c.pending ⟨k, h⟩ (2 ||| 1) },
              .opening (k + 1)⟩
      else some ⟨c, .test⟩
  | .test =>
      if c.rcnt < P.iters ∨ c.scnt < P.iters then
        some ⟨c, if P.useEvent p then .waiting else .poll⟩
      else some ⟨c, .done⟩
  | .waiting =>
      if 0 < c.events then
        some ⟨{ c with
          events := c.events - 1, unacked := c.unacked + 1, numCqEvents := c.numCqEvents + 1 },
          .notify⟩
      else none
  | .notify => some ⟨{ c with armed := true }, .poll⟩
  | .poll =>
      if P.useTs p then
        let r := pollCq P p 1 c
        if r.2.length < 1 then
          -- ENOENT is asked again while polling only
          if P.useEvent p = false then none else some ⟨c, .failed .pollCq⟩
        else some ⟨r.1, .batch true r.2⟩
      else
        let r := pollCq P p (P.numWc p) c
        if P.useEvent p = false ∧ r.2.length < 1 then none else some ⟨r.1, .batch false r.2⟩
  | .batch false [] => some ⟨c, .test⟩
  | .batch true [] =>
      let r := pollCq P p 1 c
      some ⟨r.1, .batch false r.2⟩
  | .batch next (w::wcs) =>
      match parseWc P p c w with
      | .error f => some ⟨c, .failed f⟩
      | .ok c => some ⟨c, .batch next wcs⟩
  | .done => (closeCtx c).map fun c => ⟨c, .closed⟩
  | .closed | .failed _ => none

abbrev Network (n : ℕ) := Player → Endpoint n

/-- The process is there, and with it its queue pairs. -/
def Phase.up : Phase → Bool
  | .closed | .failed _ => false
  | _ => true

/-- The process has ended without an error of its sends: what it still had under
way may be lost. -/
def Phase.left : Phase → Bool
  | .closed | .failed .pollCq => true
  | _ => false

def sendWc (P : Program n) (p : Player) (i : Fin n) : Wc := ⟨pingpongSendWrid, true, P.qpNum p i⟩
def recvWc (P : Program n) (p : Player) (i : Fin n) : Wc := ⟨pingpongRecvWrid, true, P.qpNum p i⟩
def failWc (P : Program n) (p : Player) (i : Fin n) : Wc := ⟨pingpongSendWrid, false, P.qpNum p i⟩

/-- The adapter queues a completion and raises the event asked for. The queues
were made for `rx_depth` completions and one for each queue pair. -/
def complete (P : Program n) (p : Player) (c : Context n) (w : Wc) : Context n :=
  if c.cq.length < n + P.rxDepth p then
    { c with cq := c.cq ++ [w], armed := false, events := c.events + c.armed.toNat }
  else { c with overrun := true }

/-- New bytes in the buffer, which the messages under way may still carry. -/
def setBuf (c : Context n) (bytes : List UInt8) : Context n :=
  { c with
    buf := bytes
    wire := fun i => (c.wire i).map fun m => ⟨m.contents ++ [bytes]⟩ }

/-- A message meets a receive request, or none is there. -/
def receive (P : Program n) (p : Player) (c : Context n) (i : Fin n) (bytes : List UInt8) :
    Context n :=
  if 0 < c.recvQueue then
    complete P p (setBuf { c with recvQueue := c.recvQueue - 1 } bytes) (recvWc P p i)
  else { c with notReady := true }

def dropMessage (c : Context n) (i : Fin n) : Context n :=
  { c with wire := Function.update c.wire i (c.wire i).tail }

def finishSend (c : Context n) (i : Fin n) : Context n :=
  { c with unfinished := Function.update c.unfinished i (c.unfinished i - 1) }

/-- A step of a process, or of the adapters on a message or a send of the side named. -/
inductive Event (n : ℕ) where
  | run (p : Player)
  | deliver (p : Player) (i : Fin n) (bytes : List UInt8)
  | finish (p : Player) (i : Fin n)
  | lose (p : Player) (i : Fin n)
  | cut (p : Player) (i : Fin n)

def Network.set (N : Network n) (p : Player) (c : Context n) : Network n :=
  Function.update N p ⟨c, (N p).phase⟩

def step (P : Program n) (N : Network n) : Event n → Option (Network n)
  | .run p => (advance P p (N p)).map (Function.update N p)
  | .deliver p i bytes =>
      match (N p).ctx.wire i with
      | [] => none
      | m::_ =>
          if m.Carries P.size bytes ∧ (N p.peer).phase.up = true then
            some ((N.set p (dropMessage (N p).ctx i)).set p.peer
              (receive P p.peer (N p.peer).ctx i bytes))
          else none
  | .finish p i =>
      if (N p).phase.up = true ∧ 0 < (N p).ctx.unfinished i ∧
          (P.reliable = true → ((N p).ctx.wire i).length < (N p).ctx.unfinished i) then
        some (N.set p (complete P p (finishSend (N p).ctx i) (sendWc P p i)))
      else none
  | .lose p i =>
      if (N p).ctx.wire i ≠ [] ∧ (P.reliable = false ∨ (N p).phase.left = true) then
        some (N.set p (dropMessage (N p).ctx i))
      else none
  | .cut p i =>
      if P.reliable = true ∧ (N p).phase.up = true ∧ (N p.peer).phase.up = false ∧
          (N p).ctx.wire i ≠ [] ∧ 0 < (N p).ctx.unfinished i then
        some (N.set p (complete P p (finishSend (dropMessage (N p).ctx i) i) (failWc P p i)))
      else none

/-- The indices the loops over the pages visit. -/
def pageStarts (pageSize size : ℕ) : List ℕ :=
  (List.range size).filter fun i => i % pageSize = 0

/-- The byte written at the start of a page: `i / page_size % sizeof(char)`. -/
def pageByte (pageSize i : ℕ) : UInt8 := UInt8.ofNat (i / pageSize % 1)

def stampPages (pageSize size : ℕ) (buf : List UInt8) : List UInt8 :=
  (pageStarts pageSize size).foldl (fun b i => b.set i (pageByte pageSize i)) buf

/-- The pages the server reports at its end. -/
def invalidPages (pageSize size : ℕ) (buf : List UInt8) : List ℕ :=
  ((pageStarts pageSize size).filter fun i => buf[i]? ≠ some (pageByte pageSize i)).map
    (· / pageSize)

/-- A side that is connected: it has posted its receives and, in event mode,
asked for an event. The client stamps its pages and then sends. -/
def start (P : Program n) : Network n
  | .first =>
      let buf := List.replicate P.size P.fill
      ⟨connected .first (if P.validateBuf .first then stampPages P.pageSize P.size buf else buf)
        P.idle, .opening 0⟩
  | .second => ⟨connected .second (List.replicate P.size P.fill) 1, .test⟩
where
  connected (p : Player) (buf : List UInt8) (pending : BitVec 32) : Context n :=
    let r := ppPostRecv (P.rxDepth p) 0 (P.rxDepth p)
    { buf := buf
      pending := fun _ => pending
      routs := r.1
      rcnt := 0
      scnt := 0
      numCqEvents := 0
      recvQueue := r.2
      slots := fun _ => 0
      unfinished := fun _ => 0
      wire := fun _ => []
      cq := []
      armed := P.useEvent p
      events := 0
      unacked := 0
      overrun := false
      notReady := false }

end CppPlayground.PingPong
