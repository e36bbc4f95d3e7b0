import CppPlayground.Rendezvous
import CppPlayground.ScanText
import CppPlayground.SockSync

/-!
# The RDMA demo: two programs, two adapters

`connect_qp` and `main` of rdma1.cpp, from the point where the resources exist,
as one straight-line program for each side. A statement that fails ends the
program with result 1; the last statement sets the result to 0; destroying the
resources can fail too.

A side has a buffer of `MSG_SIZE` bytes and an adapter with a queue pair and a
completion queue. A posted request is carried out byte by byte: the adapters
fetch bytes from the source and place them at the destination in any order,
again and again, while both programs go on. A request completes successfully
only after every byte has been placed, a SEND only into a posted receive; any
request can complete with an error. Nothing passes between adapters that are
not connected to each other.

A call of `sock_sync_data` is entered and returns as separate events. It can
fail at any time; a call after which the program goes on has found its peer in
the matching call, and with result 0 it has brought the peer's data.
-/
namespace CppPlayground.RdmaDemo
open HostBytes ScanText SockSync Rendezvous

def msg : List UInt8 := "SEND operation      ".toList.map Char.toUInt8

def rdmaMsgR : List UInt8 := "RDMA read operation ".toList.map Char.toUInt8

def rdmaMsgW : List UInt8 := "RDMA write operation".toList.map Char.toUInt8

def msgSize : ℕ := msg.length + 1

/-- The values of `ibv_wr_opcode` that are used. -/
inductive Opcode where
  | send
  | rdmaRead
  | rdmaWrite
  deriving DecidableEq

inductive QpState where
  | reset
  | init
  | rtr
  | rts
  deriving DecidableEq

inductive Stmt where
  | queryGid
  | syncConData
  | syncChar (c : Char)
  | modifyQp (state : QpState)
  | postReceive
  | postSend (op : Opcode)
  | pollCompletion
  | print
  | strcpy (text : List UInt8)
  | rcZero
  deriving DecidableEq

/-- The statements that only one side executes; `config.server_name` is set on
the client. -/
def onSide (q : Side) (stmts : List Stmt) (p : Side) : List Stmt := if p = q then stmts else []

def connectQp (p : Side) : List Stmt :=
  [.queryGid, .syncConData, .modifyQp .init] ++ onSide .client [.postReceive] p ++
    [.modifyQp .rtr, .modifyQp .rts, .syncChar 'Q']

def main (p : Side) : List Stmt :=
  connectQp p ++ onSide .server [.postSend .send] p ++ [.pollCompletion] ++
    onSide .client [.print] p ++ onSide .server [.strcpy rdmaMsgR] p ++ [.syncChar 'R'] ++
    onSide .client
      [.postSend .rdmaRead, .pollCompletion, .print, .strcpy rdmaMsgW, .print,
        .postSend .rdmaWrite, .pollCompletion] p ++
    [.syncChar 'W'] ++ onSide .server [.print] p ++ [.rcZero]

def stmtAt (p : Side) (pc : ℕ) : Option Stmt := (main p)[pc]?

theorem pc_lt {p : Side} {pc : ℕ} {stmt : Stmt} (h : stmtAt p pc = some stmt) :
    pc < (main p).length := (List.getElem?_eq_some_iff.mp h).1

def Stmt.isSync : Stmt → Bool
  | .syncConData => true
  | .syncChar _ => true
  | _ => false

/-- The statements whose call can report a failure, the syncs apart. -/
def Stmt.canFail : Stmt → Bool
  | .queryGid => true
  | .modifyQp _ => true
  | .postReceive => true
  | .postSend _ => true
  | .pollCompletion => true
  | _ => false

def syncAt (p : Side) (pc : ℕ) : Bool := ((stmtAt p pc).map Stmt.isSync).getD false

/-- How far a program has come: `exit` is its result when it reaches
`main_exit`, `result` what it returns after destroying the resources. -/
structure Control where
  pc : ℕ
  entered : ℕ
  remoteProps : Option CmConData
  printed : List (List UInt8)
  exit : Option ℤ
  result : Option ℤ

def Control.place (ctl : Control) : Place := ⟨ctl.pc, ctl.entered⟩

/-- A send request in progress: the bytes fetched last, which of them have been
placed, and whether a SEND has used up its receive. -/
structure Transfer where
  op : Opcode
  fetched : ℕ → Option UInt8
  placed : ℕ → Bool
  delivered : Bool

def Transfer.posted (op : Opcode) : Transfer := ⟨op, fun _ => none, fun _ => false, false⟩

def Transfer.Placed (t : Transfer) : Prop := ∀ i < msgSize, t.placed i = true

instance (t : Transfer) : Decidable t.Placed :=
  inferInstanceAs (Decidable (∀ i < msgSize, t.placed i = true))

/-- A work completion is for the receive or for a send request. -/
inductive WcOpcode where
  | recv
  | request (op : Opcode)
  deriving DecidableEq

structure Wc where
  opcode : WcOpcode
  success : Bool

/-- Of the receives posted so far, `recvQueue` are unused and `filled` have been
used without a completion yet. -/
structure Adapter where
  qp : QpState
  postedReceives : ℕ
  recvQueue : ℕ
  filled : ℕ
  sendQueue : List Transfer
  cq : List Wc

structure State where
  control : Side → Control
  adapter : Side → Adapter
  buf : Side → Memory

/-- `strcpy(res->buf, text)` -/
def strcpy (m : Memory) (text : List UInt8) : Memory := store m 0 (text ++ [0])

/-- What `%s` prints of a buffer. -/
def printed (m : Memory) : List UInt8 := cString (load m 0 msgSize)

/-- The resources as `resources_create` leaves them. -/
def State.start : State where
  control _ := ⟨0, 0, none, [], none, none⟩
  adapter _ := ⟨.reset, 0, 0, 0, [], []⟩
  buf
    | .client => fun _ => 0
    | .server => strcpy (fun _ => 0) msg

def State.setControl (st : State) (p : Side) (ctl : Control) : State :=
  { st with control := Function.update st.control p ctl }

def State.setAdapter (st : State) (p : Side) (a : Adapter) : State :=
  { st with adapter := Function.update st.adapter p a }

def State.setBuf (st : State) (p : Side) (m : Memory) : State :=
  { st with buf := Function.update st.buf p m }

section Parts
variable (st : State) (p : Side) (ctl : Control) (a : Adapter) (m : Memory)

@[simp] theorem State.setControl_control :
    (st.setControl p ctl).control = Function.update st.control p ctl := rfl

@[simp] theorem State.setControl_adapter : (st.setControl p ctl).adapter = st.adapter := rfl

@[simp] theorem State.setControl_buf : (st.setControl p ctl).buf = st.buf := rfl

@[simp] theorem State.setAdapter_control : (st.setAdapter p a).control = st.control := rfl

@[simp] theorem State.setAdapter_adapter :
    (st.setAdapter p a).adapter = Function.update st.adapter p a := rfl

@[simp] theorem State.setAdapter_buf : (st.setAdapter p a).buf = st.buf := rfl

@[simp] theorem State.setBuf_control : (st.setBuf p m).control = st.control := rfl

@[simp] theorem State.setBuf_adapter : (st.setBuf p m).adapter = st.adapter := rfl

@[simp] theorem State.setBuf_buf : (st.setBuf p m).buf = Function.update st.buf p m := rfl

theorem State.setAdapter_self : st.setAdapter p (st.adapter p) = st := by
  unfold State.setAdapter
  rw [Function.update_eq_self]

end Parts

/-- The next statement. -/
def State.advance (st : State) (p : Side) : State :=
  st.setControl p { st.control p with pc := (st.control p).pc + 1 }

/-- `goto main_exit` -/
def State.leave (st : State) (p : Side) (rc : ℤ) : State :=
  st.setControl p { st.control p with exit := some rc }

/-- A statement that does what it is there for. A completion with a bad status
is taken from the queue before the program gives up. -/
def State.exec (st : State) (p : Side) : Stmt → Option State
  | .queryGid => some (st.advance p)
  | .syncConData => none
  | .syncChar _ => none
  | .modifyQp state => some ((st.advance p).setAdapter p { st.adapter p with qp := state })
  | .postReceive =>
      some ((st.advance p).setAdapter p { st.adapter p with
        postedReceives := (st.adapter p).postedReceives + 1
        recvQueue := (st.adapter p).recvQueue + 1 })
  | .postSend op =>
      some ((st.advance p).setAdapter p { st.adapter p with
        sendQueue := (st.adapter p).sendQueue ++ [.posted op] })
  | .pollCompletion =>
      match (st.adapter p).cq with
      | [] => none
      | wc::cq =>
          if wc.success then some ((st.advance p).setAdapter p { st.adapter p with cq := cq })
          else some ((st.leave p 1).setAdapter p { st.adapter p with cq := cq })
  | .print =>
      some ((st.advance p).setControl p { (st.advance p).control p with
        printed := (st.control p).printed ++ [printed (st.buf p)] })
  | .strcpy text => some ((st.advance p).setBuf p (strcpy (st.buf p) text))
  | .rcZero => some (st.leave p 0)

def Opcode.source (op : Opcode) (p : Side) : Side := if op = .rdmaRead then p.peer else p

def Opcode.dest (op : Opcode) (p : Side) : Side := if op = .rdmaRead then p else p.peer

/-- The two queue pairs exist, are connected to each other and are ready for
requests of side `p`. -/
def State.Linked (st : State) (data : Side → CmConData) (p : Side) : Prop :=
  (st.control p).result = none ∧ (st.control p.peer).result = none ∧
    (st.adapter p).qp = .rts ∧
    ((st.adapter p.peer).qp = .rtr ∨ (st.adapter p.peer).qp = .rts) ∧
    (st.control p).remoteProps = some (data p.peer) ∧
    (st.control p.peer).remoteProps = some (data p)

/-- A SEND needs an unused receive. -/
def State.CanPlace (st : State) (p : Side) (t : Transfer) : Prop :=
  t.op = .send → 0 < (st.adapter p.peer).recvQueue ∧ t.delivered = false

instance : DecidableEq CmConData := fun d d' =>
  decidable_of_iff (d.addr = d'.addr ∧ d.rkey = d'.rkey ∧ d.qpNum = d'.qpNum ∧ d.lid = d'.lid ∧
    d.gid = d'.gid) CmConData.ext_iff.symm

instance (st : State) (data : Side → CmConData) (p : Side) : Decidable (st.Linked data p) :=
  inferInstanceAs (Decidable (_ ∧ _))

instance (st : State) (p : Side) (t : Transfer) : Decidable (st.CanPlace p t) :=
  inferInstanceAs (Decidable (_ → _))

def State.setHead (st : State) (p : Side) (t : Transfer) : State :=
  st.setAdapter p { st.adapter p with sendQueue := t::(st.adapter p).sendQueue.tail }

/-- The head of the queue gives way to its completion. -/
def State.finishHead (st : State) (p : Side) (t : Transfer) (success : Bool) : State :=
  st.setAdapter p { st.adapter p with
    sendQueue := (st.adapter p).sendQueue.tail
    cq := (st.adapter p).cq ++ [⟨.request t.op, success⟩] }

inductive AdapterEvent where
  | fetch (i : ℕ)
  | place (i : ℕ)
  | deliver
  | complete
  | completeError
  | receive
  | receiveError

def State.adapterStep (st : State) (data : Side → CmConData) (p : Side) :
    AdapterEvent → Option State
  | .fetch i =>
      match (st.adapter p).sendQueue with
      | [] => none
      | t::_ =>
          if st.Linked data p ∧ i < msgSize then
            some (st.setHead p { t with
              fetched := Function.update t.fetched i (some (st.buf (t.op.source p) i)) })
          else none
  | .place i =>
      match (st.adapter p).sendQueue with
      | [] => none
      | t::_ =>
          match t.fetched i with
          | none => none
          | some b =>
              if st.Linked data p ∧ i < msgSize ∧ st.CanPlace p t then
                some ((st.setHead p { t with placed := Function.update t.placed i true }).setBuf
                  (t.op.dest p) (Function.update (st.buf (t.op.dest p)) i b))
              else none
  | .deliver =>
      match (st.adapter p).sendQueue with
      | [] => none
      | t::_ =>
          if st.Linked data p ∧ t.op = .send ∧ t.Placed ∧ st.CanPlace p t then
            some ((st.setHead p { t with delivered := true }).setAdapter p.peer
              { st.adapter p.peer with
                recvQueue := (st.adapter p.peer).recvQueue - 1
                filled := (st.adapter p.peer).filled + 1 })
          else none
  | .complete =>
      match (st.adapter p).sendQueue with
      | [] => none
      | t::_ =>
          if (st.control p).result = none ∧ t.Placed ∧ (t.op = .send → t.delivered = true) then
            some (st.finishHead p t true)
          else none
  | .completeError =>
      match (st.adapter p).sendQueue with
      | [] => none
      | t::_ =>
          if (st.control p).result = none then some (st.finishHead p t false) else none
  | .receive =>
      if (st.control p).result = none ∧ 0 < (st.adapter p).filled then
        some (st.setAdapter p { st.adapter p with
          filled := (st.adapter p).filled - 1
          cq := (st.adapter p).cq ++ [⟨.recv, true⟩] })
      else none
  | .receiveError =>
      if (st.control p).result = none ∧ 0 < (st.adapter p).recvQueue then
        some (st.setAdapter p { st.adapter p with
          recvQueue := (st.adapter p).recvQueue - 1
          cq := (st.adapter p).cq ++ [⟨.recv, false⟩] })
      else none

inductive Event where
  | exec (p : Side)
  | fail (p : Side)
  | enterSync (p : Side)
  | returnConData (p : Side) (rc : ℤ) (remote : CmConData)
  | returnChar (p : Side) (rc : ℤ)
  | destroy (p : Side) (ok : Bool)
  | adapter (p : Side) (e : AdapterEvent)

/-- The program is in the call of `sock_sync_data` it stands at. -/
def State.InSync (st : State) (p : Side) : Prop :=
  (st.control p).exit = none ∧
    (st.control p).entered = meetings (syncAt p) (st.control p).pc + 1

/-- So is its peer, or has been. -/
def State.PeerEntered (st : State) (p : Side) : Prop :=
  meetings (syncAt p) (st.control p).pc + 1 ≤ (st.control p.peer).entered

instance (st : State) (p : Side) : Decidable (st.InSync p) := inferInstanceAs (Decidable (_ ∧ _))

instance (st : State) (p : Side) : Decidable (st.PeerEntered p) :=
  inferInstanceAs (Decidable (_ ≤ _))

def step (data : Side → CmConData) (st : State) : Event → Option State
  | .exec p =>
      match stmtAt p (st.control p).pc with
      | none => none
      | some stmt => if (st.control p).exit = none then st.exec p stmt else none
  | .fail p =>
      match stmtAt p (st.control p).pc with
      | none => none
      | some stmt =>
          if (st.control p).exit = none ∧ stmt.canFail = true then some (st.leave p 1) else none
  | .enterSync p =>
      if (st.control p).exit = none ∧ syncAt p (st.control p).pc = true ∧
          (st.control p).entered = meetings (syncAt p) (st.control p).pc then
        some (st.setControl p { st.control p with entered := (st.control p).entered + 1 })
      else none
  | .returnConData p rc remote =>
      if st.InSync p ∧ stmtAt p (st.control p).pc = some .syncConData then
        if rc < 0 then some (st.leave p 1)
        else if st.PeerEntered p ∧ (rc = 0 → remote = data p.peer) then
          some ((st.advance p).setControl p { (st.advance p).control p with
            remoteProps := some remote })
        else none
      else none
  | .returnChar p rc =>
      if st.InSync p ∧ (syncAt p (st.control p).pc = true ∧
          stmtAt p (st.control p).pc ≠ some .syncConData) then
        if rc ≠ 0 then some (st.leave p 1)
        else if st.PeerEntered p then some (st.advance p)
        else none
      else none
  | .destroy p ok =>
      match (st.control p).exit, (st.control p).result with
      | some rc, none =>
          some (st.setControl p { st.control p with result := some (if ok then rc else 1) })
      | _, _ => none
  | .adapter p e => st.adapterStep data p e

end CppPlayground.RdmaDemo
