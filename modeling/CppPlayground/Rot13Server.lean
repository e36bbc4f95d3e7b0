import CppPlayground.GatedQueue
import CppPlayground.Runs
import Mathlib.Data.PNat.Basic

/-!
# The rot13 server's connections

`do_read` and `do_write` of the libevent server on one connection. Each handler
is modelled twice. `doRead` and `doWrite` run to their return, given the results
of all `recv` and `send` calls they make. The machine `step` stops after every
byte of the inner loop and every call, so that its states are all the points at
which the connection can be looked at. A call of a handler is a run of the
machine.

The machine also writes down what happened: each received byte with the state
it met, and each `send` call with the range it was given.
-/
namespace CppPlayground.Rot13Server
open GatedQueue Runs

/-- `MAX_LINE`, the size of the buffer. -/
def maxLine : ℕ := 16384

def newline : UInt8 := '\n'.toUInt8

def rot13Char (c : UInt8) : UInt8 :=
  if ('a'.toUInt8 ≤ c ∧ c ≤ 'm'.toUInt8) ∨ ('A'.toUInt8 ≤ c ∧ c ≤ 'M'.toUInt8) then c + 13
  else if ('n'.toUInt8 ≤ c ∧ c ≤ 'z'.toUInt8) ∨ ('N'.toUInt8 ≤ c ∧ c ≤ 'Z'.toUInt8) then c - 13
  else c

/-- The buffer is the memory from the array's start on; indices from `maxLine`
lie past the array. `writePending` says whether `write_event` is added. -/
structure FdState where
  buffer : ℕ → UInt8
  bufferUsed : ℕ
  nWritten : ℕ
  writeUpto : ℕ
  writePending : Bool

namespace FdState

/-- Where the next byte will be stored. -/
def place (s : FdState) : Option ℕ :=
  if s.bufferUsed < maxLine then some s.bufferUsed else none

def keep (s : FdState) (c : UInt8) : FdState :=
  match s.place with
  | some i => { s with buffer := Function.update s.buffer i (rot13Char c), bufferUsed := i + 1 }
  | none => s

def closeLine (s : FdState) : FdState :=
  { s with writePending := true, writeUpto := s.bufferUsed }

/-- One pass of the loop over the received bytes. -/
def store (s : FdState) (c : UInt8) : FdState :=
  if c = newline then (s.keep c).closeLine else s.keep c

/-- The bytes the next `send` is given. -/
def request (s : FdState) : List UInt8 := window s.buffer s.nWritten s.writeUpto

def wrote (s : FdState) (k : ℕ) : FdState := { s with nWritten := s.nWritten + k }

/-- An empty buffer starts over, at index 1. -/
def rewind (s : FdState) : FdState :=
  if s.nWritten = s.bufferUsed then { s with nWritten := 1, writeUpto := 1, bufferUsed := 1 } else s

/-- The end of `do_write`, after its loop. -/
def drained (s : FdState) : FdState := { s.rewind with writePending := false }

end FdState

section Store
variable {s : FdState}

theorem place_eq_none : s.place = none ↔ maxLine ≤ s.bufferUsed := by
  unfold FdState.place
  split_ifs with h <;> simp <;> omega

theorem place_eq_some {i : ℕ} : s.place = some i ↔ i = s.bufferUsed ∧ i < maxLine := by
  unfold FdState.place
  split_ifs with h
  · simp only [Option.some.injEq]
    constructor
    · rintro rfl
      exact ⟨rfl, h⟩
    · rintro ⟨rfl, _⟩
      rfl
  · constructor
    · simp
    · rintro ⟨rfl, hi⟩
      exact absurd hi h

@[simp] theorem keep_nWritten (c : UInt8) : (s.keep c).nWritten = s.nWritten := by
  unfold FdState.keep
  split <;> rfl

@[simp] theorem keep_writeUpto (c : UInt8) : (s.keep c).writeUpto = s.writeUpto := by
  unfold FdState.keep
  split <;> rfl

@[simp] theorem keep_writePending (c : UInt8) : (s.keep c).writePending = s.writePending := by
  unfold FdState.keep
  split <;> rfl

theorem keep_of_none (h : s.place = none) (c : UInt8) : s.keep c = s := by
  simp [FdState.keep, h]

theorem keep_of_some {i : ℕ} (h : s.place = some i) (c : UInt8) :
    s.keep c = { s with
      buffer := Function.update s.buffer s.bufferUsed (rot13Char c)
      bufferUsed := s.bufferUsed + 1 } := by
  obtain ⟨rfl, _⟩ := place_eq_some.mp h
  simp [FdState.keep, h]

theorem keep_bufferUsed (c : UInt8) :
    (s.keep c).bufferUsed = if s.place = none then s.bufferUsed else s.bufferUsed + 1 := by
  cases h : s.place with
  | none => simp [keep_of_none h]
  | some i => simp [keep_of_some h]

theorem store_of_newline {c : UInt8} (h : c = newline) : s.store c = (s.keep c).closeLine :=
  if_pos h

theorem store_of_ne {c : UInt8} (h : c ≠ newline) : s.store c = s.keep c := if_neg h

@[simp] theorem store_nWritten (c : UInt8) : (s.store c).nWritten = s.nWritten := by
  unfold FdState.store
  split_ifs <;> simp [FdState.closeLine]

@[simp] theorem store_bufferUsed (c : UInt8) : (s.store c).bufferUsed = (s.keep c).bufferUsed := by
  unfold FdState.store
  split_ifs <;> rfl

end Store

/-- What one `recv` into the 1024-byte `buf` returns. -/
structure Chunk where
  bytes : List UInt8
  nonempty : bytes ≠ []
  fits : bytes.length ≤ 1024

/-- The result that ends `do_read`'s loop. -/
inductive RecvEnd where
  | eof
  | again
  | error
  deriving DecidableEq

/-- What the socket does with a `send`: takes as much as it has room for, or
fails. -/
inductive SendOutcome where
  | room (k : ℕ+)
  | again
  | error

def received (chunks : List Chunk) : List UInt8 := chunks.flatMap Chunk.bytes

/-- The state after `do_read`, unless it was freed. -/
def doRead (s : FdState) (chunks : List Chunk) (finish : RecvEnd) : Option FdState :=
  if finish = .again then some ((received chunks).foldl FdState.store s) else none

/-- The state after `do_write`, unless it was freed, and the bytes each `send`
was given. A socket that is asked more often than it has outcomes is not ready. -/
def doWrite (s : FdState) : List SendOutcome → Option FdState × List (List UInt8)
  | [] => if s.nWritten < s.writeUpto then (some s, [s.request]) else (some s.drained, [])
  | outcome::rest =>
      if s.nWritten < s.writeUpto then
        match outcome with
        | .room k =>
            let r := doWrite (s.wrote (min k (s.writeUpto - s.nWritten))) rest
            (r.1, s.request::r.2)
        | .again => (some s, [s.request])
        | .error => (none, [s.request])
      else (some s.drained, [])

/-- In which handler the connection is, and where: `do_read` with the bytes of
`buf` not looked at yet, or the head of `do_write`'s loop. -/
inductive Control where
  | idle
  | reading (rest : List UInt8)
  | writing
  | freed
  deriving DecidableEq

/-- A received byte, where it was stored if it was, and what it met: the fill
of the buffer, the backlog and the bytes stored since the buffer was empty. -/
structure Arrival where
  byte : UInt8
  place : Option ℕ
  used : ℕ
  unsent : ℕ
  sinceEmpty : ℕ

/-- The range of a `send` call, the bytes in it and how many were accepted. -/
structure SendCall where
  start : ℕ
  stop : ℕ
  data : List UInt8
  accepted : ℕ

structure Conn where
  state : FdState
  control : Control
  log : List Arrival
  sends : List SendCall
  sinceEmpty : ℕ

inductive Event where
  | dispatchRead
  | recvData (chunk : Chunk)
  | loopByte
  | recvEnd (finish : RecvEnd)
  | dispatchWrite
  | sendAccept (k : ℕ)
  | sendAgain
  | sendError
  | drain

def RecvEnd.control : RecvEnd → Control
  | .again => .idle
  | .eof | .error => .freed

namespace Conn

def turn (conn : Conn) (control : Control) : Conn := { conn with control := control }

def arrival (conn : Conn) (c : UInt8) : Arrival :=
  ⟨c, conn.state.place, conn.state.bufferUsed, conn.state.bufferUsed - conn.state.nWritten,
    conn.sinceEmpty⟩

def arrive (conn : Conn) (c : UInt8) : Conn :=
  { conn with
    state := conn.state.store c
    log := conn.log ++ [conn.arrival c]
    sinceEmpty := if conn.state.place = none then conn.sinceEmpty else conn.sinceEmpty + 1 }

def send (conn : Conn) (k : ℕ) : Conn :=
  { conn with
    state := conn.state.wrote k
    sends := conn.sends ++
      [⟨conn.state.nWritten, conn.state.writeUpto, conn.state.request, k⟩] }

def drain (conn : Conn) : Conn :=
  { conn with
    state := conn.state.drained
    control := .idle
    sinceEmpty := if conn.state.nWritten = conn.state.bufferUsed then 0 else conn.sinceEmpty }

end Conn

def step (conn : Conn) : Event → Option Conn
  | .dispatchRead => if conn.control = .idle then some (conn.turn (.reading [])) else none
  | .recvData chunk =>
      if conn.control = .reading [] then some (conn.turn (.reading chunk.bytes)) else none
  | .loopByte =>
      match conn.control with
      | .reading (c::rest) => some ((conn.arrive c).turn (.reading rest))
      | _ => none
  | .recvEnd finish =>
      if conn.control = .reading [] then some (conn.turn finish.control) else none
  | .dispatchWrite => if conn.control = .idle then some (conn.turn .writing) else none
  | .sendAccept k =>
      if conn.control = .writing ∧ conn.state.nWritten < conn.state.writeUpto ∧
          1 ≤ k ∧ k ≤ conn.state.writeUpto - conn.state.nWritten then
        some (conn.send k)
      else none
  | .sendAgain =>
      if conn.control = .writing ∧ conn.state.nWritten < conn.state.writeUpto then
        some ((conn.send 0).turn .idle)
      else none
  | .sendError =>
      if conn.control = .writing ∧ conn.state.nWritten < conn.state.writeUpto then
        some ((conn.send 0).turn .freed)
      else none
  | .drain =>
      if conn.control = .writing ∧ ¬ conn.state.nWritten < conn.state.writeUpto then
        some conn.drain
      else none

/-- A connection whose three indices are 0, with nothing known of the buffer. -/
def Conn.start (buffer : ℕ → UInt8) : Conn := ⟨⟨buffer, 0, 0, 0, false⟩, .idle, [], [], 0⟩

/-- All that a step can be. -/
inductive Effect (conn : Conn) : Conn → Prop where
  | turn (control : Control) (h : conn.control ≠ .writing) : Effect conn (conn.turn control)
  | byte (c : UInt8) (rest : List UInt8) (h : conn.control = .reading (c::rest)) :
      Effect conn ((conn.arrive c).turn (.reading rest))
  | accept (k : ℕ) (h : conn.control = .writing)
      (hn : conn.state.nWritten < conn.state.writeUpto)
      (hk : k ≤ conn.state.writeUpto - conn.state.nWritten) : Effect conn (conn.send k)
  | refuse (control : Control) (h : conn.control = .writing)
      (hn : conn.state.nWritten < conn.state.writeUpto) :
      Effect conn ((conn.send 0).turn control)
  | drain (h : conn.control = .writing) (hn : ¬ conn.state.nWritten < conn.state.writeUpto) :
      Effect conn conn.drain

theorem step_effect {conn conn' : Conn} {e : Event} (h : step conn e = some conn') :
    Effect conn conn' := by
  cases e with
  | dispatchRead =>
      simp only [step] at h
      split_ifs at h with hc
      exact Option.some.inj h ▸ .turn _ (by simp [hc])
  | recvData chunk =>
      simp only [step] at h
      split_ifs at h with hc
      exact Option.some.inj h ▸ .turn _ (by simp [hc])
  | loopByte =>
      simp only [step] at h
      split at h
      next c rest hc => exact Option.some.inj h ▸ .byte c rest hc
      next => cases h
  | recvEnd finish =>
      simp only [step] at h
      split_ifs at h with hc
      exact Option.some.inj h ▸ .turn _ (by simp [hc])
  | dispatchWrite =>
      simp only [step] at h
      split_ifs at h with hc
      exact Option.some.inj h ▸ .turn _ (by simp [hc])
  | sendAccept k =>
      simp only [step] at h
      split_ifs at h with hc
      exact Option.some.inj h ▸ .accept k hc.1 hc.2.1 hc.2.2.2
  | sendAgain =>
      simp only [step] at h
      split_ifs at h with hc
      exact Option.some.inj h ▸ .refuse _ hc.1 hc.2
  | sendError =>
      simp only [step] at h
      split_ifs at h with hc
      exact Option.some.inj h ▸ .refuse _ hc.1 hc.2
  | drain =>
      simp only [step] at h
      split_ifs at h with hc
      exact Option.some.inj h ▸ .drain hc.1 hc.2

def loopEvents (bytes : List UInt8) : List Event := List.replicate bytes.length .loopByte

theorem run_loop (conn : Conn) (bytes : List UInt8) :
    run step (conn.turn (.reading bytes)) (loopEvents bytes) =
      some ((bytes.foldl Conn.arrive conn).turn (.reading [])) := by
  induction bytes generalizing conn with
  | nil => rfl
  | cons c rest ih => exact run_cons rfl (ih (conn.arrive c))

def recvEvents (chunks : List Chunk) : List Event :=
  chunks.flatMap fun chunk => .recvData chunk::loopEvents chunk.bytes

theorem run_recv (conn : Conn) (chunks : List Chunk) :
    run step (conn.turn (.reading [])) (recvEvents chunks) =
      some (((received chunks).foldl Conn.arrive conn).turn (.reading [])) := by
  induction chunks generalizing conn with
  | nil => rfl
  | cons chunk rest ih =>
      rw [received, List.flatMap_cons, List.foldl_append]
      exact run_append_some (run_cons rfl (run_loop conn chunk.bytes)) (ih _)

def readEvents (chunks : List Chunk) (finish : RecvEnd) : List Event :=
  .dispatchRead::(recvEvents chunks ++ [.recvEnd finish])

/-- `do_read` on the machine. -/
theorem run_doRead {conn : Conn} (h : conn.control = .idle) (chunks : List Chunk)
    (finish : RecvEnd) :
    run step conn (readEvents chunks finish) =
      some (((received chunks).foldl Conn.arrive conn).turn finish.control) := by
  have hstart : step conn .dispatchRead = some (conn.turn (.reading [])) := if_pos h
  exact run_cons hstart (run_snoc (run_recv conn chunks) rfl)

theorem foldl_arrive_state (conn : Conn) (bytes : List UInt8) :
    (bytes.foldl Conn.arrive conn).state = bytes.foldl FdState.store conn.state := by
  induction bytes generalizing conn with
  | nil => rfl
  | cons c rest ih => exact ih (conn.arrive c)

theorem foldl_arrive_sends (conn : Conn) (bytes : List UInt8) :
    (bytes.foldl Conn.arrive conn).sends = conn.sends := by
  induction bytes generalizing conn with
  | nil => rfl
  | cons c rest ih => exact ih (conn.arrive c)

/-- What the `recv` calls of a run brought. -/
def recvBytes (es : List Event) : List UInt8 :=
  es.flatMap fun e => match e with
    | .recvData chunk => chunk.bytes
    | _ => []

/-- The bytes of `buf` not looked at yet. -/
def Control.unread : Control → List UInt8
  | .reading rest => rest
  | .idle | .writing | .freed => []

theorem recvBytes_append (es fs : List Event) :
    recvBytes (es ++ fs) = recvBytes es ++ recvBytes fs := List.flatMap_append

theorem log_step {conn conn' : Conn} {e : Event} (h : step conn e = some conn') :
    conn'.log.map Arrival.byte ++ conn'.control.unread =
      conn.log.map Arrival.byte ++ conn.control.unread ++ recvBytes [e] := by
  cases e with
  | recvData chunk =>
      simp only [step] at h
      split_ifs at h with hc
      cases h
      simp [Conn.turn, Control.unread, recvBytes, hc]
  | loopByte =>
      simp only [step] at h
      split at h
      next c rest hc =>
        cases h
        simp [Conn.turn, Conn.arrive, Conn.arrival, Control.unread, recvBytes, hc]
      next => cases h
  | recvEnd finish =>
      simp only [step] at h
      split_ifs at h with hc
      cases h
      cases finish <;> simp [Conn.turn, Control.unread, RecvEnd.control, recvBytes, hc]
  | dispatchRead | dispatchWrite =>
      simp only [step] at h
      split_ifs at h with hc
      cases h
      simp [Conn.turn, Control.unread, recvBytes, hc]
  | sendAccept _ | sendAgain | sendError | drain =>
      simp only [step] at h
      split_ifs at h with hc
      cases h
      simp [Conn.turn, Conn.send, Conn.drain, Control.unread, recvBytes, hc.1]

/-- At every point of a run the log has all that was received so far, in order,
but for the bytes not looked at yet. -/
theorem log_received {buffer : ℕ → UInt8} {es : List Event} {conn : Conn}
    (hrun : run step (.start buffer) es = some conn) :
    conn.log.map Arrival.byte ++ conn.control.unread = recvBytes es := by
  refine history_invariant
    (I := fun es conn => conn.log.map Arrival.byte ++ conn.control.unread = recvBytes es)
    rfl ?_ hrun
  intro es conn e conn' _ ih hstep
  rw [log_step hstep, ih, recvBytes_append]

theorem recvBytes_readEvents (chunks : List Chunk) (finish : RecvEnd) :
    recvBytes (readEvents chunks finish) = received chunks := by
  induction chunks with
  | nil => rfl
  | cons chunk rest ih =>
      have hloop : recvBytes (loopEvents chunk.bytes) = [] := by
        simp [recvBytes, loopEvents]
      simp only [readEvents, recvEvents, recvBytes, received, List.flatMap_cons,
        List.flatMap_append] at ih hloop ⊢
      rw [hloop]
      simpa using ih

/-- The connection is where a handler that returned `r` leaves it. -/
def Conn.Returned (conn : Conn) (r : Option FdState) : Prop :=
  match r with
  | some s => conn.control = .idle ∧ conn.state = s
  | none => conn.control = .freed

def Conn.handed (conn : Conn) : List (List UInt8) := conn.sends.map SendCall.data

/-- From the head of its loop on, `do_write` may leave the connection at `r.1`
having given `r.2` to `send`. -/
def Conn.Writes (conn : Conn) (r : Option FdState × List (List UInt8)) : Prop :=
  ∃ es conn', run step (conn.turn .writing) es = some conn' ∧
    conn'.Returned r.1 ∧ conn'.handed = conn.handed ++ r.2

section Writes
variable {conn : Conn}

theorem Conn.Writes.drain (h : ¬ conn.state.nWritten < conn.state.writeUpto) :
    conn.Writes (some conn.state.drained, []) := by
  refine ⟨[.drain], (conn.turn .writing).drain, run_cons (if_pos ⟨rfl, h⟩) rfl, ⟨rfl, rfl⟩, ?_⟩
  simp [handed, turn, Conn.drain]

theorem Conn.Writes.again (h : conn.state.nWritten < conn.state.writeUpto) :
    conn.Writes (some conn.state, [conn.state.request]) := by
  refine ⟨[.sendAgain], (conn.send 0).turn .idle, run_cons (if_pos ⟨rfl, h⟩) rfl, ⟨rfl, rfl⟩, ?_⟩
  simp [handed, turn, send]

theorem Conn.Writes.error (h : conn.state.nWritten < conn.state.writeUpto) :
    conn.Writes (none, [conn.state.request]) := by
  refine ⟨[.sendError], (conn.send 0).turn .freed, run_cons (if_pos ⟨rfl, h⟩) rfl, rfl, ?_⟩
  simp [handed, turn, send]

theorem Conn.Writes.accept {k : ℕ} (hk : 1 ≤ k)
    (hle : k ≤ conn.state.writeUpto - conn.state.nWritten)
    {r : Option FdState × List (List UInt8)} (h : (conn.send k).Writes r) :
    conn.Writes (r.1, conn.state.request::r.2) := by
  obtain ⟨es, conn', hrun, hret, hdata⟩ := h
  have hlt : conn.state.nWritten < conn.state.writeUpto := by omega
  refine ⟨.sendAccept k::es, conn', run_cons (if_pos ⟨rfl, hlt, hk, hle⟩) hrun, hret, ?_⟩
  rw [hdata]
  simp [handed, send]

end Writes

theorem doWrite_done {s : FdState} (h : ¬ s.nWritten < s.writeUpto) (outcomes : List SendOutcome) :
    doWrite s outcomes = (some s.drained, []) := by
  cases outcomes <;> simp [doWrite, h]

theorem doWrite_nil {s : FdState} (h : s.nWritten < s.writeUpto) :
    doWrite s [] = (some s, [s.request]) := by
  simp [doWrite, h]

theorem doWrite_cons {s : FdState} (h : s.nWritten < s.writeUpto) (outcome : SendOutcome)
    (rest : List SendOutcome) :
    doWrite s (outcome::rest) = match outcome with
      | .room k =>
          ((doWrite (s.wrote (min k (s.writeUpto - s.nWritten))) rest).1,
            s.request::(doWrite (s.wrote (min k (s.writeUpto - s.nWritten))) rest).2)
      | .again => (some s, [s.request])
      | .error => (none, [s.request]) := by
  cases outcome <;> simp [doWrite, h]

theorem Conn.Writes.of_doWrite (conn : Conn) (outcomes : List SendOutcome) :
    conn.Writes (doWrite conn.state outcomes) := by
  induction outcomes generalizing conn with
  | nil =>
      by_cases hn : conn.state.nWritten < conn.state.writeUpto
      · rw [doWrite_nil hn]
        exact .again hn
      · rw [doWrite_done hn]
        exact .drain hn
  | cons outcome rest ih =>
      by_cases hn : conn.state.nWritten < conn.state.writeUpto
      · rw [doWrite_cons hn]
        cases outcome with
        | room k =>
            have hk : 1 ≤ min (k : ℕ) (conn.state.writeUpto - conn.state.nWritten) :=
              Nat.le_min.mpr ⟨k.pos, Nat.sub_pos_of_lt hn⟩
            exact .accept hk (Nat.min_le_right _ _) (ih (conn.send _))
        | again => exact .again hn
        | error => exact .error hn
      · rw [doWrite_done hn]
        exact .drain hn

/-- `do_write` on the machine. -/
theorem run_doWrite {conn : Conn} (h : conn.control = .idle) (outcomes : List SendOutcome) :
    ∃ es conn', run step conn es = some conn' ∧
      conn'.Returned (doWrite conn.state outcomes).1 ∧
      conn'.handed = conn.handed ++ (doWrite conn.state outcomes).2 := by
  obtain ⟨es, conn', hrun, hend⟩ := Conn.Writes.of_doWrite conn outcomes
  have hstart : step conn .dispatchWrite = some (conn.turn .writing) := if_pos h
  exact ⟨.dispatchWrite::es, conn', run_cons hstart hrun, hend⟩

end CppPlayground.Rot13Server
