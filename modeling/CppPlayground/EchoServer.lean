import CppPlayground.HostBytes
import CppPlayground.Runs

/-!
# The echo server

`main` of Socket/try1's server, after `listen`. A client sends a stream and
closes; the kernel cuts the stream into the pieces that `read` returns, and
`send` takes any part of what it is given, at least one byte if there is one.
The events are the results of the calls, in the order of the program.

The inner loop has no exit but the one through a failed `send`: a result 0 of
`read` is passed to `send` like any other, and `close` and the next `accept`
after the loop are never reached.
-/
namespace CppPlayground.EchoServer
open HostBytes Runs

/-- The call that the program makes next; `sending` has the size it passes. -/
inductive Control where
  | accepting
  | reading
  | sending (size : ℕ)
  | closing
  | exited
  deriving DecidableEq

/-- `incoming` is what is left of the client's stream; `received` and `sent`
keep what was read from this client and sent to it, for the record only. -/
structure Server where
  control : Control
  buf : Memory
  incoming : List UInt8
  received : List UInt8
  sent : List UInt8
  accepts : ℕ
  closes : ℕ

/-- A stack that held `garbage`, with `char buf[1024] = {0}` on it. -/
def start (garbage : Memory) : Server :=
  ⟨.accepting, store garbage 0 (List.replicate 1024 0), [], [], [], 0, 0⟩

inductive Event where
  | accept (stream : List UInt8)
  | acceptError
  | read (count : ℕ)
  | readEof
  | readError
  | send (count : ℕ)
  | sendError
  | close

namespace Server

def accept (s : Server) (stream : List UInt8) : Server :=
  { s with
    control := .reading
    incoming := stream
    received := []
    sent := []
    accepts := s.accepts + 1 }

def read (s : Server) (count : ℕ) : Server :=
  { s with
    control := .sending count
    buf := store s.buf 0 (s.incoming.take count)
    incoming := s.incoming.drop count
    received := s.received ++ s.incoming.take count }

def send (s : Server) (count : ℕ) : Server :=
  { s with control := .reading, sent := s.sent ++ load s.buf 0 count }

def turn (s : Server) (control : Control) : Server := { s with control := control }

end Server

/-- A failed `read` passes -1 to `send`, which takes it as a size. -/
def step (s : Server) : Event → Option Server
  | .accept stream => if s.control = .accepting then some (s.accept stream) else none
  | .acceptError => if s.control = .accepting then some (s.turn .exited) else none
  | .read count =>
      if s.control = .reading ∧ 1 ≤ count ∧ count ≤ 1024 ∧ count ≤ s.incoming.length then
        some (s.read count)
      else none
  | .readEof =>
      if s.control = .reading ∧ s.incoming = [] then some (s.turn (.sending 0)) else none
  | .readError => if s.control = .reading then some (s.turn (.sending (2 ^ 64 - 1))) else none
  | .send count =>
      match s.control with
      | .sending size =>
          if count ≤ size ∧ (0 < size → 0 < count) then some (s.send count) else none
      | _ => none
  | .sendError =>
      match s.control with
      | .sending _ => some (s.turn .exited)
      | _ => none
  | .close =>
      if s.control = .closing then some { s.turn .accepting with closes := s.closes + 1 } else none

/-- All that a step can be. -/
inductive Effect (s : Server) : Event → Server → Prop where
  | accept (stream : List UInt8) (h : s.control = .accepting) :
      Effect s (.accept stream) (s.accept stream)
  | acceptError (h : s.control = .accepting) : Effect s .acceptError (s.turn .exited)
  | read (count : ℕ) (h : s.control = .reading) (hcount : 1 ≤ count ∧ count ≤ 1024)
      (hin : count ≤ s.incoming.length) : Effect s (.read count) (s.read count)
  | readEof (h : s.control = .reading) (hin : s.incoming = []) :
      Effect s .readEof (s.turn (.sending 0))
  | readError (h : s.control = .reading) : Effect s .readError (s.turn (.sending (2 ^ 64 - 1)))
  | send (size count : ℕ) (h : s.control = .sending size) (hle : count ≤ size) :
      Effect s (.send count) (s.send count)
  | sendError (size : ℕ) (h : s.control = .sending size) : Effect s .sendError (s.turn .exited)
  | close (h : s.control = .closing) :
      Effect s .close { s.turn .accepting with closes := s.closes + 1 }

theorem step_effect {s t : Server} {e : Event} (h : step s e = some t) : Effect s e t := by
  cases e with
  | accept stream =>
      simp only [step] at h
      split_ifs at h with hc
      exact Option.some.inj h ▸ .accept stream hc
  | acceptError =>
      simp only [step] at h
      split_ifs at h with hc
      exact Option.some.inj h ▸ .acceptError hc
  | read count =>
      simp only [step] at h
      split_ifs at h with hc
      exact Option.some.inj h ▸ .read count hc.1 ⟨hc.2.1, hc.2.2.1⟩ hc.2.2.2
  | readEof =>
      simp only [step] at h
      split_ifs at h with hc
      exact Option.some.inj h ▸ .readEof hc.1 hc.2
  | readError =>
      simp only [step] at h
      split_ifs at h with hc
      exact Option.some.inj h ▸ .readError hc
  | send count =>
      simp only [step] at h
      split at h
      next size hc =>
        split_ifs at h with hcount
        exact Option.some.inj h ▸ .send size count hc hcount.1
      next => cases h
  | sendError =>
      simp only [step] at h
      split at h
      next size hc => exact Option.some.inj h ▸ .sendError size hc
      next => cases h
  | close =>
      simp only [step] at h
      split_ifs at h with hc
      exact Option.some.inj h ▸ .close hc

/-- The program is in the inner loop, or has left it by `exit`. -/
structure InLoop (s : Server) : Prop where
  not_accepting : s.control ≠ .accepting
  not_closing : s.control ≠ .closing
  closes : s.closes = 0

theorem InLoop.accept {s : Server} (h : s.closes = 0) (stream : List UInt8) :
    InLoop (s.accept stream) :=
  ⟨by simp [Server.accept], by simp [Server.accept], h⟩

theorem InLoop.step {s t : Server} {e : Event} (h : InLoop s) (hs : EchoServer.step s e = some t) :
    InLoop t := by
  cases step_effect hs with
  | accept stream hc => exact absurd hc h.not_accepting
  | acceptError hc => exact absurd hc h.not_accepting
  | read count _ _ _ => exact ⟨by simp [Server.read], by simp [Server.read], h.closes⟩
  | readEof _ _ => exact ⟨by simp [Server.turn], by simp [Server.turn], h.closes⟩
  | readError _ => exact ⟨by simp [Server.turn], by simp [Server.turn], h.closes⟩
  | send size count _ _ => exact ⟨by simp [Server.send], by simp [Server.send], h.closes⟩
  | sendError size _ => exact ⟨by simp [Server.turn], by simp [Server.turn], h.closes⟩
  | close hc => exact absurd hc h.not_closing

/-- What is wanted for a client: its stream was sent back, its connection
closed, and `accept` is called again. -/
structure Served (stream : List UInt8) (s : Server) : Prop where
  sent : s.sent = stream
  closed : s.closes = 1
  next : s.control = .accepting

/-- No client is ever served: whatever it sends and however the stream is cut
and taken, the program never gets to `close`. -/
theorem never_served {garbage : Memory} {stream : List UInt8} {es : List Event} {s : Server}
    (h : run step (start garbage) (.accept stream::es) = some s) : ¬ Served stream s := by
  obtain ⟨t, ht, hrun⟩ := run_cons_eq h
  have hfirst : InLoop t := by
    have hcontrol : (start garbage).control = .accepting := rfl
    rw [step, if_pos hcontrol, Option.some.injEq] at ht
    exact ht ▸ .accept rfl stream
  have hloop : InLoop s := invariant (fun hI hs => hI.step hs) hfirst hrun
  exact fun hserved => hloop.not_accepting hserved.next

theorem never_served_short_send :
    ∃ s, run step (start fun _ => 0)
        [.accept [104, 105], .read 2, .send 1, .readEof, .send 0] = some s ∧
      ¬ Served [104, 105] s :=
  ⟨_, rfl, @never_served (fun _ => 0) _ [.read 2, .send 1, .readEof, .send 0] _ rfl⟩

/-- From end-of-stream on the loop makes the same two calls for ever. -/
theorem run_spin {s : Server} (h : s.control = .reading) (hin : s.incoming = []) (n : ℕ) :
    run step s (List.replicate n [.readEof, .send 0]).flatten = some s := by
  have heof : step s .readEof = some (s.turn (.sending 0)) := if_pos ⟨h, hin⟩
  have hnothing : step (s.turn (.sending 0)) (.send 0) = some ((s.turn (.sending 0)).send 0) := by
    simp [step, Server.turn]
  have hback : (s.turn (.sending 0)).send 0 = s := by
    cases s
    simp only at h
    simp [Server.turn, Server.send, load, h]
  induction n with
  | zero => rfl
  | succ n ih =>
      rw [List.replicate_succ, List.flatten_cons]
      exact run_append_some (run_cons heof (run_cons hnothing (by rw [hback]; rfl))) ih

/-- Two bytes are read in one piece, `send` takes the first of them only, and
the client closes: the second byte is gone, and the loop goes on for ever. -/
theorem byte_lost_and_loop_kept :
    ∃ s, s.sent = [104] ∧ s.closes = 0 ∧ s.control = .reading ∧
      ∀ n, run step (start fun _ => 0) (.accept [104, 105]::.read 2::.send 1::
        (List.replicate n [.readEof, .send 0]).flatten) = some s := by
  obtain ⟨s, hs, hsent, hcloses, hcontrol, hin⟩ : ∃ s,
      run step (start fun _ => 0) [.accept [104, 105], .read 2, .send 1] = some s ∧
        s.sent = [104] ∧ s.closes = 0 ∧ s.control = .reading ∧ s.incoming = [] :=
    ⟨_, rfl, rfl, rfl, rfl, rfl⟩
  exact ⟨s, hsent, hcloses, hcontrol, fun n => run_append_some hs (run_spin hcontrol hin n)⟩

/-- The bytes that the next `send` is given. -/
def Server.pending (s : Server) : List UInt8 :=
  match s.control with
  | .sending size => load s.buf 0 size
  | _ => []

/-- Neither `read` nor `send` fails. -/
def callsSucceed (_ : Server) (e : Event) : Bool :=
  match e with
  | .readError | .sendError => false
  | _ => true

/-- A `send` takes all that it is given. -/
def sendsWhole (s : Server) (e : Event) : Bool :=
  match e, s.control with
  | .send count, .sending size => count = size
  | _, _ => true

/-- What has been sent, with what is to be sent next, is no more than was
received; and received is what was taken from the stream. -/
structure Flows (stream : List UInt8) (s : Server) : Prop where
  inLoop : InLoop s
  le : (s.sent ++ s.pending).length ≤ s.received.length
  taken : s.received ++ s.incoming = stream

theorem pending_read {s : Server} {count : ℕ} (hin : count ≤ s.incoming.length) :
    (s.read count).pending = s.incoming.take count := by
  have hload : load (store s.buf 0 (s.incoming.take count)) 0 count =
      (s.incoming.take count).take count :=
    load_store_take (by rw [List.length_take]; omega)
  rwa [List.take_take, Nat.min_self] at hload

theorem pending_reading {s : Server} (h : s.control = .reading) : s.pending = [] := by
  simp [Server.pending, h]

theorem pending_sending {s : Server} {size : ℕ} (h : s.control = .sending size) :
    s.pending = load s.buf 0 size := by
  simp [Server.pending, h]

/-- The steps that are left inside the loop when no call fails. -/
inductive Passes (s : Server) (e : Event) : Server → Prop where
  | read (count : ℕ) (h : s.control = .reading) (hin : count ≤ s.incoming.length)
      (he : e = .read count) : Passes s e (s.read count)
  | eof (h : s.control = .reading) (he : e = .readEof) : Passes s e (s.turn (.sending 0))
  | send (size count : ℕ) (h : s.control = .sending size) (hle : count ≤ size)
      (he : e = .send count) : Passes s e (s.send count)

theorem InLoop.passes {s t : Server} {e : Event} (h : InLoop s)
    (hs : guarded callsSucceed EchoServer.step s e = some t) : Passes s e t := by
  obtain ⟨hok, hstep⟩ := guarded_eq_some.mp hs
  cases step_effect hstep with
  | accept stream hc => exact absurd hc h.not_accepting
  | acceptError hc => exact absurd hc h.not_accepting
  | read count hc _ hin => exact .read count hc hin rfl
  | readEof hc _ => exact .eof hc rfl
  | readError _ => cases hok
  | send size count hc hle => exact .send size count hc hle rfl
  | sendError _ _ => cases hok
  | close hc => exact absurd hc h.not_closing

theorem Flows.step {stream : List UInt8} {s t : Server} {e : Event} (h : Flows stream s)
    (hs : guarded callsSucceed EchoServer.step s e = some t) : Flows stream t := by
  have hloop := h.inLoop.step (guarded_eq_some.mp hs).2
  have hle := h.le
  have htaken := h.taken
  cases h.inLoop.passes hs with
  | read count hc hin he =>
      rw [pending_reading hc, List.append_nil] at hle
      refine ⟨hloop, ?_, ?_⟩
      · rw [pending_read hin]
        simp only [Server.read, List.length_append, List.length_take]
        omega
      · simp only [Server.read, List.append_assoc, List.take_append_drop]
        exact htaken
  | eof hc he =>
      rw [pending_reading hc] at hle
      exact ⟨hloop, hle, htaken⟩
  | send size count hc hcount he =>
      rw [pending_sending hc, List.length_append, load_length] at hle
      refine ⟨hloop, ?_, htaken⟩
      rw [pending_reading rfl, List.append_nil]
      simp only [Server.send, List.length_append, load_length]
      omega

/-- One step keeps sent and received equal exactly if it sends all. -/
theorem Flows.whole_iff {stream : List UInt8} {s t : Server} {e : Event} (h : Flows stream s)
    (hs : guarded callsSucceed EchoServer.step s e = some t) :
    t.sent ++ t.pending = t.received ↔
      s.sent ++ s.pending = s.received ∧ sendsWhole s e = true := by
  have hle := h.le
  cases h.inLoop.passes hs with
  | read count hc hin he =>
      rw [pending_read hin, pending_reading hc, he]
      simp only [Server.read, List.append_nil, List.append_left_inj, sendsWhole, and_true]
  | eof hc he =>
      rw [pending_reading hc, he]
      simp [Server.turn, Server.pending, load, sendsWhole]
  | send size count hc hcount he =>
      rw [pending_reading rfl, pending_sending hc, List.append_nil, he]
      rw [pending_sending hc, List.length_append, load_length] at hle
      simp only [Server.send, sendsWhole, hc, decide_eq_true_eq]
      constructor
      · intro hall
        have hlen := congrArg List.length hall
        rw [List.length_append, load_length] at hlen
        have hsame : count = size := by omega
        exact ⟨hsame ▸ hall, hsame⟩
      · rintro ⟨hall, rfl⟩
        exact hall

/-- When no call fails, the stream has been sent back complete and in order
after its last byte exactly if every `send` took all that it was given. -/
theorem echoed_iff {garbage : Memory} {stream : List UInt8} {es : List Event} {s : Server}
    (h : run (guarded callsSucceed step) ((start garbage).accept stream) es = some s)
    (hcontrol : s.control = .reading) (hin : s.incoming = []) :
    s.sent = stream ↔ run (guarded sendsWhole (guarded callsSucceed step))
      ((start garbage).accept stream) es = some s := by
  have hfirst : Flows stream ((start garbage).accept stream) :=
    ⟨.accept rfl stream, le_rfl, rfl⟩
  have hlast : Flows stream s := invariant (fun hF hs => hF.step hs) hfirst h
  have hstream : s.received = stream := by
    rw [← hlast.taken, hin, List.append_nil]
  rw [← guarded_iff (I := fun s => s.sent ++ s.pending = s.received) (fun hF hs => hF.step hs)
    (fun hF hs => hF.whole_iff hs) hfirst rfl h, pending_reading hcontrol, List.append_nil, hstream]

end CppPlayground.EchoServer
