import CppPlayground.Runs
import Mathlib.Data.PNat.Basic

/-!
# The edge-triggered server

`start_server` of test3.cpp waits in `epoll_wait`, then serves the reported
descriptors one by one: the listening socket with one `accept`, a client with
one call of `use_conn_fd`. Between any two of these steps clients connect, send,
close and reset. The listening socket is level-triggered. A client's
descriptor is edge-triggered: it has a pending edge when something newly
arrives, and when it is registered with something to read; reporting it clears
the edge.

What ends the program has no successor: a failed `epoll_wait`, `accept` or
`epoll_ctl`, and the SIGPIPE, which nothing catches, that a `write` to a reset
connection raises.
-/
namespace CppPlayground.EpollServer
open Runs

/-- `MAX_EVENTS` -/
def maxEvents : ℕ := 10

/-- The size of `buf` in `use_conn_fd`. -/
def bufSize : ℕ := 1024

/-- The receiving side of a socket. `error` is set from the arrival of a reset
until a `read` has reported it. -/
structure Sock where
  unread : ℕ
  eof : Bool
  reset : Bool
  error : Bool
  deriving DecidableEq

def Sock.new : Sock := ⟨0, false, false, false⟩

/-- What a client's network can bring. A reset may discard unread bytes. -/
inductive Arrival where
  | bytes (n : ℕ+)
  | endOfStream
  | reset (kept : ℕ)

/-- Nothing follows a reset, and after an end-of-stream only a reset does. -/
def Sock.receive (s : Sock) : Arrival → Option Sock
  | .bytes n => if s.eof ∨ s.reset then none else some { s with unread := s.unread + n }
  | .endOfStream => if s.eof ∨ s.reset then none else some { s with eof := true }
  | .reset kept =>
      if s.reset then none
      else some { s with unread := min kept s.unread, reset := true, error := true }

/-- The socket is ready for reading. -/
def Sock.Readable (s : Sock) : Prop := 0 < s.unread ∨ s.eof = true ∨ s.reset = true

instance (s : Sock) : Decidable s.Readable := inferInstanceAs (Decidable (_ ∨ _))

/-- `read(conn_sock, &buf, 1024)` on a non-blocking socket: its result, and
the socket after it. Unread bytes come first. -/
def Sock.read (s : Sock) : ℤ × Sock :=
  if 0 < s.unread then
    (min s.unread bufSize, { s with unread := s.unread - min s.unread bufSize })
  else if s.eof then (0, s)
  else if s.error then (-1, { s with error := false })
  else if s.reset then (0, s)
  else (-1, s)

/-- `write(conn_sock, &ack, sizeof(ack))`: the socket after it, or `none` for
SIGPIPE. On a reset connection the first call fails with the error that no
`read` has reported, and clears it; a client that had ended before its reset
leaves no such error. Elsewhere nothing of the receiving side changes, whether
the bytes are taken or not. -/
def Sock.write (s : Sock) : Option Sock :=
  if s.reset then
    if s.error && !s.eof then some { s with error := false } else none
  else some s

/-- `use_conn_fd`: one `read`, and unless it returned 0 an acknowledgement,
after a failed `read` too. The result of `write` is only printed. -/
def useConnFd (s : Sock) : Option (ℤ × Sock) :=
  let r := s.read
  if r.1 = 0 then some (-1, r.2) else r.2.write.map fun sock => (0, sock)

/-- An accepted client. `results` are those of the reads made of it, and
`closes` counts the calls of `close` on its descriptor. -/
structure Client where
  sock : Sock
  registered : Bool
  edge : Bool
  results : List ℤ
  closes : ℕ

inductive Ready where
  | listen
  | client (i : ℕ)
  deriving DecidableEq

/-- At `epoll_wait`, or in the loop over the reported events. -/
inductive Control where
  | waiting
  | serving (events : List Ready)

/-- `backlog` are the connections not yet accepted, first one first; an
accepted client is known by its index in `clients`. -/
structure Server where
  control : Control
  backlog : List Sock
  clients : List Client

def start : Server := ⟨.waiting, [], []⟩

inductive Event where
  | connect
  | arriveQueued (j : ℕ) (a : Arrival)
  | arrive (i : ℕ) (a : Arrival)
  | epollWait (events : List Ready)
  | serve

namespace Client

def receive (c : Client) (a : Arrival) : Option Client :=
  (c.sock.receive a).map fun sock => { c with sock := sock, edge := c.edge || c.registered }

/-- The descriptor after `EPOLL_CTL_ADD`. -/
def registerNew (sock : Sock) : Client := ⟨sock, true, decide sock.Readable, [], 0⟩

/-- A call of `use_conn_fd` and, when it returns -1, `EPOLL_CTL_DEL`. -/
def serve (c : Client) : Option Client :=
  (useConnFd c.sock).map fun r =>
    let c := { c with sock := r.2, results := c.results ++ [c.sock.read.1] }
    if r.1 = -1 then { c with registered := false, edge := false } else c

end Client

namespace Server

/-- What `epoll_wait` may report now. -/
def IsReady (s : Server) : Ready → Prop
  | .listen => s.backlog ≠ []
  | .client i => ∃ c ∈ s.clients[i]?, c.edge = true

instance (s : Server) : (r : Ready) → Decidable (s.IsReady r)
  | .listen => inferInstanceAs (Decidable (s.backlog ≠ []))
  | .client i => inferInstanceAs (Decidable (∃ c ∈ s.clients[i]?, c.edge = true))

/-- Reported clients lose their edge. -/
def report (s : Server) (events : List Ready) : Server where
  control := .serving events
  backlog := s.backlog
  clients := s.clients.mapIdx fun i c =>
    if .client i ∈ events then { c with edge := false } else c

/-- The control after an event has been served. -/
def next : List Ready → Control
  | [] => .waiting
  | events => .serving events

/-- One turn of the loop over the reported events. -/
def serve (s : Server) : Ready → List Ready → Option Server
  | .listen, rest =>
      match s.backlog with
      | [] => none
      | sock::backlog =>
          some ⟨next rest, backlog, s.clients ++ [Client.registerNew sock]⟩
  | .client i, rest =>
      (s.clients[i]?).bind fun c => c.serve.map fun c' =>
        { s with control := next rest, clients := s.clients.set i c' }

end Server

def step (s : Server) : Event → Option Server
  | .connect => some { s with backlog := s.backlog ++ [Sock.new] }
  | .arriveQueued j a =>
      (s.backlog[j]?).bind fun sock => (sock.receive a).map fun sock' =>
        { s with backlog := s.backlog.set j sock' }
  | .arrive i a =>
      (s.clients[i]?).bind fun c => (c.receive a).map fun c' =>
        { s with clients := s.clients.set i c' }
  | .epollWait events =>
      match s.control with
      | .waiting =>
          if events ≠ [] ∧ events.length ≤ maxEvents ∧ events.Nodup ∧ ∀ r ∈ events, s.IsReady r then
            some (s.report events)
          else none
      | .serving _ => none
  | .serve =>
      match s.control with
      | .waiting => none
      | .serving [] => none
      | .serving (r::rest) => s.serve r rest

/-- The reported events that have not been served. -/
def Control.remaining : Control → List Ready
  | .waiting => []
  | .serving events => events

@[simp] theorem remaining_waiting : Control.waiting.remaining = [] := rfl

@[simp] theorem remaining_serving (events : List Ready) :
    (Control.serving events).remaining = events := rfl

@[simp] theorem remaining_next (rest : List Ready) : (Server.next rest).remaining = rest := by
  cases rest <;> rfl

/-- All that a step can be. -/
inductive Effect (s : Server) : Event → Server → Prop where
  | connect : Effect s .connect { s with backlog := s.backlog ++ [Sock.new] }
  | arriveQueued (j : ℕ) (a : Arrival) (sock : Sock) :
      Effect s (.arriveQueued j a) { s with backlog := s.backlog.set j sock }
  | arrive (i : ℕ) (a : Arrival) (c c' : Client) (hi : s.clients[i]? = some c)
      (hreceive : c.receive a = some c') :
      Effect s (.arrive i a) { s with clients := s.clients.set i c' }
  | epollWait (events : List Ready) (hwait : s.control = .waiting) (hnodup : events.Nodup)
      (hready : ∀ r ∈ events, s.IsReady r) : Effect s (.epollWait events) (s.report events)
  | accept (sock : Sock) (backlog : List Sock) (rest : List Ready)
      (hserving : s.control = .serving (.listen::rest)) :
      Effect s .serve ⟨Server.next rest, backlog, s.clients ++ [Client.registerNew sock]⟩
  | serve (i : ℕ) (rest : List Ready) (c c' : Client)
      (hserving : s.control = .serving (.client i::rest)) (hi : s.clients[i]? = some c)
      (hserve : c.serve = some c') :
      Effect s .serve { s with control := Server.next rest, clients := s.clients.set i c' }

theorem serve_effect {s t : Server} {r : Ready} {rest : List Ready}
    (hserving : s.control = .serving (r::rest)) (h : s.serve r rest = some t) :
    Effect s .serve t := by
  cases r with
  | listen =>
      simp only [Server.serve] at h
      split at h
      next => cases h
      next sock backlog _ => exact Option.some.inj h ▸ .accept sock backlog rest hserving
  | client i =>
      simp only [Server.serve, Option.bind_eq_some_iff, Option.map_eq_some_iff] at h
      obtain ⟨c, hi, c', hserve, rfl⟩ := h
      exact .serve i rest c c' hserving hi hserve

theorem step_effect {s t : Server} {e : Event} (h : step s e = some t) : Effect s e t := by
  cases e with
  | connect => exact Option.some.inj h ▸ .connect
  | arriveQueued j a =>
      simp only [step, Option.bind_eq_some_iff, Option.map_eq_some_iff] at h
      obtain ⟨_, _, sock, _, rfl⟩ := h
      exact .arriveQueued j a sock
  | arrive i a =>
      simp only [step, Option.bind_eq_some_iff, Option.map_eq_some_iff] at h
      obtain ⟨c, hi, c', hreceive, rfl⟩ := h
      exact .arrive i a c c' hi hreceive
  | epollWait events =>
      simp only [step] at h
      split at h
      next hwait =>
        split_ifs at h with hguard
        exact Option.some.inj h ▸ .epollWait events hwait hguard.2.2.1 hguard.2.2.2
      next => cases h
  | serve =>
      simp only [step] at h
      split at h
      next => cases h
      next => cases h
      next r rest hserving => exact serve_effect hserving h

/-- A client after a step: an event changes one client in one way, and leaves
its place among the reported events alone except where it says so. -/
inductive ClientEffect (s : Server) (e : Event) (t : Server) (i : ℕ) : Client → Prop where
  | same (c : Client) (hi : s.clients[i]? = some c)
      (hremaining : .client i ∈ t.control.remaining ↔ .client i ∈ s.control.remaining) :
      ClientEffect s e t i c
  | received (c : Client) (sock : Sock) (hi : s.clients[i]? = some c)
      (hcontrol : t.control = s.control) :
      ClientEffect s e t i { c with sock := sock, edge := c.edge || c.registered }
  | reported (c : Client) (hi : s.clients[i]? = some c) (hedge : c.edge = true)
      (hin : .client i ∈ t.control.remaining) : ClientEffect s e t i { c with edge := false }
  | served (c c' : Client) (rest : List Ready) (hi : s.clients[i]? = some c) (he : e = .serve)
      (hserving : s.control = .serving (.client i::rest)) (hremaining : t.control.remaining = rest)
      (hserve : c.serve = some c') : ClientEffect s e t i c'
  | accepted (sock : Sock) : ClientEffect s e t i (Client.registerNew sock)

theorem client_effect {s t : Server} {e : Event} {i : ℕ} {c' : Client} (h : Effect s e t)
    (hc : t.clients[i]? = some c') : ClientEffect s e t i c' := by
  cases h with
  | connect => exact .same c' hc Iff.rfl
  | arriveQueued j a sock => exact .same c' hc Iff.rfl
  | arrive j a c d hj hreceive =>
      rw [List.getElem?_set] at hc
      split_ifs at hc with hji hlen
      · cases hc
        obtain ⟨sock, _, rfl⟩ := Option.map_eq_some_iff.mp hreceive
        exact .received c sock (hji ▸ hj) rfl
      · exact .same c' hc Iff.rfl
  | epollWait events hwait hnodup hready =>
      simp only [Server.report, List.getElem?_mapIdx, Option.map_eq_some_iff] at hc
      obtain ⟨c, hi, rfl⟩ := hc
      split_ifs with hin
      · obtain ⟨d, hd, hedge⟩ := hready _ hin
        rw [hi, Option.mem_some] at hd
        exact .reported c hi (hd ▸ hedge) hin
      · refine .same c hi (iff_of_false hin ?_)
        simp [hwait]
  | accept sock backlog rest hserving =>
      rw [List.getElem?_append] at hc
      split_ifs at hc with hlt
      · exact .same c' hc (by simp [hserving])
      · rw [List.mem_singleton.mp (List.mem_of_getElem? hc)]
        exact .accepted sock
  | serve j rest c d hserving hj hserve =>
      rw [List.getElem?_set] at hc
      split_ifs at hc with hji hlen
      · cases hc
        subst hji
        exact .served c _ rest hj rfl hserving (remaining_next rest) hserve
      · exact .same c' hc (by simp [hserving, Ne.symm hji])

/-- A read of at most the size of the buffer leaves nothing unread. -/
theorem read_all {s : Sock} (h : s.unread ≤ bufSize) : s.read.2.unread = 0 := by
  unfold Sock.read
  split_ifs with hpos <;> simp only <;> omega

theorem write_unread {s t : Sock} (h : s.write = some t) : t.unread = s.unread := by
  unfold Sock.write at h
  split_ifs at h <;> cases h <;> rfl

/-- What a served client is: only a read that returns 0 removes it. -/
theorem serve_eq {c c' : Client} (h : c.serve = some c') :
    ∃ sock : Sock, sock.unread = c.sock.read.2.unread ∧ c' = { c with
      sock := sock
      results := c.results ++ [c.sock.read.1]
      registered := if c.sock.read.1 = 0 then false else c.registered
      edge := if c.sock.read.1 = 0 then false else c.edge } := by
  obtain ⟨r, hr, rfl⟩ := Option.map_eq_some_iff.mp h
  unfold useConnFd at hr
  by_cases hzero : c.sock.read.1 = 0
  · rw [if_pos hzero] at hr
    cases hr
    exact ⟨c.sock.read.2, rfl, by simp [hzero]⟩
  · rw [if_neg hzero] at hr
    obtain ⟨sock, hwrite, rfl⟩ := Option.map_eq_some_iff.mp hr
    exact ⟨sock, write_unread hwrite, by simp [hzero]⟩

/-- The `read` after a reset takes the error away from the `write` behind it,
which ends the program. -/
theorem serve_reset {c : Client} (hreset : c.sock.reset = true) (heof : c.sock.eof = false)
    (hunread : c.sock.unread = 0) (herror : c.sock.error = true) : c.serve = none := by
  have hread : c.sock.read = (-1, { c.sock with error := false }) := by
    simp [Sock.read, hunread, heof, herror]
  simp [Client.serve, useConnFd, hread, Sock.write, hreset]

/-- Unread bytes of a registered client have an edge or a report still to be served. -/
def Noticed (s : Server) : Prop := ∀ i c, s.clients[i]? = some c → c.registered = true →
  0 < c.sock.unread → c.edge = true ∨ .client i ∈ s.control.remaining

/-- The client about to be served has no more unread bytes than the buffer takes. -/
def readsFit (s : Server) : Event → Bool
  | .serve =>
      match s.control with
      | .serving (.client i::_) => (s.clients[i]?).all fun c => decide (c.sock.unread ≤ bufSize)
      | _ => true
  | _ => true

theorem Noticed.step {s t : Server} {e : Event} (hs : Noticed s)
    (h : guarded readsFit step s e = some t) : Noticed t := by
  obtain ⟨hfit, h⟩ := guarded_eq_some.mp h
  intro i c' hc hregistered hunread
  cases client_effect (step_effect h) hc with
  | same c hi hremaining =>
      rw [hremaining]
      exact hs i c' hi hregistered hunread
  | received c sock hi hcontrol => exact .inl (by simp [show c.registered = true from hregistered])
  | reported c hi hedge hin => exact .inr hin
  | served c c' rest hi he hserving hremaining hserve =>
      -- the one read takes everything
      subst he
      have hle : c.sock.unread ≤ bufSize := by simpa [readsFit, hserving, hi] using hfit
      obtain ⟨sock, hsock, rfl⟩ := serve_eq hserve
      simp only [hsock, read_all hle] at hunread
      omega
  | accepted sock => exact .inl (decide_eq_true (.inl hunread))

/-- While no read meets more than 1024 unread bytes, a server that is back at
`epoll_wait` with no pending edge has left nothing unread. -/
theorem no_unread_left {es : List Event} {s : Server}
    (h : run (guarded readsFit step) start es = some s) (hwait : s.control = .waiting)
    (hquiet : ∀ c ∈ s.clients, c.edge = false) :
    ∀ c ∈ s.clients, c.registered = true → c.sock.unread = 0 := by
  have hnoticed : Noticed s := invariant (fun hs hstep => Noticed.step hs hstep)
    (fun i c hc => by simp [start] at hc) h
  intro c hc hregistered
  obtain ⟨i, hi⟩ := List.getElem?_of_mem hc
  by_contra hne
  rcases hnoticed i c hi hregistered (by omega) with hedge | hin
  · simp [hquiet c hc] at hedge
  · simp [hwait] at hin

/-- A client whose five bytes are read in one piece. -/
def shortMessage : List Event :=
  [.connect, .epollWait [.listen], .serve, .arrive 0 (.bytes 5), .epollWait [.client 0], .serve]

theorem no_unread_left_short_message :
    ∃ s, run (guarded readsFit step) start shortMessage = some s ∧
      ∀ c ∈ s.clients, c.registered = true → c.sock.unread = 0 := by
  obtain ⟨s, hs, hwait, hquiet⟩ : ∃ s, run (guarded readsFit step) start shortMessage = some s ∧
      s.control = .waiting ∧ ∀ c ∈ s.clients, c.edge = false :=
    ⟨_, rfl, rfl, by decide⟩
  exact ⟨s, hs, no_unread_left hs hwait hquiet⟩

/-- Of 1025 bytes that arrive before the report one stays behind. -/
theorem unread_byte_left :
    ∃ s, run step start [.connect, .epollWait [.listen], .serve, .arrive 0 (.bytes 1025),
        .epollWait [.client 0], .serve] = some s ∧
      s.control = .waiting ∧ (∀ c ∈ s.clients, c.edge = false) ∧
      ∃ c ∈ s.clients, c.registered = true ∧ c.sock.unread = 1 := by
  refine ⟨_, rfl, rfl, by decide, by decide⟩

/-- What the reads of a client have made of its registration. -/
structure Tracked (s : Server) (i : ℕ) (c : Client) : Prop where
  closes : c.closes = 0
  registered_iff : c.registered = true ↔ 0 ∉ c.results
  removed : c.registered = false → c.edge = false ∧ .client i ∉ s.control.remaining
  once : c.results.count 0 ≤ 1

theorem remaining_nodup {s t : Server} {e : Event} (hs : s.control.remaining.Nodup)
    (h : step s e = some t) : t.control.remaining.Nodup := by
  cases step_effect h with
  | connect => exact hs
  | arriveQueued j a sock => exact hs
  | arrive i a c c' hi hreceive => exact hs
  | epollWait events hwait hnodup hready => exact hnodup
  | accept sock backlog rest hserving =>
      rw [hserving, remaining_serving] at hs
      rw [remaining_next]
      exact (List.nodup_cons.mp hs).2
  | serve i rest c c' hserving hi hserve =>
      rw [hserving, remaining_serving] at hs
      rw [remaining_next]
      exact (List.nodup_cons.mp hs).2

/-- A read that returns 0 removes the client, no other does. -/
theorem Tracked.serve {s t : Server} {i : ℕ} {c c' : Client} (hs : Tracked s i c)
    (hregistered : c.registered = true) (hnotin : .client i ∉ t.control.remaining)
    (hserve : c.serve = some c') : Tracked t i c' := by
  have hfresh := hs.registered_iff.mp hregistered
  have hcount := List.count_eq_zero_of_not_mem hfresh
  obtain ⟨sock, _, rfl⟩ := serve_eq hserve
  by_cases hzero : c.sock.read.1 = 0
  · constructor
    · exact hs.closes
    · simp [hzero]
    · exact fun _ => ⟨by simp [hzero], hnotin⟩
    · simp [hzero, List.count_append, hcount]
  · constructor
    · exact hs.closes
    · simp [hzero, hregistered, hfresh, Ne.symm hzero]
    · intro hr
      simp [hzero, hregistered] at hr
    · simp [hzero, List.count_append, hcount]

theorem Tracked.step {s t : Server} {e : Event} (hnodup : s.control.remaining.Nodup)
    (hs : ∀ i c, s.clients[i]? = some c → Tracked s i c) (h : step s e = some t) :
    ∀ i c, t.clients[i]? = some c → Tracked t i c := by
  intro i c' hc
  cases client_effect (step_effect h) hc with
  | same c hi hremaining =>
      have hold := hs i c' hi
      refine ⟨hold.closes, hold.registered_iff, fun hr => ?_, hold.once⟩
      rw [hremaining]
      exact hold.removed hr
  | received c sock hi hcontrol =>
      have hold := hs i c hi
      refine ⟨hold.closes, hold.registered_iff, fun hr => ?_, hold.once⟩
      have hgone : c.registered = false := hr
      rw [hcontrol]
      exact ⟨by simp [(hold.removed hgone).1, hgone], (hold.removed hgone).2⟩
  | reported c hi hedge hin =>
      have hold := hs i c hi
      refine ⟨hold.closes, hold.registered_iff, fun hr => ?_, hold.once⟩
      have hno := (hold.removed hr).1
      simp [hedge] at hno
  | served c c' rest hi he hserving hremaining hserve =>
      -- only a registered client is served, and it is not served again in this turn
      have hold := hs i c hi
      have hnotin : .client i ∉ rest := by
        rw [hserving, remaining_serving] at hnodup
        exact (List.nodup_cons.mp hnodup).1
      have hregistered : c.registered = true := by
        by_contra hr
        have hgone := (hold.removed (by simpa using hr)).2
        simp [hserving] at hgone
      exact hold.serve hregistered (hremaining ▸ hnotin) hserve
  | accepted sock =>
      exact ⟨rfl, by simp [Client.registerNew], fun hr => by simp [Client.registerNew] at hr,
        by simp [Client.registerNew]⟩

theorem tracked {es : List Event} {s : Server} (h : run step start es = some s) :
    ∀ i c, s.clients[i]? = some c → Tracked s i c := by
  have hstart : start.control.remaining.Nodup ∧
      ∀ i c, start.clients[i]? = some c → Tracked start i c :=
    ⟨List.nodup_nil, fun i c hc => by simp [start] at hc⟩
  have hinv := invariant (I := fun s : Server => s.control.remaining.Nodup ∧
      ∀ i c, s.clients[i]? = some c → Tracked s i c)
    (fun hs hstep => ⟨remaining_nodup hs.1 hstep, Tracked.step hs.1 hs.2 hstep⟩) hstart h
  exact hinv.2

/-- A client is removed when a read of it returns 0, and never twice. -/
theorem removed_iff_read_zero {es : List Event} {s : Server} (h : run step start es = some s)
    {c : Client} (hc : c ∈ s.clients) :
    (c.registered = false ↔ 0 ∈ c.results) ∧ c.results.count 0 ≤ 1 := by
  obtain ⟨i, hi⟩ := List.getElem?_of_mem hc
  have ht := tracked h i c hi
  refine ⟨?_, ht.once⟩
  rw [← not_iff_not, Bool.not_eq_false]
  exact ht.registered_iff

/-- Descriptors are never closed: every client that has ended is removed and
closed exactly when none has ended. -/
theorem ended_clients_closed_iff {es : List Event} {s : Server}
    (h : run step start es = some s) :
    (∀ c ∈ s.clients, (c.sock.eof = true ∨ c.sock.reset = true) →
        c.registered = false ∧ c.closes = 1) ↔
      ∀ c ∈ s.clients, ¬ (c.sock.eof = true ∨ c.sock.reset = true) := by
  constructor
  · intro hall c hc hended
    obtain ⟨i, hi⟩ := List.getElem?_of_mem hc
    have hclosed := (hall c hc hended).2
    have hnever := (tracked h i c hi).closes
    omega
  · intro hnone c hc hended
    exact absurd hended (hnone c hc)

theorem ended_clients_closed_short_message :
    ∃ s, run step start shortMessage = some s ∧
      ∀ c ∈ s.clients, (c.sock.eof = true ∨ c.sock.reset = true) →
        c.registered = false ∧ c.closes = 1 := by
  obtain ⟨s, hs, hnone⟩ : ∃ s, run step start shortMessage = some s ∧
      ∀ c ∈ s.clients, ¬ (c.sock.eof = true ∨ c.sock.reset = true) := ⟨_, rfl, by decide⟩
  exact ⟨s, hs, (ended_clients_closed_iff hs).mpr hnone⟩

/-- An end-of-stream that is reported together with data is never noticed, and
a client that is removed keeps its descriptor. -/
theorem ended_clients_left :
    ∃ s, run step start [.connect, .connect, .epollWait [.listen], .serve, .epollWait [.listen],
        .serve, .arrive 0 (.bytes 5), .arrive 0 .endOfStream, .arrive 1 .endOfStream,
        .epollWait [.client 0, .client 1], .serve, .serve] = some s ∧
      s.control = .waiting ∧ (∀ c ∈ s.clients, c.edge = false) ∧
      s.clients.map (fun c => (c.registered, c.closes)) = [(true, 0), (false, 0)] ∧
      ∀ c ∈ s.clients, c.sock.eof = true ∨ c.sock.reset = true := by
  refine ⟨_, rfl, rfl, by decide, rfl, by decide⟩

end CppPlayground.EpollServer
