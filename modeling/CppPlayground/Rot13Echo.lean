import CppPlayground.Rot13Server
import Mathlib.Data.List.DropRight

/-!
# What the rot13 server echoes

The buffer is a gated queue: received bytes enter it, a newline commits what
has entered, `send` takes from what is ready. Each step of a connection is one
operation on that queue, or none. So the accepted bytes and the buffer together
are always the translation of what was stored, and nothing past the last
newline is handed to `send`.
-/
namespace CppPlayground.Rot13Server
open GatedQueue Runs

/-- The order of the indices, and the write event added exactly while there is
output, as far as `do_write` is not in the middle of it. A buffer never rests
full and sent at once: only so does a newline met by a full buffer leave
something to send. -/
structure InRange (conn : Conn) : Prop where
  written_le : conn.state.nWritten ≤ conn.state.writeUpto
  upto_le : conn.state.writeUpto ≤ conn.state.bufferUsed
  used_le : conn.state.bufferUsed ≤ maxLine
  armed : conn.state.nWritten < conn.state.writeUpto → conn.state.writePending = true
  output : conn.control ≠ .writing → conn.state.writePending = true →
    conn.state.nWritten < conn.state.writeUpto
  room : conn.control ≠ .writing → conn.state.nWritten < maxLine

theorem InRange.start (buffer : ℕ → UInt8) : InRange (.start buffer) where
  written_le := le_rfl
  upto_le := le_rfl
  used_le := Nat.zero_le _
  armed h := absurd h (lt_irrefl _)
  output _ h := by simp [Conn.start] at h
  room _ := by simp [Conn.start, maxLine]

theorem InRange.turn {conn : Conn} (h : InRange conn) (hc : conn.control ≠ .writing)
    (control : Control) : InRange (conn.turn control) :=
  ⟨h.written_le, h.upto_le, h.used_le, h.armed, fun _ => h.output hc, fun _ => h.room hc⟩

theorem InRange.keep_used_le {conn : Conn} (h : InRange conn) (c : UInt8) :
    conn.state.bufferUsed ≤ (conn.state.keep c).bufferUsed ∧
      (conn.state.keep c).bufferUsed ≤ maxLine ∧
      (conn.state.nWritten < maxLine → conn.state.nWritten < (conn.state.keep c).bufferUsed) := by
  have hle := h.written_le
  have hup := h.upto_le
  have hmax := h.used_le
  rw [keep_bufferUsed]
  cases hp : conn.state.place with
  | none =>
      have hfull := place_eq_none.mp hp
      simp only [if_true]
      omega
  | some i =>
      obtain ⟨_, hlt⟩ := place_eq_some.mp hp
      simp only [reduceCtorEq, if_false]
      omega

theorem InRange.arrive {conn : Conn} (h : InRange conn) (hc : conn.control ≠ .writing)
    (c : UInt8) : InRange (conn.arrive c) := by
  obtain ⟨hmono, hmax, hout⟩ := h.keep_used_le c
  have hroom := h.room hc
  have hw := hout hroom
  by_cases hcn : c = newline
  · refine ⟨?_, ?_, ?_, ?_, ?_, ?_⟩
    · simp only [Conn.arrive, store_of_newline hcn, FdState.closeLine, keep_nWritten]
      omega
    · simp only [Conn.arrive, store_of_newline hcn, FdState.closeLine]
      exact le_rfl
    · simpa [Conn.arrive] using hmax
    · intro _
      simp [Conn.arrive, store_of_newline hcn, FdState.closeLine]
    · intro _ _
      simp only [Conn.arrive, store_of_newline hcn, FdState.closeLine, keep_nWritten]
      exact hw
    · intro _
      simpa [Conn.arrive] using hroom
  · refine ⟨?_, ?_, ?_, ?_, ?_, ?_⟩
    · simpa [Conn.arrive, store_of_ne hcn] using h.written_le
    · simpa [Conn.arrive, store_of_ne hcn] using h.upto_le.trans hmono
    · simpa [Conn.arrive] using hmax
    · simpa [Conn.arrive, store_of_ne hcn] using h.armed
    · intro _
      simpa [Conn.arrive, store_of_ne hcn] using h.output hc
    · intro _
      simpa [Conn.arrive] using hroom

theorem InRange.send {conn : Conn} (h : InRange conn) (hc : conn.control = .writing) {k : ℕ}
    (hn : conn.state.nWritten < conn.state.writeUpto)
    (hk : k ≤ conn.state.writeUpto - conn.state.nWritten) : InRange (conn.send k) := by
  refine ⟨?_, h.upto_le, h.used_le, fun _ => h.armed hn, fun hne => absurd hc hne,
    fun hne => absurd hc hne⟩
  simp only [Conn.send, FdState.wrote]
  omega

theorem InRange.refuse {conn : Conn} (h : InRange conn)
    (hn : conn.state.nWritten < conn.state.writeUpto) (control : Control) :
    InRange ((conn.send 0).turn control) :=
  ⟨h.written_le, h.upto_le, h.used_le, h.armed, fun _ _ => hn,
    fun _ => hn.trans_le (h.upto_le.trans h.used_le)⟩

theorem InRange.drain {conn : Conn} (h : InRange conn)
    (hn : ¬ conn.state.nWritten < conn.state.writeUpto) : InRange conn.drain := by
  have hle := h.written_le
  have hup := h.upto_le
  have hmax := h.used_le
  by_cases he : conn.state.nWritten = conn.state.bufferUsed
  · constructor <;> simp [Conn.drain, FdState.drained, FdState.rewind, he, maxLine]
  · refine ⟨?_, ?_, ?_, ?_, ?_, ?_⟩
    · simpa [Conn.drain, FdState.drained, FdState.rewind, he] using hle
    · simpa [Conn.drain, FdState.drained, FdState.rewind, he] using hup
    · simpa [Conn.drain, FdState.drained, FdState.rewind, he] using hmax
    · intro hlt
      exact absurd (by simpa [Conn.drain, FdState.drained, FdState.rewind, he] using hlt) hn
    · intro _ hp
      simp [Conn.drain, FdState.drained] at hp
    · intro _
      simp only [Conn.drain, FdState.drained, FdState.rewind, he, if_false]
      omega

theorem InRange.preserved {conn conn' : Conn} {e : Event} (h : InRange conn)
    (hs : step conn e = some conn') : InRange conn' := by
  cases step_effect hs with
  | turn control hc => exact h.turn hc control
  | byte c rest hc =>
      have hne : conn.control ≠ .writing := by simp [hc]
      exact (h.arrive hne c).turn hne _
  | accept k hc hn hk => exact h.send hc hn hk
  | refuse control hc hn => exact h.refuse hn control
  | drain hc hn => exact h.drain hn

theorem InRange.of_run {buffer : ℕ → UInt8} {es : List Event} {conn : Conn}
    (hrun : run step (.start buffer) es = some conn) : InRange conn :=
  invariant (fun h hs => h.preserved hs) (.start buffer) hrun

/-- A byte is stored inside the buffer, or met a full one; each range given to
`send` lies inside the buffer and is not empty. -/
structure Placed (conn : Conn) : Prop where
  arrivals : ∀ a ∈ conn.log, (∀ i, a.place = some i → i < maxLine) ∧
    (a.place = none → a.used = maxLine)
  ranges : ∀ c ∈ conn.sends, c.start < c.stop ∧ c.stop ≤ maxLine

theorem Placed.start (buffer : ℕ → UInt8) : Placed (.start buffer) := by
  constructor <;> simp [Conn.start]

theorem Placed.arrive {conn : Conn} (h : Placed conn) (hr : InRange conn) (c : UInt8) :
    Placed (conn.arrive c) := by
  refine ⟨?_, h.ranges⟩
  intro a ha
  rcases List.mem_append.mp ha with ha | ha
  · exact h.arrivals a ha
  · obtain rfl : a = conn.arrival c := by simpa using ha
    refine ⟨fun i hi => (place_eq_some.mp hi).2, fun hp => ?_⟩
    exact le_antisymm hr.used_le (place_eq_none.mp hp)

theorem Placed.send {conn : Conn} (h : Placed conn) (hr : InRange conn)
    (hn : conn.state.nWritten < conn.state.writeUpto) (k : ℕ) : Placed (conn.send k) := by
  refine ⟨h.arrivals, ?_⟩
  intro c hc
  rcases List.mem_append.mp hc with hc | hc
  · exact h.ranges c hc
  · obtain rfl := List.mem_singleton.mp hc
    exact ⟨hn, hr.upto_le.trans hr.used_le⟩

theorem Placed.preserved {conn conn' : Conn} {e : Event} (h : Placed conn) (hr : InRange conn)
    (hs : step conn e = some conn') : Placed conn' := by
  cases step_effect hs with
  | turn control hc => exact ⟨h.arrivals, h.ranges⟩
  | byte c rest hc => exact ⟨(h.arrive hr c).arrivals, h.ranges⟩
  | accept k hc hn hk => exact h.send hr hn k
  | refuse control hc hn => exact ⟨h.arrivals, (h.send hr hn 0).ranges⟩
  | drain hc hn => exact ⟨h.arrivals, h.ranges⟩

theorem Placed.of_run {buffer : ℕ → UInt8} {es : List Event} {conn : Conn}
    (hrun : run step (.start buffer) es = some conn) : Placed conn :=
  (invariant (I := fun conn => InRange conn ∧ Placed conn)
    (fun h hs => ⟨h.1.preserved hs, h.2.preserved h.1 hs⟩)
    ⟨.start buffer, .start buffer⟩ hrun).2

/-- Between handlers the indices are in order and the write event is pending
exactly while there is output; every store and every `send` is inside the
buffer. This holds even if `do_write` is run while its event is not pending. -/
theorem pending_iff_output {buffer : ℕ → UInt8} {es : List Event} {conn : Conn}
    (hrun : run step (.start buffer) es = some conn) :
    (conn.control = .idle →
      conn.state.nWritten ≤ conn.state.writeUpto ∧ conn.state.writeUpto ≤ conn.state.bufferUsed ∧
      conn.state.bufferUsed ≤ maxLine ∧
      (conn.state.writePending = true ↔ conn.state.nWritten < conn.state.writeUpto)) ∧
      (∀ a ∈ conn.log, ∀ i, a.place = some i → i < maxLine) ∧
      ∀ c ∈ conn.sends, c.start < c.stop ∧ c.stop ≤ maxLine := by
  have hr := InRange.of_run hrun
  have hp := Placed.of_run hrun
  refine ⟨fun hidle => ?_, fun a ha => (hp.arrivals a ha).1, hp.ranges⟩
  have hne : conn.control ≠ .writing := by simp [hidle]
  exact ⟨hr.written_le, hr.upto_le, hr.used_le, hr.output hne, hr.armed⟩

/-- A line and the start of the next, of which `send` takes two bytes at first. -/
def partialSend : List Event :=
  readEvents [⟨['H', 'i', '\n', 'Y'].map Char.toUInt8, by decide, by decide⟩] .again ++
    [.dispatchWrite, .sendAccept 2, .sendAgain]

theorem pending_iff_output_partial_send :
    ∃ conn, run step (.start fun _ => 0) partialSend = some conn ∧
      conn.state.writePending = true ∧ conn.state.nWritten < conn.state.writeUpto := by
  have hend : (run step (.start fun _ => 0) partialSend).map
      (fun conn => decide (conn.control = .idle ∧ conn.state.writePending = true)) = some true := by
    decide
  obtain ⟨conn, hrun, hconn⟩ := Option.map_eq_some_iff.mp hend
  obtain ⟨hidle, hpending⟩ := of_decide_eq_true hconn
  exact ⟨conn, hrun, hpending, ((pending_iff_output hrun).1 hidle).2.2.2.mp hpending⟩

def accepted (sends : List SendCall) : List UInt8 :=
  sends.flatMap fun c => c.data.take c.accepted

def Conn.queue (conn : Conn) : Queue UInt8 :=
  ofArray (accepted conn.sends) conn.state.buffer conn.state.nWritten conn.state.writeUpto
    conn.state.bufferUsed

/-- The received bytes that were stored. -/
def storedBytes (log : List Arrival) : List UInt8 :=
  (log.filter fun a => a.place.isSome).map Arrival.byte

/-- What arrived up to the last newline, the newline included. -/
def completed (log : List Arrival) : List Arrival := log.rdropWhile fun a => a.byte ≠ newline

theorem completed_snoc (log : List Arrival) (a : Arrival) :
    completed (log ++ [a]) = if a.byte = newline then log ++ [a] else completed log := by
  unfold completed
  split_ifs with h
  · exact List.rdropWhile_concat_neg _ _ _ (by simp [h])
  · exact List.rdropWhile_concat_pos _ _ _ (by simp [h])

theorem completed_initial (log : List Arrival) : completed log <+: log := List.rdropWhile_prefix _ _

/-- The queue after `c`, as far as there is room for it. -/
def Conn.enter (conn : Conn) (c : UInt8) : Queue UInt8 :=
  if conn.state.place = none then conn.queue else conn.queue.put (rot13Char c)

theorem queue_keep {conn : Conn} (h : InRange conn) (c : UInt8) :
    ofArray (accepted conn.sends) (conn.state.keep c).buffer conn.state.nWritten
        conn.state.writeUpto (conn.state.keep c).bufferUsed = conn.enter c := by
  unfold Conn.enter
  cases hp : conn.state.place with
  | none =>
      rw [if_pos rfl, keep_of_none hp]
      rfl
  | some i =>
      rw [if_neg (by simp), keep_of_some hp]
      exact ofArray_put h.upto_le (rot13Char c)

theorem queue_arrive {conn : Conn} (h : InRange conn) (c : UInt8) :
    (conn.arrive c).queue = if c = newline then (conn.enter c).commit else conn.enter c := by
  have hup : conn.state.writeUpto ≤ (conn.state.keep c).bufferUsed :=
    h.upto_le.trans (h.keep_used_le c).1
  rw [← queue_keep h c]
  by_cases hc : c = newline
  · rw [if_pos hc, ← ofArray_commit h.written_le hup]
    simp only [Conn.queue, Conn.arrive, store_of_newline hc, FdState.closeLine, keep_nWritten]
  · rw [if_neg hc]
    simp only [Conn.queue, Conn.arrive, store_of_ne hc, keep_nWritten, keep_writeUpto]

theorem accepted_snoc (sends : List SendCall) (c : SendCall) :
    accepted (sends ++ [c]) = accepted sends ++ c.data.take c.accepted := by
  simp [accepted]

theorem queue_send {conn : Conn} {k : ℕ}
    (hk : k ≤ conn.state.writeUpto - conn.state.nWritten) :
    (conn.send k).queue = conn.queue.take k := by
  rw [Conn.queue, Conn.send, accepted_snoc, FdState.request, window_take hk]
  exact ofArray_take hk

theorem queue_drain {conn : Conn} (h : InRange conn) : conn.drain.queue = conn.queue := by
  by_cases he : conn.state.nWritten = conn.state.bufferUsed
  · rw [Conn.queue, Conn.queue, ← ofArray_empty h.written_le h.upto_le (Nat.le_of_eq he.symm) 1]
    simp only [Conn.drain, FdState.drained, FdState.rewind, he, if_true]
  · simp only [Conn.queue, Conn.drain, FdState.drained, FdState.rewind, he, if_false]

/-- The queue holds the translation of what was stored, released up to the
last newline, and no `send` was handed more than was released. -/
structure Echoes (conn : Conn) : Prop where
  entered : conn.queue.entered = (storedBytes conn.log).map rot13Char
  released : conn.queue.released = (storedBytes (completed conn.log)).map rot13Char
  handed : ∀ before c after, conn.sends = before ++ c::after →
    accepted before ++ c.data <+: conn.queue.released

theorem Echoes.start (buffer : ℕ → UInt8) : Echoes (.start buffer) where
  entered := rfl
  released := rfl
  handed before c after h := by simp [Conn.start] at h

theorem storedBytes_snoc (log : List Arrival) (a : Arrival) :
    storedBytes (log ++ [a]) =
      if a.place = none then storedBytes log else storedBytes log ++ [a.byte] := by
  cases h : a.place <;> simp [storedBytes, h]

theorem released_enter (conn : Conn) (c : UInt8) :
    (conn.enter c).released = conn.queue.released := by
  unfold Conn.enter
  split_ifs <;> simp

theorem Echoes.entered_enter {conn : Conn} (h : Echoes conn) (c : UInt8) :
    (conn.enter c).entered = (storedBytes (conn.arrive c).log).map rot13Char := by
  have hlog : (conn.arrive c).log = conn.log ++ [conn.arrival c] := rfl
  rw [hlog, storedBytes_snoc, Conn.enter]
  by_cases hp : conn.state.place = none
  · simp [Conn.arrival, hp, h.entered]
  · simp [Conn.arrival, hp, h.entered]

theorem released_grows {conn : Conn} (hr : InRange conn) (c : UInt8) :
    conn.queue.released <+: (conn.arrive c).queue.released := by
  rw [queue_arrive hr]
  split_ifs with hc
  · rw [Queue.released_commit, ← released_enter conn c]
    exact Queue.released_prefix _
  · rw [released_enter]

theorem Echoes.arrive {conn : Conn} (h : Echoes conn) (hr : InRange conn) (c : UInt8) :
    Echoes (conn.arrive c) where
  entered := by
    rw [← h.entered_enter c, queue_arrive hr]
    split_ifs <;> simp
  released := by
    have hlog : (conn.arrive c).log = conn.log ++ [conn.arrival c] := rfl
    rw [queue_arrive hr, hlog, completed_snoc]
    by_cases hc : c = newline
    · have hbyte : (conn.arrival c).byte = newline := hc
      rw [if_pos hc, if_pos hbyte, Queue.released_commit, h.entered_enter c, hlog]
    · have hbyte : (conn.arrival c).byte ≠ newline := hc
      rw [if_neg hc, if_neg hbyte, released_enter, h.released]
  handed before call after hsends :=
    (h.handed before call after hsends).trans (released_grows hr c)

/-- What was handed to the last `send` is all that was ready. -/
theorem accepted_request (conn : Conn) :
    accepted conn.sends ++ conn.state.request = conn.queue.released := released_ofArray.symm

theorem Echoes.send {conn : Conn} (h : Echoes conn) {k : ℕ}
    (hk : k ≤ conn.state.writeUpto - conn.state.nWritten) : Echoes (conn.send k) where
  entered := by rw [queue_send hk, Queue.entered_take, h.entered]; rfl
  released := by rw [queue_send hk, Queue.released_take, h.released]; rfl
  handed before call after hsends := by
    rw [queue_send hk, Queue.released_take]
    rcases List.eq_nil_or_concat after with rfl | ⟨after, last, rfl⟩
    · obtain ⟨rfl, hcall⟩ := List.append_inj' hsends rfl
      obtain rfl := (List.cons.inj hcall).1
      exact (accepted_request conn).symm ▸ List.prefix_rfl
    · rw [List.concat_eq_append, ← List.cons_append, ← List.append_assoc] at hsends
      exact h.handed before call after (List.append_inj' hsends rfl).1

theorem Echoes.preserved {conn conn' : Conn} {e : Event} (h : Echoes conn) (hr : InRange conn)
    (hs : step conn e = some conn') : Echoes conn' := by
  cases step_effect hs with
  | turn control hc => exact ⟨h.entered, h.released, h.handed⟩
  | byte c rest hc =>
      have hnext := h.arrive hr c
      exact ⟨hnext.entered, hnext.released, hnext.handed⟩
  | accept k hc hn hk => exact h.send hk
  | refuse control hc hn =>
      have hnext := h.send (Nat.zero_le _)
      exact ⟨hnext.entered, hnext.released, hnext.handed⟩
  | drain hc hn =>
      have hq := queue_drain hr
      exact ⟨hq ▸ h.entered, hq ▸ h.released, hq ▸ h.handed⟩

theorem Echoes.of_run {buffer : ℕ → UInt8} {es : List Event} {conn : Conn}
    (hrun : run step (.start buffer) es = some conn) : Echoes conn :=
  (invariant (I := fun conn => InRange conn ∧ Echoes conn)
    (fun h hs => ⟨h.1.preserved hs, h.2.preserved h.1 hs⟩)
    ⟨.start buffer, .start buffer⟩ hrun).2

/-- At every point of every run the accepted bytes and the buffer are the
translation of the stored bytes, in order; only a full buffer drops a byte;
and every `send` was handed, after what was accepted before, bytes that arrived
no later than the last newline. -/
theorem echo_exact {buffer : ℕ → UInt8} {es : List Event} {conn : Conn}
    (hrun : run step (.start buffer) es = some conn) :
    accepted conn.sends ++ window conn.state.buffer conn.state.nWritten conn.state.bufferUsed =
        (storedBytes conn.log).map rot13Char ∧
      (∀ a ∈ conn.log, a.place = none → a.used = maxLine) ∧
      (∀ before c after, conn.sends = before ++ c::after →
        accepted before ++ c.data <+: (storedBytes (completed conn.log)).map rot13Char) ∧
      accepted conn.sends ++ conn.state.request =
        (storedBytes (completed conn.log)).map rot13Char := by
  have hr := InRange.of_run hrun
  have he := Echoes.of_run hrun
  refine ⟨?_, fun a ha => ((Placed.of_run hrun).arrivals a ha).2, ?_, ?_⟩
  · rw [← he.entered]
    exact (entered_ofArray hr.written_le hr.upto_le).symm
  · rw [← he.released]
    exact he.handed
  · rw [← he.released]
    exact accepted_request conn

theorem echo_exact_partial_send :
    ∃ conn, run step (.start fun _ => 0) partialSend = some conn ∧
      accepted conn.sends = ['U', 'v'].map Char.toUInt8 ∧
      accepted conn.sends ++ window conn.state.buffer conn.state.nWritten conn.state.bufferUsed =
        (storedBytes conn.log).map rot13Char := by
  have hend : (run step (.start fun _ => 0) partialSend).map (fun conn => accepted conn.sends) =
      some (['U', 'v'].map Char.toUInt8) := by
    decide
  obtain ⟨conn, hrun, hsent⟩ := Option.map_eq_some_iff.mp hend
  exact ⟨conn, hrun, hsent, (echo_exact hrun).1⟩

end CppPlayground.Rot13Server
