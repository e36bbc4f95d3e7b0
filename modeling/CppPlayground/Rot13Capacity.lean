import CppPlayground.Rot13Echo

/-!
# How much the rot13 server holds

Room in the buffer is won back only when everything stored has been sent and
the indices start over. What counts against the buffer is therefore not the
backlog but all that was stored since it was last empty: a partial line that
arrived before a drain keeps the bytes in front of it occupied.
-/
namespace CppPlayground.Rot13Server
open GatedQueue Runs

/-- The fill of the buffer, up to the one place lost by starting over at 1. -/
structure Filled (conn : Conn) : Prop where
  used_le : conn.state.bufferUsed ≤ conn.sinceEmpty + 1
  dropped : ∀ a ∈ conn.log, a.place = none → maxLine - 1 ≤ a.sinceEmpty

theorem Filled.start (buffer : ℕ → UInt8) : Filled (.start buffer) := by
  constructor <;> simp [Conn.start]

theorem Filled.arrive {conn : Conn} (h : Filled conn) (c : UInt8) : Filled (conn.arrive c) := by
  have hused := h.used_le
  constructor
  · simp only [Conn.arrive, store_bufferUsed, keep_bufferUsed]
    split_ifs <;> omega
  · intro a ha hp
    rcases List.mem_append.mp ha with ha | ha
    · exact h.dropped a ha hp
    · obtain rfl := List.mem_singleton.mp ha
      have hfull := place_eq_none.mp hp
      simp only [Conn.arrival]
      omega

theorem Filled.drain {conn : Conn} (h : Filled conn) : Filled conn.drain := by
  refine ⟨?_, h.dropped⟩
  by_cases he : conn.state.nWritten = conn.state.bufferUsed
  · simp [Conn.drain, FdState.drained, FdState.rewind, he]
  · simpa [Conn.drain, FdState.drained, FdState.rewind, he] using h.used_le

theorem Filled.preserved {conn conn' : Conn} {e : Event} (h : Filled conn)
    (hs : step conn e = some conn') : Filled conn' := by
  cases step_effect hs with
  | turn control hc => exact ⟨h.used_le, h.dropped⟩
  | byte c rest hc => exact ⟨(h.arrive c).used_le, (h.arrive c).dropped⟩
  | accept k hc hn hk => exact ⟨h.used_le, h.dropped⟩
  | refuse control hc hn => exact ⟨h.used_le, h.dropped⟩
  | drain hc hn => exact h.drain

theorem Filled.of_run {buffer : ℕ → UInt8} {es : List Event} {conn : Conn}
    (hrun : run step (.start buffer) es = some conn) : Filled conn :=
  invariant (fun h hs => h.preserved hs) (.start buffer) hrun

/-- A byte is dropped only once the buffer has taken `maxLine - 1` bytes since
it was last empty. A client that stays below that has all its completed lines
accepted or ready. -/
theorem dropped_only_when_filled {buffer : ℕ → UInt8} {es : List Event} {conn : Conn}
    (hrun : run step (.start buffer) es = some conn) :
    (∀ a ∈ conn.log, a.place = none → maxLine - 1 ≤ a.sinceEmpty) ∧
      ((∀ a ∈ conn.log, a.sinceEmpty < maxLine - 1) →
        accepted conn.sends ++ conn.state.request =
          ((completed conn.log).map Arrival.byte).map rot13Char) := by
  have hf := Filled.of_run hrun
  refine ⟨hf.dropped, fun hbelow => ?_⟩
  have hstored : storedBytes (completed conn.log) = (completed conn.log).map Arrival.byte := by
    rw [storedBytes, List.filter_eq_self.mpr]
    intro a ha
    have hmem := (completed_initial conn.log).subset ha
    rw [Option.isSome_iff_ne_none]
    intro hp
    have hlow := hf.dropped a hmem hp
    have hhigh := hbelow a hmem
    omega
  rw [← hstored, accepted_request]
  exact (Echoes.of_run hrun).released

theorem dropped_only_when_filled_partial_send :
    ∃ conn, run step (.start fun _ => 0) partialSend = some conn ∧
      accepted conn.sends ++ conn.state.request =
        ((completed conn.log).map Arrival.byte).map rot13Char := by
  have hend : (run step (.start fun _ => 0) partialSend).map
      (fun conn => decide (∀ a ∈ conn.log, a.sinceEmpty < maxLine - 1)) = some true := by
    decide
  obtain ⟨conn, hrun, hbelow⟩ := Option.map_eq_some_iff.mp hend
  exact ⟨conn, hrun, (dropped_only_when_filled hrun).2 (of_decide_eq_true hbelow)⟩

theorem foldl_arrive_used (conn : Conn) (bytes : List UInt8)
    (h : conn.state.bufferUsed + bytes.length ≤ maxLine) :
    (bytes.foldl Conn.arrive conn).state.bufferUsed = conn.state.bufferUsed + bytes.length ∧
      (bytes.foldl Conn.arrive conn).state.nWritten = conn.state.nWritten := by
  induction bytes generalizing conn with
  | nil => exact ⟨rfl, rfl⟩
  | cons c rest ih =>
      simp only [List.length_cons] at h
      have hroom : conn.state.place ≠ none := by
        intro hp
        have hfull := place_eq_none.mp hp
        omega
      have hused : (conn.arrive c).state.bufferUsed = conn.state.bufferUsed + 1 := by
        rw [Conn.arrive, store_bufferUsed, keep_bufferUsed, if_neg hroom]
      obtain ⟨hlen, hn⟩ := ih (conn.arrive c) (by rw [hused]; omega)
      refine ⟨?_, ?_⟩
      · rw [List.foldl_cons, hlen, hused, List.length_cons]
        omega
      · rw [List.foldl_cons, hn]
        exact store_nWritten c

/-- After the last byte of a line and the first of the next one the write may
go up to the byte before the last. -/
theorem arrive_line_end (conn : Conn) {c : UInt8} (hc : c ≠ newline)
    (h : conn.state.bufferUsed + 2 ≤ maxLine) :
    ((conn.arrive newline).arrive c).state.bufferUsed = conn.state.bufferUsed + 2 ∧
      ((conn.arrive newline).arrive c).state.writeUpto = conn.state.bufferUsed + 1 ∧
      ((conn.arrive newline).arrive c).state.nWritten = conn.state.nWritten := by
  have hroom : conn.state.place ≠ none := by
    intro hp
    have hfull := place_eq_none.mp hp
    omega
  have hused : (conn.arrive newline).state.bufferUsed = conn.state.bufferUsed + 1 := by
    rw [Conn.arrive, store_bufferUsed, keep_bufferUsed, if_neg hroom]
  have hroom' : (conn.arrive newline).state.place ≠ none := by
    intro hp
    have hfull := place_eq_none.mp hp
    omega
  refine ⟨?_, ?_, ?_⟩
  · rw [Conn.arrive, store_bufferUsed, keep_bufferUsed, if_neg hroom', hused]
  · rw [Conn.arrive, store_of_ne hc, keep_writeUpto, ← hused, Conn.arrive, store_of_newline rfl]
    rfl
  · rw [Conn.arrive, store_nWritten, Conn.arrive, store_nWritten]

def letters (k : ℕ) (h : 0 < k ∧ k ≤ 1024) : Chunk where
  bytes := List.replicate k 'a'.toUInt8
  nonempty := by rw [Ne, List.replicate_eq_nil_iff]; exact h.1.ne'
  fits := by rw [List.length_replicate]; exact h.2

/-- As many letters as leave two places in the buffer. -/
def longLine : List Chunk :=
  List.replicate 15 (letters 1024 ⟨by decide, by decide⟩) ++
    [letters 1022 ⟨by decide, by decide⟩]

theorem longLine_length : (received longLine).length = maxLine - 2 := by
  simp only [received, longLine, List.flatMap_append, List.length_append, List.length_flatMap,
    List.map_replicate, List.flatMap_singleton, letters, List.length_replicate]
  decide

/-- The end of the line, and the first letter of the next. -/
def lineEnd : Chunk := ⟨[newline, 'b'.toUInt8], by decide, by decide⟩

def oneMore : Chunk := ⟨['c'.toUInt8], by decide, by decide⟩

/-- `do_write` with a socket that takes everything at once. -/
theorem run_send_all {conn : Conn} (h : conn.control = .idle)
    (hn : conn.state.nWritten < conn.state.writeUpto) :
    run step conn
        [.dispatchWrite, .sendAccept (conn.state.writeUpto - conn.state.nWritten), .drain] =
      some ((conn.turn .writing).send (conn.state.writeUpto - conn.state.nWritten)).drain := by
  have hdispatch : step conn .dispatchWrite = some (conn.turn .writing) := if_pos h
  have hle : 1 ≤ conn.state.writeUpto - conn.state.nWritten := by omega
  refine run_cons hdispatch (run_cons (if_pos ⟨rfl, hn, hle, le_rfl⟩)
    (run_cons (if_pos ⟨rfl, ?_⟩) rfl))
  simp only [Conn.send, Conn.turn, FdState.wrote]
  omega

/-- What was sent does not come free while a later byte waits behind it. -/
theorem run_flush {conn : Conn} (h : conn.control = .idle)
    (hn : conn.state.nWritten < conn.state.writeUpto)
    (hw : conn.state.writeUpto < conn.state.bufferUsed) :
    ∃ es last, run step conn es = some last ∧ last.control = .idle ∧
      last.state.bufferUsed = conn.state.bufferUsed ∧
      last.state.nWritten = conn.state.writeUpto := by
  have hsum : conn.state.nWritten + (conn.state.writeUpto - conn.state.nWritten) =
      conn.state.writeUpto := by omega
  have hne : conn.state.writeUpto ≠ conn.state.bufferUsed := by omega
  refine ⟨_, _, run_send_all h hn, rfl, ?_, ?_⟩
  · simp [Conn.drain, Conn.send, Conn.turn, FdState.wrote, FdState.drained, FdState.rewind, hsum,
      hne]
  · simp [Conn.drain, Conn.send, Conn.turn, FdState.wrote, FdState.drained, FdState.rewind, hsum,
      hne]

/-- A line and one letter more fill the buffer. -/
theorem run_longLine :
    ∃ es full, run step (.start fun _ => 0) es = some full ∧ full.control = .idle ∧
      full.state.bufferUsed = maxLine ∧ full.state.writeUpto = maxLine - 1 ∧
      full.state.nWritten = 0 := by
  obtain ⟨hused, hn⟩ := foldl_arrive_used (.start fun _ => 0) (received longLine)
    (by rw [longLine_length]; decide)
  rw [longLine_length] at hused
  have hidle : (Conn.start fun _ => 0).control = .idle := rfl
  have hread := run_doRead hidle (longLine ++ [lineEnd]) .again
  have hfold : (received (longLine ++ [lineEnd])).foldl Conn.arrive (.start fun _ => 0) =
      (((received longLine).foldl Conn.arrive (.start fun _ => 0)).arrive newline).arrive
        'b'.toUInt8 := by
    rw [received, List.flatMap_append, List.foldl_append]
    rfl
  rw [hfold] at hread
  generalize (received longLine).foldl Conn.arrive (.start fun _ => 0) = line at hused hn hread
  obtain ⟨hused₂, hupto₂, hn₂⟩ := arrive_line_end line (c := 'b'.toUInt8) (by decide)
    (by rw [hused]; decide)
  refine ⟨_, _, hread, rfl, ?_, ?_, ?_⟩
  · exact hused₂.trans (by rw [hused]; rfl)
  · exact hupto₂.trans (by rw [hused]; rfl)
  · exact hn₂.trans (by rw [hn]; rfl)

/-- The line is sent, and the letter after it stays behind; the next letter is
dropped, with one byte waiting. -/
theorem dropped_at_small_backlog :
    ∃ es conn a, run step (.start fun _ => 0) es = some conn ∧ a ∈ conn.log ∧
      a.place = none ∧ a.unsent < maxLine - 1 := by
  obtain ⟨es₁, full, hline, hidle, hused, hupto, hn⟩ := run_longLine
  have hready : full.state.nWritten < full.state.writeUpto := by rw [hn, hupto]; decide
  have hbehind : full.state.writeUpto < full.state.bufferUsed := by rw [hupto, hused]; decide
  obtain ⟨es₂, last, hflush, hidle₂, hkept, hsent⟩ := run_flush hidle hready hbehind
  have hmore := run_doRead hidle₂ [oneMore] .again
  rw [hused] at hkept
  rw [hupto] at hsent
  refine ⟨_, _, last.arrival 'c'.toUInt8, run_append_some hline (run_append_some hflush hmore),
    List.mem_append_right _ (List.mem_singleton_self _), ?_, ?_⟩
  · exact place_eq_none.mpr (Nat.le_of_eq hkept.symm)
  · simp only [Conn.arrival, hkept, hsent]
    decide

end CppPlayground.Rot13Server
