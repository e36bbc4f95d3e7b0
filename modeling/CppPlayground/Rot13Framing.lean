import CppPlayground.Rot13Capacity

/-!
# Lines in and lines out

`do_read` keeps a byte only while there is room, but marks the end of a line
for every newline it sees. When `do_write` has sent everything up to the mark,
as many newlines have gone out as came in, and one of them last, exactly if
every newline found room. One that arrived at a full buffer is lost for good:
the line it ended is joined to whatever is sent next.
-/
namespace CppPlayground.Rot13Server
open GatedQueue Runs

theorem rot13Char_eq_newline {c : UInt8} : rot13Char c = newline ↔ c = newline := by
  have all : ∀ n : Fin 256, rot13Char (UInt8.ofFin n) = newline ↔ UInt8.ofFin n = newline := by
    decide +kernel
  simpa only [UInt8.ofFin_toFin] using all c.toFin

def Arrival.endsLine (a : Arrival) : Bool := a.byte = newline

def Arrival.stored (a : Arrival) : Bool := a.place.isSome

theorem count_newline_received (log : List Arrival) :
    (log.map Arrival.byte).count newline = log.countP Arrival.endsLine := by
  rw [List.count, List.countP_map]
  congr

theorem count_newline_stored (log : List Arrival) :
    ((storedBytes log).map rot13Char).count newline =
      log.countP fun a => a.endsLine && a.stored := by
  rw [List.count, List.countP_map, storedBytes, List.countP_map, List.countP_filter]
  apply List.countP_congr
  intro a _
  simp [Arrival.endsLine, Arrival.stored, rot13Char_eq_newline]

/-- A filter keeps the count of what it is asked for when it drops none of it. -/
theorem countP_and_eq_iff {A : Type} {p q : A → Bool} {l : List A} :
    (l.countP fun a => p a && q a) = l.countP p ↔ ∀ a ∈ l, p a = true → q a = true := by
  induction l with
  | nil => simp
  | cons a l ih =>
      have hle : (l.countP fun a => p a && q a) ≤ l.countP p :=
        List.countP_mono_left fun x _ hx => (Bool.and_eq_true_iff.mp hx).1
      rw [List.forall_mem_cons, ← ih, List.countP_cons, List.countP_cons]
      cases hp : p a <;> cases hq : q a <;> simp
      omega

/-- No newline comes after the last one. -/
theorem mem_completed {log : List Arrival} {a : Arrival} (ha : a ∈ log)
    (hend : a.endsLine = true) : a ∈ completed log := by
  have hsplit :=
    List.rdropWhile_append_rtakeWhile (p := fun a => decide (a.byte ≠ newline)) (l := log)
  rw [← hsplit] at ha
  rcases List.mem_append.mp ha with ha | ha
  · exact ha
  · have hne := List.mem_rtakeWhile_imp ha
    simp only [Arrival.endsLine, decide_eq_true_eq] at hend hne
    exact absurd hend hne

theorem completed_concat {log : List Arrival} (h : completed log ≠ []) :
    ∃ before a, completed log = before ++ [a] ∧ a ∈ log ∧ a.endsLine = true := by
  have hlast := List.rdropWhile_last_not (fun a : Arrival => decide (a.byte ≠ newline)) log h
  have hend : ((completed log).getLast h).byte = newline := by
    by_contra hne
    exact hlast (decide_eq_true hne)
  exact ⟨_, _, (List.dropLast_append_getLast h).symm,
    (completed_initial log).subset (List.getLast_mem h), decide_eq_true hend⟩

/-- What a drained connection has sent is framed: it ends with a newline, and
has as many of them as were received up to the mark. -/
def Framed (sent : List UInt8) (log : List Arrival) : Prop :=
  sent.getLast? = some newline ∧
    sent.count newline = ((completed log).map Arrival.byte).count newline

theorem framed_iff {sent : List UInt8} {log : List Arrival} (hne : sent ≠ [])
    (hsent : sent = (storedBytes (completed log)).map rot13Char) :
    Framed sent log ↔ ∀ a ∈ log, a.byte = newline → a.place ≠ none := by
  have hcount : sent.count newline = ((completed log).map Arrival.byte).count newline ↔
      ∀ a ∈ completed log, a.endsLine = true → a.stored = true := by
    rw [hsent, count_newline_stored, count_newline_received]
    exact countP_and_eq_iff
  have hall : (∀ a ∈ completed log, a.endsLine = true → a.stored = true) ↔
      ∀ a ∈ log, a.byte = newline → a.place ≠ none := by
    simp only [Arrival.endsLine, Arrival.stored, decide_eq_true_eq, Option.isSome_iff_ne_none]
    constructor
    · intro h a ha hbyte
      exact h a (mem_completed ha (decide_eq_true hbyte)) hbyte
    · intro h a ha
      exact h a ((completed_initial log).subset ha)
  rw [Framed, hcount, hall, and_iff_right_iff_imp]
  intro hstored
  have hlines : completed log ≠ [] := by
    rintro hnil
    simp [hsent, hnil, storedBytes] at hne
  -- the last line is complete, and its newline was stored
  obtain ⟨before, a, hlast, ha, hend⟩ := completed_concat hlines
  have hbyte : a.byte = newline := of_decide_eq_true hend
  rw [hsent, hlast, storedBytes_snoc, if_neg (hstored a ha hbyte), hbyte, List.map_append,
    List.map_singleton, rot13Char_eq_newline.mpr rfl, List.getLast?_concat]

def Event.isDrain : Event → Bool
  | .drain => true
  | _ => false

def Event.isSend : Event → Bool
  | .sendAccept _ => true
  | _ => false

/-- Something was sent after the previous drain. -/
def SentSinceDrain (es : List Event) : Prop :=
  (es.rtakeWhile fun e => !e.isDrain).any Event.isSend = true

instance (es : List Event) : Decidable (SentSinceDrain es) := inferInstanceAs (Decidable (_ = _))

theorem accepted_grows {conn conn' : Conn} {e : Event} (h : step conn e = some conn') :
    accepted conn.sends <+: accepted conn'.sends := by
  cases step_effect h with
  | turn control hc => exact List.prefix_rfl
  | byte c rest hc => exact List.prefix_rfl
  | accept k hc hn hk =>
      rw [Conn.send, accepted_snoc]
      exact List.prefix_append _ _
  | refuse control hc hn =>
      rw [Conn.turn, Conn.send, accepted_snoc]
      exact List.prefix_append _ _
  | drain hc hn => exact List.prefix_rfl

theorem accepted_ne_nil {conn conn' : Conn} {k : ℕ} (h : step conn (.sendAccept k) = some conn') :
    accepted conn'.sends ≠ [] := by
  simp only [step] at h
  split_ifs at h with hc
  cases h
  have hlen : ((conn.state.request).take k).length = k := by
    rw [List.length_take, FdState.request, window_length]
    omega
  rw [Conn.send, accepted_snoc]
  intro hnil
  rw [(List.append_eq_nil_iff.mp hnil).2, List.length_nil] at hlen
  omega

theorem sent_ne_nil {buffer : ℕ → UInt8} {es : List Event} {conn : Conn}
    (hrun : run step (.start buffer) es = some conn) (hsent : es.any Event.isSend = true) :
    accepted conn.sends ≠ [] := by
  refine history_invariant
    (I := fun es conn => es.any Event.isSend = true → accepted conn.sends ≠ [])
    (by simp) ?_ hrun hsent
  intro es conn e conn' _ ih hstep hany
  rw [List.any_append, Bool.or_eq_true] at hany
  rcases hany with hany | hany
  · intro hnil
    have hgrows := accepted_grows hstep
    rw [hnil, List.prefix_nil] at hgrows
    exact ih hany hgrows
  · cases e <;> simp [Event.isSend] at hany
    exact accepted_ne_nil hstep

/-- After a drain everything up to the mark has been sent. -/
theorem accepted_drained {buffer : ℕ → UInt8} {es : List Event} {conn : Conn}
    (hrun : run step (.start buffer) (es ++ [.drain]) = some conn) :
    accepted conn.sends = (storedBytes (completed conn.log)).map rot13Char := by
  have hr := InRange.of_run hrun
  obtain ⟨before, _, hlast⟩ := run_append_eq hrun
  have hpending : conn.state.writePending = false := by
    obtain ⟨conn', hdrain, hend⟩ := run_cons_eq hlast
    simp only [run_nil, Option.some.injEq] at hend
    subst hend
    simp only [step] at hdrain
    split_ifs at hdrain
    cases hdrain
    rfl
  have hle : conn.state.writeUpto ≤ conn.state.nWritten := by
    by_contra hlt
    have harmed := hr.armed (by omega)
    simp [hpending] at harmed
  rw [← (Echoes.of_run hrun).released, ← accepted_request, FdState.request, window_eq_nil hle,
    List.append_nil]

/-- Whenever `do_write` reaches its end having sent something, its output is
framed exactly when every newline received so far found room in the buffer. -/
theorem framing_iff {buffer : ℕ → UInt8} {es : List Event} {conn : Conn}
    (hrun : run step (.start buffer) (es ++ [.drain]) = some conn) (hsent : SentSinceDrain es) :
    Framed (accepted conn.sends) conn.log ↔
      ∀ a ∈ conn.log, a.byte = newline → a.place ≠ none := by
  have hany : (es ++ [Event.drain]).any Event.isSend = true := by
    obtain ⟨e, he, hsend⟩ := List.any_eq_true.mp hsent
    have hmem := (List.rtakeWhile_suffix _ es).subset he
    exact List.any_eq_true.mpr ⟨e, List.mem_append_left _ hmem, hsend⟩
  exact framed_iff (sent_ne_nil hrun hany) (accepted_drained hrun)

/-- A line of two letters, sent in two pieces. -/
def shortLine : List Event :=
  readEvents [⟨['H', 'i', '\n'].map Char.toUInt8, by decide, by decide⟩] .again ++
    [.dispatchWrite, .sendAccept 2, .sendAgain, .dispatchWrite, .sendAccept 1]

theorem framing_short_line :
    ∃ conn, run step (.start fun _ => 0) (shortLine ++ [.drain]) = some conn ∧
      Framed (accepted conn.sends) conn.log := by
  have hend : (run step (.start fun _ => 0) (shortLine ++ [.drain])).map
      (fun conn => decide (∀ a ∈ conn.log, a.byte = newline → a.place ≠ none)) = some true := by
    decide
  obtain ⟨conn, hrun, hstored⟩ := Option.map_eq_some_iff.mp hend
  exact ⟨conn, hrun, (framing_iff hrun (by decide)).mpr (of_decide_eq_true hstored)⟩

theorem whole_recv : 0 < 1024 ∧ 1024 ≤ 1024 := ⟨by decide, le_refl _⟩

def fullLine : List Chunk := List.replicate 16 (letters 1024 whole_recv)

def lineFeed : Chunk := ⟨[newline], by decide, by decide⟩

/-- A line of `maxLine` letters with its newline, all sent at once. -/
def fullLineSent : List Event :=
  readEvents (fullLine ++ [lineFeed]) .again ++ [.dispatchWrite, .sendAccept maxLine]

theorem fullLine_length : (received fullLine).length = maxLine := by
  simp only [received, fullLine, List.length_flatMap, List.map_replicate, letters,
    List.length_replicate]
  decide

theorem mem_fullLine {c : UInt8} (h : c ∈ received fullLine) : c = 'a'.toUInt8 := by
  obtain ⟨chunk, hchunk, hc⟩ := List.mem_flatMap.mp h
  rw [List.eq_of_mem_replicate hchunk] at hc
  exact List.eq_of_mem_replicate hc

/-- A newline at a full buffer is dropped, and marks the full buffer. -/
theorem arrive_newline_full {conn : Conn} (h : conn.state.bufferUsed = maxLine) :
    (conn.arrive newline).state.nWritten = conn.state.nWritten ∧
      (conn.arrive newline).state.writeUpto = maxLine ∧
      ∃ a, (conn.arrive newline).log = conn.log ++ [a] ∧ a.byte = newline ∧ a.place = none := by
  have hplace : conn.state.place = none := place_eq_none.mpr (Nat.le_of_eq h.symm)
  refine ⟨store_nWritten newline, ?_, conn.arrival newline, rfl, rfl, hplace⟩
  rw [Conn.arrive, store_of_newline rfl, keep_of_none hplace]
  exact h

theorem run_send_buffer {conn : Conn} (hn : conn.state.nWritten = 0)
    (hupto : conn.state.writeUpto = maxLine) :
    ∃ last, run step (conn.turn .idle) [.dispatchWrite, .sendAccept maxLine, .drain] = some last ∧
      last.log = conn.log ∧ last.control = .idle := by
  have hready : (conn.turn .idle).state.nWritten < (conn.turn .idle).state.writeUpto := by
    rw [Conn.turn, hn, hupto]
    decide
  have hrun := run_send_all rfl hready
  have hall : (conn.turn .idle).state.writeUpto - (conn.turn .idle).state.nWritten = maxLine := by
    rw [Conn.turn, hn, hupto, Nat.sub_zero]
  rw [hall] at hrun
  exact ⟨_, hrun, rfl, rfl⟩

/-- The newline of the long line arrives at a full buffer. -/
theorem run_fullLine :
    ∃ line a conn, run step (.start fun _ => 0) (fullLineSent ++ [.drain]) = some conn ∧
      conn.log = line ++ [a] ∧ line.map Arrival.byte = received fullLine ∧
      a.byte = newline ∧ a.place = none := by
  have hidle : (Conn.start fun _ => 0).control = .idle := rfl
  obtain ⟨hused, hn⟩ := foldl_arrive_used (.start fun _ => 0) (received fullLine)
    (by rw [fullLine_length]; decide)
  have hread := run_doRead hidle (fullLine ++ [lineFeed]) .again
  have hfold : (received (fullLine ++ [lineFeed])).foldl Conn.arrive (.start fun _ => 0) =
      ((received fullLine).foldl Conn.arrive (.start fun _ => 0)).arrive newline := by
    rw [received, List.flatMap_append, List.foldl_append]
    rfl
  rw [hfold] at hread
  rw [fullLine_length] at hused
  obtain ⟨hwritten, hupto, a, hlast, hbyte, hplace⟩ :=
    arrive_newline_full (hused.trans (Nat.zero_add maxLine))
  obtain ⟨conn, hsend, hkept, hidle'⟩ := run_send_buffer (hwritten.trans hn) hupto
  have hevents : fullLineSent ++ [.drain] = readEvents (fullLine ++ [lineFeed]) .again ++
      [.dispatchWrite, .sendAccept maxLine, .drain] := by
    rw [fullLineSent, List.append_assoc]
    rfl
  have hrun : run step (.start fun _ => 0) (fullLineSent ++ [.drain]) = some conn := by
    rw [hevents]
    exact run_append_some hread hsend
  have hlog := log_received hrun
  rw [hkept, hlast, hidle', hevents, recvBytes_append, recvBytes_readEvents] at hlog
  have hline : (received (fullLine ++ [lineFeed])) = received fullLine ++ [newline] := by
    rw [received, List.flatMap_append]
    rfl
  refine ⟨_, a, conn, hrun, hkept.trans hlast, ?_, hbyte, hplace⟩
  rw [hline, List.map_append] at hlog
  simpa [Control.unread, recvBytes, hbyte] using hlog

theorem fullLineSent_sent : SentSinceDrain fullLineSent := by
  have hsplit : fullLineSent = readEvents (fullLine ++ [lineFeed]) .again ++ [.dispatchWrite] ++
      [.sendAccept maxLine] := by simp [fullLineSent]
  rw [SentSinceDrain, hsplit, List.rtakeWhile_concat_pos _ _ _ rfl, List.any_append]
  exact Bool.or_eq_true_iff.mpr (.inr rfl)

/-- A line was received whole and is sent without its newline. -/
theorem newline_lost :
    SentSinceDrain fullLineSent ∧
      ∃ conn, run step (.start fun _ => 0) (fullLineSent ++ [.drain]) = some conn ∧
        ((completed conn.log).map Arrival.byte).count newline = 1 ∧
        (accepted conn.sends).count newline = 0 := by
  obtain ⟨line, a, conn, hrun, hlog, hline, hbyte, hplace⟩ := run_fullLine
  have hletters : (received fullLine).count newline = 0 := by
    apply List.count_eq_zero_of_not_mem
    intro hmem
    have hc := mem_fullLine hmem
    revert hc
    decide
  have hlineEnds : line.countP Arrival.endsLine = 0 := by
    rw [← count_newline_received, hline, hletters]
  have hcompleted : completed conn.log = line ++ [a] := by
    rw [hlog, completed_snoc, if_pos hbyte]
  refine ⟨fullLineSent_sent, conn, hrun, ?_, ?_⟩
  · rw [count_newline_received, hcompleted, List.countP_append, hlineEnds]
    simp [Arrival.endsLine, hbyte]
  · have hle : (line.countP fun a => a.endsLine && a.stored) ≤ line.countP Arrival.endsLine :=
      List.countP_mono_left fun x _ hx => (Bool.and_eq_true_iff.mp hx).1
    have hline : (line.countP fun a => a.endsLine && a.stored) = 0 := by omega
    rw [accepted_drained hrun, count_newline_stored, hcompleted, List.countP_append, hline]
    simp [Arrival.stored, hplace]

end CppPlayground.Rot13Server
