import CppPlayground.RdmaDemoTexts

/-!
# What the RDMA demo prints

Each side prints its buffer at fixed statements, where the buffer is expected
to hold a text. A side that ends with result 0 has come to its last statement
and so has printed all of its texts.
-/
namespace CppPlayground.RdmaDemo
open SockSync Rendezvous Runs

variable {data : Side → CmConData} {st st' : State} {p : Side}

def Stmt.prints : Stmt → ℕ → ℕ
  | .print, n => n + 1
  | _, n => n

/-- How often a program has printed its buffer. -/
def prints (p : Side) : ℕ → ℕ := after (main p) Stmt.prints 0

/-- The texts a side prints, in order. -/
def shown : Side → List (List UInt8)
  | .server => [rdmaMsgW]
  | .client => [msg, rdmaMsgR, rdmaMsgW]

theorem print_at {pc : ℕ} (h : stmtAt p pc = some .print) :
    (p = .server ∧ pc = 11) ∨ (p = .client ∧ (pc = 8 ∨ pc = 12 ∨ pc = 14)) := by
  have hpc := pc_lt h
  cases p with
  | server =>
      change pc < 13 at hpc
      interval_cases pc <;> cases h
      simp
  | client =>
      change pc < 19 at hpc
      interval_cases pc <;> cases h <;> simp

/-- Where a side prints, it is the turn of the text that is expected. -/
theorem expected_print {pc : Side → ℕ} (hstep : InStep (pc .server) (pc .client))
    (h : stmtAt p (pc p) = some .print) :
    ∃ op : Opcode, expected pc p = some op.payload ∧
      (shown p)[prints p (pc p)]? = some op.payload := by
  unfold expected
  rcases print_at h with ⟨rfl, hpc⟩ | ⟨rfl, hpc | hpc | hpc⟩
  · have hturn : prints .server 11 = 0 := rfl
    have hclient := hstep.written (by omega)
    refine ⟨.rdmaWrite, ?_, ?_⟩
    · simp only [expectedAt]
      rw [if_neg (by omega), if_neg (by omega), if_neg (by omega)]
      rfl
    · rw [hpc, hturn]
      rfl
  · have hturn : prints .client 8 = 0 := rfl
    rw [hpc, hturn]
    exact ⟨.send, rfl, rfl⟩
  · have hturn : prints .client 12 = 1 := rfl
    rw [hpc, hturn]
    exact ⟨.rdmaRead, rfl, rfl⟩
  · have hturn : prints .client 14 = 2 := rfl
    rw [hpc, hturn]
    exact ⟨.rdmaWrite, rfl, rfl⟩

/-- So far a side has printed the first of its texts. -/
def Shown (st : State) : Prop := ∀ p,
  (st.control p).printed = (shown p).take (prints p (st.pc p))

theorem Executes.shown {stmt : Stmt} (hs : Shown st) (hord : Ordered st) (hstored : Stored st)
    (hstmt : stmtAt p (st.pc p) = some stmt) (h : Executes st p stmt st') :
    (st'.control p).printed = (shown p).take (prints p (st'.pc p)) := by
  have hp := hs p
  cases h with
  | ends rc _ => simpa [State.leave] using hp
  | goesOn _ _ _ =>
      have hnext : prints p (st.pc p + 1) = stmt.prints (prints p (st.pc p)) := after_next hstmt
      rw [perform_pc, Function.update_self, hnext]
      by_cases hprint : stmt = .print
      · subst hprint
        obtain ⟨op, hexpected, hturn⟩ := expected_print hord.inStep hstmt
        have htext := (hstored.expected p _ hexpected).printed op.payload_fills
        simp [State.perform, Stmt.prints, Stmt.shows, List.take_add_one, hturn, htext, hp]
      · have hquiet : stmt.shows (st.buf p) = [] ∧ stmt.prints (prints p (st.pc p)) =
            prints p (st.pc p) := by
          cases stmt <;> first | exact ⟨rfl, rfl⟩ | exact absurd rfl hprint
        simp [State.perform, hquiet, hp]

theorem Shown.effect (hs : Shown st) (hord : Ordered st) (hstored : Stored st)
    (h : Effect st st') : Shown st' := by
  intro q
  cases h with
  | wait p ctl hpc hprinted _ _ =>
      by_cases hq : q = p
      · subst hq
        simpa [hpc, hprinted] using hs q
      · simpa [hq] using hs q
  | sync p ctl hat _ _ hpc hprinted _ _ =>
      by_cases hq : q = p
      · subst hq
        have hstay : prints q (st.pc q + 1) = prints q (st.pc q) := by
          apply after_sync _ hat
          intro stmt hsync x
          cases stmt <;> first | rfl | cases hsync
        simpa [hpc, hprinted, hstay] using hs q
      · simpa [hq] using hs q
  | exec p stmt st' hstmt h =>
      by_cases hq : q = p
      · subst hq
        exact h.shown hs hord hstored hstmt
      · rw [State.pc, (h.other hq).1]
        exact hs q
  | adapter p st' h =>
      rw [h.pc_eq, h.control_eq]
      exact hs q

structure Invariant (st : State) : Prop where
  ordered : Ordered st
  stored : Stored st
  shown : Shown st
  ended : Ended st

theorem invariant_start : Invariant .start where
  ordered := ordered_start
  stored := stored_start
  shown _ := rfl
  ended _ := ⟨nofun, nofun⟩

theorem invariant_step {e : Event} (hs : Invariant st) (h : step data st e = some st') :
    Invariant st' := by
  have heffect := step_effect h
  exact ⟨hs.ordered.effect heffect, hs.stored.effect hs.ordered heffect,
    hs.shown.effect hs.ordered hs.stored heffect, hs.ended.effect heffect⟩

theorem invariant_run {es : List Event} (h : run (step data) .start es = some st) :
    Invariant st := Runs.invariant invariant_step invariant_start h

theorem rcZero_at {pc : ℕ} (h : stmtAt p pc = some .rcZero) : pc + 1 = (main p).length := by
  have hpc := pc_lt h
  cases p with
  | server =>
      change pc < 13 at hpc
      interval_cases pc <;> cases h
      rfl
  | client =>
      change pc < 19 at hpc
      interval_cases pc <;> cases h
      rfl

theorem postSend_at {pc : ℕ} (h : stmtAt .server pc = some (.postSend .send)) : pc = 6 := by
  have hpc := pc_lt h
  change pc < 13 at hpc
  interval_cases pc <;> cases h
  rfl

/-- A side that ends with result 0 has printed all of its texts. -/
theorem printed_all (hs : Invariant st) (h : (st.control p).result = some 0) :
    (st.control p).printed = shown p := by
  have hlast := rcZero_at ((hs.ended p).2 ((hs.ended p).1 h))
  have hprinted := hs.shown p
  have hpc : st.pc p = (main p).length - 1 := by omega
  rw [hpc] at hprinted
  cases p <;> exact hprinted

/-- In every run the server posts its SEND only when the client has posted its
receive and can receive, neither completion queue holds or owes more than one
completion, and two results 0 come with the right texts: what the client has
received, what it has read, and what it has written over it. -/
theorem phases_ordered (data : Side → CmConData) {es : List Event}
    (h : run (step data) .start es = some st) :
    (stmtAt .server (st.control .server).pc = some (.postSend .send) →
        1 ≤ (st.adapter .client).postedReceives ∧
          ((st.adapter .client).qp = .rtr ∨ (st.adapter .client).qp = .rts)) ∧
      (∀ p, (st.adapter p).sendQueue.length + (st.adapter p).recvQueue +
        (st.adapter p).filled + (st.adapter p).cq.length ≤ 1) ∧
      ((∀ p, (st.control p).result = some 0) →
        (st.control .client).printed = [msg, rdmaMsgR, rdmaMsgW] ∧
          (st.control .server).printed = [rdmaMsgW]) := by
  have hs := invariant_run h
  refine ⟨fun hpost => ?_, hs.ordered.owed_le, fun hzero => ?_⟩
  · have hpc : 6 ≤ st.pc .server := (postSend_at hpost).ge
    obtain ⟨hreceive, hqp⟩ := hs.ordered.client_ready hpc
    exact ⟨hreceive, .inr hqp⟩
  · exact ⟨printed_all hs (hzero .client), printed_all hs (hzero .server)⟩

theorem demoGid_length : (List.replicate 16 (0 : UInt8)).length = 16 := List.length_replicate

def demoData : Side → CmConData
  | .client => ⟨4096, 1, 17, 3, List.replicate 16 0, demoGid_length⟩
  | .server => ⟨8192, 2, 18, 4, List.replicate 16 0, demoGid_length⟩

/-- The request at the head of the queue is carried out byte by byte. -/
def transferAll (p : Side) : List Event :=
  (List.range msgSize).flatMap fun i => [.adapter p (.fetch i), .adapter p (.place i)]

/-- `connect_qp` on both sides. -/
def connectAll : List Event :=
  [.exec .server, .exec .client, .enterSync .server, .enterSync .client,
    .returnConData .server 0 (demoData .client), .returnConData .client 0 (demoData .server),
    .exec .server, .exec .server, .exec .server,
    .exec .client, .exec .client, .exec .client, .exec .client,
    .enterSync .server, .enterSync .client, .returnChar .server 0, .returnChar .client 0]

/-- From the end of the SEND to the end of the second sync; the client's
completion comes first. -/
def afterSend : List Event :=
  [.adapter .server .deliver, .adapter .client .receive, .exec .client,
    .adapter .server .complete, .exec .server, .exec .server, .exec .client,
    .enterSync .server, .enterSync .client, .returnChar .server 0, .returnChar .client 0]

def afterRead : List Event :=
  [.adapter .client .complete, .exec .client, .exec .client, .exec .client, .exec .client]

def afterWrite : List Event :=
  [.adapter .client .complete, .exec .client, .enterSync .client, .enterSync .server,
    .returnChar .server 0, .returnChar .client 0, .exec .server, .exec .server, .exec .client,
    .destroy .server true, .destroy .client true]

def demoRun : List Event :=
  List.flatten [connectAll, [.exec .server], transferAll .server, afterSend, [.exec .client],
    transferAll .client, afterRead, [.exec .client], transferAll .client, afterWrite]

theorem phases_ordered_demo_run :
    ∃ st, run (step demoData) .start demoRun = some st ∧
      (st.control .client).printed = [msg, rdmaMsgR, rdmaMsgW] ∧
      (st.control .server).printed = [rdmaMsgW] := by
  have hends : (run (step demoData) .start demoRun).map
      (fun st => ((st.control .client).result, (st.control .server).result)) =
        some (some 0, some 0) := by
    decide +kernel
  obtain ⟨st, hst, hresults⟩ := Option.map_eq_some_iff.mp hends
  obtain ⟨hclient, hserver⟩ := Prod.mk.inj hresults
  refine ⟨st, hst, (phases_ordered demoData hst).2.2 fun p => ?_⟩
  cases p with
  | client => exact hclient
  | server => exact hserver

end CppPlayground.RdmaDemo
