import CppPlayground.RdmaDemoOrder

/-!
# What the buffers of the RDMA demo hold

The same buffer is the source of one transfer and the destination of another,
and transfers go on byte by byte beside the programs. At each pair of program
counters a buffer is expected to hold a certain text, or nothing is expected
while a transfer may be changing it. The order of the phases makes this
consistent: a transfer in progress finds its text at its source, and nothing
else is expected of its destination.
-/
namespace CppPlayground.RdmaDemo
open HostBytes SockSync ScanText Rendezvous

variable {data : Side → CmConData} {st st' : State} {p q : Side}

/-- The buffer holds the text and its NUL. -/
def Holds (m : Memory) (text : List UInt8) : Prop := ∀ i < msgSize, m i = text.getD i 0

/-- The texts of the demo fill the buffer. -/
structure Fills (text : List UInt8) : Prop where
  length : text.length + 1 = msgSize
  no_nul : 0 ∉ text

theorem strcpy_holds {text : List UInt8} (h : Fills text) (m : Memory) :
    Holds (strcpy m text) text := by
  intro i hi
  have hlength := h.length
  simp only [strcpy, store, Nat.zero_le, if_true, Nat.sub_zero]
  rcases Nat.lt_or_ge i text.length with hlt | hge
  · rw [List.getElem?_append_left hlt, List.getD_eq_getElem?_getD]
    simp [List.getElem?_eq_getElem hlt]
  · have hi : i = text.length := by omega
    subst hi
    simp

theorem Holds.printed {m : Memory} {text : List UInt8} (hm : Holds m text) (h : Fills text) :
    printed m = text := by
  have hload : load m 0 msgSize = text ++ [0] := by
    apply List.ext_getElem
    · simp [h.length]
    · intro i hi _
      rw [load_length] at hi
      have hmi := hm i hi
      have hlength := h.length
      simp only [load, List.getElem_map, List.getElem_range, Nat.zero_add, hmi]
      rcases Nat.lt_or_ge i text.length with hlt | hge
      · rw [List.getElem_append_left hlt, List.getD_eq_getElem?_getD,
          List.getElem?_eq_getElem hlt, Option.getD_some]
      · rw [List.getElem_append_right hge, List.getElem_singleton, List.getD_eq_getElem?_getD,
          List.getElem?_eq_none hge, Option.getD_none]
  have hall : ∀ b ∈ text, (b != 0) = true := by
    intro b hb
    apply bne_iff_ne.mpr
    rintro rfl
    exact h.no_nul hb
  rw [RdmaDemo.printed, hload, cString, List.takeWhile_append_of_pos hall]
  simp

/-- What a request carries. -/
def Opcode.payload : Opcode → List UInt8
  | .send => msg
  | .rdmaRead => rdmaMsgR
  | .rdmaWrite => rdmaMsgW

theorem Opcode.payload_fills (op : Opcode) : Fills op.payload := by
  cases op <;> constructor <;> decide

def WcOpcode.payload : WcOpcode → List UInt8
  | .recv => msg
  | .request op => op.payload

/-- The side whose buffer the work changes. -/
def WcOpcode.dest : WcOpcode → Side → Side
  | .recv, p => p
  | .request op, p => op.dest p

/-- While the server is at `s` and the client at `c`. -/
def expectedAt (s c : ℕ) : Side → Option (List UInt8)
  | .server =>
      if s ≤ 8 then some msg
      else if c ≤ 15 then some rdmaMsgR
      else if c = 16 then none
      else some rdmaMsgW
  | .client =>
      if c ≤ 7 then none
      else if c ≤ 10 then some msg
      else if c = 11 then none
      else if c ≤ 13 then some rdmaMsgR
      else some rdmaMsgW

def expected (pc : Side → ℕ) : Side → Option (List UInt8) :=
  expectedAt (pc .server) (pc .client)

theorem expected_server (pc : Side → ℕ) (n : ℕ) :
    expected (Function.update pc .server n) = expectedAt n (pc .client) := rfl

theorem expected_client (pc : Side → ℕ) (n : ℕ) :
    expected (Function.update pc .client n) = expectedAt (pc .server) n := rfl

section Steps
variable {s c : ℕ} {text : List UInt8}

-- A new expectation comes only with the statement that brings the text.
theorem expectedAt_server_next (hs : s ≠ 8) (h : expectedAt (s + 1) c .server = some text) :
    expectedAt s c .server = some text := by
  simp only [expectedAt] at h ⊢
  split_ifs at h ⊢ <;> omega

theorem expectedAt_server_client_next (hc : c ≠ 16)
    (h : expectedAt s (c + 1) .server = some text) : expectedAt s c .server = some text := by
  simp only [expectedAt] at h ⊢
  split_ifs at h ⊢ <;> omega

theorem expectedAt_client_next (h7 : c ≠ 7) (h11 : c ≠ 11) (h13 : c ≠ 13)
    (h : expectedAt s (c + 1) .client = some text) : expectedAt s c .client = some text := by
  simp only [expectedAt] at h ⊢
  split_ifs at h ⊢ <;> omega

end Steps

theorem strcpy_at {pc : ℕ} {text : List UInt8} (h : stmtAt p pc = some (.strcpy text)) :
    (p = .server ∧ pc = 8 ∧ text = rdmaMsgR) ∨ (p = .client ∧ pc = 13 ∧ text = rdmaMsgW) := by
  have hpc := pc_lt h
  cases p with
  | server =>
      change pc < 13 at hpc
      interval_cases pc <;> cases h
      simp
  | client =>
      change pc < 19 at hpc
      interval_cases pc <;> cases h
      simp

theorem poll_at {pc : ℕ} (h : stmtAt p pc = some .pollCompletion) :
    (p = .server ∧ pc = 7) ∨ (p = .client ∧ (pc = 7 ∨ pc = 11 ∨ pc = 16)) := by
  have hpc := pc_lt h
  cases p with
  | server =>
      change pc < 13 at hpc
      interval_cases pc <;> cases h
      simp
  | client =>
      change pc < 19 at hpc
      interval_cases pc <;> cases h <;> simp

/-- A statement that ends no phase. -/
def Stmt.Quiet : Stmt → Prop
  | .pollCompletion => False
  | .strcpy _ => False
  | _ => True

/-- Such a statement brings no new expectation. -/
theorem expected_next {pc : Side → ℕ} {stmt : Stmt} {text : List UInt8}
    (hstmt : stmtAt p (pc p) = some stmt) (hquiet : stmt.Quiet)
    (h : expected (Function.update pc p (pc p + 1)) q = some text) : expected pc q = some text := by
  have hne : ∀ {n : ℕ} {stmt' : Stmt}, stmtAt p n = some stmt' → ¬ stmt'.Quiet → pc p ≠ n := by
    intro n stmt' hn hloud hpc
    rw [hpc, hn] at hstmt
    cases hstmt
    exact hloud hquiet
  have hpoll : ¬ Stmt.pollCompletion.Quiet := id
  have hstrcpy : ∀ text, ¬ (Stmt.strcpy text).Quiet := fun _ => id
  cases p with
  | server =>
      have h8 : pc .server ≠ 8 := hne rfl (hstrcpy _)
      rw [expected_server] at h
      cases q with
      | client => exact h
      | server => exact expectedAt_server_next h8 h
  | client =>
      rw [expected_client] at h
      cases q with
      | client =>
          have h7 : pc .client ≠ 7 := hne rfl hpoll
          have h11 : pc .client ≠ 11 := hne rfl hpoll
          have h13 : pc .client ≠ 13 := hne rfl (hstrcpy _)
          exact expectedAt_client_next h7 h11 h13 h
      | server =>
          have h16 : pc .client ≠ 16 := hne rfl hpoll
          exact expectedAt_server_client_next h16 h

section Expected
variable {pc : Side → ℕ} (hstep : InStep (pc .server) (pc .client))
include hstep

/-- A request finds its text at its source. -/
theorem expected_source {op : Opcode} (h : awaited p (pc p) = some (.request op)) :
    expected pc (op.source p) = some op.payload := by
  rcases awaited_eq h with ⟨rfl, hpc, hw⟩ | ⟨rfl, _, _, hw⟩ | ⟨rfl, hpc, hw⟩ | ⟨rfl, hpc, hw⟩
  · cases hw
    simp [Opcode.source, expected, expectedAt, hpc, Opcode.payload]
  · cases hw
  · cases hw
    have hserver := hstep.ready (by omega)
    simp [Opcode.source, Side.peer, expected, expectedAt, hpc, Opcode.payload, show ¬ pc .server ≤ 8 by omega]
  · cases hw
    simp [Opcode.source, expected, expectedAt, hpc, Opcode.payload]

/-- Nothing but its text is expected at its destination. -/
theorem expected_dest {w : WcOpcode} {text : List UInt8} (h : awaited p (pc p) = some w)
    (htext : expected pc (w.dest p) = some text) : text = w.payload := by
  have hready := hstep.ready
  rcases awaited_eq h with ⟨rfl, hpc, rfl⟩ | ⟨rfl, _, hpc, rfl⟩ | ⟨rfl, hpc, rfl⟩ | ⟨rfl, hpc, rfl⟩
  · change expected pc .client = some text at htext
    unfold expected expectedAt at htext
    split_ifs at htext
    · cases htext
      rfl
    all_goals omega
  · change expected pc .client = some text at htext
    unfold expected expectedAt at htext
    rw [if_pos hpc] at htext
    cases htext
  · change expected pc .client = some text at htext
    unfold expected expectedAt at htext
    rw [hpc] at htext
    cases htext
  · change expected pc .server = some text at htext
    unfold expected expectedAt at htext
    rw [if_neg (by omega), hpc] at htext
    cases htext

/-- Two pieces of work at one destination carry the same text. -/
theorem payload_eq {w w' : WcOpcode} (h : awaited p (pc p) = some w)
    (h' : awaited q (pc q) = some w') (hdest : w.dest p = w'.dest q) : w.payload = w'.payload := by
  have hready := hstep.ready
  rcases awaited_eq h with ⟨rfl, hpc, rfl⟩ | ⟨rfl, hlow, hhigh, rfl⟩ | ⟨rfl, hpc, rfl⟩ |
    ⟨rfl, hpc, rfl⟩ <;>
  rcases awaited_eq h' with ⟨rfl, hpc', rfl⟩ | ⟨rfl, hlow', hhigh', rfl⟩ | ⟨rfl, hpc', rfl⟩ |
    ⟨rfl, hpc', rfl⟩ <;>
  first | omega | (cases hdest; done) | rfl

/-- A poll brings what the awaited work has put at its destination. -/
theorem expected_poll {w : WcOpcode} {text : List UInt8}
    (hstmt : stmtAt p (pc p) = some .pollCompletion) (hw : awaited p (pc p) = some w)
    (h : expected (Function.update pc p (pc p + 1)) q = some text) :
    expected pc q = some text ∨ (q = w.dest p ∧ text = w.payload) := by
  have hready := hstep.ready
  have hpoll := poll_at hstmt
  rcases awaited_eq hw with ⟨rfl, hpc, rfl⟩ | ⟨rfl, hlow, hhigh, rfl⟩ | ⟨rfl, hpc, rfl⟩ |
    ⟨rfl, hpc, rfl⟩
  · rw [expected_server] at h
    cases q with
    | client => exact .inl h
    | server => exact .inl (expectedAt_server_next (by omega) h)
  · have hpc : pc .client = 7 := by
      simp at hpoll
      omega
    rw [expected_client] at h
    cases q with
    | client =>
        simp only [expectedAt, hpc] at h
        exact .inr ⟨rfl, (Option.some.inj h).symm⟩
    | server => exact .inl (expectedAt_server_client_next (by omega) h)
  · rw [expected_client] at h
    cases q with
    | client =>
        simp only [expectedAt, hpc] at h
        exact .inr ⟨rfl, (Option.some.inj h).symm⟩
    | server => exact .inl (expectedAt_server_client_next (by omega) h)
  · rw [expected_client] at h
    cases q with
    | client => exact .inl (expectedAt_client_next (by omega) (by omega) (by omega) h)
    | server =>
        simp only [expectedAt, hpc] at h
        rw [if_neg (by omega)] at h
        exact .inr ⟨rfl, (Option.some.inj h).symm⟩

/-- `strcpy` brings its text to its own side. -/
theorem expected_strcpy {copied text : List UInt8}
    (hstmt : stmtAt p (pc p) = some (.strcpy copied))
    (h : expected (Function.update pc p (pc p + 1)) q = some text) :
    (q = p ∧ text = copied) ∨ (q ≠ p ∧ expected pc q = some text) := by
  have hready := hstep.ready
  rcases strcpy_at hstmt with ⟨rfl, hpc, rfl⟩ | ⟨rfl, hpc, rfl⟩
  · rw [expected_server] at h
    cases q with
    | client => exact .inr ⟨nofun, h⟩
    | server =>
        simp only [expectedAt, hpc] at h
        rw [if_neg (by omega), if_pos (by omega)] at h
        exact .inl ⟨rfl, (Option.some.inj h).symm⟩
  · rw [expected_client] at h
    cases q with
    | client =>
        simp only [expectedAt, hpc] at h
        exact .inl ⟨rfl, (Option.some.inj h).symm⟩
    | server => exact .inr ⟨nofun, expectedAt_server_client_next (by omega) h⟩

/-- No work is under way at a buffer that `strcpy` writes. -/
theorem strcpy_apart {copied : List UInt8} {w : WcOpcode}
    (hstmt : stmtAt p (pc p) = some (.strcpy copied)) (hw : awaited q (pc q) = some w) :
    w.dest q ≠ p := by
  have hready := hstep.ready
  rcases strcpy_at hstmt with ⟨rfl, hpc, rfl⟩ | ⟨rfl, hpc, rfl⟩ <;>
  rcases awaited_eq hw with ⟨rfl, hpc', rfl⟩ | ⟨rfl, hlow', hhigh', rfl⟩ | ⟨rfl, hpc', rfl⟩ |
    ⟨rfl, hpc', rfl⟩ <;>
  first | omega | nofun

end Expected

/-- What an adapter has fetched, placed, filled and completed is the text its
work carries. -/
structure Adapter.Sound (a : Adapter) (p : Side) (buf : Side → Memory) : Prop where
  fetched : ∀ t ∈ a.sendQueue, ∀ i b, t.fetched i = some b → b = t.op.payload.getD i 0
  placed : ∀ t ∈ a.sendQueue, ∀ i < msgSize, t.placed i = true →
    buf (t.op.dest p) i = t.op.payload.getD i 0
  filled : 0 < a.filled → Holds (buf p) msg
  completed : ∀ wc ∈ a.cq, wc.success = true →
    Holds (buf (wc.opcode.dest p)) wc.opcode.payload

/-- A change of the buffers that respects the texts of the pending work. -/
theorem Adapter.Sound.keep {a : Adapter} {buf buf' : Side → Memory} (h : a.Sound p buf)
    (hkeep : ∀ w ∈ a.pending, ∀ i < msgSize, buf (w.dest p) i = w.payload.getD i 0 →
      buf' (w.dest p) i = w.payload.getD i 0) : a.Sound p buf' where
  fetched := h.fetched
  placed t ht i hi hplaced := hkeep _ (request_mem_pending ht) i hi (h.placed t ht i hi hplaced)
  filled hfilled i hi := hkeep _ (recv_mem_pending hfilled) i hi (h.filled hfilled i hi)
  completed wc hwc hok i hi := hkeep _ (wc_mem_pending hwc) i hi (h.completed wc hwc hok i hi)

/-- The buffers hold what is expected of them, and all work is sound. -/
structure Stored (st : State) : Prop where
  expected : ∀ q text, expected st.pc q = some text → Holds (st.buf q) text
  sound : ∀ q, (st.adapter q).Sound q st.buf

theorem stored_start : Stored .start where
  expected q text h := by
    cases q with
    | client => cases h
    | server =>
        cases h
        exact strcpy_holds Opcode.send.payload_fills _
  sound _ := ⟨nofun, nofun, nofun, nofun⟩

/-- A statement starts work that has done nothing yet, or takes a completion. -/
theorem onAdapter_sound {a : Adapter} {buf : Side → Memory} (stmt : Stmt) (h : a.Sound p buf) :
    (stmt.onAdapter a).Sound p buf := by
  cases stmt with
  | modifyQp state => exact ⟨h.fetched, h.placed, h.filled, h.completed⟩
  | postReceive => exact ⟨h.fetched, h.placed, h.filled, h.completed⟩
  | postSend op =>
      refine ⟨fun t ht => ?_, fun t ht => ?_, h.filled, h.completed⟩
      · rcases List.mem_append.mp ht with hold | hnew
        · exact h.fetched t hold
        · rw [List.mem_singleton.mp hnew]
          nofun
      · rcases List.mem_append.mp ht with hold | hnew
        · exact h.placed t hold
        · rw [List.mem_singleton.mp hnew]
          nofun
  | pollCompletion =>
      refine ⟨h.fetched, h.placed, h.filled, fun wc hwc => ?_⟩
      exact h.completed wc (List.mem_of_mem_tail hwc)
  | queryGid | syncConData | syncChar _ | print | strcpy _ | rcZero => exact h

theorem Executes.sound {stmt : Stmt} {buf : Side → Memory} (h : Executes st p stmt st')
    (hs : ∀ q, (st.adapter q).Sound q buf) (q : Side) : (st'.adapter q).Sound q buf := by
  by_cases hq : q = p
  · subst hq
    have hself := onAdapter_sound stmt (hs q)
    cases h with
    | goesOn _ _ _ => simpa [State.perform] using hself
    | ends rc _ => simpa using hself
  · rw [(h.other hq).2]
    exact hs q

/-- Nobody else uses the buffer when a program copies a text into it. -/
theorem Stored.strcpy {copied : List UInt8} (hs : Stored st) (hord : Ordered st)
    (hstmt : stmtAt p (st.pc p) = some (.strcpy copied)) :
    Stored (st.perform p (.strcpy copied)) := by
  constructor
  · intro q text htext
    rw [perform_pc] at htext
    simp only [State.perform, Stmt.onBuf]
    rcases expected_strcpy hord.inStep hstmt htext with ⟨rfl, rfl⟩ | ⟨hq, hbefore⟩
    · rw [Function.update_self]
      have hfills : Fills text := by
        rcases strcpy_at hstmt with ⟨_, _, rfl⟩ | ⟨_, _, rfl⟩
        · exact Opcode.rdmaRead.payload_fills
        · exact Opcode.rdmaWrite.payload_fills
      exact strcpy_holds hfills _
    · rw [Function.update_of_ne hq]
      exact hs.expected q text hbefore
  · intro q
    have hsame : ((st.perform p (.strcpy copied)).adapter q) = st.adapter q := by
      simp [State.perform, Stmt.onAdapter]
    rw [hsame]
    apply (hs.sound q).keep
    intro w hw i _ hold
    have hapart : w.dest q ≠ p := strcpy_apart hord.inStep hstmt (hord.awaited_of_mem hw)
    simp only [State.perform]
    rw [Function.update_of_ne hapart]
    exact hold

theorem Stored.exec {stmt : Stmt} (hs : Stored st) (hord : Ordered st)
    (hstmt : stmtAt p (st.pc p) = some stmt) (h : Executes st p stmt st') : Stored st' := by
  have hsound := h.sound hs.sound
  cases h with
  | ends rc _ =>
      refine ⟨fun q text htext => ?_, hsound⟩
      rw [setAdapter_pc, leave_pc] at htext
      exact hs.expected q text htext
  | goesOn _ _ hpoll =>
      by_cases hcopy : ∃ copied, stmt = .strcpy copied
      · obtain ⟨copied, rfl⟩ := hcopy
        exact hs.strcpy hord hstmt
      · have hbuf : (st.perform p stmt).buf = st.buf := by
          have hsame : stmt.onBuf (st.buf p) = st.buf p := by
            cases stmt <;> first | rfl | exact absurd ⟨_, rfl⟩ hcopy
          simp [State.perform, hsame]
        constructor
        · intro q text htext
          rw [hbuf]
          rw [perform_pc] at htext
          by_cases hpolls : stmt = .pollCompletion
          · obtain ⟨wc, hwc, hok⟩ := hpoll hpolls
            subst hpolls
            have hawaited := hord.awaited_of_mem (Adapter.wc_mem_pending hwc)
            rcases expected_poll hord.inStep hstmt hawaited htext with hbefore | ⟨rfl, rfl⟩
            · exact hs.expected q text hbefore
            · exact (hs.sound p).completed wc hwc hok
          · have hquiet : stmt.Quiet := by
              cases stmt <;>
                first | trivial | exact absurd rfl hpolls | exact absurd ⟨_, rfl⟩ hcopy
            exact hs.expected q text (expected_next hstmt hquiet htext)
        · rw [hbuf]
          exact hsound

/-- A byte placed at a buffer of which only its own text is expected. -/
theorem place_keeps {buf : Side → Memory} {dest : Side} {i j : ℕ} {payload text : List UInt8}
    (htext : q = dest → text = payload) (hold : buf q j = text.getD j 0) :
    Function.update buf dest (Function.update (buf dest) i (payload.getD i 0)) q j =
      text.getD j 0 := by
  by_cases hq : q = dest
  · rw [hq, Function.update_self]
    by_cases hj : j = i
    · rw [hj, Function.update_self, htext hq]
    · rw [Function.update_of_ne hj, ← hq]
      exact hold
  · rw [Function.update_of_ne hq]
    exact hold

/-- A new head of the queue, when what it has fetched and placed is right. -/
theorem setHead_sound {buf : Side → Memory} {t : Transfer}
    (hs : ∀ q, (st.adapter q).Sound q buf)
    (hfetched : ∀ i b, t.fetched i = some b → b = t.op.payload.getD i 0)
    (hplaced : ∀ i < msgSize, t.placed i = true →
      buf (t.op.dest p) i = t.op.payload.getD i 0) (q : Side) :
    ((st.setHead p t).adapter q).Sound q buf := by
  have hq := hs q
  by_cases hqp : q = p
  · subst hqp
    rw [State.setHead, State.setAdapter_adapter, Function.update_self]
    refine ⟨fun u hu => ?_, fun u hu => ?_, hq.filled, hq.completed⟩
    · rcases List.mem_cons.mp hu with rfl | hu
      · exact hfetched
      · exact hq.fetched u (List.mem_of_mem_tail hu)
    · rcases List.mem_cons.mp hu with rfl | hu
      · exact hplaced
      · exact hq.placed u (List.mem_of_mem_tail hu)
  · rw [State.setHead, State.setAdapter_adapter, Function.update_of_ne hqp]
    exact hq

theorem Stored.fetch {i : ℕ} {t : Transfer} (hs : Stored st) (hord : Ordered st)
    (ht : t ∈ (st.adapter p).sendQueue) (hi : i < msgSize) :
    Stored (st.setHead p { t with
      fetched := Function.update t.fetched i (some (st.buf (t.op.source p) i)) }) := by
  have hawaited := hord.awaited_of_mem (Adapter.request_mem_pending ht)
  have hsource := hs.expected _ _ (expected_source hord.inStep hawaited) i hi
  refine ⟨hs.expected, setHead_sound hs.sound ?_ ((hs.sound p).placed t ht)⟩
  intro j b hb
  change Function.update t.fetched i _ j = some b at hb
  by_cases hj : j = i
  · subst hj
    rw [Function.update_self] at hb
    cases hb
    exact hsource
  · rw [Function.update_of_ne hj] at hb
    exact (hs.sound p).fetched t ht j b hb

theorem Stored.place {i : ℕ} {b : UInt8} {t : Transfer} (hs : Stored st) (hord : Ordered st)
    (ht : t ∈ (st.adapter p).sendQueue) (hfetched : t.fetched i = some b) :
    Stored ((st.setHead p { t with placed := Function.update t.placed i true }).setBuf
      (t.op.dest p) (Function.update (st.buf (t.op.dest p)) i b)) := by
  have hawaited := hord.awaited_of_mem (Adapter.request_mem_pending ht)
  obtain rfl := (hs.sound p).fetched t ht i b hfetched
  have hsound : ∀ q, (st.adapter q).Sound q (Function.update st.buf (t.op.dest p)
      (Function.update (st.buf (t.op.dest p)) i (t.op.payload.getD i 0))) := by
    intro q
    apply (hs.sound q).keep
    intro w hw j _ hold
    exact place_keeps (payload_eq hord.inStep (hord.awaited_of_mem hw) hawaited) hold
  constructor
  · intro q text htext j hj
    apply place_keeps _ (hs.expected q text htext j hj)
    rintro rfl
    exact expected_dest hord.inStep hawaited htext
  · intro q
    apply setHead_sound hsound
    · exact (hsound p).fetched t ht
    · intro j hj hplaced
      change Function.update t.placed i true j = true at hplaced
      by_cases hji : j = i
      · rw [hji, Function.update_self, Function.update_self]
      · rw [Function.update_of_ne hji] at hplaced
        exact (hsound p).placed t ht j hj hplaced

/-- A completion is put into the queue, and some of the other work taken out. -/
theorem setAdapter_sound {a : Adapter} {wc : Wc} (hs : ∀ q, (st.adapter q).Sound q st.buf)
    (hsend : a.sendQueue ⊆ (st.adapter p).sendQueue)
    (hfilled : a.filled ≤ (st.adapter p).filled) (hcq : a.cq = (st.adapter p).cq ++ [wc])
    (hwc : wc.success = true → Holds (st.buf (wc.opcode.dest p)) wc.opcode.payload) (q : Side) :
    ((st.setAdapter p a).adapter q).Sound q st.buf := by
  have hq := hs q
  by_cases hqp : q = p
  · subst hqp
    rw [State.setAdapter_adapter, Function.update_self]
    refine ⟨fun t ht => hq.fetched t (hsend ht), fun t ht => hq.placed t (hsend ht),
      fun hpos => hq.filled (by omega), fun wc' hwc' => ?_⟩
    rw [hcq] at hwc'
    rcases List.mem_append.mp hwc' with hold | hnew
    · exact hq.completed wc' hold
    · rw [List.mem_singleton.mp hnew]
      exact hwc
  · rw [State.setAdapter_adapter, Function.update_of_ne hqp]
    exact hq

theorem Stored.deliver {t : Transfer} (hs : Stored st) (ht : t ∈ (st.adapter p).sendQueue)
    (hop : t.op = .send) (hplaced : t.Placed) :
    Stored ((st.setHead p { t with delivered := true }).setAdapter p.peer
      { st.adapter p.peer with
        recvQueue := (st.adapter p.peer).recvQueue - 1
        filled := (st.adapter p.peer).filled + 1 }) := by
  refine ⟨hs.expected, fun q => ?_⟩
  by_cases hq : q = p.peer
  · subst hq
    have hpeer := hs.sound p.peer
    rw [State.setAdapter_adapter, Function.update_self]
    refine ⟨hpeer.fetched, hpeer.placed, fun _ => ?_, hpeer.completed⟩
    intro i hi
    have hbyte := (hs.sound p).placed t ht i hi (hplaced i hi)
    rw [hop] at hbyte
    exact hbyte
  · rw [State.setAdapter_adapter, Function.update_of_ne hq]
    apply setHead_sound hs.sound
    · exact (hs.sound p).fetched t ht
    · exact (hs.sound p).placed t ht

theorem Stored.adapter (hs : Stored st) (hord : Ordered st) (h : AdapterEffect st p st') :
    Stored st' := by
  have hp := hs.sound p
  cases h with
  | fetch i t ts hqueue hi => exact hs.fetch hord (by simp [hqueue]) hi
  | place i b t ts hqueue hi hb => exact hs.place hord (by simp [hqueue]) hb
  | deliver t ts hqueue hop hplaced hrecv => exact hs.deliver (by simp [hqueue]) hop hplaced
  | complete t ts success hqueue hplaced =>
      refine ⟨hs.expected, fun q => ?_⟩
      apply setAdapter_sound hs.sound
      · exact (List.tail_sublist _).subset
      · exact le_refl _
      · rfl
      · intro hok i hi
        exact hp.placed t (by simp [hqueue]) i hi (hplaced hok i hi)
  | receive hfilled =>
      refine ⟨hs.expected, fun q => ?_⟩
      apply setAdapter_sound hs.sound
      · exact List.Subset.refl _
      · exact Nat.sub_le _ _
      · rfl
      · exact fun _ => hp.filled hfilled
  | receiveError hrecv =>
      refine ⟨hs.expected, fun q => ?_⟩
      apply setAdapter_sound hs.sound
      · exact List.Subset.refl _
      · exact le_refl _
      · rfl
      · nofun

theorem Stored.effect (hs : Stored st) (hord : Ordered st) (h : Effect st st') : Stored st' := by
  cases h with
  | wait p ctl hpc _ _ _ =>
      refine ⟨fun q text htext => ?_, hs.sound⟩
      rw [wait_pc hpc] at htext
      exact hs.expected q text htext
  | sync p ctl hat _ _ hpc _ _ _ =>
      refine ⟨fun q text htext => ?_, hs.sound⟩
      obtain ⟨stmt, hstmt, hsync⟩ := syncAt_eq hat
      have hquiet : stmt.Quiet := by
        cases stmt <;> trivial
      rw [setControl_pc, hpc] at htext
      exact hs.expected q text (expected_next hstmt hquiet htext)
  | exec p stmt st' hstmt h => exact hs.exec hord hstmt h
  | adapter p st' h => exact hs.adapter hord h

end CppPlayground.RdmaDemo
