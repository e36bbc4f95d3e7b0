import CppPlayground.RdmaDemo
import Mathlib.Tactic.IntervalCases

/-!
# The order of the phases in the RDMA demo

Both programs are straight lines, so what an adapter may still have to do for
its program depends on the program counter only: at most one request, posted
by the last post and not yet polled. The syncs are the meetings of the two
programs, and how far one of them has come bounds the other. From these two
facts follows every order between statements of different sides.
-/
namespace CppPlayground.RdmaDemo
open SockSync Rendezvous

variable {data : Side → CmConData} {st st' : State} {p : Side}

inductive AdapterEffect (st : State) (p : Side) : State → Prop
  | fetch (i : ℕ) (t : Transfer) (ts : List Transfer) :
      (st.adapter p).sendQueue = t::ts → i < msgSize →
      AdapterEffect st p (st.setHead p { t with
        fetched := Function.update t.fetched i (some (st.buf (t.op.source p) i)) })
  | place (i : ℕ) (b : UInt8) (t : Transfer) (ts : List Transfer) :
      (st.adapter p).sendQueue = t::ts → i < msgSize → t.fetched i = some b →
      AdapterEffect st p
        ((st.setHead p { t with placed := Function.update t.placed i true }).setBuf
          (t.op.dest p) (Function.update (st.buf (t.op.dest p)) i b))
  | deliver (t : Transfer) (ts : List Transfer) :
      (st.adapter p).sendQueue = t::ts → t.op = .send → t.Placed →
      0 < (st.adapter p.peer).recvQueue →
      AdapterEffect st p ((st.setHead p { t with delivered := true }).setAdapter p.peer
        { st.adapter p.peer with
          recvQueue := (st.adapter p.peer).recvQueue - 1
          filled := (st.adapter p.peer).filled + 1 })
  | complete (t : Transfer) (ts : List Transfer) (success : Bool) :
      (st.adapter p).sendQueue = t::ts → (success = true → t.Placed) →
      AdapterEffect st p (st.finishHead p t success)
  | receive : 0 < (st.adapter p).filled →
      AdapterEffect st p (st.setAdapter p { st.adapter p with
        filled := (st.adapter p).filled - 1
        cq := (st.adapter p).cq ++ [⟨.recv, true⟩] })
  | receiveError : 0 < (st.adapter p).recvQueue →
      AdapterEffect st p (st.setAdapter p { st.adapter p with
        recvQueue := (st.adapter p).recvQueue - 1
        cq := (st.adapter p).cq ++ [⟨.recv, false⟩] })

theorem adapterStep_effect {e : AdapterEvent} (h : st.adapterStep data p e = some st') :
    AdapterEffect st p st' := by
  cases e with
  | fetch i =>
      simp only [State.adapterStep] at h
      split at h
      · cases h
      next t ts hqueue =>
        split_ifs at h with hguard
        cases h
        exact .fetch i t ts hqueue hguard.2
  | place i =>
      simp only [State.adapterStep] at h
      split at h
      · cases h
      next t ts hqueue =>
        split at h
        · cases h
        next b hb =>
          split_ifs at h with hguard
          cases h
          exact .place i b t ts hqueue hguard.2.1 hb
  | deliver =>
      simp only [State.adapterStep] at h
      split at h
      · cases h
      next t ts hqueue =>
        split_ifs at h with hguard
        cases h
        exact .deliver t ts hqueue hguard.2.1 hguard.2.2.1 (hguard.2.2.2 hguard.2.1).1
  | complete =>
      simp only [State.adapterStep] at h
      split at h
      · cases h
      next t ts hqueue =>
        split_ifs at h with hguard
        cases h
        exact .complete t ts true hqueue fun _ => hguard.2.1
  | completeError =>
      simp only [State.adapterStep] at h
      split at h
      · cases h
      next t ts hqueue =>
        split_ifs at h with hguard
        cases h
        exact .complete t ts false hqueue nofun
  | receive =>
      simp only [State.adapterStep] at h
      split_ifs at h with hguard
      cases h
      exact .receive hguard.2
  | receiveError =>
      simp only [State.adapterStep] at h
      split_ifs at h with hguard
      cases h
      exact .receiveError hguard.2

/-- What a statement does to the adapter of its side. -/
def Stmt.onAdapter : Stmt → Adapter → Adapter
  | .modifyQp state, a => { a with qp := state }
  | .postReceive, a =>
      { a with postedReceives := a.postedReceives + 1, recvQueue := a.recvQueue + 1 }
  | .postSend op, a => { a with sendQueue := a.sendQueue ++ [.posted op] }
  | .pollCompletion, a => { a with cq := a.cq.tail }
  | _, a => a

/-- What it does to the buffer. -/
def Stmt.onBuf : Stmt → HostBytes.Memory → HostBytes.Memory
  | .strcpy text, m => RdmaDemo.strcpy m text
  | _, m => m

/-- What it prints of the buffer. -/
def Stmt.shows : Stmt → HostBytes.Memory → List (List UInt8)
  | .print, m => [printed m]
  | _, _ => []

/-- The statement is done and the program goes on. -/
def State.perform (st : State) (p : Side) (stmt : Stmt) : State where
  control := Function.update st.control p { st.control p with
    pc := (st.control p).pc + 1
    printed := (st.control p).printed ++ stmt.shows (st.buf p) }
  adapter := Function.update st.adapter p (stmt.onAdapter (st.adapter p))
  buf := Function.update st.buf p (stmt.onBuf (st.buf p))

/-- A statement other than a sync leads to the next one, a poll only with a
success, or it ends the program. -/
inductive Executes (st : State) (p : Side) (stmt : Stmt) : State → Prop
  | goesOn : stmt.isSync = false → stmt ≠ .rcZero →
      (stmt = .pollCompletion → ∃ wc ∈ (st.adapter p).cq, wc.success = true) →
      Executes st p stmt (st.perform p stmt)
  | ends (rc : ℤ) : stmt = .rcZero ∧ rc = 0 ∨ stmt = .pollCompletion ∧ rc = 1 →
      Executes st p stmt ((st.leave p rc).setAdapter p (stmt.onAdapter (st.adapter p)))

theorem exec_executes {stmt : Stmt} (h : st.exec p stmt = some st') : Executes st p stmt st' := by
  have hgo : stmt.isSync = false → stmt ≠ .rcZero → stmt ≠ .pollCompletion →
      st.perform p stmt = st' → Executes st p stmt st' := by
    rintro hsync hlast hpoll rfl
    exact .goesOn hsync hlast fun h => absurd h hpoll
  cases stmt with
  | syncConData => cases h
  | syncChar c => cases h
  | pollCompletion =>
      simp only [State.exec] at h
      split at h
      · cases h
      next wc cq hcq =>
        have hmem : wc ∈ (st.adapter p).cq := by simp [hcq]
        have htail : cq = (st.adapter p).cq.tail := by rw [hcq, List.tail_cons]
        subst htail
        split_ifs at h with hok
        · have hnext : st' = st.perform p .pollCompletion := by
            cases h
            simp [State.perform, State.advance, State.setControl, State.setAdapter, Stmt.shows,
              Stmt.onAdapter, Stmt.onBuf]
          rw [hnext]
          exact .goesOn rfl nofun fun _ => ⟨wc, hmem, hok⟩
        · cases h
          exact .ends 1 (.inr ⟨rfl, rfl⟩)
  | rcZero =>
      cases h
      have hself : st.leave p 0 = (st.leave p 0).setAdapter p (st.adapter p) :=
        ((st.leave p 0).setAdapter_self p).symm
      rw [hself]
      exact .ends 0 (.inl ⟨rfl, rfl⟩)
  | queryGid | modifyQp _ | postReceive | postSend _ | print | strcpy _ =>
      apply hgo rfl nofun nofun
      cases h
      simp [State.perform, State.advance, State.setControl, State.setAdapter, State.setBuf,
        Stmt.shows, Stmt.onAdapter, Stmt.onBuf]

/-- Without a statement of its own a program comes to result 0 only by what it
had at `main_exit`. -/
def Control.Ends (ctl ctl' : Control) : Prop :=
  (ctl'.exit = some 0 → ctl.exit = some 0) ∧
    (ctl'.result = some 0 → ctl'.exit = some 0 ∨ (ctl.exit = none ∧ ctl.result = some 0))

/-- A program waits, which it also does in entering a sync and in ending; it
leaves a sync; it executes another statement; or an adapter works. -/
inductive Effect (st : State) : State → Prop
  | wait (p : Side) (ctl : Control) : ctl.pc = (st.control p).pc →
      ctl.printed = (st.control p).printed →
      (ctl.entered = (st.control p).entered ∨ syncAt p (st.control p).pc = true ∧
        (st.control p).entered = meetings (syncAt p) (st.control p).pc ∧
        ctl.entered = (st.control p).entered + 1) →
      (st.control p).Ends ctl → Effect st (st.setControl p ctl)
  | sync (p : Side) (ctl : Control) : syncAt p (st.control p).pc = true →
      st.InSync p → st.PeerEntered p → ctl.pc = (st.control p).pc + 1 →
      ctl.printed = (st.control p).printed → ctl.entered = (st.control p).entered →
      (st.control p).Ends ctl → Effect st (st.setControl p ctl)
  | exec (p : Side) (stmt : Stmt) (st' : State) : stmtAt p (st.control p).pc = some stmt →
      Executes st p stmt st' → Effect st st'
  | adapter (p : Side) (st' : State) : AdapterEffect st p st' → Effect st st'

theorem Control.ends_running {ctl ctl' : Control} (hrunning : ctl.exit = none)
    (hexit : ctl'.exit ≠ some 0) (hresult : ctl'.result = ctl.result) : ctl.Ends ctl' :=
  ⟨fun h => absurd h hexit, fun h => .inr ⟨hrunning, hresult ▸ h⟩⟩

theorem step_effect {e : Event} (h : step data st e = some st') : Effect st st' := by
  cases e with
  | exec p =>
      simp only [step] at h
      split at h
      · cases h
      next stmt hstmt =>
        split_ifs at h
        exact .exec p stmt st' hstmt (exec_executes h)
  | fail p =>
      simp only [step] at h
      split at h
      · cases h
      · split_ifs at h with hguard
        cases h
        exact .wait p _ rfl rfl (.inl rfl) (Control.ends_running hguard.1 nofun rfl)
  | enterSync p =>
      simp only [step] at h
      split_ifs at h with hguard
      cases h
      exact .wait p _ rfl rfl (.inr ⟨hguard.2.1, hguard.2.2, rfl⟩)
        (Control.ends_running hguard.1 (by simp [hguard.1]) rfl)
  | returnConData p rc remote =>
      simp only [step] at h
      split_ifs at h with hguard hrc hpeer
      · cases h
        exact .wait p _ rfl rfl (.inl rfl) (Control.ends_running hguard.1.1 nofun rfl)
      · cases h
        have hsync : syncAt p (st.control p).pc = true := by
          simp [syncAt, hguard.2, Stmt.isSync]
        have hforget : ∀ ctl, (st.advance p).setControl p ctl = st.setControl p ctl := by
          intro ctl
          simp [State.advance, State.setControl]
        have hself : (st.advance p).control p =
            { st.control p with pc := (st.control p).pc + 1 } := by
          simp [State.advance]
        rw [hforget, hself]
        exact .sync p _ hsync hguard.1 hpeer.1 rfl rfl rfl
          (Control.ends_running hguard.1.1 (by simp [hguard.1.1]) rfl)
  | returnChar p rc =>
      simp only [step] at h
      split_ifs at h with hguard hrc hpeer
      · cases h
        exact .wait p _ rfl rfl (.inl rfl) (Control.ends_running hguard.1.1 nofun rfl)
      · cases h
        exact .sync p _ hguard.2.1 hguard.1 hpeer rfl rfl rfl
          (Control.ends_running hguard.1.1 (by simp [hguard.1.1]) rfl)
  | destroy p ok =>
      simp only [step] at h
      split at h
      next rc hexit hresult =>
        cases h
        refine .wait p _ rfl rfl (.inl rfl) ⟨id, fun hzero => .inl ?_⟩
        cases ok with
        | false => cases hzero
        | true => exact hexit.trans hzero
      · cases h
  | adapter p e => exact .adapter p st' (adapterStep_effect h)

def State.places (st : State) : Side → Place := fun p => (st.control p).place

theorem places_setControl (st : State) (p : Side) (ctl : Control) :
    (st.setControl p ctl).places = Function.update st.places p ctl.place := by
  funext q
  by_cases hq : q = p
  · subst hq
    simp [State.places]
  · simp [State.places, hq]

theorem AdapterEffect.control_eq (h : AdapterEffect st p st') : st'.control = st.control := by
  cases h <;> rfl

theorem perform_places (st : State) (p : Side) (stmt : Stmt) :
    (st.perform p stmt).places =
      Function.update st.places p ⟨(st.control p).pc + 1, (st.control p).entered⟩ :=
  places_setControl st p _

theorem leave_places (st : State) (p : Side) (rc : ℤ) : (st.leave p rc).places = st.places :=
  (places_setControl st p _).trans (Function.update_eq_self p st.places)

theorem Effect.places (h : Effect st st') :
    st'.places = st.places ∨ Move syncAt Side.peer st.places st'.places := by
  cases h with
  | wait p ctl hpc _ hentered _ =>
      rw [places_setControl]
      rcases hentered with hsame | ⟨hsync, hbefore, hnext⟩
      · left
        have hplace : ctl.place = st.places p := by
          simp [Control.place, State.places, hpc, hsame]
        rw [hplace, Function.update_eq_self]
      · right
        have hplace : ctl.place = ⟨(st.places p).pc, (st.places p).entered + 1⟩ := by
          simp [Control.place, State.places, hpc, hnext]
        rw [hplace]
        exact .enter p hsync hbefore
  | sync p ctl hsync hin hpeer hpc _ hentered _ =>
      right
      have hplace : ctl.place = ⟨(st.places p).pc + 1, (st.places p).entered⟩ := by
        simp [Control.place, State.places, hpc, hentered]
      rw [places_setControl, hplace]
      exact .leave p hsync hin.2 hpeer
  | exec p stmt st' hstmt h =>
      cases h with
      | goesOn hsync _ _ =>
          right
          have hno : syncAt p (st.places p).pc = false := by
            change syncAt p (st.control p).pc = false
            simp [syncAt, hstmt, hsync]
          rw [perform_places]
          exact .advance p hno
      | ends rc _ => exact .inl (leave_places st p rc)
  | adapter p st' h =>
      left
      unfold State.places
      rw [h.control_eq]

/-- What the meetings say about the two program counters: the server's `s` and
the client's `c`. -/
structure InStep (s c : ℕ) : Prop where
  posted : 6 ≤ s → 6 ≤ c
  polled : 10 ≤ s → 9 ≤ c
  written : 11 ≤ s → 17 ≤ c
  ready : 10 ≤ c → 9 ≤ s

def State.pc (st : State) (p : Side) : ℕ := (st.control p).pc

@[simp] theorem setControl_pc (st : State) (p : Side) (ctl : Control) :
    (st.setControl p ctl).pc = Function.update st.pc p ctl.pc := by
  funext q
  by_cases hq : q = p
  · subst hq
    simp [State.pc]
  · simp [State.pc, hq]

theorem wait_pc {ctl : Control} (h : ctl.pc = (st.control p).pc) :
    (st.setControl p ctl).pc = st.pc := by
  rw [setControl_pc, h]
  exact Function.update_eq_self p st.pc

theorem AdapterEffect.pc_eq (h : AdapterEffect st p st') : st'.pc = st.pc := by
  unfold State.pc
  rw [h.control_eq]

@[simp] theorem control_pc (st : State) (p : Side) : (st.control p).pc = st.pc p := rfl

@[simp] theorem setAdapter_pc (st : State) (p : Side) (a : Adapter) :
    (st.setAdapter p a).pc = st.pc := rfl

@[simp] theorem setBuf_pc (st : State) (p : Side) (m : HostBytes.Memory) :
    (st.setBuf p m).pc = st.pc := rfl

@[simp] theorem perform_pc (st : State) (p : Side) (stmt : Stmt) :
    (st.perform p stmt).pc = Function.update st.pc p (st.pc p + 1) := setControl_pc st p _

@[simp] theorem leave_pc (st : State) (p : Side) (rc : ℤ) : (st.leave p rc).pc = st.pc :=
  (setControl_pc st p _).trans (Function.update_eq_self p st.pc)

theorem inStep (h : Met syncAt Side.peer st.places) : InStep (st.pc .server) (st.pc .client) where
  posted hs := h.peer_at_least (p := .server) hs (by decide)
  polled hs := h.peer_at_least (p := .server) hs (by decide)
  written hs := h.peer_at_least (p := .server) hs (by decide)
  ready hc := h.peer_at_least (p := .client) hc (by decide)

theorem syncAt_eq {pc : ℕ} (h : syncAt p pc = true) :
    ∃ stmt, stmtAt p pc = some stmt ∧ stmt.isSync = true := by
  unfold syncAt at h
  cases hstmt : stmtAt p pc with
  | none => simp [hstmt] at h
  | some stmt => exact ⟨stmt, rfl, by simpa [hstmt] using h⟩

/-- A fold that the syncs leave alone. -/
theorem after_sync {A : Type*} {f : Stmt → A → A} {a : A} {pc : ℕ}
    (hf : ∀ stmt, stmt.isSync = true → ∀ x, f stmt x = x) (h : syncAt p pc = true) :
    after (main p) f a (pc + 1) = after (main p) f a pc := by
  obtain ⟨stmt, hstmt, hsync⟩ := syncAt_eq h
  rw [after_next hstmt, hf stmt hsync]

/-- The state of the queue pair and the number of receives. -/
def Stmt.configure : Stmt → QpState × ℕ → QpState × ℕ
  | .modifyQp state, (_, receives) => (state, receives)
  | .postReceive, (state, receives) => (state, receives + 1)
  | _, x => x

def configured (p : Side) : ℕ → QpState × ℕ := after (main p) Stmt.configure (.reset, 0)

def Adapter.configuration (a : Adapter) : QpState × ℕ := (a.qp, a.postedReceives)

theorem onAdapter_configuration (stmt : Stmt) (a : Adapter) :
    (stmt.onAdapter a).configuration = stmt.configure a.configuration := by
  cases stmt <;> rfl

/-- The work of an adapter that a completion is to come for or has come for. -/
def Adapter.pending (a : Adapter) : List WcOpcode :=
  a.sendQueue.map (fun t => .request t.op) ++ List.replicate (a.recvQueue + a.filled) .recv ++
    a.cq.map Wc.opcode

theorem Adapter.request_mem_pending {a : Adapter} {t : Transfer} (ht : t ∈ a.sendQueue) :
    .request t.op ∈ a.pending := by
  apply List.mem_append_left
  exact List.mem_append_left _ (List.mem_map_of_mem ht)

theorem Adapter.recv_mem_pending {a : Adapter} (h : 0 < a.filled) : .recv ∈ a.pending := by
  apply List.mem_append_left
  exact List.mem_append_right _ (List.mem_replicate.mpr ⟨by omega, rfl⟩)

theorem Adapter.wc_mem_pending {a : Adapter} {wc : Wc} (hwc : wc ∈ a.cq) :
    wc.opcode ∈ a.pending := List.mem_append_right _ (List.mem_map_of_mem hwc)

/-- The completion the program has to poll after a statement. -/
def Stmt.awaited : Stmt → Option WcOpcode → Option WcOpcode
  | .postSend op, _ => some (.request op)
  | .postReceive, _ => some .recv
  | .pollCompletion, _ => none
  | _, w => w

def awaited (p : Side) : ℕ → Option WcOpcode := after (main p) Stmt.awaited none

/-- A program posts only when it waits for nothing. -/
theorem awaited_post {pc : ℕ} {stmt : Stmt} (h : stmtAt p pc = some stmt)
    (hpost : stmt = .postReceive ∨ ∃ op, stmt = .postSend op) : awaited p pc = none := by
  have hpc := pc_lt h
  have hall : ∀ p, ∀ n < (main p).length,
      (stmtAt p n = some .postReceive ∨ stmtAt p n = some (.postSend .send) ∨
        stmtAt p n = some (.postSend .rdmaRead) ∨ stmtAt p n = some (.postSend .rdmaWrite)) →
      awaited p n = none := by
    intro p
    cases p <;> decide
  apply hall p pc hpc
  rcases hpost with rfl | ⟨op, rfl⟩
  · exact .inl h
  · cases op with
    | send => exact .inr (.inl h)
    | rdmaRead => exact .inr (.inr (.inl h))
    | rdmaWrite => exact .inr (.inr (.inr h))

theorem awaited_eq {pc : ℕ} {w : WcOpcode} (h : awaited p pc = some w) :
    (p = .server ∧ pc = 7 ∧ w = .request .send) ∨
      (p = .client ∧ 4 ≤ pc ∧ pc ≤ 7 ∧ w = .recv) ∨
      (p = .client ∧ pc = 11 ∧ w = .request .rdmaRead) ∨
      (p = .client ∧ pc = 16 ∧ w = .request .rdmaWrite) := by
  rw [awaited, after_min, ← awaited] at h
  have hle : min pc (main p).length ≤ (main p).length := Nat.min_le_right _ _
  have hlast : awaited p (main p).length = none := by cases p <;> rfl
  have hmin : min pc (main p).length = pc := by
    by_contra hne
    have hend : min pc (main p).length = (main p).length := by omega
    rw [hend, hlast] at h
    cases h
  rw [hmin] at h hle
  cases p with
  | server =>
      change pc ≤ 13 at hle
      interval_cases pc <;> cases h
      simp
  | client =>
      change pc ≤ 19 at hle
      interval_cases pc <;> cases h <;> simp

/-- Nothing, or the one awaited. -/
def Awaits (l : List WcOpcode) (w : Option WcOpcode) : Prop := l = [] ∨ ∃ x, w = some x ∧ l = [x]

theorem Awaits.perm {l l' : List WcOpcode} {w : Option WcOpcode} (h : Awaits l w)
    (hperm : l'.Perm l) : Awaits l' w := by
  rcases h with rfl | ⟨x, hw, rfl⟩
  · exact .inl hperm.eq_nil
  · exact .inr ⟨x, hw, List.perm_singleton.mp hperm⟩

theorem Awaits.length_le {l : List WcOpcode} {w : Option WcOpcode} (h : Awaits l w) :
    l.length ≤ 1 := by
  rcases h with rfl | ⟨x, _, rfl⟩ <;> simp

theorem Awaits.eq_nil {l : List WcOpcode} (h : Awaits l none) : l = [] := by
  rcases h with rfl | ⟨x, hx, _⟩
  · rfl
  · cases hx

theorem Awaits.mem {l : List WcOpcode} {w : Option WcOpcode} {x : WcOpcode} (h : Awaits l w)
    (hx : x ∈ l) : w = some x := by
  rcases h with rfl | ⟨y, hw, rfl⟩
  · cases hx
  · rw [hw, List.mem_singleton.mp hx]

theorem pending_receive (a : Adapter) {recvQueue filled : ℕ} (success : Bool)
    (h : recvQueue + filled + 1 = a.recvQueue + a.filled) :
    (Adapter.pending { a with
      recvQueue := recvQueue
      filled := filled
      cq := a.cq ++ [⟨.recv, success⟩] }).Perm a.pending := by
  simp only [Adapter.pending, ← h, List.replicate_succ, List.map_append, List.map_cons,
    List.map_nil, List.append_assoc]
  apply List.Perm.append_left
  rw [← List.append_assoc]
  exact List.perm_append_singleton _ _

/-- The same configuration, and the same work in whatever state. -/
structure Adapter.Keeps (a b : Adapter) : Prop where
  configuration : a.configuration = b.configuration
  pending : a.pending.Perm b.pending

theorem setAdapter_keeps {a : Adapter} (h : a.Keeps (st.adapter p)) (q : Side) :
    ((st.setAdapter p a).adapter q).Keeps (st.adapter q) := by
  by_cases hq : q = p
  · subst hq
    simpa using h
  · rw [State.setAdapter_adapter, Function.update_of_ne hq]
    exact ⟨rfl, List.Perm.refl _⟩

theorem setHead_keeps {t u : Transfer} {ts : List Transfer}
    (hqueue : (st.adapter p).sendQueue = t::ts) (hop : u.op = t.op) (q : Side) :
    ((st.setHead p u).adapter q).Keeps (st.adapter q) := by
  apply setAdapter_keeps
  refine ⟨rfl, ?_⟩
  simp [Adapter.pending, hqueue, hop]

/-- Whatever an adapter does, the work stays until it is polled. -/
theorem AdapterEffect.keeps (h : AdapterEffect st p st') (q : Side) :
    (st'.adapter q).Keeps (st.adapter q) := by
  cases h with
  | fetch i t ts hqueue hi =>
      apply setHead_keeps hqueue
      rfl
  | place i b t ts hqueue hi hb =>
      apply setHead_keeps hqueue
      rfl
  | deliver t ts hqueue hop hplaced hrecv =>
      have hpeer : p.peer ≠ p := by cases p <;> nofun
      have hhead : ((st.setHead p { t with delivered := true }).adapter q).Keeps (st.adapter q) := by
        apply setHead_keeps hqueue
        rfl
      have hfilled : (Adapter.Keeps { st.adapter p.peer with
          recvQueue := (st.adapter p.peer).recvQueue - 1
          filled := (st.adapter p.peer).filled + 1 }
          ((st.setHead p { t with delivered := true }).adapter p.peer)) := by
        have hsum : (st.adapter p.peer).recvQueue - 1 + ((st.adapter p.peer).filled + 1) =
            (st.adapter p.peer).recvQueue + (st.adapter p.peer).filled := by omega
        rw [State.setHead, State.setAdapter_adapter, Function.update_of_ne hpeer]
        refine ⟨rfl, ?_⟩
        simp [Adapter.pending, hsum]
      have hlast := setAdapter_keeps hfilled q
      exact ⟨hlast.configuration.trans hhead.configuration, hlast.pending.trans hhead.pending⟩
  | complete t ts success hqueue hplaced =>
      apply setAdapter_keeps
      refine ⟨rfl, ?_⟩
      simp only [Adapter.pending, hqueue, List.tail_cons, List.map_append, List.map_cons,
        List.map_nil, List.cons_append, ← List.append_assoc]
      exact List.perm_append_singleton _ _
  | receive hfilled =>
      apply setAdapter_keeps
      exact ⟨rfl, pending_receive _ true (by omega)⟩
  | receiveError hrecv =>
      apply setAdapter_keeps
      exact ⟨rfl, pending_receive _ false (by omega)⟩

/-- A poll takes all there is. -/
theorem tail_pending {a : Adapter} {w : Option WcOpcode} (h : Awaits a.pending w)
    (hcq : a.cq ≠ []) : Adapter.pending { a with cq := a.cq.tail } = [] := by
  have hlength := h.length_le
  have hpos := List.length_pos_iff.mpr hcq
  apply List.eq_nil_of_length_eq_zero
  simp only [Adapter.pending, List.length_append, List.length_map, List.length_replicate,
    List.length_tail] at hlength ⊢
  omega

/-- A statement changes the work as it changes what is awaited. -/
theorem onAdapter_pending {stmt : Stmt} {a : Adapter} (hstmt : stmtAt p (st.pc p) = some stmt)
    (hpoll : stmt = .pollCompletion → a.cq ≠ []) (h : Awaits a.pending (awaited p (st.pc p))) :
    Awaits (stmt.onAdapter a).pending (stmt.awaited (awaited p (st.pc p))) := by
  cases stmt with
  | postReceive =>
      rw [awaited_post hstmt (.inl rfl)] at h
      have hempty := h.eq_nil
      refine .inr ⟨.recv, rfl, ?_⟩
      simp [Adapter.pending] at hempty
      simp [Adapter.pending, Stmt.onAdapter, hempty]
  | postSend op =>
      rw [awaited_post hstmt (.inr ⟨op, rfl⟩)] at h
      have hempty := h.eq_nil
      refine .inr ⟨.request op, rfl, ?_⟩
      simp [Adapter.pending] at hempty
      simp [Adapter.pending, Stmt.onAdapter, hempty, Transfer.posted]
  | pollCompletion => exact .inl (tail_pending h (hpoll rfl))
  | queryGid | syncConData | syncChar _ | modifyQp _ | print | strcpy _ | rcZero => exact h

/-- A poll that ends the program leaves less of it. -/
theorem poll_pending {a : Adapter} {w : Option WcOpcode} (h : Awaits a.pending w) :
    Awaits (Stmt.pollCompletion.onAdapter a).pending w := by
  by_cases hcq : a.cq = []
  · have hsame : Stmt.pollCompletion.onAdapter a = a := by
      cases a
      simp_all [Stmt.onAdapter]
    rwa [hsame]
  · exact .inl (tail_pending h hcq)

/-- A statement is executed on its own side only. -/
theorem Executes.other {stmt : Stmt} (h : Executes st p stmt st') {q : Side} (hq : q ≠ p) :
    st'.control q = st.control q ∧ st'.adapter q = st.adapter q := by
  cases h with
  | goesOn _ _ _ => simp [State.perform, hq]
  | ends rc _ => simp [State.leave, hq]

/-- What holds between an adapter and the statements so far is kept when the
statements and the adapters keep it. -/
theorem Effect.adapters {A : Type*} {f : Stmt → A → A} {a : A} {R : Adapter → A → Prop}
    (hsync : ∀ stmt, stmt.isSync = true → ∀ x, f stmt x = x)
    (hnext : ∀ p stmt, stmtAt p (st.pc p) = some stmt →
      (stmt = .pollCompletion → (st.adapter p).cq ≠ []) →
      R (st.adapter p) (after (main p) f a (st.pc p)) →
      R (stmt.onAdapter (st.adapter p)) (f stmt (after (main p) f a (st.pc p))))
    (hpoll : ∀ b x, R b x → R (Stmt.pollCompletion.onAdapter b) x)
    (hadapter : ∀ p st' q x, AdapterEffect st p st' → R (st.adapter q) x → R (st'.adapter q) x)
    (hs : ∀ q, R (st.adapter q) (after (main q) f a (st.pc q))) (h : Effect st st') (q : Side) :
    R (st'.adapter q) (after (main q) f a (st'.pc q)) := by
  have hq := hs q
  cases h with
  | wait p ctl hpc _ _ _ => rwa [wait_pc hpc]
  | sync p ctl hat _ _ hpc _ _ _ =>
      rw [setControl_pc, hpc]
      by_cases hqp : q = p
      · subst hqp
        rw [Function.update_self, after_sync hsync hat]
        exact hq
      · rwa [Function.update_of_ne hqp]
  | exec p stmt st' hstmt h =>
      by_cases hqp : q = p
      · subst hqp
        cases h with
        | goesOn _ _ hsuccess =>
            have hcq : stmt = .pollCompletion → (st.adapter q).cq ≠ [] := by
              intro hstmt
              obtain ⟨wc, hwc, _⟩ := hsuccess hstmt
              exact List.ne_nil_of_mem hwc
            have hvalue : after (main q) f a (st.pc q + 1) =
                f stmt (after (main q) f a (st.pc q)) := after_next hstmt
            rw [perform_pc, Function.update_self, hvalue]
            simpa [State.perform] using hnext q stmt hstmt hcq hq
        | ends rc hend =>
            rw [setAdapter_pc, leave_pc, State.setAdapter_adapter, Function.update_self]
            rcases hend with ⟨rfl, _⟩ | ⟨rfl, _⟩
            · exact hq
            · exact hpoll _ _ hq
      · obtain ⟨hcontrol, hother⟩ := h.other hqp
        rwa [State.pc, hcontrol, hother]
  | adapter p st' h =>
      rw [h.pc_eq]
      exact hadapter p st' q _ h hq

/-- The two sides have met where they should, and each adapter stands as the
statements so far have left it. -/
structure Ordered (st : State) : Prop where
  met : Met syncAt Side.peer st.places
  configuration : ∀ p, (st.adapter p).configuration = configured p (st.pc p)
  pending : ∀ p, Awaits (st.adapter p).pending (awaited p (st.pc p))

theorem ordered_start : Ordered .start where
  met := met_start fun _ => rfl
  configuration _ := rfl
  pending _ := .inl rfl

theorem Ordered.effect (hs : Ordered st) (h : Effect st st') : Ordered st' where
  met := by
    rcases h.places with hsame | hmove
    · rw [hsame]
      exact hs.met
    · exact hs.met.move hmove
  configuration := by
    apply h.adapters (f := Stmt.configure) (R := fun a x => a.configuration = x)
    · intro stmt hsync x
      cases stmt <;> first | rfl | cases hsync
    · intro p stmt _ _ hconf
      rw [onAdapter_configuration, hconf]
    · intro b x hconf
      exact hconf
    · intro p st' q x hadapter hconf
      rw [(hadapter.keeps q).configuration, hconf]
    · exact hs.configuration
  pending := by
    apply h.adapters (f := Stmt.awaited) (R := fun a x => Awaits a.pending x)
    · intro stmt hsync x
      cases stmt <;> first | rfl | cases hsync
    · intro p stmt hstmt hcq hawaits
      exact onAdapter_pending hstmt hcq hawaits
    · intro b x hawaits
      exact poll_pending hawaits
    · intro p st' q x hadapter hawaits
      exact hawaits.perm (hadapter.keeps q).pending
    · exact hs.pending

section Ordered
variable (hs : Ordered st)
include hs

theorem Ordered.inStep : InStep (st.pc .server) (st.pc .client) := RdmaDemo.inStep hs.met

theorem Ordered.awaited_of_mem {w : WcOpcode} (hw : w ∈ (st.adapter p).pending) :
    awaited p (st.pc p) = some w := (hs.pending p).mem hw

/-- A queue never holds or owes more than one completion. -/
theorem Ordered.owed_le (p : Side) :
    (st.adapter p).sendQueue.length + (st.adapter p).recvQueue + (st.adapter p).filled +
      (st.adapter p).cq.length ≤ 1 := by
  have hlength := (hs.pending p).length_le
  simp only [Adapter.pending, List.length_append, List.length_map, List.length_replicate]
    at hlength
  omega

/-- The client has posted its receive and can receive when the server posts. -/
theorem Ordered.client_ready (hpost : 6 ≤ st.pc .server) :
    1 ≤ (st.adapter .client).postedReceives ∧ (st.adapter .client).qp = .rts := by
  have hclient := hs.inStep.posted hpost
  have hconf : (st.adapter .client).configuration = (.rts, 1) := by
    rw [hs.configuration, configured, after_min]
    have hend : (main .client).length = 19 := rfl
    generalize st.pc .client = c at hclient ⊢
    rw [hend]
    have hle : min c 19 ≤ 19 := Nat.min_le_right _ _
    have hge : 6 ≤ min c 19 := by omega
    generalize min c 19 = n at hle hge ⊢
    interval_cases n <;> rfl
  obtain ⟨hqp, hreceives⟩ := Prod.mk.inj hconf
  exact ⟨hreceives.ge, hqp⟩

end Ordered

/-- Result 0 comes from the last statement. -/
def Ended (st : State) : Prop := ∀ p,
  ((st.control p).result = some 0 → (st.control p).exit = some 0) ∧
    ((st.control p).exit = some 0 → stmtAt p (st.pc p) = some .rcZero)

theorem Executes.ended {stmt : Stmt} (hs : Ended st) (hstmt : stmtAt p (st.pc p) = some stmt)
    (h : Executes st p stmt st') :
    ((st'.control p).result = some 0 → (st'.control p).exit = some 0) ∧
      ((st'.control p).exit = some 0 → stmtAt p (st'.pc p) = some .rcZero) := by
  have hbefore : stmt ≠ .rcZero →
      (st.control p).exit ≠ some 0 ∧ (st.control p).result ≠ some 0 := by
    intro hne
    have hexit : (st.control p).exit ≠ some 0 := by
      intro hzero
      have hlast := (hs p).2 hzero
      rw [hstmt] at hlast
      exact hne (Option.some.inj hlast)
    exact ⟨hexit, fun hzero => hexit ((hs p).1 hzero)⟩
  cases h with
  | goesOn _ hlast _ =>
      have hno := hbefore hlast
      simp [State.perform, hno]
  | ends rc hend =>
      rcases hend with ⟨rfl, rfl⟩ | ⟨rfl, rfl⟩
      · refine ⟨fun _ => ?_, fun _ => ?_⟩
        · simp [State.leave]
        · rw [setAdapter_pc, leave_pc]
          exact hstmt
      · have hno := hbefore nofun
        simp [State.leave, hno]

theorem Ended.effect (hs : Ended st) (h : Effect st st') : Ended st' := by
  intro q
  cases h with
  | wait p ctl hpc _ _ hends =>
      by_cases hq : q = p
      · subst hq
        simp only [State.setControl_control, setControl_pc, Function.update_self, hpc]
        refine ⟨fun hzero => ?_, fun hzero => (hs q).2 (hends.1 hzero)⟩
        rcases hends.2 hzero with hexit | ⟨hrunning, hresult⟩
        · exact hexit
        · have hexit := (hs q).1 hresult
          rw [hrunning] at hexit
          cases hexit
      · simpa [hq] using hs q
  | sync p ctl _ hin _ hpc _ _ hends =>
      by_cases hq : q = p
      · subst hq
        have hrunning : ∀ {x : Prop}, (st.control q).exit = some 0 → x := by
          intro x hzero
          rw [hin.1] at hzero
          cases hzero
        simp only [State.setControl_control, setControl_pc, Function.update_self]
        refine ⟨fun hzero => ?_, fun hzero => hrunning (hends.1 hzero)⟩
        rcases hends.2 hzero with hexit | ⟨_, hresult⟩
        · exact hexit
        · exact hrunning ((hs q).1 hresult)
      · simpa [hq] using hs q
  | exec p stmt st' hstmt h =>
      by_cases hq : q = p
      · subst hq
        exact h.ended hs hstmt
      · rw [State.pc, (h.other hq).1]
        exact hs q
  | adapter p st' h =>
      rw [h.pc_eq, h.control_eq]
      exact hs q

end CppPlayground.RdmaDemo
