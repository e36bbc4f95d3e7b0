import CppPlayground.Rot13Server

/-!
# What a new connection inherits

`alloc_fd_state` sets up the two events and nothing else: the indices and the
buffer of a new connection are what the memory held before. Two connections
that see the same network are compared by what they give to `send`.

They agree when the memories agree on the indices and on the bytes between
them. The memory shows through in every exchange in which `do_write` runs at
all.
-/
namespace CppPlayground.Rot13Server
open GatedQueue Runs

/-- What the memory of the new `fd_state` held before, and what lies past the
array. -/
structure PriorMemory where
  buffer : ℕ → UInt8
  bufferUsed : UInt64
  nWritten : UInt64
  writeUpto : UInt64

/-- `event_new` leaves the write event unadded; nothing else is written. -/
def allocFdState (m : PriorMemory) : FdState :=
  ⟨m.buffer, m.bufferUsed.toNat, m.nWritten.toNat, m.writeUpto.toNat, false⟩

/-- A call of a handler with the results of its calls. -/
inductive Handler where
  | read (chunks : List Chunk) (finish : RecvEnd)
  | write (outcomes : List SendOutcome)

/-- What `send` is given, call by call. The loop runs `do_write` only while the
write event is pending, and no handler of a freed connection. -/
def serve : Option FdState → List Handler → List (List UInt8)
  | none, _ => []
  | some _, [] => []
  | some s, .read chunks finish::script => serve (doRead s chunks finish) script
  | some s, .write outcomes::script =>
      if s.writePending then (doWrite s outcomes).2 ++ serve (doWrite s outcomes).1 script
      else serve (some s) script

/-- Whether `do_write` is ever run: a newline was received, and the connection
is still there when the socket becomes writable. -/
def runsWrite : Bool → List Handler → Bool
  | _, [] => false
  | pending, .read chunks finish::script =>
      decide (finish = .again) && runsWrite (pending || decide (newline ∈ received chunks)) script
  | pending, .write _::script => pending || runsWrite pending script

theorem store_writePending (s : FdState) (c : UInt8) :
    (s.store c).writePending = (s.writePending || decide (c = newline)) := by
  by_cases hc : c = newline
  · rw [store_of_newline hc]
    simp [FdState.closeLine, hc]
  · simp [store_of_ne hc, hc]

theorem foldl_store_writePending (s : FdState) (bytes : List UInt8) :
    (bytes.foldl FdState.store s).writePending =
      (s.writePending || decide (newline ∈ bytes)) := by
  induction bytes generalizing s with
  | nil => simp
  | cons c rest ih =>
      rw [List.foldl_cons, ih, store_writePending, Bool.or_assoc]
      by_cases hc : c = newline
      · simp [hc]
      · simp [hc, Ne.symm hc]

/-- `do_read` keeps what each byte keeps. -/
theorem foldl_store_keeps {P : FdState → Prop} (h : ∀ s c, P s → P (s.store c)) {s : FdState}
    (hs : P s) (bytes : List UInt8) : P (bytes.foldl FdState.store s) := by
  induction bytes generalizing s with
  | nil => exact hs
  | cons c rest ih => exact ih (h s c hs)

/-- One byte that never was received waits at index 0. -/
structure Inherits (b : UInt8) (s : FdState) : Prop where
  first : s.buffer 0 = b
  unsent : s.nWritten = 0
  used : 0 < s.bufferUsed
  upto : s.writePending = true → 0 < s.writeUpto

theorem keep_used_pos {s : FdState} (h : 0 < s.bufferUsed) (c : UInt8) :
    0 < (s.keep c).bufferUsed ∧ (s.keep c).buffer 0 = s.buffer 0 := by
  cases hp : s.place with
  | none => exact ⟨by rwa [keep_of_none hp], by rw [keep_of_none hp]⟩
  | some i =>
      rw [keep_of_some hp]
      exact ⟨Nat.succ_pos _, Function.update_of_ne h.ne _ _⟩

theorem Inherits.store {b : UInt8} {s : FdState} (h : Inherits b s) (c : UInt8) :
    Inherits b (s.store c) := by
  obtain ⟨hused, hfirst⟩ := keep_used_pos h.used c
  by_cases hc : c = newline
  · rw [store_of_newline hc]
    exact ⟨hfirst.trans h.first, (keep_nWritten c).trans h.unsent, hused, fun _ => hused⟩
  · rw [store_of_ne hc]
    refine ⟨hfirst.trans h.first, (keep_nWritten c).trans h.unsent, hused, fun hp => ?_⟩
    rw [keep_writeUpto]
    exact h.upto (by rwa [keep_writePending] at hp)

theorem Inherits.request {b : UInt8} {s : FdState} (h : Inherits b s)
    (hp : s.writePending = true) : ∃ rest, s.request = b::rest := by
  have hlt : s.nWritten < s.writeUpto := by rw [h.unsent]; exact h.upto hp
  refine ⟨window s.buffer (s.nWritten + 1) s.writeUpto, ?_⟩
  rw [FdState.request, window_cons hlt, h.unsent, h.first]

/-- The first call of `do_write` gives the next request to `send`. -/
theorem doWrite_request {s : FdState} (h : s.nWritten < s.writeUpto)
    (outcomes : List SendOutcome) : ∃ more, (doWrite s outcomes).2 = s.request::more := by
  cases outcomes with
  | nil => exact ⟨[], by rw [doWrite_nil h]⟩
  | cons outcome rest =>
      rw [doWrite_cons h]
      cases outcome <;> exact ⟨_, rfl⟩

/-- Once `do_write` runs, the first byte sent is the inherited one. -/
theorem Inherits.serve {b : UInt8} {s : FdState} (h : Inherits b s) (script : List Handler)
    (hw : runsWrite s.writePending script = true) :
    ∃ rest more, Rot13Server.serve (some s) script = (b::rest)::more := by
  induction script generalizing s with
  | nil => simp [runsWrite] at hw
  | cons handler script ih =>
      cases handler with
      | read chunks finish =>
          simp only [runsWrite, Bool.and_eq_true, decide_eq_true_eq] at hw
          obtain ⟨rfl, hw⟩ := hw
          rw [← foldl_store_writePending] at hw
          exact ih (foldl_store_keeps (fun _ c hs => hs.store c) h _) hw
      | write outcomes =>
          by_cases hp : s.writePending = true
          · obtain ⟨rest, hrest⟩ := h.request hp
            obtain ⟨more, hmore⟩ := doWrite_request (by rw [h.unsent]; exact h.upto hp) outcomes
            exact ⟨rest, _, by rw [Rot13Server.serve, if_pos hp, hmore, hrest]; rfl⟩
          · rw [runsWrite, Bool.eq_false_of_not_eq_true hp, Bool.false_or,
              ← Bool.eq_false_of_not_eq_true hp] at hw
            obtain ⟨rest, more, hserve⟩ := ih h hw
            exact ⟨rest, more, by rw [Rot13Server.serve, if_neg hp, hserve]⟩

/-- Memory in which one byte seems to wait for its line to end. -/
def oneByteLeft (b : UInt8) : PriorMemory := ⟨fun i => if i = 0 then b else 0, 1, 0, 0⟩

theorem Inherits.alloc (b : UInt8) : Inherits b (allocFdState (oneByteLeft b)) where
  first := rfl
  unsent := rfl
  used := Nat.one_pos
  upto h := by simp [allocFdState] at h

/-- Without `do_write` nothing is sent. -/
theorem serve_of_not_runsWrite {s : FdState} {script : List Handler}
    (hw : runsWrite s.writePending script = false) : serve (some s) script = [] := by
  induction script generalizing s with
  | nil => rfl
  | cons handler script ih =>
      cases handler with
      | read chunks finish =>
          by_cases hf : finish = .again
          · simp only [runsWrite, hf, decide_true, Bool.true_and] at hw
            rw [← foldl_store_writePending] at hw
            rw [serve, doRead, if_pos hf]
            exact ih hw
          · rw [serve, doRead, if_neg hf]
            cases script <;> rfl
      | write outcomes =>
          simp only [runsWrite, Bool.or_eq_false_iff] at hw
          rw [serve, if_neg (by simp [hw.1])]
          exact ih hw.2

/-- The same memory past the array. -/
def SameBeyond (m₁ m₂ : PriorMemory) : Prop := ∀ i, maxLine ≤ i → m₁.buffer i = m₂.buffer i

/-- What a connection sends is a function of what it sees exactly where it
sends nothing. -/
theorem isolated_iff (script : List Handler) :
    (∀ m₁ m₂, SameBeyond m₁ m₂ →
      serve (some (allocFdState m₁)) script = serve (some (allocFdState m₂)) script) ↔
      runsWrite false script = false := by
  constructor
  · intro h
    by_contra hw
    rw [Bool.not_eq_false] at hw
    obtain ⟨rest₁, more₁, h₁⟩ := (Inherits.alloc 0).serve script hw
    obtain ⟨rest₂, more₂, h₂⟩ := (Inherits.alloc 1).serve script hw
    have hbeyond : SameBeyond (oneByteLeft 0) (oneByteLeft 1) := by
      intro i hi
      have hne : i ≠ 0 := (Nat.lt_of_lt_of_le (by decide : 0 < maxLine) hi).ne'
      simp [oneByteLeft, hne]
    have heq := h _ _ hbeyond
    rw [h₁, h₂] at heq
    simp at heq
  · intro hw m₁ m₂ _
    rw [serve_of_not_runsWrite hw, serve_of_not_runsWrite hw]

/-- A line is received and the socket is not ready: already the first `send`
was given a byte from the memory's past. -/
theorem not_isolated :
    SameBeyond (oneByteLeft 0) (oneByteLeft 1) ∧
      serve (some (allocFdState (oneByteLeft 0)))
          [.read [⟨[newline], by decide, by decide⟩] .again, .write [.again]] ≠
        serve (some (allocFdState (oneByteLeft 1)))
          [.read [⟨[newline], by decide, by decide⟩] .again, .write [.again]] := by
  constructor
  · intro i hi
    have hne : i ≠ 0 := (Nat.lt_of_lt_of_le (by decide : 0 < maxLine) hi).ne'
    simp [oneByteLeft, hne]
  · decide

/-- The same indices, and the same bytes wherever they may still be sent. -/
structure Agree (s₁ s₂ : FdState) : Prop where
  used : s₁.bufferUsed = s₂.bufferUsed
  written : s₁.nWritten = s₂.nWritten
  upto : s₁.writeUpto = s₂.writeUpto
  pending : s₁.writePending = s₂.writePending
  bytes : ∀ i, s₁.nWritten ≤ i → i < s₁.bufferUsed ∨ i < s₁.writeUpto →
    s₁.buffer i = s₂.buffer i

theorem Agree.keep {s₁ s₂ : FdState} (h : Agree s₁ s₂) (c : UInt8) :
    Agree (s₁.keep c) (s₂.keep c) := by
  by_cases hp : s₁.place = none
  · have hp₂ : s₂.place = none := by rwa [place_eq_none, ← h.used, ← place_eq_none]
    rwa [keep_of_none hp, keep_of_none hp₂]
  · obtain ⟨i, hi⟩ := Option.ne_none_iff_exists'.mp hp
    have hi₂ : s₂.place = some i := by rwa [place_eq_some, ← h.used, ← place_eq_some]
    rw [keep_of_some hi, keep_of_some hi₂]
    refine ⟨congrArg (· + 1) h.used, h.written, h.upto, h.pending, ?_⟩
    intro j hn hj
    by_cases hju : j = s₁.bufferUsed
    · simp [hju, h.used]
    · have hlt : j < s₁.bufferUsed ∨ j < s₁.writeUpto := by
        simp only at hj
        omega
      simp only [Function.update_of_ne hju, Function.update_of_ne (h.used ▸ hju)]
      exact h.bytes j hn hlt

theorem Agree.store {s₁ s₂ : FdState} (h : Agree s₁ s₂) (c : UInt8) :
    Agree (s₁.store c) (s₂.store c) := by
  have hk := h.keep c
  by_cases hc : c = newline
  · rw [store_of_newline hc, store_of_newline hc]
    refine ⟨hk.used, hk.written, hk.used, rfl, fun i hn hi => hk.bytes i hn (.inl ?_)⟩
    exact hi.elim id id
  · rwa [store_of_ne hc, store_of_ne hc]

theorem Agree.received {s₁ s₂ : FdState} (h : Agree s₁ s₂) (bytes : List UInt8) :
    Agree (bytes.foldl FdState.store s₁) (bytes.foldl FdState.store s₂) := by
  induction bytes generalizing s₁ s₂ with
  | nil => exact h
  | cons c rest ih => exact ih (h.store c)

theorem Agree.wrote {s₁ s₂ : FdState} (h : Agree s₁ s₂) (k : ℕ) :
    Agree (s₁.wrote k) (s₂.wrote k) :=
  ⟨h.used, congrArg (· + k) h.written, h.upto, h.pending,
    fun i hn hi => h.bytes i (Nat.le_of_add_right_le hn) hi⟩

theorem Agree.request {s₁ s₂ : FdState} (h : Agree s₁ s₂) : s₁.request = s₂.request := by
  rw [FdState.request, FdState.request, ← h.written, ← h.upto]
  exact window_congr fun i hn hi => h.bytes i hn (.inr hi)

theorem Agree.drained {s₁ s₂ : FdState} (h : Agree s₁ s₂) : Agree s₁.drained s₂.drained := by
  by_cases he : s₁.nWritten = s₁.bufferUsed
  · have he₂ : s₂.nWritten = s₂.bufferUsed := by rw [← h.written, ← h.used, he]
    simp only [FdState.drained, FdState.rewind, he, he₂, if_true]
    exact ⟨rfl, rfl, rfl, rfl, fun i hn hi => by simp only at hn hi; omega⟩
  · have he₂ : s₂.nWritten ≠ s₂.bufferUsed := by rwa [← h.written, ← h.used]
    simp only [FdState.drained, FdState.rewind, he, he₂, if_false]
    exact ⟨h.used, h.written, h.upto, rfl, h.bytes⟩

def AgreeReturned (r₁ r₂ : Option FdState × List (List UInt8)) : Prop :=
  Option.Rel Agree r₁.1 r₂.1 ∧ r₁.2 = r₂.2

theorem Agree.doWrite {s₁ s₂ : FdState} (h : Agree s₁ s₂) (outcomes : List SendOutcome) :
    AgreeReturned (doWrite s₁ outcomes) (doWrite s₂ outcomes) := by
  induction outcomes generalizing s₁ s₂ with
  | nil =>
      by_cases hn : s₁.nWritten < s₁.writeUpto
      · rw [doWrite_nil hn, doWrite_nil (h.written ▸ h.upto ▸ hn), h.request]
        exact ⟨.some h, rfl⟩
      · rw [doWrite_done hn, doWrite_done (h.written ▸ h.upto ▸ hn)]
        exact ⟨.some h.drained, rfl⟩
  | cons outcome rest ih =>
      by_cases hn : s₁.nWritten < s₁.writeUpto
      · rw [doWrite_cons hn, doWrite_cons (h.written ▸ h.upto ▸ hn), h.request]
        cases outcome with
        | room k =>
            obtain ⟨hstate, hsent⟩ := ih (h.wrote (min k (s₁.writeUpto - s₁.nWritten)))
            rw [← h.written, ← h.upto]
            exact ⟨hstate, congrArg (s₂.request::·) hsent⟩
        | again => exact ⟨.some h, rfl⟩
        | error => exact ⟨.none, rfl⟩
      · rw [doWrite_done hn, doWrite_done (h.written ▸ h.upto ▸ hn)]
        exact ⟨.some h.drained, rfl⟩

/-- Only the indices a connection starts with, and the bytes between them, can
show in what it sends. -/
theorem Agree.serve {o₁ o₂ : Option FdState} (h : Option.Rel Agree o₁ o₂)
    (script : List Handler) : Rot13Server.serve o₁ script = Rot13Server.serve o₂ script := by
  induction script generalizing o₁ o₂ with
  | nil => cases h <;> rfl
  | cons handler script ih =>
      cases h with
      | none => rfl
      | @some s₁ s₂ h =>
          cases handler with
          | read chunks finish =>
              by_cases hf : finish = .again
              · rw [Rot13Server.serve, Rot13Server.serve, doRead, doRead, if_pos hf, if_pos hf]
                exact ih (.some (h.received _))
              · rw [Rot13Server.serve, Rot13Server.serve, doRead, doRead, if_neg hf, if_neg hf]
          | write outcomes =>
              by_cases hp : s₁.writePending = true
              · obtain ⟨hstate, hsent⟩ := h.doWrite outcomes
                rw [Rot13Server.serve, Rot13Server.serve, if_pos hp, if_pos (h.pending ▸ hp),
                  hsent, ih hstate]
              · rw [Rot13Server.serve, Rot13Server.serve, if_neg hp, if_neg (h.pending ▸ hp)]
                exact ih (.some h)

/-- With the three indices set to 0 the memory would not show. -/
theorem isolated_of_indices_zero {m₁ m₂ : PriorMemory}
    (h₁ : m₁.bufferUsed = 0 ∧ m₁.nWritten = 0 ∧ m₁.writeUpto = 0)
    (h₂ : m₂.bufferUsed = 0 ∧ m₂.nWritten = 0 ∧ m₂.writeUpto = 0) (script : List Handler) :
    serve (some (allocFdState m₁)) script = serve (some (allocFdState m₂)) script := by
  apply Agree.serve
  refine .some ⟨?_, ?_, ?_, rfl, ?_⟩
  · simp [allocFdState, h₁, h₂]
  · simp [allocFdState, h₁, h₂]
  · simp [allocFdState, h₁, h₂]
  · intro i _ hi
    simp [allocFdState, h₁] at hi

/-- What `serve` gives to `send` from an idle connection is what some run of the
machine gives to it. -/
theorem run_serve {conn : Conn} (h : conn.control = .idle) (script : List Handler) :
    ∃ es conn', run step conn es = some conn' ∧
      conn'.handed = conn.handed ++ serve (some conn.state) script := by
  induction script generalizing conn with
  | nil => exact ⟨[], conn, rfl, by simp [serve]⟩
  | cons handler script ih =>
      cases handler with
      | read chunks finish =>
          have hread := run_doRead h chunks finish
          have hstate := foldl_arrive_state conn (received chunks)
          have hsends := congrArg (List.map SendCall.data)
            (foldl_arrive_sends conn (received chunks))
          by_cases hf : finish = .again
          · subst hf
            have hidle : (((received chunks).foldl Conn.arrive conn).turn .idle).control = .idle :=
              rfl
            obtain ⟨es, conn', hrun, hdata⟩ := ih hidle
            refine ⟨_, conn', run_append_some hread hrun, ?_⟩
            rw [hdata, serve, doRead, if_pos rfl, ← hstate]
            exact congrArg (· ++ _) hsends
          · refine ⟨_, _, hread, ?_⟩
            rw [serve, doRead, if_neg hf]
            cases script <;> exact hsends.trans (List.append_nil _).symm
      | write outcomes =>
          by_cases hp : conn.state.writePending = true
          · obtain ⟨es, mid, hrun, hret, hdata⟩ := run_doWrite h outcomes
            rw [serve, if_pos hp]
            cases hr : (doWrite conn.state outcomes).1 with
            | none =>
                refine ⟨es, mid, hrun, ?_⟩
                rw [hdata]
                cases script <;> simp [serve]
            | some s =>
                rw [hr] at hret
                obtain ⟨hidle, rfl⟩ := hret
                obtain ⟨es', conn', hrun', hdata'⟩ := ih hidle
                exact ⟨_, conn', run_append_some hrun hrun', by rw [hdata', hdata, List.append_assoc]⟩
          · obtain ⟨es, conn', hrun, hdata⟩ := ih h
            exact ⟨es, conn', hrun, by rw [hdata, serve, if_neg hp]⟩

end CppPlayground.Rot13Server
