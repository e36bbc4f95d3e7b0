import CppPlayground.Runs
import Mathlib.Data.List.Nodup
import Mathlib.Data.UInt

/-!
# The buffers of the UD handler

`setup_memory` makes one scatter/gather entry for each of ten receives, which
it posts, and ten more that it keeps for sends. Sends take an entry out of the
vector; a completion gives the entry of its work request back to the program.
The adapter's part of the state is the two lists of posted requests. A
completion that `ibv_poll_cq` returns is of one of these, with whatever status
and opcode.
-/
namespace CppPlayground.RdmaHandler
open Runs

/-- `struct ibv_sge`. -/
structure Sge where
  addr : UInt64
  length : UInt32
  lkey : UInt32
  deriving DecidableEq

structure RecvWr where
  wrId : UInt64
  sge : Sge
  deriving DecidableEq

/-- A send request; its address handle is the destination's. -/
structure SendWr (Ah : Type) where
  wrId : UInt64
  sge : Sge
  ah : Ah

/-- `built` keeps the send requests made so far, for the record only. -/
structure Handler (Ah : Type) where
  wid : UInt64
  sgeMap : List (UInt64 × Sge)
  availableSendSge : List Sge
  postedReceives : List RecvWr
  postedSends : List (SendWr Ah)
  built : List (SendWr Ah)

/-- `MSG_SIZE` -/
def msgSize : ℕ := 1500

/-- `MAX_WR` -/
def maxWr : ℕ := 10

variable {Ah : Type}

def bufferSge (size : UInt32) (lkey : UInt32) (memAddr : UInt64) : Sge := ⟨memAddr, size, lkey⟩

/-- `uint32_t msg_size = MSG_SIZE + 40` -/
def bufferSize (msgSize : ℕ) : UInt32 := UInt32.ofNat (msgSize + 40)

/-- The first loop of `setup_memory`; every `ibv_post_recv` succeeds. -/
def setupReceives (size : UInt32) (lkey : UInt32) : ℕ → UInt64 → Handler Ah → UInt64 × Handler Ah
  | 0, memAddr, s => (memAddr, s)
  | n + 1, memAddr, s =>
      let memAddr := memAddr + size.toUInt64
      setupReceives size lkey n memAddr
        { s with
          wid := s.wid + 1
          postedReceives := s.postedReceives ++ [⟨s.wid, bufferSge size lkey memAddr⟩]
          sgeMap := s.sgeMap ++ [(s.wid, bufferSge size lkey memAddr)] }

/-- The second loop. -/
def setupSends (size : UInt32) (lkey : UInt32) : ℕ → UInt64 → Handler Ah → UInt64 × Handler Ah
  | 0, memAddr, s => (memAddr, s)
  | n + 1, memAddr, s =>
      let memAddr := memAddr + size.toUInt64
      setupSends size lkey n memAddr
        { s with availableSendSge := s.availableSendSge ++ [bufferSge size lkey memAddr] }

/-- `setup_memory` for given values of the two macros, with the address of the
buffer that `memalign` gives and the key of its registration. -/
def setupMemory (msgSize maxWr : ℕ) (buf : UInt64) (lkey : UInt32) : Handler Ah :=
  let receives := setupReceives (bufferSize msgSize) lkey maxWr buf ⟨0, [], [], [], [], []⟩
  (setupSends (bufferSize msgSize) lkey maxWr receives.1 receives.2).2

/-- The state after the constructor. -/
def construct (buf : UInt64) (lkey : UInt32) : Handler Ah := setupMemory msgSize maxWr buf lkey

/-- The request is built and dropped: the call that posts it is commented out.
The data is not copied into the buffer. -/
def Handler.createSendRequest (s : Handler Ah) (_data : List UInt8) (_len : ℕ) (ah : Ah) :
    Handler Ah × List String :=
  match s.availableSendSge.getLast? with
  | none => (s, ["there is no SGE available to SR."])
  | some sge =>
      ({ s with
          availableSendSge := s.availableSendSge.dropLast
          wid := s.wid + 1
          built := s.built ++ [⟨s.wid, sge, ah⟩] },
        ["creating send request"])

inductive WcStatus where
  | success
  | error (code : ℕ)
  deriving DecidableEq

inductive WcOpcode where
  | send
  | recv
  | other (code : ℕ)

structure Wc where
  wrId : UInt64
  status : WcStatus
  opcode : WcOpcode
  byteLen : UInt32
  wcFlags : UInt32

def handleRr (wc : Wc) : List String :=
  ("WC: received " ++ toString wc.byteLen)::
    if wc.wcFlags ≠ 0 then ["GRH exists in payload."] else []

def handleSr (wc : Wc) : List String := ["WC: sent " ++ toString wc.byteLen ++ " bytes"]

def handleWc (wc : Wc) : List String :=
  "handling WC."::
    match wc.opcode with
    | .send => handleSr wc
    | .recv => handleRr wc
    | .other _ => ["got wrong WC opcode"]

/-- What `ibv_poll_cq` returns; a completion is of a receive or of a send. -/
inductive PollResult where
  | failed
  | empty
  | completion (ofReceive : Bool) (wc : Wc)

/-- The adapter is done with a posted request. -/
def Handler.complete (s : Handler Ah) (ofReceive : Bool) (wrId : UInt64) : Option (Handler Ah) :=
  if ofReceive then
    if s.postedReceives.any (·.wrId = wrId) then
      some { s with postedReceives := s.postedReceives.eraseP (·.wrId = wrId) }
    else none
  else
    if s.postedSends.any (·.wrId = wrId) then
      some { s with postedSends := s.postedSends.eraseP (·.wrId = wrId) }
    else none

/-- The handlers only print: no request is posted and no entry is put back. -/
def Handler.pollComplition (s : Handler Ah) : PollResult → Option (Handler Ah × List String)
  | .failed => some (s, ["error getting WC."])
  | .empty => some (s, [])
  | .completion ofReceive wc => (s.complete ofReceive wc.wrId).map fun t =>
      (t, if wc.status = .success then handleWc wc else [])

inductive Event (Ah : Type) where
  | createSendRequest (data : List UInt8) (len : ℕ) (ah : Ah)
  | pollComplition (result : PollResult)

def step (s : Handler Ah) : Event Ah → Option (Handler Ah)
  | .createSendRequest data len ah => some (s.createSendRequest data len ah).1
  | .pollComplition result => (s.pollComplition result).map Prod.fst

/-- The entries that `setup_memory` makes, in order. -/
def entries (buf : UInt64) (lkey : UInt32) : List Sge :=
  (construct buf lkey : Handler Unit).postedReceives.map RecvWr.sge ++
    (construct buf lkey : Handler Unit).availableSendSge

/-- Every entry is in exactly one place, ten entries serve sends and ten receives are posted. -/
structure Conserved (made : List Sge) (s : Handler Ah) : Prop where
  once : ∀ e ∈ made, (s.availableSendSge ++ s.postedSends.map SendWr.sge ++
    s.postedReceives.map RecvWr.sge).count e = 1
  sends : s.availableSendSge.length + s.postedSends.length = maxWr
  receives : s.postedReceives.length = maxWr

/-- The addresses of so many buffers, the first one past the given address. -/
def addresses (memAddr : UInt64) : ℕ → List UInt64
  | 0 => []
  | n + 1 =>
      (memAddr + (bufferSize msgSize).toUInt64)::
        addresses (memAddr + (bufferSize msgSize).toUInt64) n

theorem addresses_eq_map (memAddr : UInt64) (n : ℕ) :
    addresses memAddr n = (addresses 0 n).map (memAddr + ·) := by
  induction n generalizing memAddr with
  | zero => rfl
  | succ n ih =>
      rw [addresses, addresses, ih, ih (0 + (bufferSize msgSize).toUInt64)]
      simp [UInt64.add_assoc]

theorem entries_eq (buf : UInt64) (lkey : UInt32) :
    entries buf lkey = (addresses buf 20).map (bufferSge (bufferSize msgSize) lkey) := by
  simp [entries, construct, setupMemory, maxWr, setupReceives, setupSends, addresses]

/-- The twenty entries are distinct. -/
theorem entries_nodup (buf : UInt64) (lkey : UInt32) : (entries buf lkey).Nodup := by
  have hoffsets : (addresses 0 20).Nodup := by decide
  rw [entries_eq, addresses_eq_map, List.map_map]
  apply List.Nodup.map _ hoffsets
  intro a b hab
  have haddr : buf + a = buf + b := congrArg Sge.addr hab
  exact (UInt64.add_right_inj buf).mp haddr

def Event.isCreate : Event Ah → Bool
  | .createSendRequest .. => true
  | .pollComplition _ => false

def Event.isCompletion : Event Ah → Bool
  | .pollComplition (.completion ..) => true
  | .pollComplition .failed => false
  | .pollComplition .empty => false
  | .createSendRequest .. => false

/-- Where the entries are after the given calls. -/
structure Account (init : Handler Ah) (es : List (Event Ah)) (s : Handler Ah) : Prop where
  sends : s.availableSendSge ++ (s.built.map SendWr.sge).reverse = init.availableSendSge
  built : s.built.length = min (es.countP Event.isCreate) maxWr
  unposted : s.postedSends = []
  receives : s.postedReceives.length + es.countP Event.isCompletion = maxWr
  untouched : es.countP Event.isCompletion = 0 → s.postedReceives = init.postedReceives

theorem construct_available (buf : UInt64) (lkey : UInt32) :
    (construct buf lkey : Handler Ah).availableSendSge.length = maxWr := by
  simp [construct, setupMemory, maxWr, setupReceives, setupSends]

theorem account_start (buf : UInt64) (lkey : UInt32) :
    Account (construct buf lkey) [] (construct buf lkey : Handler Ah) := by
  constructor <;> simp [construct, setupMemory, maxWr, setupReceives, setupSends]

theorem availableSendSge_length {init s : Handler Ah} {es : List (Event Ah)}
    (hinit : init.availableSendSge.length = maxWr) (h : Account init es s) :
    s.availableSendSge.length + s.built.length = maxWr := by
  have hlen := congrArg List.length h.sends
  simpa [hinit] using hlen

theorem countP_snoc (p : Event Ah → Bool) (es : List (Event Ah)) (e : Event Ah) :
    (es ++ [e]).countP p = es.countP p + (p e).toNat := by
  cases h : p e <;> simp [List.countP_append, h]

theorem account_create {init s : Handler Ah} {es : List (Event Ah)}
    (hinit : init.availableSendSge.length = maxWr) (h : Account init es s) (data : List UInt8)
    (len : ℕ) (ah : Ah) : Account init (es ++ [.createSendRequest data len ah])
      (s.createSendRequest data len ah).1 := by
  have hlen := availableSendSge_length hinit h
  have hcreate := countP_snoc Event.isCreate es (.createSendRequest data len ah)
  have hcompletion := countP_snoc Event.isCompletion es (.createSendRequest data len ah)
  simp only [Event.isCreate, Bool.toNat_true] at hcreate
  simp only [Event.isCompletion, Bool.toNat_false, Nat.add_zero] at hcompletion
  have hbuilt := h.built
  unfold Handler.createSendRequest
  split
  next hlast =>
    have hempty : s.availableSendSge = [] := List.getLast?_eq_none_iff.mp hlast
    rw [hempty, List.length_nil] at hlen
    refine ⟨h.sends, ?_, h.unposted, hcompletion ▸ h.receives, hcompletion ▸ h.untouched⟩
    change s.built.length = _
    rw [hcreate]
    omega
  next sge hlast =>
    have hsplit : s.availableSendSge.dropLast ++ [sge] = s.availableSendSge :=
      List.dropLast_append_getLast? sge hlast
    have hpos : 0 < s.availableSendSge.length := by
      rw [← hsplit]
      simp
    refine ⟨?_, ?_, h.unposted, hcompletion ▸ h.receives, hcompletion ▸ h.untouched⟩
    · simp only [List.map_append, List.map_cons, List.map_nil, List.reverse_append,
        List.reverse_cons, List.reverse_nil, List.nil_append, ← List.append_assoc, hsplit]
      exact h.sends
    · simp only [List.length_append, List.length_singleton]
      omega

theorem account_poll {init s t : Handler Ah} {es : List (Event Ah)} {result : PollResult}
    {out : List String} (h : Account init es s) (hpoll : s.pollComplition result = some (t, out)) :
    Account init (es ++ [.pollComplition result]) t := by
  have hcreate := countP_snoc Event.isCreate es (.pollComplition result)
  have hcompletion := countP_snoc Event.isCompletion es (.pollComplition result)
  simp only [Event.isCreate, Bool.toNat_false, Nat.add_zero] at hcreate
  cases result with
  | failed =>
      cases hpoll
      simp only [Event.isCompletion, Bool.toNat_false, Nat.add_zero] at hcompletion
      exact ⟨h.sends, hcreate ▸ h.built, h.unposted, hcompletion ▸ h.receives,
        hcompletion ▸ h.untouched⟩
  | empty =>
      cases hpoll
      simp only [Event.isCompletion, Bool.toNat_false, Nat.add_zero] at hcompletion
      exact ⟨h.sends, hcreate ▸ h.built, h.unposted, hcompletion ▸ h.receives,
        hcompletion ▸ h.untouched⟩
  | completion ofReceive wc =>
      simp only [Event.isCompletion, Bool.toNat_true] at hcompletion
      simp only [Handler.pollComplition, Option.map_eq_some_iff, Prod.mk.injEq] at hpoll
      obtain ⟨u, hu, rfl, _⟩ := hpoll
      cases ofReceive with
      | false =>
          -- no send is ever posted, so none completes
          simp [Handler.complete, h.unposted] at hu
      | true =>
          simp only [Handler.complete, if_true] at hu
          split_ifs at hu with hany
          obtain ⟨r, hr, hid⟩ := List.any_eq_true.mp hany
          have hlen := List.length_eraseP_of_mem (p := (·.wrId = wc.wrId)) hr hid
          have hpos := List.length_pos_of_mem hr
          have hreceives := h.receives
          cases hu
          refine ⟨h.sends, hcreate ▸ h.built, h.unposted, ?_, fun h0 => by omega⟩
          rw [hcompletion, hlen]
          omega

theorem account_step {init s t : Handler Ah} {es : List (Event Ah)} {e : Event Ah}
    (hinit : init.availableSendSge.length = maxWr) (h : Account init es s)
    (hstep : step s e = some t) : Account init (es ++ [e]) t := by
  cases e with
  | createSendRequest data len ah =>
      simp only [step, Option.some.injEq] at hstep
      exact hstep ▸ account_create hinit h data len ah
  | pollComplition result =>
      simp only [step, Option.map_eq_some_iff, Prod.exists, exists_and_right, exists_eq_right]
        at hstep
      obtain ⟨out, hout⟩ := hstep
      exact account_poll h hout

/-- The entries are conserved in exactly the runs in which nothing was sent
and no completion was polled. -/
theorem buffers_conserved_iff {buf : UInt64} {lkey : UInt32} {es : List (Event Ah)}
    {s : Handler Ah} (h : run step (construct buf lkey) es = some s) :
    Conserved (entries buf lkey) s ↔
      ∀ e ∈ es, Event.isCreate e = false ∧ Event.isCompletion e = false := by
  have haccount : Account (construct buf lkey) es s :=
    history_invariant (account_start buf lkey)
      (fun _ hI hstep => account_step (construct_available buf lkey) hI hstep) h
  have hlen := availableSendSge_length (construct_available buf lkey) haccount
  have hbuilt := haccount.built
  have hreceives := haccount.receives
  constructor
  · intro hconserved
    have hsends := hconserved.sends
    have hposted := hconserved.receives
    rw [haccount.unposted, List.length_nil] at hsends
    have hcreate : es.countP Event.isCreate = 0 := by
      simp only [maxWr] at *
      omega
    have hcompletion : es.countP Event.isCompletion = 0 := by omega
    intro e he
    exact ⟨by simpa using List.countP_eq_zero.mp hcreate e he,
      by simpa using List.countP_eq_zero.mp hcompletion e he⟩
  · intro hquiet
    have hcreate : es.countP Event.isCreate = 0 :=
      List.countP_eq_zero.mpr fun e he => by simp [(hquiet e he).1]
    have hcompletion : es.countP Event.isCompletion = 0 :=
      List.countP_eq_zero.mpr fun e he => by simp [(hquiet e he).2]
    rw [hcreate, Nat.zero_min] at hbuilt
    have hnone : s.built = [] := List.eq_nil_of_length_eq_zero hbuilt
    have havailable : s.availableSendSge = (construct buf lkey : Handler Ah).availableSendSge := by
      have hsends := haccount.sends
      simpa [hnone] using hsends
    have hposted := haccount.untouched hcompletion
    refine ⟨fun e he => ?_, ?_, by omega⟩
    · rw [haccount.unposted, List.map_nil, List.append_nil, havailable, hposted, List.count_append,
        Nat.add_comm, ← List.count_append]
      exact List.count_eq_one_of_mem (entries_nodup buf lkey) he
    · rw [haccount.unposted, List.length_nil]
      omega

/-- A poll that finds nothing changes nothing. -/
theorem run_idle (s : Handler Ah) : run step s [.pollComplition .empty] = some s := rfl

theorem buffers_conserved_idle :
    Conserved (entries 4096 7) (construct 4096 7 : Handler Unit) :=
  (buffers_conserved_iff (run_idle _)).mpr fun e he => by
    rw [List.mem_singleton.mp he]
    decide

/-- One send and one received message: an entry of each kind is gone. -/
theorem buffers_lost :
    ∃ s, run step (construct 4096 7 : Handler Unit)
        [.createSendRequest [] 32 (), .pollComplition (.completion true ⟨0, .success, .recv, 12, 1⟩)] =
          some s ∧
      s.availableSendSge.length + s.postedSends.length = 9 ∧ s.postedReceives.length = 9 ∧
      ¬ Conserved (entries 4096 7) s := by
  refine ⟨_, rfl, rfl, rfl, ?_⟩
  intro h
  have hreceives := h.receives
  revert hreceives
  decide

end CppPlayground.RdmaHandler
