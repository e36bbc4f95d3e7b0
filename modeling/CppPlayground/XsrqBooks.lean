import CppPlayground.Xsrq

/-!
# What an xsrq_pingpong process keeps by itself

Whatever its peers do, a process that sends at most `num_tests` messages to each
index has a slot for each send, asks for one completion an index, and has a
receive posted or a completion queued for each client; in event mode it never
waits for an event that has been and gone.
-/
namespace CppPlayground.Xsrq
open RoundRobin (carried turn)
open ScanText (cString)

variable {m : ℕ} {S : Settings m} {x x' : Process m}

/-- How many of its send completions a process has collected. -/
def Phase.flushed (m : ℕ) : Phase → ℕ
  | .opening _ | .test | .waiting | .notify | .poll => 0
  | .flush k => k
  | _ => m

/-- The requests of a queue pair that ask for a completion and have none yet. -/
def asking (wire unacked : List Request) : ℕ :=
  wire.countP Request.signaled + unacked.countP Request.signaled

/-- The indices whose last send has been posted. -/
def finished (T : ℕ) (ppCnt : Fin m → ℕ) : ℕ := ∑ i, if T ≤ ppCnt i then 1 else 0

/-- The queues of a process against what it has posted. -/
structure Books (S : Settings m) (x : Process m) : Prop where
  uses : ∀ i, x.ppCnt i ≤ S.numTests
  slots : ∀ j, x.slots j ≤ carried x.ppCnt j
  asked : ∑ j, asking (x.wire j) (x.unacked j) + x.sendCq.length + x.phase.flushed m =
    finished S.numTests x.ppCnt
  posted : x.recvQueue + x.recvCq.length = m
  room : x.overrun = false
  ready : x.notReady = false

theorem finished_le (T : ℕ) (ppCnt : Fin m → ℕ) : finished T ppCnt ≤ m := by
  have hle := Tally.sum_le_card (f := fun i => if T ≤ ppCnt i then 1 else 0) fun i => by
    split <;> omega
  rwa [Fintype.card_fin] at hle

theorem Books.uses_succ (h : Books S x) {i : Fin m} (hi : x.ppCnt i < S.numTests) (j : Fin m) :
    Function.update x.ppCnt i (x.ppCnt i + 1) j ≤ S.numTests := by
  by_cases hj : j = i
  · subst hj
    rwa [Function.update_self]
  · rw [Function.update_of_ne hj]
    exact h.uses j

/-- There is a slot for every send. -/
theorem ppPostSend_eq (h : Books S x) {i : Fin m} (hi : x.ppCnt i < S.numTests) :
    ppPostSend S x i = { x with
      ppCnt := Function.update x.ppCnt i (x.ppCnt i + 1)
      slots := Function.update x.slots (turn i (x.ppCnt i)) (x.slots (turn i (x.ppCnt i)) + 1)
      wire := Function.update x.wire (turn i (x.ppCnt i)) (x.wire (turn i (x.ppCnt i)) ++
        [⟨i, S.srqn i, S.numTests ≤ x.ppCnt i + 1⟩]) } := by
  have hload := RoundRobin.carried_le (h.uses_succ hi) (turn i (x.ppCnt i))
  rw [RoundRobin.carried_update, if_pos rfl] at hload
  have hslots := h.slots (turn i (x.ppCnt i))
  have hmul : S.numTests ≤ m * S.numTests := Nat.le_mul_of_pos_left _ i.pos
  have hroom : x.slots (turn i (x.ppCnt i)) < m * S.numTests := by omega
  simp only [ppPostSend, if_pos hroom, Function.update_self]

theorem Books.post (h : Books S x) {i : Fin m} (hi : x.ppCnt i < S.numTests) :
    Books S (ppPostSend S x i) := by
  rw [ppPostSend_eq h hi]
  refine ⟨h.uses_succ hi, fun j => ?_, ?_, h.posted, h.room, h.ready⟩
  · have hslots := h.slots j
    simp only [RoundRobin.carried_update]
    by_cases hj : j = turn i (x.ppCnt i)
    · subst hj
      simp only [Function.update_self, if_true]
      omega
    · simp only [Function.update_of_ne hj, if_neg (Ne.symm hj)]
      omega
  · have hasked := h.asked
    have hwire := Tally.sum_update (fun j w => asking w (x.unacked j)) x.wire
      (turn i (x.ppCnt i)) (x.wire (turn i (x.ppCnt i)) ++
        [⟨i, S.srqn i, S.numTests ≤ x.ppCnt i + 1⟩])
    have hfinished := Tally.sum_update (fun _ k => if S.numTests ≤ k then 1 else 0) x.ppCnt i
      (x.ppCnt i + 1)
    rw [if_neg (by omega)] at hfinished
    simp only [asking, List.countP_append, List.countP_singleton, decide_eq_true_eq] at hwire
    simp only [asking, finished] at hasked ⊢
    omega

theorem receive_eq (h : Books S x) (qpn : ℕ) (hroom : x.recvCq.length < m) :
    receive x qpn = { x with
      recvQueue := x.recvQueue - 1, recvCq := x.recvCq ++ [qpn]
      armed := false, events := x.events + x.armed.toNat } := by
  have hposted := h.posted
  unfold receive
  rw [if_pos (by omega), if_pos hroom]

/-- A receive is consumed with the completion it makes. -/
theorem Books.receive (h : Books S x) (qpn : ℕ) (hroom : x.recvCq.length < m) :
    Books S (receive x qpn) := by
  have hposted := h.posted
  rw [receive_eq h qpn hroom]
  refine ⟨h.uses, h.slots, h.asked, ?_, h.room, h.ready⟩
  simp only [List.length_append, List.length_singleton]
  omega

theorem Books.passOn (h : Books S x) {j : Fin m} {r : Request} {rest : List Request}
    (hwire : x.wire j = r::rest) : Books S (passOn x j r) := by
  refine ⟨h.uses, h.slots, ?_, h.posted, h.room, h.ready⟩
  have hasked := h.asked
  have hmoved : ∀ l, asking ((Xsrq.passOn x j r).wire l) ((Xsrq.passOn x j r).unacked l) =
      asking (x.wire l) (x.unacked l) := by
    intro l
    by_cases hl : l = j
    · subst hl
      simp only [Xsrq.passOn, Function.update_self, hwire, List.tail_cons, asking,
        List.countP_append, List.countP_cons, List.countP_nil]
      omega
    · simp only [Xsrq.passOn, Function.update_of_ne hl]
  simp only [hmoved]
  exact hasked

/-- The completions asked for have room. -/
theorem Books.acknowledge (h : Books S x) {j : Fin m} (hs : acknowledge x j = some x') :
    Books S x' := by
  unfold Xsrq.acknowledge at hs
  cases hunacked : x.unacked j with
  | nil =>
      simp only [hunacked] at hs
      cases hs
  | cons r rest =>
      have hasked := h.asked
      have hchange := Tally.sum_update (fun l u => asking (x.wire l) u) x.unacked j rest
      have hle := finished_le S.numTests x.ppCnt
      simp only [hunacked, asking, List.countP_cons] at hchange hasked
      simp only [hunacked] at hs
      cases hsignaled : r.signaled with
      | false =>
          simp only [hsignaled, if_true, Option.some.injEq] at hs
          subst hs
          refine ⟨h.uses, h.slots, ?_, h.posted, h.room, h.ready⟩
          simp only [hsignaled, Bool.false_eq_true, if_false] at hchange
          simp only [asking]
          omega
      | true =>
          simp only [hsignaled, if_true] at hchange
          have hroom : x.sendCq.length < m := by omega
          simp only [hsignaled, Bool.true_eq_false, if_false, if_pos hroom,
            Option.some.injEq] at hs
          subst hs
          refine ⟨h.uses, h.slots, ?_, h.posted, h.room, h.ready⟩
          simp only [asking, List.length_append, List.length_singleton]
          omega

/-- With all its completions collected, a process has none to come. -/
theorem Books.collected (h : Books S x) (hflushed : x.phase.flushed m = m) :
    x.sendCq = [] ∧ ∀ j, ∀ r ∈ x.unacked j, r.signaled = false := by
  have hasked := h.asked
  have hle := finished_le S.numTests x.ppCnt
  have hnone : ∑ j, asking (x.wire j) (x.unacked j) = 0 := by omega
  refine ⟨List.length_eq_zero_iff.mp (by omega), fun j r hr => ?_⟩
  have hj : asking (x.wire j) (x.unacked j) = 0 :=
    Finset.sum_eq_zero_iff.mp hnone j (Finset.mem_univ j)
  have hunasked : (x.unacked j).countP Request.signaled = 0 := by
    unfold asking at hj
    omega
  simpa using List.countP_eq_zero.mp hunasked r hr

/-- A number that belongs to a queue pair is found. -/
theorem findQp_qpNum (hinj : Function.Injective S.qpNum) (i : Fin m) :
    findQp S (S.qpNum i) = some i := by
  unfold findQp
  split_ifs with hm
  · subst hm
    exact congrArg some (Subsingleton.elim _ i)
  · rw [PingPong.findQp_qpNum hinj i]
    rfl
  · rw [PingPong.findQp_qpNum hinj i]
    rfl

/-- One completion worked through. -/
theorem serve_eq (h : Books S x) {qpn : ℕ} {rest : List ℕ} (hcq : x.recvCq = qpn::rest)
    {i : Fin m} (hfind : findQp S qpn = some i) :
    serve S { x with recvCq := rest } qpn =
      let y : Process m := { x with
        recvCq := rest, recvQueue := x.recvQueue + 1, cnt := x.cnt + 1 }
      if x.ppCnt i < S.numTests then ppPostSend S y i else y := by
  have hposted := h.posted
  rw [hcq, List.length_cons] at hposted
  unfold serve
  rw [PingPong.ppPostRecv_eq _ _ _ (by simp only; omega), hfind]

theorem Books.serve (h : Books S x) {qpn : ℕ} {rest : List ℕ} (hcq : x.recvCq = qpn::rest)
    {i : Fin m} (hfind : findQp S qpn = some i) :
    Books S (serve S { x with recvCq := rest } qpn) := by
  have hposted := h.posted
  rw [hcq, List.length_cons] at hposted
  have hbooks : Books S { x with
      recvCq := rest, recvQueue := x.recvQueue + 1, cnt := x.cnt + 1 } :=
    ⟨h.uses, h.slots, h.asked, by simp only; omega, h.room, h.ready⟩
  rw [serve_eq h hcq hfind]
  by_cases hi : x.ppCnt i < S.numTests
  · simp only [if_pos hi]
    exact hbooks.post hi
  · simp only [if_neg hi]
    exact hbooks

/-- The counters in a phase are in range. -/
def Phase.Within (m : ℕ) : Phase → Prop
  | .opening k | .flush k | .grants k => k ≤ m
  | .acks i msg => i ≤ m ∧ msg.length ≤ terminationMsgSize
  | _ => True

/-- Past the loop over the completions. -/
def Phase.past : Phase → Bool
  | .opening _ | .test | .waiting | .notify | .poll => false
  | _ => true

/-- Events have been acknowledged. -/
def Phase.parting : Phase → Bool
  | .acks _ _ | .grants _ | .closing | .closed | .failed => true
  | _ => false

/-- A process that waits for an event has one coming: the queue is armed or an
event is there, and one is there when a completion is queued. -/
structure Control (S : Settings m) (x : Process m) : Prop where
  within : x.phase.Within m
  opening : ∀ k, x.phase = .opening k → ∀ i : Fin m, k ≤ i → x.ppCnt i = 0
  past : x.phase.past = true → m * S.numTests ≤ x.cnt
  event : x.phase = .waiting ∨ x.phase = .notify →
    S.useEvent = true ∧ x.cnt < m * S.numTests
  silent : S.useEvent = false → x.unackedEvents = 0
  acked : S.useEvent = true → x.unackedEvents = if x.phase.parting then 0
    else x.numCqEvents + if x.phase = .notify then 1 else 0
  armed : S.useEvent = true → x.phase ≠ .notify → x.armed = true ∨ 0 < x.events
  heard : S.useEvent = true → x.phase ≠ .notify → x.phase ≠ .poll → x.recvCq ≠ [] → 0 < x.events

/-- A step that leaves the events alone and begins and ends outside the wait
for them. -/
theorem Control.pass (h : Control S x) {y : Process m} (hwithin : y.phase.Within m)
    (hopening : ∀ k, y.phase = .opening k → ∀ i : Fin m, k ≤ i → y.ppCnt i = 0)
    (hpast : y.phase.past = true → m * S.numTests ≤ y.cnt)
    (hcalm : x.phase ≠ .notify ∧ y.phase ≠ .waiting ∧ y.phase ≠ .notify)
    (hparting : y.phase.parting = x.phase.parting)
    (hevents : y.events = x.events ∧ y.armed = x.armed ∧ y.unackedEvents = x.unackedEvents ∧
      y.numCqEvents = x.numCqEvents)
    (hqueue : y.phase ≠ .poll → y.recvCq ≠ [] → x.phase ≠ .poll ∧ x.recvCq ≠ []) : Control S y := by
  obtain ⟨hevents, harmed, hunacked, hnum⟩ := hevents
  obtain ⟨hx, hwaiting, hnotify⟩ := hcalm
  refine ⟨hwithin, hopening, hpast, fun hp => ?_, fun hu => ?_, fun hu => ?_, fun hu _ => ?_,
    fun hu _ hpoll hcq => ?_⟩
  · exact absurd hp (by simp [hwaiting, hnotify])
  · rw [hunacked]
    exact h.silent hu
  · rw [hunacked, hnum, hparting, if_neg hnotify, h.acked hu, if_neg hx]
  · rw [hevents, harmed]
    exact h.armed hu hx
  · obtain ⟨hxpoll, hxcq⟩ := hqueue hpoll hcq
    rw [hevents]
    exact h.heard hu hx hxpoll hxcq

/-- What arrives raises the event asked for. -/
theorem Control.receive (h : Control S x) (qpn : ℕ) : Control S (receive x qpn) := by
  unfold Xsrq.receive
  split_ifs
  · refine ⟨h.within, h.opening, h.past, h.event, h.silent, h.acked, fun hu hp => ?_,
      fun hu hp _ _ => ?_⟩ <;>
    · have harmed := h.armed hu hp
      cases ha : x.armed with
      | false => simpa [ha] using harmed
      | true => simp
  · exact ⟨h.within, h.opening, h.past, h.event, h.silent, h.acked, h.armed, h.heard⟩
  · exact ⟨h.within, h.opening, h.past, h.event, h.silent, h.acked, h.armed, h.heard⟩

theorem Control.passOn (h : Control S x) (j : Fin m) (r : Request) : Control S (passOn x j r) :=
  ⟨h.within, h.opening, h.past, h.event, h.silent, h.acked, h.armed, h.heard⟩

theorem Control.acknowledge (h : Control S x) {j : Fin m} (hs : acknowledge x j = some x') :
    Control S x' := by
  unfold Xsrq.acknowledge at hs
  cases hunacked : x.unacked j with
  | nil =>
      simp only [hunacked] at hs
      cases hs
  | cons r rest =>
      simp only [hunacked] at hs
      split_ifs at hs <;> cases hs <;>
        exact ⟨h.within, h.opening, h.past, h.event, h.silent, h.acked, h.armed, h.heard⟩

/-- Posting leaves all this alone. -/
structure Posting (x y : Process m) : Prop where
  phase : y.phase = x.phase
  numCqEvents : y.numCqEvents = x.numCqEvents
  out : y.out = x.out
  unacked : y.unacked = x.unacked
  recvCq : y.recvCq = x.recvCq
  sendCq : y.sendCq = x.sendCq
  armed : y.armed = x.armed
  events : y.events = x.events
  unackedEvents : y.unackedEvents = x.unackedEvents

theorem ppPostSend_posting (S : Settings m) (x : Process m) (i : Fin m) :
    Posting x (ppPostSend S x i) ∧ (ppPostSend S x i).cnt = x.cnt := by
  unfold ppPostSend
  simp only
  split_ifs <;> exact ⟨⟨rfl, rfl, rfl, rfl, rfl, rfl, rfl, rfl, rfl⟩, rfl⟩

theorem serve_posting (S : Settings m) (x : Process m) (qpn : ℕ) :
    Posting x (serve S x qpn) ∧ (serve S x qpn).cnt = x.cnt + 1 := by
  unfold serve
  cases findQp S qpn with
  | none => exact ⟨⟨rfl, rfl, rfl, rfl, rfl, rfl, rfl, rfl, rfl⟩, rfl⟩
  | some i =>
      simp only
      split_ifs
      · obtain ⟨h, hcnt⟩ := ppPostSend_posting S { x with
          recvQueue := (PingPong.ppPostRecv m x.recvQueue 1).2, cnt := x.cnt + 1 } i
        exact ⟨⟨h.phase, h.numCqEvents, h.out, h.unacked, h.recvCq, h.sendCq, h.armed, h.events,
          h.unackedEvents⟩, hcnt⟩
      · exact ⟨⟨rfl, rfl, rfl, rfl, rfl, rfl, rfl, rfl, rfl⟩, rfl⟩

/-- The steps that touch no queue of the adapter and no counter of messages. -/
inductive Turn (S : Settings m) (x : Process m) : Process m → Prop
  | opened {k : ℕ} (hp : x.phase = .opening k) (hk : m ≤ k) : Turn S x { x with phase := .test }
  | again (hp : x.phase = .test) (hcnt : x.cnt < m * S.numTests) :
      Turn S x { x with phase := if S.useEvent then .waiting else .poll }
  | leave (hp : x.phase = .test) (hcnt : m * S.numTests ≤ x.cnt) :
      Turn S x { x with phase := .flush 0 }
  | wake (hp : x.phase = .waiting) (he : 0 < x.events) :
      Turn S x { x with
        phase := .notify, events := x.events - 1, unackedEvents := x.unackedEvents + 1 }
  | rearm (hp : x.phase = .notify) :
      Turn S x { x with phase := .poll, armed := true, numCqEvents := x.numCqEvents + 1 }
  | drained (hp : x.phase = .poll) (hcq : x.recvCq = [])
      (hmore : S.useEvent = true ∨ m * S.numTests ≤ x.cnt) : Turn S x { x with phase := .test }
  | flushed {k : ℕ} (hp : x.phase = .flush k) (hk : m ≤ k) :
      Turn S x { x with
        phase := if S.server then .acks 0 [] else .grants 0
        unackedEvents :=
          if S.useEvent then x.unackedEvents - x.numCqEvents else x.unackedEvents }
  | heard {i : ℕ} {msg : List UInt8} (hp : x.phase = .acks i msg) (hi : i < m)
      (hmsg : terminationMsgSize ≤ msg.length) :
      Turn S x { x with
        phase := if cString msg = terminationMsg then .acks (i + 1) [] else .failed }
  | told {i : ℕ} {msg : List UInt8} (hp : x.phase = .acks i msg) (hi : m ≤ i) :
      Turn S x { x with phase := if S.server then .grants 0 else .closing }
  | say {i : ℕ} (hp : x.phase = .grants i) (hi : i < m) :
      Turn S x { sendTerminationAck x ⟨i, hi⟩ with phase := .grants (i + 1) }
  | said {i : ℕ} (hp : x.phase = .grants i) (hi : m ≤ i) :
      Turn S x { x with phase := if S.server then .closing else .acks 0 [] }
  | close (hp : x.phase = .closing) (he : x.unackedEvents = 0) :
      Turn S x { x with phase := .closed }

inductive Advance (S : Settings m) (x : Process m) : Process m → Prop
  | post {k : ℕ} (hp : x.phase = .opening k) (hk : k < m) :
      Advance S x { ppPostSend S x ⟨k, hk⟩ with phase := .opening (k + 1) }
  | serve {qpn : ℕ} {rest : List ℕ} (hp : x.phase = .poll) (hcq : x.recvCq = qpn::rest) :
      Advance S x (serve S { x with recvCq := rest } qpn)
  | collect {k : ℕ} {w : SendWc m} {rest : List (SendWc m)} (hp : x.phase = .flush k) (hk : k < m)
      (hcq : x.sendCq = w::rest) :
      Advance S x { x with
        phase := .flush (k + 1), sendCq := rest
        slots := Function.update x.slots w.qp (x.slots w.qp - w.freed) }
  | turn {y : Process m} (h : Turn S x y) : Advance S x y

/-- What a step of the program can do. -/
theorem advance_effect (hs : advance S x = some x') : Advance S x x' := by
  unfold advance at hs
  cases hp : x.phase with
  | opening k =>
      simp only [hp] at hs
      split_ifs at hs with hk <;> cases hs
      · exact .post hp hk
      · exact .turn (.opened hp (by omega))
  | test =>
      simp only [hp] at hs
      by_cases hcnt : x.cnt < m * S.numTests
      · simp only [if_pos hcnt] at hs
        cases hs
        exact .turn (.again hp hcnt)
      · simp only [if_neg hcnt] at hs
        cases hs
        exact .turn (.leave hp (by omega))
  | waiting =>
      simp only [hp] at hs
      split_ifs at hs with he
      cases hs
      exact .turn (.wake hp he)
  | notify =>
      simp only [hp] at hs
      cases hs
      exact .turn (.rearm hp)
  | poll =>
      simp only [hp] at hs
      cases hcq : x.recvCq with
      | nil =>
          simp only [hcq] at hs
          split_ifs at hs with hmore
          cases hs
          have hturn := Turn.drained hp hcq (S := S) (by
            cases hu : S.useEvent with
            | true => exact .inl rfl
            | false => exact .inr (not_lt.mp fun hlt => hmore ⟨hu, hlt⟩))
          rw [hcq] at hturn
          exact .turn hturn
      | cons qpn rest =>
          simp only [hcq] at hs
          cases hs
          have hserve := Advance.serve (S := S) hp hcq
          simpa only [hp] using hserve
  | flush k =>
      simp only [hp] at hs
      by_cases hk : k < m
      · cases hcq : x.sendCq with
        | nil =>
            simp only [if_pos hk, hcq] at hs
            cases hs
        | cons w rest =>
            simp only [if_pos hk, hcq] at hs
            cases hs
            exact .collect hp hk hcq
      · simp only [if_neg hk] at hs
        cases hs
        exact .turn (.flushed hp (by omega))
  | acks i msg =>
      simp only [hp] at hs
      by_cases hi : i < m
      · simp only [if_pos hi] at hs
        by_cases hmsg : msg.length < terminationMsgSize
        · simp only [if_pos hmsg] at hs
          cases hs
        · simp only [if_neg hmsg] at hs
          cases hs
          exact .turn (.heard hp hi (by omega))
      · simp only [if_neg hi] at hs
        cases hs
        exact .turn (.told hp (by omega))
  | grants i =>
      simp only [hp] at hs
      by_cases hi : i < m
      · simp only [dif_pos hi] at hs
        cases hs
        exact .turn (.say hp hi)
      · simp only [dif_neg hi] at hs
        cases hs
        exact .turn (.said hp (by omega))
  | closing =>
      simp only [hp] at hs
      split_ifs at hs with he
      cases hs
      exact .turn (.close hp he)
  | closed | failed =>
      simp only [hp] at hs
      cases hs

/-- What a turn leaves alone. -/
structure Idle (x y : Process m) : Prop where
  ppCnt : y.ppCnt = x.ppCnt
  cnt : y.cnt = x.cnt
  recvQueue : y.recvQueue = x.recvQueue
  slots : y.slots = x.slots
  wire : y.wire = x.wire
  unacked : y.unacked = x.unacked
  recvCq : y.recvCq = x.recvCq
  sendCq : y.sendCq = x.sendCq
  overrun : y.overrun = x.overrun
  notReady : y.notReady = x.notReady

theorem Turn.idle (h : Turn S x x') : Idle x x' := by
  cases h <;> exact ⟨rfl, rfl, rfl, rfl, rfl, rfl, rfl, rfl, rfl, rfl⟩

theorem Turn.flushed_eq (h : Turn S x x') (hwithin : x.phase.Within m) :
    x'.phase.flushed m = x.phase.flushed m := by
  cases h with
  | flushed hp hk =>
      rw [hp] at hwithin ⊢
      simp only [Phase.Within] at hwithin
      have hkm := Nat.le_antisymm hwithin hk
      subst hkm
      cases S.server <;> rfl
  | again hp _ =>
      rw [hp]
      cases S.useEvent <;> rfl
  | heard hp _ _ =>
      rw [hp]
      simp only
      split_ifs <;> rfl
  | told hp _ | said hp _ =>
      rw [hp]
      cases S.server <;> rfl
  | opened hp _ | leave hp _ | wake hp _ | rearm hp | drained hp _ _ | say hp _ | close hp _ =>
      rw [hp]
      rfl

theorem Books.idle (h : Books S x) (hidle : Idle x x')
    (hflushed : x'.phase.flushed m = x.phase.flushed m) : Books S x' := by
  refine ⟨?_, ?_, ?_, ?_, ?_, ?_⟩
  · exact hidle.ppCnt ▸ h.uses
  · exact hidle.ppCnt ▸ hidle.slots ▸ h.slots
  · rw [hidle.wire, hidle.unacked, hidle.sendCq, hidle.ppCnt, hflushed]
    exact h.asked
  · rw [hidle.recvQueue, hidle.recvCq]
    exact h.posted
  · exact hidle.overrun.trans h.room
  · exact hidle.notReady.trans h.ready

/-- A completion collected gives back the slots of the sends it ends. -/
theorem Books.collect (h : Books S x) {k : ℕ} {w : SendWc m} {rest : List (SendWc m)}
    (hp : x.phase = .flush k) (hcq : x.sendCq = w::rest) :
    Books S { x with
      phase := .flush (k + 1), sendCq := rest
      slots := Function.update x.slots w.qp (x.slots w.qp - w.freed) } := by
  refine ⟨h.uses, fun j => le_trans ?_ (h.slots j), ?_, h.posted, h.room, h.ready⟩
  · by_cases hj : j = w.qp
    · subst hj
      simp only [Function.update_self]
      exact Nat.sub_le _ _
    · simp only [Function.update_of_ne hj, le_refl]
  · have hasked := h.asked
    rw [hp, hcq, List.length_cons] at hasked
    simp only [Phase.flushed] at hasked ⊢
    omega

theorem Books.advance (h : Books S x) (hc : Control S x) (hT : 0 < S.numTests)
    (hfind : ∀ qpn ∈ x.recvCq, ∃ i, findQp S qpn = some i) (hs : Advance S x x') :
    Books S x' := by
  cases hs with
  | post hp hk =>
      have hzero := hc.opening _ hp ⟨_, hk⟩ (le_refl _)
      have hpost := h.post (i := ⟨_, hk⟩) (by omega)
      have hphase := (ppPostSend_posting S x ⟨_, hk⟩).1.phase
      have hasked := hpost.asked
      rw [hphase, hp] at hasked
      exact ⟨hpost.uses, hpost.slots, hasked, hpost.posted, hpost.room, hpost.ready⟩
  | serve _ hcq =>
      obtain ⟨i, hi⟩ := hfind _ (hcq ▸ List.mem_cons_self ..)
      exact h.serve hcq hi
  | collect hp _ hcq => exact h.collect hp hcq
  | turn hturn => exact h.idle hturn.idle (hturn.flushed_eq hc.within)

theorem Control.turn (h : Control S x) (hs : Turn S x x') : Control S x' := by
  have hwithin := h.within
  have hpast := h.past
  have hacked := h.acked
  have harmed := h.armed
  have hheard := h.heard
  cases hs with
  | opened hp _ =>
      exact h.pass trivial (by simp) (by simp [Phase.past]) (by simp [hp]) (by rw [hp]; rfl)
        ⟨rfl, rfl, rfl, rfl⟩ fun _ hcq => ⟨by simp [hp], hcq⟩
  | again hp hcnt =>
      cases hu : S.useEvent with
      | true =>
          rw [hp] at hacked
          refine ⟨trivial, by simp, by simp [Phase.past], fun _ => ⟨hu, hcnt⟩,
            by simp [hu], fun hu => ?_, fun hu _ => harmed hu (by simp [hp]),
            fun hu _ _ => hheard hu (by simp [hp]) (by simp [hp])⟩
          simpa [Phase.parting] using hacked hu
      | false =>
          refine ⟨trivial, by simp, by simp [Phase.past], by simp, fun _ => h.silent hu,
            ?_, ?_, ?_⟩ <;>
            exact fun hu' => absurd hu' (by simp [hu])
  | leave hp hcnt =>
      exact h.pass (Nat.zero_le m) (by simp) (fun _ => hcnt) (by simp [hp]) (by rw [hp]; rfl)
        ⟨rfl, rfl, rfl, rfl⟩ fun _ hcq => ⟨by simp [hp], hcq⟩
  | wake hp he =>
      have hevent := h.event (.inl hp)
      have hu := hevent.1
      rw [hp] at hacked
      refine ⟨trivial, by simp, by simp [Phase.past], fun _ => hevent, by simp [hu], fun hu => ?_,
        by simp, by simp⟩
      simpa [Phase.parting] using hacked hu
  | rearm hp =>
      have hu := (h.event (.inr hp)).1
      rw [hp] at hacked
      refine ⟨trivial, by simp, by simp [Phase.past], by simp, by simp [hu], fun hu => ?_,
        fun _ _ => .inl rfl, by simp⟩
      simpa [Phase.parting] using hacked hu
  | drained hp hcq _ =>
      refine h.pass trivial (by simp) (by simp [Phase.past]) (by simp [hp]) (by rw [hp]; rfl)
        ⟨rfl, rfl, rfl, rfl⟩ fun _ hne => absurd hcq hne
  | flushed hp hk =>
      rw [hp] at hacked
      refine ⟨?_, ?_, fun _ => hpast (by rw [hp]; rfl), ?_, fun hu => ?_, fun hu => ?_,
        fun hu _ => harmed hu (by simp [hp]), fun hu _ _ => hheard hu (by simp [hp]) (by simp [hp])⟩
      · cases S.server <;> simp [Phase.Within]
      · cases S.server <;> simp
      · cases S.server <;> simp
      · rw [hu]
        exact h.silent hu
      · have hnum : x.unackedEvents = x.numCqEvents := by simpa [Phase.parting] using hacked hu
        cases S.server <;> simp [hu, hnum, Phase.parting]
  | heard hp hi _ =>
      split_ifs
      · exact h.pass ⟨hi, Nat.zero_le _⟩ (by simp) (fun _ => hpast (by rw [hp]; rfl)) (by simp [hp])
          (by rw [hp]; rfl) ⟨rfl, rfl, rfl, rfl⟩ fun _ hcq => ⟨by simp [hp], hcq⟩
      · exact h.pass trivial (by simp) (fun _ => hpast (by rw [hp]; rfl)) (by simp [hp])
          (by rw [hp]; rfl) ⟨rfl, rfl, rfl, rfl⟩ fun _ hcq => ⟨by simp [hp], hcq⟩
  | told hp _ =>
      refine h.pass ?_ ?_ (fun _ => hpast (by rw [hp]; rfl)) ?_ ?_ ⟨rfl, rfl, rfl, rfl⟩
        fun _ hcq => ⟨by simp [hp], hcq⟩ <;>
          cases S.server <;> simp [Phase.Within, Phase.parting, hp]
  | say hp hi =>
      exact h.pass hi (by simp) (fun _ => hpast (by rw [hp]; rfl)) (by simp [hp]) (by rw [hp]; rfl)
        ⟨rfl, rfl, rfl, rfl⟩ fun _ hcq => ⟨by simp [hp], hcq⟩
  | said hp _ =>
      refine h.pass ?_ ?_ (fun _ => hpast (by rw [hp]; rfl)) ?_ ?_ ⟨rfl, rfl, rfl, rfl⟩
        fun _ hcq => ⟨by simp [hp], hcq⟩ <;>
          cases S.server <;> simp [Phase.Within, Phase.parting, hp]
  | close hp _ =>
      exact h.pass trivial (by simp) (fun _ => hpast (by rw [hp]; rfl)) (by simp [hp])
        (by rw [hp]; rfl) ⟨rfl, rfl, rfl, rfl⟩ fun _ hcq => ⟨by simp [hp], hcq⟩

theorem Control.advance (h : Control S x) (hb : Books S x) (hT : 0 < S.numTests)
    (hs : Advance S x x') : Control S x' := by
  cases hs with
  | @post k hp hk =>
      have hzero := h.opening k hp
      have hnow := hzero ⟨k, hk⟩ (le_refl k)
      rw [ppPostSend_eq hb (i := ⟨k, hk⟩) (by omega)]
      refine h.pass (Nat.succ_le_of_lt hk) (fun k' hk' i hi => ?_) (by simp [Phase.past])
        (by simp [hp]) (by rw [hp]; rfl) ⟨rfl, rfl, rfl, rfl⟩ fun _ hcq => ⟨by simp [hp], hcq⟩
      cases hk'
      have hne : i ≠ ⟨k, hk⟩ := fun he => by
        have := congrArg Fin.val he
        simp only at this
        omega
      exact (Function.update_of_ne hne _ _).trans (hzero i (by omega))
  | @serve qpn rest hp hcq =>
      obtain ⟨hsame, hcnt⟩ := serve_posting S { x with recvCq := rest } qpn
      have hphase : (Xsrq.serve S { x with recvCq := rest } qpn).phase = .poll :=
        hsame.phase.trans hp
      refine h.pass (by rw [hphase]; trivial) (by simp [hphase]) (by simp [hphase, Phase.past])
        ⟨by simp [hp], by rw [hphase]; simp, by rw [hphase]; simp⟩ (by rw [hphase, hp])
        ⟨hsame.events, hsame.armed, hsame.unackedEvents, hsame.numCqEvents⟩
        fun hne => absurd hphase hne
  | collect hp hk _ =>
      exact h.pass (Nat.succ_le_of_lt hk) (by simp) (fun _ => h.past (by rw [hp]; rfl))
        (by simp [hp]) (by rw [hp]; rfl) ⟨rfl, rfl, rfl, rfl⟩ fun _ hcq => ⟨by simp [hp], hcq⟩
  | turn hturn => exact h.turn hturn

/-- A read touches nothing but the message it adds to. -/
theorem hear_eq {bytes : List UInt8} (hs : hear x bytes = some x') :
    ∃ i msg, x.phase = .acks i msg ∧ bytes ≠ [] ∧ msg.length + bytes.length ≤ terminationMsgSize ∧
      x' = { x with phase := .acks i (msg ++ bytes) } := by
  unfold hear at hs
  cases hp : x.phase with
  | acks i msg =>
      simp only [hp] at hs
      split_ifs at hs with hbytes
      cases hs
      exact ⟨i, msg, rfl, hbytes.1, hbytes.2, rfl⟩
  | _ =>
      simp only [hp] at hs
      cases hs

theorem Books.hear (h : Books S x) {bytes : List UInt8} (hs : hear x bytes = some x') :
    Books S x' := by
  obtain ⟨i, msg, hp, _, _, rfl⟩ := hear_eq hs
  exact h.idle ⟨rfl, rfl, rfl, rfl, rfl, rfl, rfl, rfl, rfl, rfl⟩ (by rw [hp]; rfl)

theorem Control.hear (h : Control S x) {bytes : List UInt8} (hs : hear x bytes = some x') :
    Control S x' := by
  obtain ⟨i, msg, hp, _, hlen, rfl⟩ := hear_eq hs
  have hwithin := h.within
  rw [hp] at hwithin
  exact h.pass ⟨hwithin.1, by rwa [List.length_append]⟩ (by simp)
    (fun _ => h.past (by rw [hp]; rfl)) (by simp [hp]) (by rw [hp]; rfl) ⟨rfl, rfl, rfl, rfl⟩
    fun _ hcq => ⟨by simp [hp], hcq⟩

/-- What an acknowledgement leaves alone. -/
theorem acknowledge_same {j : Fin m} (hs : acknowledge x j = some x') :
    x'.phase = x.phase ∧ x'.ppCnt = x.ppCnt ∧ x'.cnt = x.cnt ∧ x'.wire = x.wire ∧
      x'.recvCq = x.recvCq ∧ x'.out = x.out := by
  unfold acknowledge at hs
  cases hunacked : x.unacked j with
  | nil =>
      simp only [hunacked] at hs
      cases hs
  | cons r rest =>
      simp only [hunacked] at hs
      split_ifs at hs <;> cases hs <;> exact ⟨rfl, rfl, rfl, rfl, rfl, rfl⟩

end CppPlayground.Xsrq
