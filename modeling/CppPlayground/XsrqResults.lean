import CppPlayground.XsrqRounds

/-!
# Results about xsrq_pingpong

However the server, its clients and their adapters interleave: no queue
overruns although the clients share queue pairs, nobody destroys its queue
pairs while a message may still pass through them, every run ends with all
messages exchanged, and the round robin loads the queue pairs equally.
-/
namespace CppPlayground.Xsrq
open PingPong (soleQp)
open RoundRobin (carried turn)

variable {n : ℕ} {P : Program n} {N N' : Network n} {hops : Fin n → ℕ} {es : List (Event n)}

/-- The phases of a process that gives its queue pairs up. -/
def Phase.leaving : Phase → Bool
  | .closing | .closed => true
  | _ => false

/-- Two clients with two tests each; only the server and the second sleep on events. -/
def twoClients : Program 2 where
  numTests := 2
  serverEvent := true
  clientEvent i := i = 1
  qpNum i := 10 + i
  clientQpNum i := 20 + i
  serverSrqn := 7
  clientSrqn i := 30 + i
  total_lt := by decide
  qpNum_inj _ _ h := Fin.ext (Nat.add_left_cancel h)
  clientSrqn_inj _ _ h := Fin.ext (Nat.add_left_cancel h)

/-- A whole run of them. -/
def twoClientsRun : List (Event 2) := List.flatten [
  List.replicate 4 .server, [.client 0, .client 1, .toClient 0, .client 0, .toClient 1],
  List.replicate 5 (.client 1), [.toServer 0], List.replicate 5 .server, [.toClient 1],
  List.replicate 3 (.client 0), [.toServer 0], List.replicate 5 .server, [.toServer 1],
  List.replicate 5 .server, [.toClient 0], List.replicate 5 (.client 1), [.toServer 1],
  List.replicate 5 .server, [.ackServer 0, .ackServer 0, .server, .ackServer 1, .ackServer 1],
  [.server, .server, .ackClient 0, .ackClient 0], List.replicate 4 (.client 0),
  [.ackClient 1, .ackClient 1], List.replicate 4 (.client 1),
  [.serverReads 0 4, .server, .serverReads 1 4], List.replicate 6 .server, [.clientReads 0 4],
  List.replicate 3 (.client 0), [.clientReads 1 4], List.replicate 3 (.client 1)]

theorem twoClients_leave : ((Runs.run (step twoClients) (start twoClients) twoClientsRun).map
    fun N => N.server.phase.leaving) = some true := by decide +kernel

/-- In every run no queue of completions overruns and no message finds its
shared receive queue empty, nobody gives up, and for each client at most one
message is under way or waits to be worked through. -/
theorem shared_pairs_never_overrun (hT : 0 < P.numTests)
    (h : Runs.run (step P) (start P) es = some N) :
    (N.server.overrun = false ∧ N.server.notReady = false ∧ N.server.phase ≠ .failed) ∧
      ∀ i, ((N.client i).overrun = false ∧ (N.client i).notReady = false ∧
          (N.client i).phase ≠ .failed) ∧
        flying P N.server.wire i + (N.client i).recvCq.length + ((N.client i).wire soleQp).length +
          N.server.recvCq.count (P.qpNum i) ≤ 1 := by
  obtain ⟨hops, hsound⟩ := sound_of_run hT h
  refine ⟨⟨hsound.desk.books.room, hsound.desk.books.ready, hsound.desk.up⟩, fun i => ?_⟩
  have hpair := hsound.pair i
  refine ⟨⟨hpair.books.room, hpair.books.ready, hpair.up⟩, ?_⟩
  exact hpair.hops.alone

theorem shared_pairs_never_overrun_twoClients :
    ∃ N, Runs.run (step twoClients) (start twoClients) twoClientsRun = some N ∧
      N.server.overrun = false ∧ N.server.notReady = false := by
  obtain ⟨N, hN, _⟩ := Option.map_eq_some_iff.mp twoClients_leave
  have hserver := (shared_pairs_never_overrun (P := twoClients) (by decide) hN).1
  exact ⟨N, hN, hserver.1, hserver.2.1⟩

theorem Sound.half_le (h : Sound P N hops) (i : Fin n) : hops i / 2 ≤ P.numTests := by
  have hle := (h.pair i).hops.le
  omega

/-- No `int` counter overflows. -/
theorem counters_lt (hT : 0 < P.numTests) (h : Runs.run (step P) (start P) es = some N) :
    N.server.cnt < 2 ^ 31 ∧ ∀ i, (N.client i).cnt < 2 ^ 31 := by
  obtain ⟨hops, hsound⟩ := sound_of_run hT h
  constructor
  · refine lt_of_le_of_lt ?_ P.total_lt
    calc
      N.server.cnt = ∑ i, hops i / 2 := hsound.cnt
      _ ≤ ∑ _ : Fin n, P.numTests := Finset.sum_le_sum fun i _ => hsound.half_le i
      _ = n * P.numTests := Tally.sum_fin_const n P.numTests
  · intro i
    have hcnt : (N.client i).cnt = (hops i + 1) / 2 := (hsound.pair i).hops.cnt
    have hle := (hsound.pair i).hops.le
    have hone : P.numTests ≤ n * P.numTests := Nat.le_mul_of_pos_left _ i.pos
    have htotal := P.total_lt
    omega

/-- Every message has been counted by everyone. -/
structure Settled (P : Program n) (N : Network n) : Prop where
  server : N.server.cnt = n * P.numTests
  client : ∀ i, (N.client i).cnt = P.numTests
  toClient : ∀ j, N.server.wire j = []
  toServer : ∀ i, (N.client i).wire soleQp = []
  serverCq : N.server.recvCq = []
  clientCq : ∀ i, (N.client i).recvCq = []

theorem Sound.settled (h : Sound P N hops) (hT : 0 < P.numTests)
    (hall : ∀ i, hops i = 2 * P.numTests) : Settled P N := by
  have hcomplete := fun i => (hall i ▸ (h.pair i).hops).complete hT
  refine ⟨?_, fun i => (hcomplete i).2.2.2.2.2.2.1, fun j => ?_, fun i => ?_, ?_, fun i => ?_⟩
  · rw [h.cnt]
    calc
      _ = ∑ _ : Fin n, P.numTests := Finset.sum_congr rfl fun i _ => by
        rw [hall i]
        omega
      _ = n * P.numTests := Tally.sum_fin_const n P.numTests
  · rw [List.eq_nil_iff_forall_not_mem]
    intro r hr
    obtain ⟨i, hi⟩ := h.desk.named j r hr
    have hnone : flying P N.server.wire i = 0 := (hcomplete i).2.2.1
    have hle := Tally.le_sum
      (fun j => (N.server.wire j).countP fun r => r.srqn = P.clientSrqn i) j
    have hpos : 0 < (N.server.wire j).countP fun r => r.srqn = P.clientSrqn i :=
      List.countP_pos_iff.mpr ⟨r, hr, by simp [hi]⟩
    unfold flying at hnone
    omega
  · exact List.length_eq_zero_iff.mp (hcomplete i).2.2.2.2.1
  · rw [List.eq_nil_iff_forall_not_mem]
    intro q hq
    obtain ⟨i, hi⟩ := h.desk.known q hq
    have hnone : N.server.recvCq.count (P.qpNum i) = 0 := (hcomplete i).2.2.2.2.2.1
    exact List.count_eq_zero.mp hnone (hi ▸ hq)
  · exact List.length_eq_zero_iff.mp (hcomplete i).2.2.2.1

/-- Once the server has counted everything, every hop has been made. -/
theorem Sound.hops_of_cnt (h : Sound P N hops) (hcnt : n * P.numTests ≤ N.server.cnt) (i : Fin n) :
    2 * P.numTests ≤ hops i := by
  have hchange := Tally.sum_change (f := fun l => hops l / 2)
    (g := Function.update (fun l => hops l / 2) i P.numTests) i
    fun l hl => Function.update_of_ne hl _ _
  have hsum : ∑ l, Function.update (fun l => hops l / 2) i P.numTests l ≤
      ∑ _ : Fin n, P.numTests := by
    refine Finset.sum_le_sum fun l _ => ?_
    by_cases hl : l = i
    · subst hl
      rw [Function.update_self]
    · rw [Function.update_of_ne hl]
      exact h.half_le l
  rw [Tally.sum_fin_const] at hsum
  rw [Function.update_self] at hchange
  have hcounted := h.cnt
  omega

/-- A server that has heard every END has counted every message; so nothing is
left to hop. -/
theorem Sound.hops_of_heard (h : Sound P N hops) (hpast : N.server.phase.past = true) (i : Fin n) :
    hops i = 2 * P.numTests :=
  Nat.le_antisymm (h.pair i).hops.le (h.hops_of_cnt (h.desk.control.past hpast) i)

/-- A client that leaves has heard the server's END, and a server that leaves
has said it. -/
theorem Sound.said_of_leaving (h : Sound P N hops)
    (hleaving : N.server.phase.leaving = true ∨ ∃ i, (N.client i).phase.leaving = true) :
    ∃ k, N.server.phase.hasSaid true k = true := by
  rcases hleaving with hserver | ⟨i, hclient⟩
  · refine ⟨0, ?_⟩
    cases hp : N.server.phase <;> simp [hp, Phase.leaving] at hserver <;> rfl
  · have hheard : (N.client i).phase.hasHeard false 0 = terminationBytes := by
      cases hp : (N.client i).phase <;> simp [hp, Phase.leaving] at hclient <;> rfl
    have hfull := (h.pair i).toClient.of_full (S := P.server) (by
      rw [show (soleQp : ℕ) = 0 from rfl, hheard]
      exact le_refl _)
    exact ⟨i, hfull.2.1⟩

theorem Sound.past_of_leaving (h : Sound P N hops)
    (hleaving : N.server.phase.leaving = true ∨ ∃ i, (N.client i).phase.leaving = true) :
    N.server.phase.past = true := by
  obtain ⟨k, hsaid⟩ := h.said_of_leaving hleaving
  exact Phase.past_of_hasSaid hsaid

/-- By then everyone has collected its completions. -/
theorem Sound.flushed_of_leaving (h : Sound P N hops)
    (hleaving : N.server.phase.leaving = true ∨ ∃ i, (N.client i).phase.leaving = true) :
    N.server.phase.flushed n = n ∧ ∀ i, (N.client i).phase.flushed 1 = 1 := by
  obtain ⟨k, hsaid⟩ := h.said_of_leaving hleaving
  refine ⟨Phase.flushed_of_hasSaid hsaid n, fun i => ?_⟩
  have hheard : N.server.phase.hasHeard true i = terminationBytes :=
    Phase.hasHeard_of_hasSaid hsaid i
  have hfull := (h.pair i).toServer.of_full (S := P.client i) (by
    rw [hheard]
    exact le_refl _)
  exact Phase.flushed_of_hasSaid hfull.2.1 1

/-- Nothing of a message is left but acknowledgements that nobody waits for:
no completion is queued or still to come. -/
structure Spent (P : Program n) (N : Network n) : Prop extends Settled P N where
  serverSendCq : N.server.sendCq = []
  clientSendCq : ∀ i, (N.client i).sendCq = []
  serverUnacked : ∀ j, ∀ r ∈ N.server.unacked j, r.signaled = false
  clientUnacked : ∀ i, ∀ r ∈ (N.client i).unacked soleQp, r.signaled = false

/-- Nobody begins to destroy its queue pairs before every message has been
delivered and counted, those for other clients included, and every completion
asked for has been collected. -/
theorem pairs_outlive_messages (hT : 0 < P.numTests)
    (h : Runs.run (step P) (start P) es = some N)
    (hleaving : N.server.phase.leaving = true ∨ ∃ i, (N.client i).phase.leaving = true) :
    Spent P N := by
  obtain ⟨hops, hsound⟩ := sound_of_run hT h
  have hsettled := hsound.settled hT (hsound.hops_of_heard (hsound.past_of_leaving hleaving))
  obtain ⟨hserver, hclient⟩ := hsound.flushed_of_leaving hleaving
  obtain ⟨hserverCq, hserverUnacked⟩ := hsound.desk.books.collected hserver
  have hcollected := fun i => (hsound.pair i).books.collected (hclient i)
  exact ⟨hsettled, hserverCq, fun i => (hcollected i).1, hserverUnacked,
    fun i => (hcollected i).2 soleQp⟩

theorem pairs_outlive_messages_twoClients :
    ∃ N, Runs.run (step twoClients) (start twoClients) twoClientsRun = some N ∧
      Spent twoClients N := by
  obtain ⟨N, hN, hleaving⟩ := Option.map_eq_some_iff.mp twoClients_leave
  exact ⟨N, hN, pairs_outlive_messages (P := twoClients) (by decide) hN (.inl hleaving)⟩

/-- A process that cannot step waits for a completion, for the end of one of its
sends, for an END, or is gone. -/
theorem waits_of_stuck {m : ℕ} {S : Settings m} {x : Process m} (hc : Control S x)
    (hup : x.phase ≠ .failed) (hs : advance S x = none) :
    (x.phase.past = false ∧ (∀ k, x.phase ≠ .opening k) ∧ x.recvCq = [] ∧
        x.cnt < m * S.numTests) ∨
      (∃ k, k < m ∧ x.phase = .flush k ∧ x.sendCq = []) ∨
      (∃ i msg, i < m ∧ x.phase = .acks i msg ∧ msg.length < terminationMsgSize) ∨
      x.phase = .closed := by
  unfold advance at hs
  cases hp : x.phase with
  | opening k =>
      simp only [hp] at hs
      split_ifs at hs
  | test =>
      simp only [hp] at hs
      cases hs
  | waiting =>
      simp only [hp] at hs
      obtain ⟨hu, hcnt⟩ := hc.event (.inl hp)
      refine .inl ⟨rfl, by simp, ?_, hcnt⟩
      by_contra hcq
      have hevent := hc.heard hu (by simp [hp]) (by simp [hp]) hcq
      rw [if_pos hevent] at hs
      cases hs
  | notify =>
      simp only [hp] at hs
      cases hs
  | poll =>
      simp only [hp] at hs
      cases hcq : x.recvCq with
      | nil =>
          simp only [hcq] at hs
          split_ifs at hs with hspin
          exact .inl ⟨rfl, by simp, rfl, hspin.2⟩
      | cons q rest =>
          simp only [hcq] at hs
          cases hs
  | flush k =>
      simp only [hp] at hs
      by_cases hk : k < m
      · rw [if_pos hk] at hs
        cases hcq : x.sendCq with
        | nil => exact .inr (.inl ⟨k, hk, rfl, rfl⟩)
        | cons w rest =>
            simp only [hcq] at hs
            cases hs
      · rw [if_neg hk] at hs
        cases hs
  | acks i msg =>
      simp only [hp] at hs
      by_cases hi : i < m
      · rw [if_pos hi] at hs
        split_ifs at hs with hmsg
        exact .inr (.inr (.inl ⟨i, msg, hi, rfl, hmsg⟩))
      · rw [if_neg hi] at hs
        cases hs
  | grants i =>
      simp only [hp] at hs
      split_ifs at hs
  | closing =>
      simp only [hp] at hs
      have hzero : x.unackedEvents = 0 := by
        cases hu : S.useEvent with
        | false => exact hc.silent hu
        | true =>
            rw [hc.acked hu, hp]
            rfl
      rw [if_pos hzero] at hs
      cases hs
  | closed => exact .inr (.inr (.inr rfl))
  | failed => exact absurd hp hup

section Stuck
variable (hstuck : ∀ e, step P N e = none)
include hstuck

theorem server_stuck : advance P.server N.server = none := by
  have hs := hstuck .server
  simpa only [step, Option.map_eq_none_iff] using hs

theorem client_stuck (i : Fin n) : advance (P.client i) (N.client i) = none := by
  have hs := hstuck (.client i)
  simpa only [step, Option.map_eq_none_iff] using hs

/-- While nobody is gone no message is left in a queue pair. -/
theorem Sound.wires_nil (h : Sound P N hops) (hserver : N.server.phase.up = true)
    (hclient : ∀ i, (N.client i).phase.up = true) :
    (∀ j, N.server.wire j = []) ∧ ∀ i, (N.client i).wire soleQp = [] := by
  refine ⟨fun j => ?_, fun i => ?_⟩
  · cases hwire : N.server.wire j with
    | nil => rfl
    | cons r rest =>
        obtain ⟨i, hi⟩ := h.desk.named j r (by simp [hwire])
        have hs := hstuck (.toClient j)
        simp only [step, hwire, ← hi, PingPong.findQp_qpNum P.clientSrqn_inj, hserver, hclient,
          and_self, if_true, reduceCtorEq] at hs
  · cases hwire : (N.client i).wire soleQp with
    | nil => rfl
    | cons r rest =>
        have hs := hstuck (.toServer i)
        simp only [step, hwire, hserver, hclient, and_self, if_true, reduceCtorEq] at hs

theorem server_acknowledged (hserver : N.server.phase.up = true) (j : Fin n) :
    N.server.unacked j = [] := by
  have hs := hstuck (.ackServer j)
  cases hunacked : N.server.unacked j with
  | nil => rfl
  | cons r rest =>
      simp only [step, hserver, if_true, Option.map_eq_none_iff, acknowledge, hunacked] at hs
      split_ifs at hs

theorem client_acknowledged {i : Fin n} (hclient : (N.client i).phase.up = true) :
    (N.client i).unacked soleQp = [] := by
  have hs := hstuck (.ackClient i)
  cases hunacked : (N.client i).unacked soleQp with
  | nil => rfl
  | cons r rest =>
      simp only [step, hclient, if_true, Option.map_eq_none_iff, acknowledge, hunacked] at hs
      split_ifs at hs

end Stuck

theorem Phase.up_of {ph : Phase} (hclosed : ph ≠ .closed) (hfailed : ph ≠ .failed) :
    ph.up = true := by
  cases ph <;> first | rfl | exact absurd rfl hclosed | exact absurd rfl hfailed

/-- When no step is left, every hop has been made. -/
theorem Sound.hops_of_stuck (h : Sound P N hops) (hstuck : ∀ e, step P N e = none) (i : Fin n) :
    hops i = 2 * P.numTests := by
  by_cases hgone : N.server.phase = .closed ∨ ∃ l, (N.client l).phase = .closed
  · refine h.hops_of_heard (h.past_of_leaving ?_) i
    rcases hgone with hgone | ⟨l, hgone⟩
    · exact .inl (by rw [hgone]; rfl)
    · exact .inr ⟨l, by rw [hgone]; rfl⟩
  have hserver : N.server.phase.up = true :=
    Phase.up_of (fun hc => hgone (.inl hc)) h.desk.up
  have hclient : ∀ l, (N.client l).phase.up = true := fun l =>
    Phase.up_of (fun hc => hgone (.inr ⟨l, hc⟩)) (h.pair l).up
  obtain ⟨hserverWire, hclientWire⟩ := h.wires_nil hstuck hserver hclient
  by_cases hpast : N.server.phase.past = true
  · exact h.hops_of_heard hpast i
  have hwaits := waits_of_stuck h.desk.control h.desk.up (server_stuck hstuck)
  obtain ⟨_, hopened, hserverCq, _⟩ := hwaits.resolve_right (by
    rintro (⟨k, _, hp, _⟩ | ⟨k, msg, _, hp, _⟩ | hp) <;> exact hpast (by rw [hp]; rfl))
  refine Nat.le_antisymm (h.pair i).hops.le (not_lt.mp fun hlt => ?_)
  have hlane := (h.pair i).hops
  have hopen : N.server.phase.opened i = true := by
    cases hp : N.server.phase with
    | opening k => exact absurd hp (hopened k)
    | _ => rfl
  have hflying : flying P N.server.wire i = 0 :=
    Finset.sum_eq_zero fun j _ => by rw [hserverWire j]; rfl
  have hreplying : ((N.client i).wire soleQp).length = 0 := by rw [hclientWire i]; rfl
  have harrived : N.server.recvCq.count (P.qpNum i) = 0 := by rw [hserverCq]; rfl
  rcases hlane.under_way hopen hlt with hf | hq | hr | ha
  · exact absurd hflying hf.ne'
  · -- The client has a completion, so it is past its loop, so it has counted every message.
    obtain ⟨_, heven, _, _, _⟩ := hlane.queue hq
    have hcq : (N.client i).recvCq ≠ [] := List.length_pos_iff.mp hq
    have hclientOver : (N.client i).phase.past = true := by
      rcases waits_of_stuck (h.pair i).control (h.pair i).up (client_stuck hstuck i) with
        ⟨_, _, hnil, _⟩ | ⟨k, _, hp, _⟩ | ⟨k, msg, _, hp, _⟩ | hp
      · exact absurd hnil hcq
      all_goals
        rw [hp]
        rfl
    have hcounted : 1 * P.numTests ≤ (N.client i).cnt := (h.pair i).control.past hclientOver
    have hcnt : (N.client i).cnt = (hops i + 1) / 2 := hlane.cnt
    omega
  · exact absurd hreplying hr.ne'
  · exact absurd harrived ha.ne'

/-- Every process that has all its completions to collect has them queued. -/
theorem not_flushing {m : ℕ} {S : Settings m} {x : Process m} (hb : Books S x)
    (hdone : ∀ i, x.ppCnt i = S.numTests) (hwire : ∀ j, x.wire j = [])
    (hunacked : ∀ j, x.unacked j = []) {k : ℕ} (hk : k < m) (hp : x.phase = .flush k) :
    x.sendCq ≠ [] := by
  intro hnil
  have hasked := hb.asked
  have hall : finished S.numTests x.ppCnt = m := by
    unfold finished
    calc
      _ = ∑ _ : Fin m, 1 := Finset.sum_congr rfl fun i _ => if_pos (hdone i).ge
      _ = m := by rw [Tally.sum_fin_const, Nat.mul_one]
  have hnone : ∑ j, asking (x.wire j) (x.unacked j) = 0 :=
    Finset.sum_eq_zero fun j _ => by rw [hwire, hunacked]; rfl
  rw [hnone, hnil, hp, hall] at hasked
  simp only [Phase.flushed, List.length_nil] at hasked
  omega

/-- When no step is left, everyone is gone. -/
theorem Sound.closed_of_stuck (h : Sound P N hops) (hT : 0 < P.numTests)
    (hstuck : ∀ e, step P N e = none) :
    N.server.phase = .closed ∧ ∀ i, (N.client i).phase = .closed := by
  have hsettled := h.settled hT (h.hops_of_stuck hstuck)
  have hcomplete := fun i => (h.hops_of_stuck hstuck i ▸ (h.pair i).hops).complete hT
  have hclientSaid : ∀ i, (N.client i).phase.hasSaid false 0 = true := by
    intro i
    have hpair := h.pair i
    rcases waits_of_stuck hpair.control hpair.up (client_stuck hstuck i) with
      ⟨_, _, _, hlt⟩ | ⟨k, hk, hp, hnil⟩ | ⟨k, msg, _, hp, _⟩ | hp
    · rw [hsettled.client i, one_mul] at hlt
      exact absurd hlt (lt_irrefl _)
    · have hone : ∀ l : Fin 1, l = soleQp := fun l => Subsingleton.elim l soleQp
      refine absurd hnil (not_flushing hpair.books (fun l => ?_) (fun l => ?_) (fun l => ?_)
        hk hp) <;>
        rw [hone l]
      · exact (hcomplete i).2.2.2.2.2.2.2
      · exact hsettled.toServer i
      · exact client_acknowledged hstuck (by rw [hp]; rfl)
    · rw [hp]
      rfl
    · rw [hp]
      rfl
  have hserver : N.server.phase = .closed := by
    rcases waits_of_stuck h.desk.control h.desk.up (server_stuck hstuck) with
      ⟨_, _, _, hlt⟩ | ⟨k, hk, hp, hnil⟩ | ⟨k, msg, hk, hp, hmsg⟩ | hp
    · rw [hsettled.server] at hlt
      exact absurd hlt (lt_irrefl _)
    · exact absurd hnil (not_flushing h.desk.books (fun l => (hcomplete l).2.1) hsettled.toClient
        (server_acknowledged hstuck (by rw [hp]; rfl)) hk hp)
    · -- The END of the client it waits for is there to be read.
      obtain ⟨hlen, x', hx⟩ := Told.readable (S := P.server) (i := ⟨k, hk⟩)
        (h.pair ⟨k, hk⟩).toServer (hclientSaid ⟨k, hk⟩) hp hmsg
      have hs := hstuck (.serverReads ⟨k, hk⟩ 1)
      simp only [step] at hs
      rw [if_pos ⟨by rw [hp, Phase.awaits, if_pos hmsg], hlen⟩, hx] at hs
      cases hs
    · exact hp
  refine ⟨hserver, fun i => ?_⟩
  have hpair := h.pair i
  rcases waits_of_stuck hpair.control hpair.up (client_stuck hstuck i) with
    ⟨hpast, _, _, _⟩ | ⟨k, _, hp, _⟩ | ⟨k, msg, hk, hp, hmsg⟩ | hp
  · rw [Phase.past_of_hasSaid (hclientSaid i)] at hpast
    cases hpast
  · have hsaid := hclientSaid i
    rw [hp] at hsaid
    cases hsaid
  · have hk0 : k = 0 := by omega
    subst hk0
    have hsaid : N.server.phase.hasSaid true i = true := by rw [hserver]; rfl
    obtain ⟨hlen, y', hy⟩ :=
      Told.readable (S := P.client i) (i := soleQp) hpair.toClient hsaid hp hmsg
    have hs := hstuck (.clientReads i 1)
    simp only [step] at hs
    rw [if_pos ⟨by rw [hp, Phase.awaits, if_pos hmsg], hlen⟩, hy] at hs
    cases hs
  · exact hp

theorem remaining_start (P : Program n) :
    remaining P (start P) (fun _ => 0) ≤ 16 * (n * P.numTests) + 49 * n + 26 := by
  have hempty : ∀ {m : ℕ} (S : Settings m),
      weight S S.connected = rank S S.connected := by
    intro m S
    have hnone : ∑ j, (7 * (S.connected.wire j).length + (S.connected.unacked j).length) = 0 :=
      Finset.sum_eq_zero fun _ _ => rfl
    unfold weight
    rw [hnone, Nat.zero_add]
    exact Nat.zero_add _
  have hserver : rank P.server P.server.connected = 8 * n + (8 * n + 26) := rfl
  have hclient : ∀ i, weight (P.client i) (P.client i).connected + 8 * (2 * P.numTests - 0) ≤
      33 + 16 * P.numTests := by
    intro i
    rw [hempty]
    simp only [rank, Settings.connected, Program.client, Bool.false_eq_true, if_false]
    split_ifs <;> omega
  have hsum := Finset.sum_le_sum fun i (_ : i ∈ Finset.univ) => hclient i
  rw [Tally.sum_fin_const, Nat.mul_add] at hsum
  unfold remaining start
  simp only
  rw [hempty, hserver]
  have hmul : n * (16 * P.numTests) = 16 * (n * P.numTests) := Nat.mul_left_comm ..
  omega

/-- Every run is bounded, and when no step is left everyone has counted its
messages, heard END and gone. -/
theorem xsrq_every_run_ends (hT : 0 < P.numTests) (h : Runs.run (step P) (start P) es = some N) :
    es.length ≤ 16 * (n * P.numTests) + 49 * n + 26 ∧
      ((∀ e, step P N e = none) →
        (N.server.phase = .closed ∧ N.server.cnt = n * P.numTests) ∧
          ∀ i, (N.client i).phase = .closed ∧ (N.client i).cnt = P.numTests) := by
  obtain ⟨hops, hsound, hbound⟩ := Runs.stuttering_potential (R := Sound P) (remaining P)
    (fun hsound hs => hsound.of_step hT hs) (sound_start P hT) h
  refine ⟨((Nat.le_add_right _ _).trans hbound).trans (remaining_start P), fun hstuck => ?_⟩
  have hclosed := hsound.closed_of_stuck hT hstuck
  have hsettled := hsound.settled hT (hsound.hops_of_stuck hstuck)
  exact ⟨⟨hclosed.1, hsettled.server⟩, fun i => ⟨hclosed.2 i, hsettled.client i⟩⟩

theorem xsrq_every_run_ends_twoClients :
    ∃ N, Runs.run (step twoClients) (start twoClients) twoClientsRun = some N ∧
      twoClientsRun.length ≤ 16 * (2 * 2) + 49 * 2 + 26 := by
  obtain ⟨N, hN, _⟩ := Option.map_eq_some_iff.mp twoClients_leave
  exact ⟨N, hN, (xsrq_every_run_ends (P := twoClients) (by decide) hN).1⟩

/-- Posting loads the queue pair whose turn it is. -/
theorem carried_post {m : ℕ} {S : Settings m} {x : Process m} (hb : Books S x) {k : Fin m}
    (hk : x.ppCnt k < S.numTests) (j : Fin m) :
    ((ppPostSend S x k).wire j).length + carried x.ppCnt j =
      (x.wire j).length + carried (ppPostSend S x k).ppCnt j := by
  rw [ppPostSend_eq hb hk]
  simp only [RoundRobin.carried_update]
  by_cases hj : turn k (x.ppCnt k) = j
  · subst hj
    simp only [Function.update_self, List.length_append, List.length_singleton, if_true]
    omega
  · simp only [Function.update_of_ne (Ne.symm hj), if_neg hj, Nat.add_zero]

theorem Advance.carried {m : ℕ} {S : Settings m} {x x' : Process m} (h : Advance S x x')
    (hb : Books S x) (hc : Control S x) (hT : 0 < S.numTests)
    (hfind : ∀ qpn ∈ x.recvCq, ∃ i, findQp S qpn = some i) (j : Fin m) :
    (x'.wire j).length + carried x.ppCnt j = (x.wire j).length + carried x'.ppCnt j := by
  cases h with
  | @post k hp hk =>
      have hzero := hc.opening k hp ⟨k, hk⟩ (le_refl k)
      exact carried_post hb (by omega) j
  | @serve qpn rest hp hcq =>
      obtain ⟨i, hi⟩ := hfind qpn (by simp [hcq])
      have hposted := hb.posted
      rw [hcq, List.length_cons] at hposted
      rw [serve_eq hb hcq hi]
      split_ifs with hmore
      · exact carried_post (x := { x with
          recvCq := rest, recvQueue := x.recvQueue + 1, cnt := x.cnt + 1 })
          ⟨hb.uses, hb.slots, hb.asked, by simp only; omega, hb.room, hb.ready⟩ hmore j
      · rfl
  | collect _ _ _ => rfl
  | turn hturn => rw [hturn.idle.wire, hturn.idle.ppCnt]

/-- What passed through a queue pair of the server and what is in it. -/
def Loaded (es : List (Event n)) (N : Network n) : Prop :=
  ∀ j, es.count (.toClient j) + (N.server.wire j).length = carried N.server.ppCnt j

theorem Loaded.of_same {e : Event n} (h : Loaded es N) (he : ∀ j, e ≠ .toClient j)
    (hwire : N'.server.wire = N.server.wire) (hpp : N'.server.ppCnt = N.server.ppCnt) :
    Loaded (es ++ [e]) N' := by
  intro j
  rw [List.count_append, List.count_singleton, hwire, hpp, if_neg (by simpa using he j)]
  exact h j

theorem Loaded.step (h : Loaded es N) (hsound : Sound P N hops) (hT : 0 < P.numTests) {e : Event n}
    (hs : step P N e = some N') : Loaded (es ++ [e]) N' := by
  cases e with
  | server =>
      obtain ⟨x', hx, rfl⟩ := Option.map_eq_some_iff.mp hs
      intro j
      have hcarried := (advance_effect hx).carried hsound.desk.books hsound.desk.control hT
        hsound.desk.find j
      have hj := h j
      rw [List.count_append, List.count_singleton, if_neg (by simp)]
      simp only
      omega
  | client i =>
      obtain ⟨y', hy, rfl⟩ := Option.map_eq_some_iff.mp hs
      exact h.of_same (by simp) rfl rfl
  | serverReads i k =>
      simp only [Xsrq.step] at hs
      split_ifs at hs
      obtain ⟨x', hx, rfl⟩ := Option.map_eq_some_iff.mp hs
      obtain ⟨_, _, _, _, _, rfl⟩ := hear_eq hx
      exact h.of_same (by simp) rfl rfl
  | clientReads i k =>
      simp only [Xsrq.step] at hs
      split_ifs at hs
      obtain ⟨y', hy, rfl⟩ := Option.map_eq_some_iff.mp hs
      exact h.of_same (by simp) rfl rfl
  | toClient j =>
      simp only [Xsrq.step] at hs
      cases hwire : N.server.wire j with
      | nil =>
          simp only [hwire] at hs
          cases hs
      | cons r rest =>
          simp only [hwire] at hs
          cases hi : PingPong.findQp P.clientSrqn r.srqn with
          | none =>
              simp only [hi] at hs
              cases hs
          | some i =>
              simp only [hi] at hs
              split_ifs at hs
              cases hs
              intro l
              have hl := h l
              simp only [Network.setClient, passOn, List.count_append, List.count_singleton]
              by_cases hlj : l = j
              · subst hlj
                simp only [hwire, List.length_cons, Function.update_self, List.tail_cons,
                  beq_self_eq_true, if_true] at hl ⊢
                omega
              · simpa [Function.update_of_ne hlj, Ne.symm hlj] using hl
  | toServer i =>
      simp only [Xsrq.step] at hs
      cases hwire : (N.client i).wire soleQp with
      | nil =>
          simp only [hwire] at hs
          cases hs
      | cons r rest =>
          simp only [hwire] at hs
          split_ifs at hs
          cases hs
          have hsame : (receive N.server (P.qpNum i)).wire = N.server.wire ∧
              (receive N.server (P.qpNum i)).ppCnt = N.server.ppCnt := by
            rw [receive_eq hsound.desk.books (P.qpNum i) (hsound.room hwire)]
            exact ⟨rfl, rfl⟩
          exact h.of_same (by simp) hsame.1 hsame.2
  | ackServer j =>
      simp only [Xsrq.step] at hs
      split_ifs at hs
      obtain ⟨x', hx, rfl⟩ := Option.map_eq_some_iff.mp hs
      obtain ⟨_, hpp, _, hwire, _, _⟩ := acknowledge_same hx
      exact h.of_same (by simp) hwire hpp
  | ackClient i =>
      simp only [Xsrq.step] at hs
      split_ifs at hs
      obtain ⟨y', hy, rfl⟩ := Option.map_eq_some_iff.mp hs
      exact h.of_same (by simp) rfl rfl

/-- At most `num_tests` messages pass through each queue pair of the server, and
exactly as many once somebody leaves, although the clients' messages take turns
on all of them. -/
theorem each_pair_carries_num_tests (hT : 0 < P.numTests)
    (h : Runs.run (step P) (start P) es = some N) (j : Fin n) :
    es.count (.toClient j) ≤ P.numTests ∧
      ((N.server.phase.leaving = true ∨ ∃ i, (N.client i).phase.leaving = true) →
        es.count (.toClient j) = P.numTests) := by
  have hloaded : Loaded es N := Runs.history_invariant (I := Loaded)
    (fun j => by simp [start, Settings.connected, RoundRobin.carried_zero])
    (fun hrun hl hs => by
      obtain ⟨hops, hsound⟩ := sound_of_run hT hrun
      exact hl.step hsound hT hs) h
  obtain ⟨hops, hsound⟩ := sound_of_run hT h
  have hj := hloaded j
  have hle := RoundRobin.carried_le hsound.desk.books.uses j
  have htests : P.server.numTests = P.numTests := rfl
  refine ⟨by omega, fun hleaving => ?_⟩
  have hall := hsound.hops_of_heard (hsound.past_of_leaving hleaving)
  have hsent : N.server.ppCnt = fun _ => P.numTests := by
    funext i
    exact ((hall i ▸ (hsound.pair i).hops).complete hT).2.1
  rw [(hsound.settled hT hall).toClient j, hsent, RoundRobin.carried_const] at hj
  exact hj

theorem each_pair_carries_num_tests_twoClients :
    ∃ N, Runs.run (step twoClients) (start twoClients) twoClientsRun = some N ∧
      twoClientsRun.count (.toClient 1) = 2 := by
  obtain ⟨N, hN, hleaving⟩ := Option.map_eq_some_iff.mp twoClients_leave
  exact ⟨N, hN, (each_pair_carries_num_tests (P := twoClients) (by decide) hN 1).2 (.inl hleaving)⟩

end CppPlayground.Xsrq
