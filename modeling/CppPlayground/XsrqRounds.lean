import CppPlayground.XsrqLanes

/-!
# Runs of xsrq_pingpong

What a step changes on the server's side and on one client's, and from it the
invariant of all runs, with a weight that every step lowers.
-/
namespace CppPlayground.Xsrq
open PingPong (soleQp)
open RoundRobin (carried turn)

section Weight
variable {m : ℕ} {S : Settings m} {x x' : Process m}

/-- How far a process is from its end, but for the messages to come. -/
def rank (S : Settings m) (x : Process m) : ℕ :=
  match x.phase with
  | .opening k => 8 * (m - k) + (8 * m + 26)
  | .test => 8 * m + if S.useEvent = false ∧ x.cnt < m * S.numTests then 25 else 22
  | .waiting => 8 * m + 21
  | .notify => 8 * m + 25
  | .poll => 8 * m + 24
  | .flush k => m - k + (7 * m + 8)
  | .acks i msg => 5 * (m - i) - msg.length + if S.server then m + 3 else 2
  | .grants i => m - i + if S.server then 2 else 5 * m + 4
  | .closing => 1
  | .closed | .failed => 0

def weight (S : Settings m) (x : Process m) : ℕ :=
  ∑ j, (7 * (x.wire j).length + (x.unacked j).length) + 5 * x.events + rank S x

theorem Turn.weight (h : Turn S x x') (hwithin : x.phase.Within m) :
    weight S x' + 1 ≤ weight S x := by
  have hrank : 5 * x'.events + rank S x' + 1 ≤ 5 * x.events + rank S x := by
    unfold rank
    cases h with
    | again hp hcnt =>
        cases hu : S.useEvent with
        | false =>
            simp only [hp, hcnt, and_self, if_true, Bool.false_eq_true, if_false]
            omega
        | true =>
            simp only [hp, Bool.true_eq_false, false_and, if_true, if_false]
            omega
    | drained hp hcq hmore =>
        have hstay : ¬(S.useEvent = false ∧ x.cnt < m * S.numTests) := by
          rintro ⟨hu, hlt⟩
          rcases hmore with hmore | hmore
          · rw [hu] at hmore
            cases hmore
          · omega
        simp only [hp, if_neg hstay]
        omega
    | leave hp hcnt =>
        have hstay : ¬(S.useEvent = false ∧ x.cnt < m * S.numTests) := fun hc => by omega
        simp only [hp, if_neg hstay]
        omega
    | opened hp hk =>
        simp only [hp]
        split_ifs <;> omega
    | @heard i msg hp hi hmsg =>
        rw [hp] at hwithin
        have hlen := hwithin.2
        unfold terminationMsgSize at hlen hmsg
        rw [hp]
        split_ifs <;> simp only [List.length_nil] <;> omega
    | told hp hi =>
        rw [hp]
        cases S.server <;> simp only [Bool.false_eq_true, if_false, if_true] <;> omega
    | flushed hp hk =>
        rw [hp]
        cases S.server <;> simp only [Bool.false_eq_true, if_false, if_true, List.length_nil] <;>
          omega
    | said hp hi =>
        rw [hp]
        cases S.server <;> simp only [Bool.false_eq_true, if_false, if_true, List.length_nil] <;>
          omega
    | wake hp he | rearm hp | say hp he | close hp he =>
        simp only [hp, sendTerminationAck]
        omega
  have hidle := h.idle
  unfold Xsrq.weight
  rw [hidle.wire, hidle.unacked]
  omega

/-- A send adds a message. -/
theorem weight_post (h : Books S x) {i : Fin m} (hi : x.ppCnt i < S.numTests) :
    ∑ j, (7 * ((ppPostSend S x i).wire j).length + ((ppPostSend S x i).unacked j).length) =
      ∑ j, (7 * (x.wire j).length + (x.unacked j).length) + 7 := by
  have hchange := Tally.sum_update (fun j w => 7 * List.length w + (x.unacked j).length) x.wire
    (turn i (x.ppCnt i)) (x.wire (turn i (x.ppCnt i)) ++
      [⟨i, S.srqn i, S.numTests ≤ x.ppCnt i + 1⟩])
  rw [ppPostSend_eq h hi]
  rw [List.length_append, List.length_singleton] at hchange
  simp only at hchange ⊢
  omega

theorem Advance.weight (h : Advance S x x') (hb : Books S x) (hc : Control S x)
    (hT : 0 < S.numTests) (hfind : ∀ qpn ∈ x.recvCq, ∃ i, findQp S qpn = some i) :
    weight S x' + 1 ≤ weight S x ∨
      (x.phase = .poll ∧ x.recvCq ≠ [] ∧ weight S x' ≤ weight S x + 7) := by
  cases h with
  | @post k hp hk =>
      refine .inl ?_
      have hzero := hc.opening k hp ⟨k, hk⟩ (le_refl k)
      have hpost := weight_post hb (i := ⟨k, hk⟩) (by omega)
      have hsame := (ppPostSend_posting S x ⟨k, hk⟩).1
      simp only [Xsrq.weight, rank, hp, hpost, hsame.events]
      omega
  | @serve qpn rest hp hcq =>
      refine .inr ⟨hp, by simp [hcq], ?_⟩
      obtain ⟨i, hi⟩ := hfind qpn (by simp [hcq])
      have hsame := (serve_posting S { x with recvCq := rest } qpn).1
      have hphase := hsame.phase.trans hp
      have hsum : ∑ j, (7 * ((Xsrq.serve S { x with recvCq := rest } qpn).wire j).length +
          ((Xsrq.serve S { x with recvCq := rest } qpn).unacked j).length) ≤
          ∑ j, (7 * (x.wire j).length + (x.unacked j).length) + 7 := by
        have hposted := hb.posted
        rw [hcq, List.length_cons] at hposted
        have hbooks : Books S { x with
            recvCq := rest, recvQueue := x.recvQueue + 1, cnt := x.cnt + 1 } :=
          ⟨hb.uses, hb.slots, hb.asked, by simp only; omega, hb.room, hb.ready⟩
        rw [serve_eq hb hcq hi]
        by_cases hmore : x.ppCnt i < S.numTests
        · simp only [if_pos hmore]
          exact (weight_post hbooks hmore).le
        · simp only [if_neg hmore]
          omega
      have hevents : (Xsrq.serve S { x with recvCq := rest } qpn).events = x.events := hsame.events
      generalize Xsrq.serve S { x with recvCq := rest } qpn = y at hphase hevents hsum ⊢
      simp only [Xsrq.weight, rank, hphase, hp, hevents]
      omega
  | collect hp hk hcq =>
      refine .inl ?_
      simp only [Xsrq.weight, rank, hp]
      omega
  | turn h => exact .inl (h.weight hc.within)

theorem weight_receive (S : Settings m) (x : Process m) (qpn : ℕ) :
    weight S (receive x qpn) ≤ weight S x + 5 := by
  have harmed := x.armed.toNat_le
  unfold receive
  split_ifs
  · simp only [weight, rank]
    omega
  · exact Nat.le_add_right _ _
  · exact Nat.le_add_right _ _

theorem weight_passOn {j : Fin m} {r : Request} {rest : List Request} (h : x.wire j = r::rest) :
    weight S (passOn x j r) + 6 = weight S x := by
  have hchange := Tally.sum_change (f := fun l => 7 * (x.wire l).length + (x.unacked l).length)
    (g := fun l => 7 * ((passOn x j r).wire l).length + ((passOn x j r).unacked l).length) j
    fun l hl => by simp only [passOn, Function.update_of_ne hl]
  have hrank : rank S (passOn x j r) = rank S x := rfl
  have hevents : (passOn x j r).events = x.events := rfl
  simp only [passOn, Function.update_self, h, List.tail_cons, List.length_cons,
    List.length_append, List.length_nil] at hchange
  simp only [weight, hrank, hevents]
  simp only [passOn, h, List.tail_cons]
  omega

theorem weight_acknowledge {j : Fin m} (hs : acknowledge x j = some x') :
    weight S x' + 1 ≤ weight S x := by
  unfold acknowledge at hs
  cases hunacked : x.unacked j with
  | nil =>
      simp only [hunacked] at hs
      cases hs
  | cons r rest =>
      have hchange := Tally.sum_update (fun l u => 7 * (x.wire l).length + List.length u)
        x.unacked j rest
      rw [hunacked, List.length_cons] at hchange
      simp only [hunacked] at hs
      split_ifs at hs <;> cases hs <;> simp only [weight, rank] <;> omega

theorem weight_hear {bytes : List UInt8} (hs : hear x bytes = some x') {i : Fin m}
    (hawaits : x.phase.awaits = some (i : ℕ)) : weight S x' + 1 ≤ weight S x := by
  obtain ⟨l, msg, hp, hne, hlen, rfl⟩ := hear_eq hs
  have hl : l = i := by
    rw [hp, Phase.awaits] at hawaits
    split_ifs at hawaits
    simpa using hawaits
  have hpos := List.length_pos_iff.mpr hne
  have hlt := i.isLt
  unfold terminationMsgSize at hlen
  simp only [weight, rank, hp, List.length_append]
  omega

end Weight

variable {n : ℕ} {P : Program n} {x x' : Process n} {y y' : Process 1} {i : Fin n}

def Phase.opened (i : ℕ) : Phase → Bool
  | .opening k => i < k
  | _ => true

/-- The messages for a client in the server's queue pairs. -/
def flying (P : Program n) (wire : Fin n → List Request) (i : Fin n) : ℕ :=
  ∑ j, (wire j).countP fun r => r.srqn = P.clientSrqn i

def lane (P : Program n) (x : Process n) (y : Process 1) (i : Fin n) : Lane where
  opened := x.phase.opened i
  sent := x.ppCnt i
  flying := flying P x.wire i
  queued := y.recvCq.length
  cnt := y.cnt
  replies := y.ppCnt soleQp
  replying := (y.wire soleQp).length
  arrived := x.recvCq.count (P.qpNum i)

theorem flying_append (wire : Fin n → List Request) (j : Fin n) (r : Request)
    (i : Fin n) : flying P (Function.update wire j (wire j ++ [r])) i =
      flying P wire i + if r.srqn = P.clientSrqn i then 1 else 0 := by
  have hchange := Tally.sum_update
    (fun _ w => List.countP (fun r => decide (r.srqn = P.clientSrqn i)) w) wire j (wire j ++ [r])
  rw [List.countP_append, List.countP_singleton] at hchange
  simp only [decide_eq_true_eq] at hchange
  unfold flying
  omega

theorem flying_tail {wire : Fin n → List Request} {j : Fin n} {r : Request} {rest : List Request}
    (h : wire j = r::rest) (i : Fin n) : flying P (Function.update wire j (wire j).tail) i +
      (if r.srqn = P.clientSrqn i then 1 else 0) = flying P wire i := by
  have hchange := Tally.sum_update
    (fun _ w => List.countP (fun r => decide (r.srqn = P.clientSrqn i)) w) wire j (wire j).tail
  rw [h, List.tail_cons, List.countP_cons] at hchange
  simp only [decide_eq_true_eq] at hchange
  rw [h, List.tail_cons]
  unfold flying
  omega

theorem lane_post (hb : Books P.server x) {k : Fin n} (hk : x.ppCnt k < P.numTests)
    (y : Process 1) (i : Fin n) : lane P (ppPostSend P.server x k) y i =
      if k = i then
        { lane P x y i with
          sent := (lane P x y i).sent + 1, flying := (lane P x y i).flying + 1 }
      else lane P x y i := by
  rw [ppPostSend_eq hb hk]
  unfold lane
  rw [flying_append]
  by_cases hki : k = i
  · subst hki
    simp only [Program.server, if_true, Function.update_self]
  · have hne : P.server.srqn k ≠ P.clientSrqn i := fun he => hki (P.clientSrqn_inj he)
    simp only [if_neg hki, if_neg hne, Function.update_of_ne (Ne.symm hki), Nat.add_zero]

theorem lane_idle (h : Idle x x') (hopened : x'.phase.opened i = x.phase.opened i)
    (y : Process 1) : lane P x' y i = lane P x y i := by
  unfold lane
  rw [hopened, h.ppCnt, h.wire, h.recvCq]

theorem Turn.opened_eq {S : Settings n} (h : Turn S x x') (i : Fin n) :
    x'.phase.opened i = x.phase.opened i := by
  have hlt := i.isLt
  cases h with
  | @opened k hp hk =>
      rw [hp]
      simp only [Phase.opened]
      exact (decide_eq_true (by omega)).symm
  | again hp _ =>
      rw [hp]
      cases S.useEvent <;> rfl
  | heard hp _ _ =>
      rw [hp]
      split_ifs <;> rfl
  | flushed hp _ | told hp _ | said hp _ =>
      rw [hp]
      cases S.server <;> rfl
  | leave hp _ | wake hp _ | rearm hp | drained hp _ _ | say hp _ | close hp _ =>
      rw [hp]
      rfl

/-- The server answers client `i` and nobody else. -/
theorem lane_serve (hb : Books P.server x) {i : Fin n} {rest : List ℕ}
    (hcq : x.recvCq = P.qpNum i::rest) (y : Process 1) (l : Fin n) :
    lane P (serve P.server { x with recvCq := rest } (P.qpNum i)) y l =
      if i = l then
        if (lane P x y l).sent < P.numTests then
          { lane P x y l with
            arrived := (lane P x y l).arrived - 1, sent := (lane P x y l).sent + 1
            flying := (lane P x y l).flying + 1 }
        else { lane P x y l with arrived := (lane P x y l).arrived - 1 }
      else lane P x y l := by
  have hposted := hb.posted
  rw [hcq, List.length_cons] at hposted
  have hbooks : Books P.server { x with
      recvCq := rest, recvQueue := x.recvQueue + 1, cnt := x.cnt + 1 } :=
    ⟨hb.uses, hb.slots, hb.asked, by simp only; omega, hb.room, hb.ready⟩
  have hcount : rest.count (P.qpNum l) =
      x.recvCq.count (P.qpNum l) - if i = l then 1 else 0 := by
    rw [hcq, List.count_cons]
    by_cases hil : i = l
    · subst hil
      simp
    · have hne : P.qpNum i ≠ P.qpNum l := fun he => hil (P.qpNum_inj he)
      simp [hil, hne]
  have hquiet : lane P { x with
      recvCq := rest, recvQueue := x.recvQueue + 1, cnt := x.cnt + 1 } y l =
      { lane P x y l with arrived := (lane P x y l).arrived - if i = l then 1 else 0 } := by
    unfold lane
    simp only [hcount]
  rw [serve_eq hb hcq (findQp_qpNum (S := P.server) P.qpNum_inj i)]
  simp only [show P.server.numTests = P.numTests from rfl]
  by_cases hmore : x.ppCnt i < P.numTests
  · rw [if_pos hmore, lane_post hbooks hmore, hquiet]
    by_cases hil : i = l
    · subst hil
      simp only [if_true]
      rw [if_pos (show (lane P x y i).sent < P.numTests from hmore)]
    · simp only [if_neg hil, Nat.sub_zero]
  · rw [if_neg hmore, hquiet]
    by_cases hil : i = l
    · subst hil
      simp only [if_true]
      rw [if_neg (show ¬(lane P x y i).sent < P.numTests from hmore)]
    · simp only [if_neg hil, Nat.sub_zero]

/-- A client answers while it has sends left. -/
theorem lane_client_serve (hb : Books (P.client i) y) (hmore : y.ppCnt soleQp < P.numTests)
    {qpn : ℕ} {rest : List ℕ} (hcq : y.recvCq = qpn::rest) (x : Process n) (l : Fin n) :
    lane P x (serve (P.client i) { y with recvCq := rest } qpn) l =
      { lane P x y l with
        queued := (lane P x y l).queued - 1, cnt := (lane P x y l).cnt + 1
        replies := (lane P x y l).replies + 1, replying := (lane P x y l).replying + 1 } := by
  have hposted := hb.posted
  rw [hcq, List.length_cons] at hposted
  have hbooks : Books (P.client i) { y with
      recvCq := rest, recvQueue := y.recvQueue + 1, cnt := y.cnt + 1 } :=
    ⟨hb.uses, hb.slots, hb.asked, by simp only; omega, hb.room, hb.ready⟩
  have hfind : findQp (P.client i) qpn = some soleQp := rfl
  have hturn : turn soleQp (y.ppCnt soleQp) = soleQp := Subsingleton.elim _ _
  rw [serve_eq hb hcq hfind]
  simp only [show (P.client i).numTests = P.numTests from rfl, if_pos hmore]
  rw [ppPostSend_eq hbooks hmore]
  unfold lane
  simp only [hturn, Function.update_self, List.length_append, hcq, List.length_cons,
    Nat.add_sub_cancel, List.length_nil, Nat.zero_add]

theorem lane_client_idle (h : Idle y y') (x : Process n) (l : Fin n) :
    lane P x y' l = lane P x y l := by
  unfold lane
  rw [h.recvCq, h.cnt, h.ppCnt, h.wire]

/-- What the server keeps by itself. -/
structure Desk (P : Program n) (x : Process n) : Prop where
  books : Books P.server x
  control : Control P.server x
  known : ∀ qpn ∈ x.recvCq, ∃ i, P.qpNum i = qpn
  named : ∀ j, ∀ r ∈ x.wire j, ∃ i, P.clientSrqn i = r.srqn
  up : x.phase ≠ .failed

/-- What the server and client `i` keep together, after `t` hops. -/
structure Pair (P : Program n) (x : Process n) (y : Process 1) (i : Fin n) (t : ℕ) : Prop where
  books : Books (P.client i) y
  control : Control (P.client i) y
  hops : (lane P x y i).After P.numTests t
  toServer : Told false y soleQp true x i
  toClient : Told true x i false y soleQp
  up : y.phase ≠ .failed
  begun : ∀ k, y.phase ≠ .opening k

structure Sound (P : Program n) (N : Network n) (hops : Fin n → ℕ) : Prop where
  desk : Desk P N.server
  pair : ∀ i, Pair P N.server (N.client i) i (hops i)
  cnt : N.server.cnt = ∑ i, hops i / 2

/-- The steps left to everyone. -/
def remaining (P : Program n) (N : Network n) (hops : Fin n → ℕ) : ℕ :=
  weight P.server N.server + ∑ i, (weight (P.client i) (N.client i) + 8 * (2 * P.numTests - hops i))

/-- A step of the network under which the invariant survives, with the hops it makes. -/
def Kept (P : Program n) (N : Network n) (hops : Fin n → ℕ) (N' : Network n) : Prop :=
  ∃ hops', Sound P N' hops' ∧ remaining P N' hops' + 1 ≤ remaining P N hops

variable {N N' : Network n} {hops : Fin n → ℕ}

theorem Sound.sane (h : Sound P N hops) : Sane P.server N.server := fun i hlen =>
  ((h.pair i).toServer.of_full (S := P.client i) hlen).1

theorem Pair.sane {t : ℕ} (h : Pair P x y i t) : Sane (P.client i) y := by
  intro l hlen
  have hl : l = soleQp := Subsingleton.elim l soleQp
  subst hl
  exact (h.toClient.of_full (S := P.server) hlen).1

theorem Desk.find (h : Desk P x) : ∀ qpn ∈ x.recvCq, ∃ i, findQp P.server qpn = some i := by
  intro qpn hmem
  obtain ⟨i, rfl⟩ := h.known qpn hmem
  exact ⟨i, findQp_qpNum (S := P.server) P.qpNum_inj i⟩

theorem find_client (i : Fin n) : ∀ qpn ∈ y.recvCq, ∃ l, findQp (P.client i) qpn = some l :=
  fun _ _ => ⟨soleQp, rfl⟩

/-- The server and one client change, the others' lanes do not. -/
theorem Sound.update (h : Sound P N hops) {x' : Process n} {y' : Process 1} {t : ℕ}
    (hdesk : Desk P x') (hpair : Pair P x' y' i t)
    (hothers : ∀ l, l ≠ i → Pair P x' (N.client l) l (hops l))
    (hcnt : x'.cnt + hops i / 2 = N.server.cnt + t / 2) :
    Sound P ({ N with server := x' }.setClient i y') (Function.update hops i t) := by
  refine ⟨hdesk, fun l => ?_, ?_⟩
  · by_cases hl : l = i
    · subst hl
      simpa only [Network.setClient, Function.update_self] using hpair
    · simpa only [Network.setClient, Function.update_of_ne hl] using hothers l hl
  · have hchange := Tally.sum_update (fun _ t => t / 2) hops i t
    have hbefore := h.cnt
    simp only [Network.setClient] at hchange ⊢
    omega

theorem remaining_update (N : Network n) (hops : Fin n → ℕ) (x' : Process n) (y' : Process 1)
    (i : Fin n) (t : ℕ) :
    remaining P ({ N with server := x' }.setClient i y') (Function.update hops i t) +
        (weight P.server N.server + weight (P.client i) (N.client i) +
          8 * (2 * P.numTests - hops i)) =
      remaining P N hops +
        (weight P.server x' + weight (P.client i) y' + 8 * (2 * P.numTests - t)) := by
  have hchange := Tally.sum_change
    (f := fun l => weight (P.client l) (N.client l) + 8 * (2 * P.numTests - hops l))
    (g := fun l => weight (P.client l) (Function.update N.client i y' l) +
      8 * (2 * P.numTests - Function.update hops i t l)) i fun l hl => by
        simp only [Function.update_of_ne hl]
  simp only [Function.update_self] at hchange
  unfold remaining Network.setClient
  simp only
  omega

/-- A step of the server alone. -/
theorem Sound.of_server (h : Sound P N hops) {x' : Process n} (hdesk : Desk P x')
    (hpair : ∀ i, Pair P x' (N.client i) i (hops i)) (hcnt : x'.cnt = N.server.cnt)
    (hweight : weight P.server x' + 1 ≤ weight P.server N.server) :
    Kept P N hops { N with server := x' } := by
  refine ⟨hops, ⟨hdesk, hpair, hcnt.trans h.cnt⟩, ?_⟩
  unfold remaining
  simp only
  omega

/-- A step of the server and one client. -/
theorem Sound.of_both (h : Sound P N hops) {x' : Process n} {y' : Process 1} {t : ℕ}
    (hdesk : Desk P x') (hpair : Pair P x' y' i t)
    (hothers : ∀ l, l ≠ i → Pair P x' (N.client l) l (hops l))
    (hcnt : x'.cnt + hops i / 2 = N.server.cnt + t / 2)
    (hweight : weight P.server x' + weight (P.client i) y' + 8 * (2 * P.numTests - t) + 1 ≤
      weight P.server N.server + weight (P.client i) (N.client i) +
        8 * (2 * P.numTests - hops i)) :
    Kept P N hops ({ N with server := x' }.setClient i y') := by
  refine ⟨_, h.update hdesk hpair hothers hcnt, ?_⟩
  have hremaining := remaining_update (P := P) N hops x' y' i t
  omega

/-- A step of one client alone. -/
theorem Sound.of_client (h : Sound P N hops) {y' : Process 1} {t : ℕ}
    (hpair : Pair P N.server y' i t) (hhalf : t / 2 = hops i / 2)
    (hweight : weight (P.client i) y' + 8 * (2 * P.numTests - t) + 1 ≤
      weight (P.client i) (N.client i) + 8 * (2 * P.numTests - hops i)) :
    Kept P N hops (N.setClient i y') :=
  h.of_both h.desk hpair (fun l _ => h.pair l) (by omega) (by omega)

/-- A process sends its first messages once. -/
theorem Advance.begun {m : ℕ} {S : Settings m} {z z' : Process m} (h : Advance S z z')
    (hz : ∀ k, z.phase ≠ .opening k) : ∀ k, z'.phase ≠ .opening k := by
  cases h with
  | @post k hp hk => exact absurd hp (hz k)
  | @serve qpn rest hp hcq =>
      have hphase := (serve_posting S { z with recvCq := rest } qpn).1.phase.trans hp
      intro k
      rw [hphase]
      simp
  | collect hp _ _ => simp
  | turn hturn =>
      cases hturn with
      | again _ _ => cases S.useEvent <;> simp
      | flushed _ _ | told _ _ | said _ _ => cases S.server <;> simp
      | heard _ _ _ => split_ifs <;> simp
      | opened _ _ | leave _ _ | wake _ _ | rearm _ | drained _ _ _ | say _ _ | close _ _ => simp

theorem Desk.advance (h : Desk P x) (hT : 0 < P.numTests) (hsane : Sane P.server x)
    (hs : Advance P.server x x') : Desk P x' := by
  refine ⟨h.books.advance h.control hT h.find hs, h.control.advance h.books hT hs, ?_, ?_,
    hs.unfailed hsane⟩
  · cases hs with
    | @post k hp hk =>
        have hsame := (ppPostSend_posting P.server x ⟨k, hk⟩).1.recvCq
        exact fun q hq => h.known q (hsame ▸ hq)
    | @serve qpn rest hp hcq =>
        have hsame := (serve_posting P.server { x with recvCq := rest } qpn).1.recvCq
        rw [hsame]
        exact fun q hq => h.known q (hcq ▸ List.mem_cons_of_mem _ hq)
    | collect _ _ _ => exact h.known
    | turn hturn => exact hturn.idle.recvCq ▸ h.known
  · have hpost : ∀ {z : Process n} {k : Fin n}, Books P.server z → z.ppCnt k < P.numTests →
        (∀ j, ∀ r ∈ z.wire j, ∃ i, P.clientSrqn i = r.srqn) →
        ∀ j, ∀ r ∈ (ppPostSend P.server z k).wire j, ∃ i, P.clientSrqn i = r.srqn := by
      intro z k hb hk hz j r hr
      rw [ppPostSend_eq hb hk] at hr
      by_cases hj : j = turn k (z.ppCnt k)
      · subst hj
        simp only [Function.update_self, List.mem_append, List.mem_singleton] at hr
        rcases hr with hr | rfl
        · exact hz _ r hr
        · exact ⟨k, rfl⟩
      · simp only [Function.update_of_ne hj] at hr
        exact hz j r hr
    cases hs with
    | @post k hp hk =>
        have hzero := h.control.opening k hp ⟨k, hk⟩ (le_refl k)
        exact hpost h.books (by omega) h.named
    | @serve qpn rest hp hcq =>
        obtain ⟨i, hi⟩ := h.find qpn (by simp [hcq])
        have hposted := h.books.posted
        rw [hcq, List.length_cons] at hposted
        rw [serve_eq h.books hcq hi]
        split_ifs with hmore
        · exact hpost ⟨h.books.uses, h.books.slots, h.books.asked, by simp only; omega,
            h.books.room, h.books.ready⟩ hmore h.named
        · exact h.named
    | collect _ _ _ => exact h.named
    | turn hturn => exact hturn.idle.wire ▸ h.named

theorem Pair.server_advance {t t' : ℕ} (h : Pair P x y i t) (hsane : Sane P.server x)
    (hs : Advance P.server x x') (hlane : (lane P x' y i).After P.numTests t') :
    Pair P x' y i t' :=
  ⟨h.books, h.control, hlane, Told.hears (S := P.server) h.toServer hs hsane,
    Told.speaks (S := P.server) h.toClient hs hsane, h.up, h.begun⟩

theorem Pair.client_advance {t t' : ℕ} (h : Pair P x y i t) (hT : 0 < P.numTests)
    (hs : Advance (P.client i) y y') (hlane : (lane P x y' i).After P.numTests t') :
    Pair P x y' i t' :=
  ⟨h.books.advance h.control hT (find_client i) hs, h.control.advance h.books hT hs, hlane,
    Told.speaks (S := P.client i) h.toServer hs h.sane,
    Told.hears (S := P.client i) h.toClient hs h.sane, hs.unfailed h.sane, hs.begun h.begun⟩

theorem Sound.server (h : Sound P N hops) (hT : 0 < P.numTests)
    (hs : Advance P.server N.server x') : Kept P N hops { N with server := x' } := by
  have hsane := h.sane
  have hdesk := h.desk.advance hT hsane hs
  have hweight := hs.weight h.desk.books h.desk.control hT h.desk.find
  have hpair : ∀ i {t}, (lane P x' (N.client i) i).After P.numTests t →
      Pair P x' (N.client i) i t := fun i _ hl => (h.pair i).server_advance hsane hs hl
  cases hs with
  | @post k hp hk =>
      have hzero := h.desk.control.opening k hp ⟨k, hk⟩ (le_refl k)
      have hlane : ∀ i, lane P { ppPostSend P.server N.server ⟨k, hk⟩ with
          phase := .opening (k + 1) } (N.client i) i =
          { lane P (ppPostSend P.server N.server ⟨k, hk⟩) (N.client i) i with
            opened := decide ((i : ℕ) < k + 1) } := fun i => rfl
      refine h.of_server hdesk (fun i => hpair i ?_) (ppPostSend_posting _ _ _).2
        (hweight.resolve_right fun hc => by simp [hp] at hc)
      have hi := (h.pair i).hops
      rw [hlane, lane_post h.desk.books (show N.server.ppCnt ⟨k, hk⟩ < P.numTests by omega)]
      by_cases hki : ⟨k, hk⟩ = i
      · subst hki
        have hunopened : (lane P N.server (N.client ⟨k, hk⟩) ⟨k, hk⟩).opened = false := by
          simp [lane, hp, Phase.opened]
        simpa using hi.serve_first hT hunopened
      · have hne : k ≠ i := fun he => hki (Fin.ext he)
        have hopened : decide ((i : ℕ) < k + 1) =
            (lane P N.server (N.client i) i).opened := by
          simp only [lane, hp, Phase.opened, decide_eq_decide]
          omega
        rw [if_neg hki, hopened]
        exact hi
  | @serve qpn rest hp hcq =>
      obtain ⟨i, rfl⟩ := h.desk.known qpn (by simp [hcq])
      have hlane := lane_serve h.desk.books hcq
      have hcnt := (serve_posting P.server { N.server with recvCq := rest } (P.qpNum i)).2
      have hi := (h.pair i).hops
      have harrived : 0 < (lane P N.server (N.client i) i).arrived := by
        simp [lane, hcq]
      have hback := hi.back
      have hle := hi.le
      have hnew : (lane P (Xsrq.serve P.server { N.server with recvCq := rest } (P.qpNum i))
          (N.client i) i).After P.numTests (hops i + 1) := by
        rw [hlane, if_pos rfl]
        exact hi.answer harrived
      have hkept := h.of_both hdesk (hpair i hnew) (fun l hl => hpair l (by
        rw [hlane, if_neg (Ne.symm hl)]
        exact (h.pair l).hops)) (by rw [hcnt]; simp only; omega) (by
          rcases hweight with hw | ⟨_, _, hw⟩ <;> omega)
      rwa [Network.setClient, Function.update_eq_self] at hkept
  | collect hp hk hcq =>
      refine h.of_server hdesk (fun i => hpair i ?_) rfl
        (hweight.resolve_right fun hc => by simp [hp] at hc)
      have hi := (h.pair i).hops
      unfold lane at hi ⊢
      rw [hp] at hi
      exact hi
  | turn hturn =>
      refine h.of_server hdesk (fun i => hpair i ?_) hturn.idle.cnt
        (hturn.weight h.desk.control.within)
      rw [lane_idle hturn.idle (hturn.opened_eq i)]
      exact (h.pair i).hops

theorem Sound.client (h : Sound P N hops) (hT : 0 < P.numTests)
    (hs : Advance (P.client i) (N.client i) y') : Kept P N hops (N.setClient i y') := by
  have hi := h.pair i
  have hweight := hs.weight hi.books hi.control hT (find_client i)
  have hpair : ∀ {t}, (lane P N.server y' i).After P.numTests t →
      Pair P N.server y' i t := fun hl => hi.client_advance hT hs hl
  cases hs with
  | @post k hp hk => exact absurd hp (hi.begun k)
  | @serve qpn rest hp hcq =>
      have hqueued : 0 < (lane P N.server (N.client i) i).queued := by simp [lane, hcq]
      obtain ⟨_, heven, hlt, _, _⟩ := hi.hops.queue hqueued
      have hreplies : (N.client i).ppCnt soleQp = (hops i + 1) / 2 := hi.hops.replies
      have hlane := lane_client_serve hi.books (by omega) hcq N.server i
      refine h.of_client (hpair (t := hops i + 1) ?_) (by omega) ?_
      · rw [hlane]
        exact hi.hops.reply hqueued
      · rcases hweight with hw | ⟨_, _, hw⟩ <;> omega
  | collect hp hk hcq =>
      refine h.of_client (hpair hi.hops) rfl ?_
      have hw := hweight.resolve_right fun hc => by simp [hp] at hc
      omega
  | turn hturn =>
      refine h.of_client (hpair (t := hops i) ?_) rfl ?_
      · rw [lane_client_idle hturn.idle]
        exact hi.hops
      · have hw := hturn.weight hi.control.within
        omega

theorem Desk.passOn (h : Desk P x) {j : Fin n} {r : Request} {rest : List Request}
    (hwire : x.wire j = r::rest) : Desk P (passOn x j r) := by
  refine ⟨h.books.passOn hwire, h.control.passOn j r, h.known, fun l q hq => ?_, h.up⟩
  by_cases hl : l = j
  · subst hl
    simp only [Xsrq.passOn, Function.update_self] at hq
    exact h.named l q (List.mem_of_mem_tail hq)
  · simp only [Xsrq.passOn, Function.update_of_ne hl] at hq
    exact h.named l q hq

/-- A message of the server arrives at the client whose queue it names. -/
theorem Sound.toClient (h : Sound P N hops) {j : Fin n} {r : Request} {rest : List Request}
    (hwire : N.server.wire j = r::rest) (hi : PingPong.findQp P.clientSrqn r.srqn = some i)
    (qpn : ℕ) : Kept P N hops
      ({ N with server := passOn N.server j r }.setClient i (receive (N.client i) qpn)) := by
  obtain ⟨i', hr⟩ := h.desk.named j r (by simp [hwire])
  rw [← hr, PingPong.findQp_qpNum P.clientSrqn_inj, Option.some.injEq] at hi
  subst hi
  have hpair := h.pair i'
  have htail := flying_tail (P := P) hwire i'
  rw [if_pos hr.symm] at htail
  have hflying : 0 < (lane P N.server (N.client i') i').flying := by
    simp only [lane]
    omega
  obtain ⟨_, _, _, hqueued, hone⟩ := hpair.hops.fly hflying
  have hroom : (N.client i').recvCq.length < 1 := by
    have hzero : (N.client i').recvCq.length = 0 := hqueued
    omega
  have hreceive := receive_eq hpair.books qpn hroom
  have hbooks := hpair.books.receive qpn hroom
  have hcontrol := hpair.control.receive qpn
  have hweight := weight_receive (P.client i') (N.client i') qpn
  have hpass := weight_passOn (S := P.server) hwire
  have hlane : (lane P (passOn N.server j r) (receive (N.client i') qpn) i').After P.numTests
      (hops i') := by
    have hdeliver := hpair.hops.deliver hflying
    rw [hreceive]
    simp only [lane, passOn, List.length_append, List.length_singleton] at hdeliver ⊢
    rwa [show flying P (Function.update N.server.wire j (N.server.wire j).tail) i' =
      flying P N.server.wire i' - 1 by omega]
  refine h.of_both (h.desk.passOn hwire) ⟨hbooks, hcontrol, hlane, ?_, ?_, ?_, ?_⟩
    (fun l hl => ?_) rfl (by omega)
  · rw [hreceive]
    exact hpair.toServer
  · rw [hreceive]
    exact hpair.toClient
  · rw [hreceive]
    exact hpair.up
  · rw [hreceive]
    exact hpair.begun
  · have hother := h.pair l
    refine ⟨hother.books, hother.control, ?_, hother.toServer, hother.toClient, hother.up,
      hother.begun⟩
    have hne : r.srqn ≠ P.clientSrqn l := fun he =>
      hl (P.clientSrqn_inj (he.symm.trans hr.symm))
    have htail := flying_tail (P := P) hwire l
    rw [if_neg hne, Nat.add_zero] at htail
    have hhops := hother.hops
    simp only [lane, passOn] at hhops ⊢
    rwa [htail]

/-- The server has room for a message of a client. -/
theorem Sound.room (h : Sound P N hops) {r : Request} {rest : List Request}
    (hwire : (N.client i).wire soleQp = r::rest) : N.server.recvCq.length < n := by
  have hlen : N.server.recvCq.length ≤ ∑ l, N.server.recvCq.count (P.qpNum l) := by
    rw [← List.countP_true]
    refine Tally.countP_le_sum _ _ fun q hq _ => ?_
    obtain ⟨l, hl⟩ := h.desk.known q hq
    exact ⟨l, hl.symm⟩
  have hle : ∀ l, N.server.recvCq.count (P.qpNum l) + (if l = i then 1 else 0) ≤ 1 := by
    intro l
    have hback := (h.pair l).hops.back
    simp only [lane] at hback
    split_ifs with hl
    · subst hl
      rw [hwire, List.length_cons] at hback
      omega
    · omega
  have hsum := Tally.sum_le_card hle
  rw [Finset.sum_add_distrib, Finset.sum_ite_eq' Finset.univ i, if_pos (Finset.mem_univ i),
    Fintype.card_fin] at hsum
  omega

/-- A message of a client arrives at the server. -/
theorem Sound.toServer (h : Sound P N hops) {r : Request} {rest : List Request}
    (hwire : (N.client i).wire soleQp = r::rest) : Kept P N hops
      ({ N with server := receive N.server (P.qpNum i) }.setClient i
        (passOn (N.client i) soleQp r)) := by
  have hpair := h.pair i
  have hroom := h.room hwire
  have hreceive := receive_eq h.desk.books (P.qpNum i) hroom
  have hweight := weight_receive P.server N.server (P.qpNum i)
  have hpass := weight_passOn (S := P.client i) hwire
  have hreplying : 0 < (lane P N.server (N.client i) i).replying := by
    simp [lane, hwire]
  have hdesk : Desk P (receive N.server (P.qpNum i)) := by
    refine ⟨h.desk.books.receive _ hroom, h.desk.control.receive _, ?_, ?_, ?_⟩
    · rw [hreceive]
      intro q hq
      rcases List.mem_append.mp hq with hq | hq
      · exact h.desk.known q hq
      · exact ⟨i, (List.mem_singleton.mp hq).symm⟩
    · rw [hreceive]
      exact h.desk.named
    · rw [hreceive]
      exact h.desk.up
  have hcount : ∀ l, (receive N.server (P.qpNum i)).recvCq.count (P.qpNum l) =
      N.server.recvCq.count (P.qpNum l) + if i = l then 1 else 0 := by
    intro l
    rw [hreceive]
    simp only [List.count_append, List.count_singleton, beq_iff_eq, P.qpNum_inj.eq_iff]
  have hlane :
      (lane P (receive N.server (P.qpNum i)) (passOn (N.client i) soleQp r) i).After P.numTests
      (hops i) := by
    have hland := hpair.hops.land hreplying
    have hnow := hcount i
    rw [if_pos rfl] at hnow
    simp only [lane, hnow]
    rw [hreceive]
    simpa [lane, passOn, hwire] using hland
  refine h.of_both hdesk ⟨hpair.books.passOn hwire, hpair.control.passOn soleQp r, hlane, ?_, ?_,
    hpair.up, hpair.begun⟩ (fun l hl => ?_) (by rw [hreceive]) (by omega)
  · rw [hreceive]
    exact hpair.toServer
  · rw [hreceive]
    exact hpair.toClient
  · have hother := h.pair l
    have hnow := hcount l
    rw [if_neg (Ne.symm hl), Nat.add_zero] at hnow
    refine ⟨hother.books, hother.control, ?_, ?_, ?_, hother.up, hother.begun⟩
    · have hhops := hother.hops
      simp only [lane, hnow]
      rw [hreceive]
      simpa only [lane] using hhops
    · rw [hreceive]
      exact hother.toServer
    · rw [hreceive]
      exact hother.toClient

theorem Sound.ackServer (h : Sound P N hops) {j : Fin n}
    (hs : acknowledge N.server j = some x') : Kept P N hops { N with server := x' } := by
  obtain ⟨hphase, hpp, hcnt, hwire, hcq, hout⟩ := acknowledge_same hs
  refine h.of_server ⟨h.desk.books.acknowledge hs, h.desk.control.acknowledge hs,
    hcq ▸ h.desk.known, hwire ▸ h.desk.named, hphase ▸ h.desk.up⟩ (fun i => ?_) hcnt
    (weight_acknowledge hs)
  have hi := h.pair i
  refine ⟨hi.books, hi.control, ?_, ?_, ?_, hi.up, hi.begun⟩
  · have hhops := hi.hops
    unfold lane at hhops ⊢
    rwa [hphase, hpp, hwire, hcq]
  · have htold := hi.toServer
    unfold Told at htold ⊢
    rwa [hphase]
  · have htold := hi.toClient
    unfold Told at htold ⊢
    rwa [hphase, hout]

theorem Sound.ackClient (h : Sound P N hops) (hs : acknowledge (N.client i) soleQp = some y') :
    Kept P N hops (N.setClient i y') := by
  obtain ⟨hphase, hpp, hcnt, hwire, hcq, hout⟩ := acknowledge_same hs
  have hi := h.pair i
  have hweight := weight_acknowledge (S := P.client i) hs
  refine h.of_client (t := hops i) ⟨hi.books.acknowledge hs, hi.control.acknowledge hs, ?_, ?_, ?_,
    hphase ▸ hi.up, hphase ▸ hi.begun⟩ rfl (by omega)
  · have hhops := hi.hops
    unfold lane at hhops ⊢
    rwa [hpp, hwire, hcq, hcnt]
  · have htold := hi.toServer
    unfold Told at htold ⊢
    rwa [hphase, hout]
  · have htold := hi.toClient
    unfold Told at htold ⊢
    rwa [hphase]

theorem hear_lane {bytes : List UInt8} (hs : hear x bytes = some x') (y : Process 1) (l : Fin n) :
    lane P x' y l = lane P x y l := by
  obtain ⟨k, msg, hp, _, _, rfl⟩ := hear_eq hs
  unfold lane
  rw [hp]
  rfl

theorem Sound.serverReads (h : Sound P N hops) {k : ℕ}
    (hawaits : N.server.phase.awaits = some (i : ℕ))
    (hs : hear N.server (((N.client i).out soleQp).take k) = some x') : Kept P N hops
      ({ N with server := x' }.setClient i
        { N.client i with out := fun _ => ((N.client i).out soleQp).drop k }) := by
  have hweight := weight_hear (S := P.server) hs hawaits
  have hsaid := hear_silent (S := P.server) hs
  obtain ⟨_, msg, hp, _, _, hx'⟩ := hear_eq hs
  have hdesk : Desk P x' := by
    refine ⟨h.desk.books.hear hs, h.desk.control.hear hs, ?_, ?_, ?_⟩ <;> rw [hx']
    · exact h.desk.known
    · exact h.desk.named
    · simp
  have hi := h.pair i
  refine h.of_both (t := hops i) hdesk ⟨hi.books.idle ?_ rfl, ?_, ?_, ?_, ?_, hi.up, hi.begun⟩
    (fun l hl => ?_) (by rw [hx']) (by
      have hsame : weight (P.client i) { N.client i with
          out := fun _ => ((N.client i).out soleQp).drop k } =
      weight (P.client i) (N.client i) := rfl
      omega)
  · exact ⟨rfl, rfl, rfl, rfl, rfl, rfl, rfl, rfl, rfl, rfl⟩
  · exact ⟨hi.control.within, hi.control.opening, hi.control.past, hi.control.event,
      hi.control.silent, hi.control.acked, hi.control.armed, hi.control.heard⟩
  · rw [hear_lane hs]
    exact hi.hops
  · exact Told.read (S := P.server) hi.toServer hawaits hs ⟨rfl, rfl⟩
  · exact Told.of_quiet (S := P.server) hi.toClient (hsaid i).1 (hsaid i).2
  · have hother := h.pair l
    have hne : N.server.phase.awaits ≠ some (l : ℕ) := fun he =>
      hl (Fin.ext (Option.some.inj (he.symm.trans hawaits)))
    refine ⟨hother.books, hother.control, ?_, ?_, ?_, hother.up, hother.begun⟩
    · rw [hear_lane hs]
      exact hother.hops
    · exact Told.of_deaf (S := P.server) hother.toServer (hear_others hs hne)
    · exact Told.of_quiet (S := P.server) hother.toClient (hsaid l).1 (hsaid l).2

theorem Sound.clientReads (h : Sound P N hops) {k : ℕ}
    (hawaits : (N.client i).phase.awaits = some 0)
    (hs : hear (N.client i) ((N.server.out i).take k) = some y') : Kept P N hops
      ({ N with server := { N.server with
          out := Function.update N.server.out i ((N.server.out i).drop k) } }.setClient i y') := by
  have hi := h.pair i
  have hweight := weight_hear (S := P.client i) hs (i := soleQp) hawaits
  have hsaid := hear_silent (S := P.client i) hs
  have hread := Told.read (S := P.client i) (i := soleQp) hi.toClient hawaits hs
    (z := { N.server with out := Function.update N.server.out i ((N.server.out i).drop k) })
    ⟨rfl, Function.update_self ..⟩
  have hbooks := hi.books.hear hs
  have hcontrol := hi.control.hear hs
  obtain ⟨_, msg, hp, _, _, rfl⟩ := hear_eq hs
  refine h.of_both (t := hops i) ⟨h.desk.books.idle ?_ rfl, ?_, h.desk.known, h.desk.named,
    h.desk.up⟩ ⟨hbooks, hcontrol, hi.hops, ?_, hread, by simp, by simp⟩ (fun l hl => ?_) rfl (by
      have hsame : weight P.server { N.server with
          out := Function.update N.server.out i ((N.server.out i).drop k) } =
          weight P.server N.server := rfl
      omega)
  · exact ⟨rfl, rfl, rfl, rfl, rfl, rfl, rfl, rfl, rfl, rfl⟩
  · have hcontrol := h.desk.control
    exact ⟨hcontrol.within, hcontrol.opening, hcontrol.past, hcontrol.event, hcontrol.silent,
      hcontrol.acked, hcontrol.armed, hcontrol.heard⟩
  · exact Told.of_quiet (S := P.client i) hi.toServer (hsaid 0).1 (hsaid 0).2
  · have hother := h.pair l
    refine ⟨hother.books, hother.control, hother.hops, hother.toServer, ?_, hother.up,
      hother.begun⟩
    have htold := hother.toClient
    unfold Told at htold ⊢
    simp only [Function.update_of_ne hl]
    exact htold

theorem Sound.of_step (h : Sound P N hops) (hT : 0 < P.numTests) {e : Event n}
    (hs : step P N e = some N') : Kept P N hops N' := by
  cases e with
  | server =>
      obtain ⟨x', hx, rfl⟩ := Option.map_eq_some_iff.mp hs
      exact h.server hT (advance_effect hx)
  | client i =>
      obtain ⟨y', hy, rfl⟩ := Option.map_eq_some_iff.mp hs
      exact h.client hT (advance_effect hy)
  | serverReads i k =>
      simp only [step] at hs
      split_ifs at hs with hread
      obtain ⟨x', hx, rfl⟩ := Option.map_eq_some_iff.mp hs
      exact h.serverReads hread.1 hx
  | clientReads i k =>
      simp only [step] at hs
      split_ifs at hs with hread
      obtain ⟨y', hy, rfl⟩ := Option.map_eq_some_iff.mp hs
      exact h.clientReads hread.1 hy
  | toClient j =>
      simp only [step] at hs
      cases hwire : N.server.wire j with
      | nil =>
          simp only [hwire] at hs
          cases hs
      | cons r rest =>
          simp only [hwire] at hs
          cases hi : PingPong.findQp P.clientSrqn r.srqn with
          | none =>
              simp only [hi] at hs
              cases hs
          | some i =>
              simp only [hi] at hs
              split_ifs at hs
              cases hs
              exact h.toClient hwire hi _
  | toServer i =>
      simp only [step] at hs
      cases hwire : (N.client i).wire soleQp with
      | nil =>
          simp only [hwire] at hs
          cases hs
      | cons r rest =>
          simp only [hwire] at hs
          split_ifs at hs
          cases hs
          exact h.toServer hwire
  | ackServer j =>
      simp only [step] at hs
      split_ifs at hs
      obtain ⟨x', hx, rfl⟩ := Option.map_eq_some_iff.mp hs
      exact h.ackServer hx
  | ackClient i =>
      simp only [step] at hs
      split_ifs at hs
      obtain ⟨y', hy, rfl⟩ := Option.map_eq_some_iff.mp hs
      exact h.ackClient hy

theorem connected_books {m : ℕ} (S : Settings m) (hT : 0 < S.numTests) : Books S S.connected := by
  refine ⟨fun _ => Nat.zero_le _, fun _ => Nat.zero_le _, ?_, ?_, rfl, rfl⟩
  · have hnone : finished S.numTests (m := m) (fun _ => 0) = 0 :=
      Finset.sum_eq_zero fun _ _ => if_neg (not_le.mpr hT)
    have hasking : ∑ j : Fin m, asking (S.connected.wire j) (S.connected.unacked j) = 0 :=
      Finset.sum_eq_zero fun _ _ => rfl
    rw [hasking]
    have hflushed : S.connected.phase.flushed m = 0 := by
      unfold Settings.connected
      split_ifs <;> rfl
    rw [hflushed]
    exact hnone.symm
  · show (PingPong.ppPostRecv m 0 m).2 + 0 = m
    rw [PingPong.ppPostRecv_eq _ _ _ (by omega)]
    omega

theorem connected_control {m : ℕ} (S : Settings m) : Control S S.connected := by
  have hphase : S.connected.phase = if S.server then .opening 0 else .test := rfl
  refine ⟨?_, fun _ _ _ _ => rfl, ?_, ?_, fun _ => rfl, fun _ => ?_, fun hu _ => .inl hu,
    fun _ _ _ hcq => absurd rfl hcq⟩ <;> rw [hphase] <;>
    cases S.server <;> simp [Phase.Within, Phase.past, Phase.parting, Settings.connected]

theorem sound_start (P : Program n) (hT : 0 < P.numTests) :
    Sound P (start P) fun _ => 0 := by
  refine ⟨⟨connected_books P.server hT, connected_control P.server,
      by simp [start, Settings.connected], by simp [start, Settings.connected],
      by simp [start, Settings.connected, Program.server]⟩,
    fun i => ⟨connected_books (P.client i) hT, connected_control (P.client i), ?_, rfl, rfl,
      ?_, ?_⟩, ?_⟩
  · refine ⟨Nat.zero_le _, fun _ => rfl, ?_, ?_, rfl, rfl, rfl⟩
    · simp [lane, start, Settings.connected, Program.server, Phase.opened]
    · simp [lane, start, Settings.connected, Program.server, Phase.opened, flying]
  · simp [start, Settings.connected, Program.client]
  · simp [start, Settings.connected, Program.client]
  · simp [start, Settings.connected]

theorem sound_of_run (hT : 0 < P.numTests) {es : List (Event n)}
    (h : Runs.run (step P) (start P) es = some N) : ∃ hops, Sound P N hops :=
  Runs.invariant (I := fun N => ∃ hops, Sound P N hops)
    (fun ⟨_, h⟩ hs => by
      obtain ⟨hops', h', _⟩ := h.of_step hT hs
      exact ⟨hops', h'⟩) ⟨_, sound_start P hT⟩ h

end CppPlayground.Xsrq
