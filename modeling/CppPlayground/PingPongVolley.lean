import CppPlayground.PingPong

/-!
# The ping-pong programs play volley

A queue pair is a lane: its message is the ball, and the confirmation of a
throw is the completion of the send. A completion that is queued or polled but
not yet worked through stands for a ball on the ground or a throw done, and
the bits of `pending` say what is missing. Each step of the programs and of
their adapters is matched by at most two moves, or none.
-/
namespace CppPlayground.PingPong
open Volley (Player Rules)

variable {n : ℕ} {P : Program n}

theorem Program.qpNum_inj {p : Player} {i j : Fin n} (h : P.qpNum p i = P.qpNum p j) : i = j := by
  have hi := P.findQp_qpNum p i
  rw [h, P.findQp_qpNum] at hi
  exact (Option.some.inj hi).symm

@[simp] theorem sendWc_inj {p : Player} {i j : Fin n} : sendWc P p i = sendWc P p j ↔ i = j :=
  ⟨fun h => P.qpNum_inj (congrArg Wc.qpNum h), fun h => h ▸ rfl⟩

@[simp] theorem recvWc_inj {p : Player} {i j : Fin n} : recvWc P p i = recvWc P p j ↔ i = j :=
  ⟨fun h => P.qpNum_inj (congrArg Wc.qpNum h), fun h => h ▸ rfl⟩

@[simp] theorem failWc_inj {p : Player} {i j : Fin n} : failWc P p i = failWc P p j ↔ i = j :=
  ⟨fun h => P.qpNum_inj (congrArg Wc.qpNum h), fun h => h ▸ rfl⟩

@[simp] theorem sendWc_ne_recvWc {p : Player} {i j : Fin n} : sendWc P p i ≠ recvWc P p j :=
  fun h => absurd (congrArg Wc.wrId h)
    (by simp [sendWc, recvWc, pingpongSendWrid, pingpongRecvWrid])

@[simp] theorem sendWc_ne_failWc {p : Player} {i j : Fin n} : sendWc P p i ≠ failWc P p j :=
  fun h => absurd (congrArg Wc.status h) (by simp [sendWc, failWc])

@[simp] theorem recvWc_ne_failWc {p : Player} {i j : Fin n} : recvWc P p i ≠ failWc P p j :=
  fun h => absurd (congrArg Wc.status h) (by simp [recvWc, failWc])

@[simp] theorem recvWc_ne_sendWc {p : Player} {i j : Fin n} : recvWc P p i ≠ sendWc P p j :=
  sendWc_ne_recvWc.symm

@[simp] theorem failWc_ne_sendWc {p : Player} {i j : Fin n} : failWc P p i ≠ sendWc P p j :=
  sendWc_ne_failWc.symm

@[simp] theorem failWc_ne_recvWc {p : Player} {i j : Fin n} : failWc P p i ≠ recvWc P p j :=
  recvWc_ne_failWc.symm

/-- The completions the adapter of a side makes. -/
def Known (P : Program n) (p : Player) (w : Wc) : Prop :=
  ∃ i, w = sendWc P p i ∨ w = recvWc P p i ∨ w = failWc P p i

def Wc.isRecv (w : Wc) : Bool := w.wrId == pingpongRecvWrid

@[simp] theorem isRecv_sendWc (p : Player) (i : Fin n) : (sendWc P p i).isRecv = false := by
  simp [Wc.isRecv, sendWc, pingpongSendWrid, pingpongRecvWrid]

@[simp] theorem isRecv_recvWc (p : Player) (i : Fin n) : (recvWc P p i).isRecv = true := by
  simp [Wc.isRecv, recvWc]

@[simp] theorem isRecv_failWc (p : Player) (i : Fin n) : (failWc P p i).isRecv = false := by
  simp [Wc.isRecv, failWc, pingpongSendWrid, pingpongRecvWrid]

theorem countP_isRecv_le {p : Player} {l : List Wc} (h : ∀ w ∈ l, Known P p w) :
    l.countP Wc.isRecv ≤ ∑ i, l.count (recvWc P p i) := by
  refine Tally.countP_le_sum _ _ fun w hw hq => ?_
  obtain ⟨i, rfl | rfl | rfl⟩ := h w hw
  · simp at hq
  · exact ⟨i, rfl⟩
  · simp at hq

theorem length_le_sum {p : Player} {l : List Wc} (h : ∀ w ∈ l, Known P p w) :
    l.length ≤ ∑ i, (l.count (sendWc P p i) + l.count (failWc P p i) + l.count (recvWc P p i)) := by
  have hrecv := countP_isRecv_le h
  have hother : l.countP (fun w => ¬ w.isRecv) ≤
      ∑ k : Fin n × Bool, l.count (if k.2 then sendWc P p k.1 else failWc P p k.1) := by
    refine Tally.countP_le_sum _ _ fun w hw hq => ?_
    obtain ⟨i, rfl | rfl | rfl⟩ := h w hw
    · exact ⟨(i, true), by simp⟩
    · simp at hq
    · exact ⟨(i, false), by simp⟩
  rw [Fintype.sum_prod_type] at hother
  simp only [Fintype.sum_bool, if_true, Bool.false_eq_true, if_false] at hother
  rw [List.length_eq_countP_add_countP Wc.isRecv, Finset.sum_add_distrib]
  omega

theorem ppPostRecv_eq (maxWr recvQueue k : ℕ) (h : recvQueue + k ≤ maxWr) :
    ppPostRecv maxWr recvQueue k = (k, recvQueue + k) := by
  induction k generalizing recvQueue with
  | zero => rfl
  | succ k ih =>
      rw [ppPostRecv, if_pos (by omega), ih (recvQueue + 1) (by omega)]
      simp only [Prod.mk.injEq, true_and]
      omega

theorem ppPostSend_eq {c : Context n} {i : Fin n} (h : c.slots i = 0) :
    ppPostSend c i = some { c with
      slots := Function.update c.slots i (c.slots i + 1)
      unfinished := Function.update c.unfinished i (c.unfinished i + 1)
      wire := Function.update c.wire i (c.wire i ++ [⟨[c.buf]⟩]) } := by
  rw [ppPostSend, if_pos (by omega)]

/-- Working through a receive posts new ones at the latest when no more are
left than there are queue pairs. -/
theorem countRecv_eq {p : Player} {c : Context n} (hpos : 0 < c.routs)
    (hle : c.routs ≤ P.rxDepth p) (hqueue : c.recvQueue < c.routs) :
    ∃ k, countRecv P p c = .ok { c with
        routs := c.routs - 1 + k, recvQueue := c.recvQueue + k, rcnt := c.rcnt + 1 } ∧
      n ≤ c.routs - 1 + k ∧ c.routs - 1 + k ≤ P.rxDepth p := by
  have hdepth := P.le_rxDepth p
  unfold countRecv
  simp only
  split_ifs with hfew hshort
  · rw [ppPostRecv_eq _ _ _ (by omega)] at hshort
    simp only at hshort
    omega
  · refine ⟨P.rxDepth p - (c.routs - 1), ?_, by omega, by omega⟩
    rw [ppPostRecv_eq _ _ _ (by omega)]
  · exact ⟨0, by simp, by omega, by omega⟩

theorem complete_eq {p : Player} {c : Context n} (w : Wc)
    (h : c.cq.length < n + P.rxDepth p) :
    complete P p c w =
      { c with cq := c.cq ++ [w], armed := false, events := c.events + c.armed.toNat } :=
  if_pos h

/-- The completions a process is working through. -/
def Phase.batchOf : Phase → List Wc
  | .batch _ wcs => wcs
  | _ => []

/-- All completions that have not been worked through. -/
def Endpoint.pool (e : Endpoint n) : List Wc := e.phase.batchOf ++ e.ctx.cq

/-- `pending` of a queue pair: its send, unless idle, and the receive, unless
the ball is in hand. -/
def mask (p : Player) (l : Volley.Lane) : BitVec 32 :=
  (if (l.hand p).throw = .idle then 0 else 2) ||| (if l.ball = .held p then 0 else 1)

/-- One queue pair of a side shows the lane. -/
structure LaneView (P : Program n) (p : Player) (e : Endpoint n) (i : Fin n)
    (l : Volley.Lane) : Prop where
  wire : (e.ctx.wire i).length = if l.ball = .flying p then 1 else 0
  unfinished : e.ctx.unfinished i = if (l.hand p).throw = .under then 1 else 0
  sends : e.pool.count (sendWc P p i) = if (l.hand p).throw = .done then 1 else 0
  fails : e.pool.count (failWc P p i) = if (l.hand p).throw = .cut then 1 else 0
  recvs : e.pool.count (recvWc P p i) = if l.ball = .landed p then 1 else 0
  slots : e.ctx.slots i = e.ctx.unfinished i + e.ctx.cq.count (sendWc P p i) +
    e.ctx.cq.count (failWc P p i)
  pending : l.ball ≠ .unopened ∨ p = .second → e.ctx.pending i = mask p l

/-- A process that wakes up to find nothing ends at once: rc_pingpong with `-e` and `-t`. -/
def Program.quits (P : Program n) (p : Player) : Bool := P.useTs p && P.useEvent p

theorem Program.quits_eq_false_iff {P : Program n} {p : Player} :
    P.quits p = false ↔ P.useTs p = false ∨ P.useEvent p = false :=
  Bool.and_eq_false_iff

/-- One side whose sends have not failed shows the state of play. -/
structure EndView (P : Program n) (p : Player) (e : Endpoint n) (V : Volley.State (Fin n)) :
    Prop where
  lane : ∀ i, LaneView P p e i (V.lane i)
  known : ∀ w ∈ e.pool, Known P p w
  left : V.left p = true ↔ e.phase.left = true
  scnt : e.ctx.scnt = V.sent p
  rcnt : e.ctx.rcnt = V.received p
  routs : e.ctx.recvQueue + e.pool.countP Wc.isRecv = e.ctx.routs
  le_routs : n ≤ e.ctx.routs
  routs_le : e.ctx.routs ≤ P.rxDepth p
  opening : ∀ k, e.phase = .opening k →
    p = .first ∧ k ≤ n ∧ ∀ i : Fin n, (V.lane i).ball = .unopened ↔ k ≤ i
  opened : p = .first → (∀ k, e.phase ≠ .opening k) → ∀ i, (V.lane i).ball ≠ .unopened
  overrun : e.ctx.overrun = false
  notReady : e.ctx.notReady = false
  finished : e.phase = .done ∨ e.phase = .closed → P.iters ≤ e.ctx.rcnt ∧ P.iters ≤ e.ctx.scnt
  alive : ∀ f, e.phase = .failed f → f = .pollCq ∧ P.quits p = true

theorem EndView.pool_length_le {p : Player} {e : Endpoint n} {V : Volley.State (Fin n)}
    (h : EndView P p e V) : e.pool.length ≤ 2 * n := by
  refine (length_le_sum h.known).trans ?_
  have hlane : ∀ i, e.pool.count (sendWc P p i) + e.pool.count (failWc P p i) +
      e.pool.count (recvWc P p i) ≤ 2 := by
    intro i
    have hi := h.lane i
    have hsends := hi.sends
    have hfails := hi.fails
    have hrecvs := hi.recvs
    grind
  refine (Finset.sum_le_sum fun i _ => hlane i).trans ?_
  rw [Tally.sum_fin_const, Nat.mul_comm]

/-- A completion that is not there finds room in the queue. -/
theorem EndView.cq_length_lt {p : Player} {e : Endpoint n} {V : Volley.State (Fin n)}
    (h : EndView P p e V) {i : Fin n}
    (hi : e.pool.count (sendWc P p i) + e.pool.count (failWc P p i) = 0 ∨
      e.pool.count (recvWc P p i) = 0) : e.ctx.cq.length < n + P.rxDepth p := by
  have hlane : ∀ j, e.pool.count (sendWc P p j) + e.pool.count (failWc P p j) +
      e.pool.count (recvWc P p j) ≤ 2 := by
    intro j
    have hj := h.lane j
    have hsends := hj.sends
    have hfails := hj.fails
    have hrecvs := hj.recvs
    grind
  have hlt : e.pool.count (sendWc P p i) + e.pool.count (failWc P p i) +
      e.pool.count (recvWc P p i) < 2 := by
    have hsends := (h.lane i).sends
    have hfails := (h.lane i).fails
    have hrecvs := (h.lane i).recvs
    grind
  have hsum : e.pool.length < ∑ _j : Fin n, 2 :=
    (length_le_sum h.known).trans_lt
      (Finset.sum_lt_sum (fun j _ => hlane j) ⟨i, Finset.mem_univ i, hlt⟩)
  rw [Tally.sum_fin_const] at hsum
  have hdepth := P.le_rxDepth p
  rw [Endpoint.pool, List.length_append] at hsum
  omega

/-- A message in the air has a receive request waiting for it. -/
theorem EndView.recvQueue_pos {p : Player} {e : Endpoint n} {V : Volley.State (Fin n)}
    (h : EndView P p e V) {i : Fin n} (hi : (V.lane i).ball ≠ .landed p) :
    0 < e.ctx.recvQueue := by
  have hle : ∀ j, e.pool.count (recvWc P p j) ≤ 1 := by
    intro j
    have hrecvs := (h.lane j).recvs
    grind
  have hzero : e.pool.count (recvWc P p i) < 1 := by
    rw [(h.lane i).recvs, if_neg hi]
    exact Nat.one_pos
  have hsum : e.pool.countP Wc.isRecv < ∑ _j : Fin n, 1 :=
    (countP_isRecv_le h.known).trans_lt
      (Finset.sum_lt_sum (fun j _ => hle j) ⟨i, Finset.mem_univ i, hzero⟩)
  rw [Tally.sum_fin_const] at hsum
  have hrouts := h.routs
  have hle_routs := h.le_routs
  omega

/-- A lane that looks the same from one side. -/
theorem LaneView.congr {p : Player} {e : Endpoint n} {i : Fin n} {l l' : Volley.Lane}
    (h : LaneView P p e i l) (hhand : l'.hand p = l.hand p)
    (hflying : l'.ball = .flying p ↔ l.ball = .flying p)
    (hlanded : l'.ball = .landed p ↔ l.ball = .landed p)
    (hheld : l'.ball = .held p ↔ l.ball = .held p)
    (hopened : l'.ball ≠ .unopened ∨ p = .second → l.ball ≠ .unopened ∨ p = .second) :
    LaneView P p e i l' where
  wire := by simpa only [hflying] using h.wire
  unfinished := by simpa only [hhand] using h.unfinished
  sends := by simpa only [hhand] using h.sends
  fails := by simpa only [hhand] using h.fails
  recvs := by simpa only [hlanded] using h.recvs
  slots := h.slots
  pending ho := by
    rw [h.pending (hopened ho)]
    simp only [mask, hhand, hheld]

/-- Only a serve opens a lane. -/
theorem unopened_play {r : Bool} {p : Player} {i : Fin n} {m : Volley.Move}
    {V : Volley.State (Fin n)} (ha : (V.lane i).Admits r p m) (hm : m ≠ .serve)
    (hcounted : (V.lane i).Counted r) (j : Fin n) :
    ((V.play p i m).lane j).ball = .unopened ↔ (V.lane j).ball = .unopened := by
  by_cases hj : j = i
  · subst hj
    rw [V.play_lane, Volley.Lane.play_ball]
    have hun := hcounted.unopened
    cases m <;> grind [Volley.Lane.Admits, Volley.Ball.play]
  · rw [V.play_lane_ne p hj]

theorem lane_play {p q : Player} {e : Endpoint n} {i : Fin n} {m : Volley.Move}
    {V : Volley.State (Fin n)} (hi : LaneView P q e i ((V.lane i).play p m))
    (hother : ∀ j, j ≠ i → LaneView P q e j (V.lane j)) (j : Fin n) :
    LaneView P q e j ((V.play p i m).lane j) := by
  by_cases hj : j = i
  · subst hj
    rw [V.play_lane]
    exact hi
  · rw [V.play_lane_ne p hj]
    exact hother j hj

/-- What a player does on a lane, other than having its ball land, is not seen
from the other side. -/
theorem EndView.play_peer {r : Bool} {p : Player} {e : Endpoint n} {i : Fin n} {m : Volley.Move}
    {V : Volley.State (Fin n)} (h : EndView P p.peer e V) (ha : (V.lane i).Admits r p m)
    (hm : m ≠ .land) (hcounted : (V.lane i).Counted r) : EndView P p.peer e (V.play p i m) := by
  have hne : p.peer ≠ p := p.peer_ne
  have hserve : m = .serve → p = .first := fun hs => by
    subst hs
    exact ha.2
  refine { h with
    lane := lane_play ?_ fun j _ => h.lane j
    scnt := ?_
    rcnt := ?_
    opening := fun k hk => ?_
    opened := fun hp hk j => ?_ }
  · refine (h.lane i).congr (Volley.Lane.play_hand_peer ..) ?_ ?_ ?_ ?_ <;>
      rw [Volley.Lane.play_ball] <;>
      cases m <;> grind [Volley.Lane.Admits, Volley.Ball.play, Player.peer]
  · rw [V.sent_play, if_neg fun hc => hne hc.2]
    exact h.scnt
  · rw [V.received_play, if_neg fun hc => hne hc.2]
    exact h.rcnt
  · obtain ⟨hfirst, hle, hballs⟩ := h.opening k hk
    have hnot : m ≠ .serve := fun hs => by
      rw [hserve hs] at hfirst
      exact absurd hfirst (by decide)
    exact ⟨hfirst, hle, fun j => (unopened_play ha hnot hcounted j).trans (hballs j)⟩
  · have hnot : m ≠ .serve := fun hs => by
      rw [hserve hs] at hp
      exact absurd hp (by decide)
    rw [Ne, unopened_play ha hnot hcounted j]
    exact h.opened hp hk j

theorem Phase.left_iff {ph : Phase} : ph.left = true ↔ ph = .closed ∨ ph = .failed .pollCq := by
  cases ph with
  | failed f => cases f <;> simp [Phase.left]
  | _ => simp [Phase.left]

theorem Phase.not_left {ph : Phase} (h : ph.up = true) : ¬ ph.left = true := by
  rw [Phase.left_iff]
  rintro (rfl | rfl) <;> cases h

theorem Phase.ne_failed {ph : Phase} (h : ph.up = true) (f : Failure) : ph ≠ .failed f := by
  rintro rfl
  cases h

/-- A context after steps between completions. -/
def Context.control (c : Context n) (armed : Bool) (events unacked numCqEvents : ℕ) : Context n :=
  { c with armed := armed, events := events, unacked := unacked, numCqEvents := numCqEvents }

/-- The steps of a process between its completions move nothing. -/
theorem EndView.control {p : Player} {c : Context n} {ph ph' : Phase}
    {V : Volley.State (Fin n)} (h : EndView P p ⟨c, ph⟩ V) (armed : Bool)
    (events unacked numCqEvents : ℕ) (hbatch : ph'.batchOf = ph.batchOf) (hup : ph.up = true)
    (hup' : ph'.up = true) (hopening : ∀ k, ph' ≠ .opening k)
    (hopened : p = .first → ∀ i, (V.lane i).ball ≠ .unopened)
    (hfinished : ph' = .done ∨ ph' = .closed → P.iters ≤ c.rcnt ∧ P.iters ≤ c.scnt) :
    EndView P p ⟨c.control armed events unacked numCqEvents, ph'⟩ V := by
  have hpool : Endpoint.pool ⟨c.control armed events unacked numCqEvents, ph'⟩ =
      Endpoint.pool ⟨c, ph⟩ := by
    simp only [Endpoint.pool, hbatch, Context.control]
  refine { h with
    lane := fun i => ?_
    known := hpool ▸ h.known
    left := h.left.trans (iff_of_false (Phase.not_left hup) (Phase.not_left hup'))
    routs := hpool ▸ h.routs
    opening := fun k hk => absurd hk (hopening k)
    opened := fun hp _ => hopened hp
    finished := hfinished
    alive := fun f hf => absurd hf (Phase.ne_failed hup' f) }
  have hi := h.lane i
  exact { hi with
    sends := hpool ▸ hi.sends
    fails := hpool ▸ hi.fails
    recvs := hpool ▸ hi.recvs }

/-- A context after a send has been posted. -/
def Context.posted (c : Context n) (i : Fin n) : Context n where
  buf := c.buf
  pending := Function.update c.pending i 3
  routs := c.routs
  rcnt := c.rcnt
  scnt := c.scnt
  numCqEvents := c.numCqEvents
  recvQueue := c.recvQueue
  slots := Function.update c.slots i (c.slots i + 1)
  unfinished := Function.update c.unfinished i (c.unfinished i + 1)
  wire := Function.update c.wire i (c.wire i ++ [⟨[c.buf]⟩])
  cq := c.cq
  armed := c.armed
  events := c.events
  unacked := c.unacked
  overrun := c.overrun
  notReady := c.notReady

/-- A queue pair whose lane is idle takes the send, and shows the throw. -/
theorem EndView.post_lane {p : Player} {c : Context n} {ph : Phase} {V : Volley.State (Fin n)}
    {i : Fin n} {m : Volley.Move} (h : EndView P p ⟨c, ph⟩ V) (ph' : Phase)
    (hm : m = .serve ∨ m = .toss) (hidle : ((V.lane i).hand p).throw = .idle)
    (hball : (V.lane i).ball = .unopened ∨ (V.lane i).ball = .held p)
    (hbatch : ph'.batchOf = ph.batchOf) :
    c.slots i = 0 ∧ ∀ j, LaneView P p ⟨c.posted i, ph'⟩ j ((V.play p i m).lane j) := by
  have hi := h.lane i
  have hpool : Endpoint.pool ⟨c.posted i, ph'⟩ = Endpoint.pool ⟨c, ph⟩ := by
    simp only [Endpoint.pool, hbatch, Context.posted]
  have hnotflying : (V.lane i).ball ≠ .flying p := by
    rcases hball with hb | hb <;> rw [hb] <;> nofun
  have hnotlanded : (V.lane i).ball ≠ .landed p := by
    rcases hball with hb | hb <;> rw [hb] <;> nofun
  have hunfinished := hi.unfinished
  have hsends := hi.sends
  have hfails := hi.fails
  have hrecvs := hi.recvs
  have hwire := hi.wire
  have hslots := hi.slots
  simp only [hidle, reduceCtorEq, if_false, hnotflying, hnotlanded] at *
  have hcqSend : c.cq.count (sendWc P p i) = 0 := by
    simp only [Endpoint.pool, List.count_append, Nat.add_eq_zero_iff] at hsends
    exact hsends.2
  have hcqFail : c.cq.count (failWc P p i) = 0 := by
    simp only [Endpoint.pool, List.count_append, Nat.add_eq_zero_iff] at hfails
    exact hfails.2
  rw [hunfinished, hcqSend, hcqFail] at hslots
  have hplay : ((V.lane i).play p m).ball = .flying p ∧
      (((V.lane i).play p m).hand p).throw = .under := by
    rw [Volley.Lane.play_hand, Volley.Lane.play_ball]
    rcases hm with rfl | rfl <;> exact ⟨rfl, rfl⟩
  refine ⟨hslots, lane_play ?_ fun j hj => ?_⟩
  · generalize (V.lane i).play p m = l at hplay
    refine ⟨?_, ?_, ?_, ?_, ?_, ?_, fun _ => ?_⟩
    · simp [Context.posted, hplay, List.length_eq_zero_iff.mp hwire]
    · simp [Context.posted, hplay, hunfinished]
    · simp [hpool, hplay, hsends]
    · simp [hpool, hplay, hfails]
    · simp [hpool, hplay, hrecvs]
    · simp [Context.posted, hslots, hunfinished, hcqSend, hcqFail]
    · simp [Context.posted, mask, hplay]
  · have hj' := h.lane j
    refine { hj' with
      wire := ?_
      unfinished := ?_
      sends := hpool ▸ hj'.sends
      fails := hpool ▸ hj'.fails
      recvs := hpool ▸ hj'.recvs
      slots := ?_
      pending := fun ho => ?_ }
    · simpa [Context.posted, Function.update_of_ne hj] using hj'.wire
    · simpa [Context.posted, Function.update_of_ne hj] using hj'.unfinished
    · simpa [Context.posted, Function.update_of_ne hj] using hj'.slots
    · simpa [Context.posted, Function.update_of_ne hj] using hj'.pending ho

theorem EndView.serve {p : Player} {c : Context n} {k : ℕ} {V : Volley.State (Fin n)} {r : Bool}
    (h : EndView P p ⟨c, .opening k⟩ V) (hk : k < n) (hcounted : (V.lane ⟨k, hk⟩).Counted r) :
    p = .first ∧ (V.lane ⟨k, hk⟩).ball = .unopened ∧ c.slots ⟨k, hk⟩ = 0 ∧
      EndView P p ⟨c.posted ⟨k, hk⟩, .opening (k + 1)⟩ (V.play p ⟨k, hk⟩ .serve) := by
  obtain ⟨hfirst, -, hballs⟩ := h.opening k rfl
  have hball : (V.lane ⟨k, hk⟩).ball = .unopened := (hballs ⟨k, hk⟩).mpr le_rfl
  obtain ⟨hslots, hlane⟩ := h.post_lane (.opening (k + 1)) (.inl rfl)
    (hcounted.unopened hball p).1 (.inl hball) rfl
  refine ⟨hfirst, hball, hslots, { h with
    lane := hlane
    left := h.left.trans (iff_of_false Bool.false_ne_true Bool.false_ne_true)
    scnt := ?_
    rcnt := ?_
    opening := fun k' hk' => ?_
    opened := fun _ ho => absurd rfl (ho (k + 1))
    finished := nofun
    alive := nofun }⟩
  · rw [V.sent_play, if_neg fun hc => nomatch hc.1]
    exact h.scnt
  · rw [V.received_play, if_neg fun hc => nomatch hc.1]
    exact h.rcnt
  · cases hk'
    refine ⟨hfirst, hk, fun j => ?_⟩
    by_cases hj : j = ⟨k, hk⟩
    · rw [hj, V.play_lane, Volley.Lane.play_ball]
      exact iff_of_false nofun (by simp)
    · rw [V.play_lane_ne p hj, hballs]
      have hne : (j : ℕ) ≠ k := fun he => hj (Fin.ext he)
      omega

theorem EndView.toss {p : Player} {c : Context n} {next : Bool} {wcs : List Wc}
    {V : Volley.State (Fin n)} {i : Fin n} (h : EndView P p ⟨c, .batch next wcs⟩ V)
    (hidle : ((V.lane i).hand p).throw = .idle) (hball : (V.lane i).ball = .held p) :
    c.slots i = 0 ∧ EndView P p ⟨c.posted i, .batch next wcs⟩ (V.play p i .toss) := by
  obtain ⟨hslots, hlane⟩ := h.post_lane (.batch next wcs) (.inr rfl) hidle (.inr hball) rfl
  refine ⟨hslots, { h with
    lane := hlane
    scnt := ?_
    rcnt := ?_
    opening := nofun
    opened := fun hp _ => ?_
    finished := nofun
    alive := nofun }⟩
  · rw [V.sent_play, if_neg fun hc => nomatch hc.1]
    exact h.scnt
  · rw [V.received_play, if_neg fun hc => nomatch hc.1]
    exact h.rcnt
  · refine V.play_forall (P := fun l => l.ball ≠ .unopened) (h.opened hp nofun) ?_
    rw [Volley.Lane.play_ball]
    nofun

/-- A context after a completion has been counted and its bit cleared. -/
def Context.worked (c : Context n) (i : Fin n) (wrId : BitVec 64)
    (routs recvQueue rcnt scnt : ℕ) : Context n :=
  clearPending { c with routs := routs, recvQueue := recvQueue, rcnt := rcnt, scnt := scnt } i wrId

/-- The lanes a completion is not about. -/
theorem LaneView.worked {p : Player} {c : Context n} {w : Wc} {next : Bool} {wcs : List Wc}
    {i j : Fin n} {l : Volley.Lane} (h : LaneView P p ⟨c, .batch next (w::wcs)⟩ j l) (hj : j ≠ i)
    (hw : w = sendWc P p i ∨ w = recvWc P p i) (wrId : BitVec 64)
    (routs recvQueue rcnt scnt : ℕ) :
    LaneView P p ⟨c.worked i wrId routs recvQueue rcnt scnt, .batch next wcs⟩ j l := by
  have hcount : ∀ w' : Wc, w' ≠ w → (Endpoint.pool ⟨c, .batch next (w::wcs)⟩).count w' =
      (Endpoint.pool ⟨c.worked i wrId routs recvQueue rcnt scnt, .batch next wcs⟩).count w' :=
    fun w' hne => List.count_cons_of_ne hne.symm
  have hsend : sendWc P p j ≠ w := by
    rcases hw with rfl | rfl
    · exact fun he => hj (sendWc_inj.mp he)
    · exact sendWc_ne_recvWc
  have hfail : failWc P p j ≠ w := by
    rcases hw with rfl | rfl
    · exact failWc_ne_sendWc
    · exact failWc_ne_recvWc
  have hrecv : recvWc P p j ≠ w := by
    rcases hw with rfl | rfl
    · exact recvWc_ne_sendWc
    · exact fun he => hj (recvWc_inj.mp he)
  refine { h with
    sends := hcount _ hsend ▸ h.sends
    fails := hcount _ hfail ▸ h.fails
    recvs := hcount _ hrecv ▸ h.recvs
    pending := fun ho => (Function.update_of_ne hj ..).trans (h.pending ho) }

theorem EndView.clear {p : Player} {c : Context n} {next : Bool} {wcs : List Wc}
    {V : Volley.State (Fin n)} {i : Fin n} (h : EndView P p ⟨c, .batch next (sendWc P p i::wcs)⟩ V) :
    ((V.lane i).hand p).throw = .done ∧
      EndView P p
        ⟨c.worked i pingpongSendWrid c.routs c.recvQueue c.rcnt (c.scnt + 1), .batch next wcs⟩
        (V.play p i .clear) := by
  have hi := h.lane i
  have hpool : Endpoint.pool ⟨c, .batch next (sendWc P p i::wcs)⟩ =
      sendWc P p i::(wcs ++ c.cq) := rfl
  have hsends := hi.sends
  rw [hpool, List.count_cons_self] at hsends
  have hdone : ((V.lane i).hand p).throw = .done := by
    by_contra hne
    rw [if_neg hne] at hsends
    omega
  have hfails := hi.fails
  have hrecvs := hi.recvs
  rw [hpool, List.count_cons_of_ne sendWc_ne_failWc] at hfails
  rw [hpool, List.count_cons_of_ne sendWc_ne_recvWc] at hrecvs
  rw [hdone] at hsends hfails
  have hhand : (((V.lane i).play p .clear).hand p).throw = .idle := by
    rw [Volley.Lane.play_hand]
    rfl
  refine ⟨hdone, { h with
    lane := lane_play ?_ fun j hj => (h.lane j).worked hj (.inl rfl) _ _ _ _ _
    known := fun w hw => h.known w (List.mem_cons_of_mem _ hw)
    scnt := ?_
    rcnt := ?_
    routs := ?_
    opening := by simp
    opened := fun hp _ => V.play_forall (P := fun l => l.ball ≠ .unopened) (h.opened hp (by simp))
      (h.opened hp (by simp) i)
    left := h.left.trans (iff_of_false Bool.false_ne_true Bool.false_ne_true)
    finished := by simp
    alive := by simp }⟩
  · refine ⟨hi.wire, ?_, ?_, ?_, hrecvs, hi.slots, fun ho => ?_⟩
    · rw [hhand]
      have hunfinished := hi.unfinished
      rw [hdone] at hunfinished
      exact hunfinished
    · rw [hhand]
      have hzero : (wcs ++ c.cq).count (sendWc P p i) = 0 := by
        simpa using hsends
      exact hzero
    · rw [hhand]
      exact hfails
    · have hpending := hi.pending ho
      refine (Function.update_self ..).trans ?_
      rw [show c.pending i = _ from hpending, mask, mask, hdone, hhand]
      by_cases hheld : (V.lane i).ball = .held p <;>
        simp [Volley.Ball.play, hheld, pingpongSendWrid]
  · rw [V.sent_play, if_pos ⟨rfl, rfl⟩, ← h.scnt]
    rfl
  · rw [V.received_play, if_neg fun hc => absurd hc.1 (by simp)]
    exact h.rcnt
  · have hrouts := h.routs
    rw [hpool, List.countP_cons_of_neg (by simp)] at hrouts
    exact hrouts

theorem EndView.take {p : Player} {c : Context n} {next : Bool} {wcs : List Wc}
    {V : Volley.State (Fin n)} {i : Fin n} (h : EndView P p ⟨c, .batch next (recvWc P p i::wcs)⟩ V) :
    (V.lane i).ball = .landed p ∧ 0 < c.routs ∧ c.recvQueue < c.routs ∧
      ∀ k, n ≤ c.routs - 1 + k → c.routs - 1 + k ≤ P.rxDepth p →
        EndView P p
          ⟨c.worked i pingpongRecvWrid (c.routs - 1 + k) (c.recvQueue + k) (c.rcnt + 1) c.scnt,
            .batch next wcs⟩
          (V.play p i .take) := by
  have hi := h.lane i
  have hpool : Endpoint.pool ⟨c, .batch next (recvWc P p i::wcs)⟩ =
      recvWc P p i::(wcs ++ c.cq) := rfl
  have hrecvs := hi.recvs
  rw [hpool, List.count_cons_self] at hrecvs
  have hlanded : (V.lane i).ball = .landed p := by
    by_contra hne
    rw [if_neg hne] at hrecvs
    omega
  have hsends := hi.sends
  have hfails := hi.fails
  rw [hpool, List.count_cons_of_ne recvWc_ne_sendWc] at hsends
  rw [hpool, List.count_cons_of_ne recvWc_ne_failWc] at hfails
  rw [if_pos hlanded] at hrecvs
  have hrouts := h.routs
  rw [hpool, List.countP_cons_of_pos (by simp)] at hrouts
  simp only at hrouts
  have hball : ((V.lane i).play p .take).ball = .held p := rfl
  have hhand : (((V.lane i).play p .take).hand p).throw = ((V.lane i).hand p).throw := by
    rw [Volley.Lane.play_hand]
    rfl
  refine ⟨hlanded, by omega, by omega, fun k hle hge => { h with
    lane := lane_play ?_ fun j hj => (h.lane j).worked hj (.inr rfl) _ _ _ _ _
    known := fun w hw => h.known w (List.mem_cons_of_mem _ hw)
    scnt := ?_
    rcnt := ?_
    routs := ?_
    le_routs := hle
    routs_le := hge
    opening := nofun
    opened := fun hp _ => V.play_forall (P := fun l => l.ball ≠ .unopened) (h.opened hp nofun)
      (by rw [hball]; nofun)
    left := h.left.trans (iff_of_false Bool.false_ne_true Bool.false_ne_true)
    finished := nofun
    alive := nofun }⟩
  · refine ⟨?_, hhand ▸ hi.unfinished, hhand ▸ hsends, hhand ▸ hfails, ?_, hi.slots,
      fun _ => ?_⟩
    · have hwire := hi.wire
      rw [hlanded] at hwire
      rw [hball]
      exact hwire
    · have hzero : (wcs ++ c.cq).count (recvWc P p i) = 0 := by
        simpa using hrecvs
      rw [hball]
      exact hzero
    · have hpending := hi.pending (.inl (by rw [hlanded]; nofun))
      refine (Function.update_self ..).trans ?_
      rw [show c.pending i = _ from hpending, mask, mask, hlanded, hhand, hball]
      simp only [reduceCtorEq, if_false, if_true]
      split_ifs <;> decide
  · rw [V.sent_play, if_neg fun hc => nomatch hc.1]
    exact h.scnt
  · rw [V.received_play, if_pos ⟨rfl, rfl⟩, ← h.rcnt]
    rfl
  · change c.recvQueue + k + (wcs ++ c.cq).countP Wc.isRecv = c.routs - 1 + k
    omega

theorem mask_eq_zero {p : Player} {l : Volley.Lane} (h : mask p l = 0) :
    (l.hand p).throw = .idle ∧ l.ball = .held p := by
  unfold mask at h
  split_ifs at h with hidle hheld hheld
  · exact ⟨hidle, hheld⟩
  all_goals exact absurd h (by decide)

/-- The send at the end of the body is a toss, when it is made. -/
theorem EndView.replied {p : Player} {c : Context n} {next : Bool} {wcs : List Wc}
    {V : Volley.State (Fin n)} {i : Fin n} (h : EndView P p ⟨c, .batch next wcs⟩ V)
    (ho : (V.lane i).ball ≠ .unopened ∨ p = .second) :
    (reply P c i = .ok c ∧ (c.pending i = 0 → P.iters ≤ c.scnt)) ∨
      (reply P c i = .ok (c.posted i) ∧ c.scnt < P.iters ∧
        ((V.lane i).hand p).throw = .idle ∧ (V.lane i).ball = .held p ∧
        EndView P p ⟨c.posted i, .batch next wcs⟩ (V.play p i .toss)) := by
  unfold reply
  split_ifs with hsend
  · obtain ⟨hlt, hzero⟩ := hsend
    obtain ⟨hidle, hball⟩ := mask_eq_zero (((h.lane i).pending ho).symm.trans hzero)
    obtain ⟨hslots, htoss⟩ := h.toss hidle hball
    rw [ppPostSend_eq hslots]
    exact .inr ⟨rfl, hlt, hidle, hball, htoss⟩
  · exact .inl ⟨rfl, fun hzero => not_lt.mp fun hlt => hsend ⟨hlt, hzero⟩⟩

theorem parseWc_sendWc (p : Player) (c : Context n) (i : Fin n) :
    parseWc P p c (sendWc P p i) =
      reply P (c.worked i pingpongSendWrid c.routs c.recvQueue c.rcnt (c.scnt + 1)) i := by
  simp only [parseWc, sendWc, P.findQp_qpNum]
  rfl

theorem parseWc_recvWc {p : Player} {c : Context n} (i : Fin n) {k : ℕ}
    (h : countRecv P p c = .ok { c with
      routs := c.routs - 1 + k, recvQueue := c.recvQueue + k, rcnt := c.rcnt + 1 }) :
    parseWc P p c (recvWc P p i) =
      reply P (c.worked i pingpongRecvWrid (c.routs - 1 + k) (c.recvQueue + k) (c.rcnt + 1)
        c.scnt) i := by
  have hcount : countWc P p c pingpongRecvWrid = countRecv P p c := rfl
  simp only [parseWc, recvWc, P.findQp_qpNum, hcount, h]
  rfl

theorem parseWc_failWc (p : Player) (c : Context n) (i : Fin n) :
    parseWc P p c (failWc P p i) = .error .status := rfl

theorem EndView.cut_of_failWc {p : Player} {c : Context n} {next : Bool} {wcs : List Wc}
    {V : Volley.State (Fin n)} {i : Fin n}
    (h : EndView P p ⟨c, .batch next (failWc P p i::wcs)⟩ V) :
    ((V.lane i).hand p).throw = .cut := by
  have hfails := (h.lane i).fails
  by_contra hne
  rw [if_neg hne] at hfails
  have hmem : failWc P p i ∉ Endpoint.pool ⟨c, .batch next (failWc P p i::wcs)⟩ :=
    List.count_eq_zero.mp hfails
  exact hmem List.mem_cons_self

/-- A process leaves from its loop or from behind it. -/
theorem EndView.leave {p : Player} {c : Context n} {ph ph' : Phase} {V : Volley.State (Fin n)}
    (h : EndView P p ⟨c, ph⟩ V) (unacked : ℕ) (hbatch : ph.batchOf = [])
    (hopening : ∀ k, ph ≠ .opening k) (hleft : ph'.left = true)
    (hfinished : ph' = .closed → P.iters ≤ c.rcnt ∧ P.iters ≤ c.scnt)
    (halive : ∀ f, ph' = .failed f → P.quits p = true) :
    EndView P p ⟨c.control c.armed c.events unacked c.numCqEvents, ph'⟩
      { V with left := Function.update V.left p true } := by
  have hwhere := Phase.left_iff.mp hleft
  have hpool : Endpoint.pool ⟨c.control c.armed c.events unacked c.numCqEvents, ph'⟩ =
      Endpoint.pool ⟨c, ph⟩ := by
    rcases hwhere with rfl | rfl <;> simp only [Endpoint.pool, hbatch, Context.control] <;> rfl
  refine { h with
    lane := fun i => ?_
    known := hpool ▸ h.known
    routs := hpool ▸ h.routs
    left := iff_of_true (Function.update_self ..) hleft
    opening := ?_
    opened := fun hp _ => h.opened hp hopening
    finished := ?_
    alive := ?_ }
  · have hi := h.lane i
    exact { hi with
      sends := hpool ▸ hi.sends
      fails := hpool ▸ hi.fails
      recvs := hpool ▸ hi.recvs }
  · rcases hwhere with rfl | rfl <;> nofun
  · rintro (rfl | rfl)
    · cases hleft
    · exact hfinished rfl
  · rintro f hf
    refine ⟨?_, halive f hf⟩
    rcases hwhere with rfl | rfl <;> cases hf
    rfl

/-- The completions of sends on a queue pair, failed or not. -/
theorem countP_send {p : Player} {l : List Wc} (h : ∀ w ∈ l, Known P p w) (i : Fin n) :
    (l.countP fun w => w.wrId == pingpongSendWrid && w.qpNum == P.qpNum p i) =
      l.count (sendWc P p i) + l.count (failWc P p i) := by
  induction l with
  | nil => rfl
  | cons w l ih =>
      rw [List.countP_cons, List.count_cons, List.count_cons,
        ih fun w' hw => h w' (List.mem_cons_of_mem w hw)]
      obtain ⟨j, rfl | rfl | rfl⟩ := h w List.mem_cons_self
      · have hq : P.qpNum p j = P.qpNum p i ↔ j = i := ⟨P.qpNum_inj, fun he => he ▸ rfl⟩
        have hwc : (sendWc P p j).wrId = pingpongSendWrid ∧
            (sendWc P p j).qpNum = P.qpNum p j := ⟨rfl, rfl⟩
        simp [hwc, hq]
        omega
      · have hwc : pingpongRecvWrid ≠ pingpongSendWrid := by decide
        simp [show (recvWc P p j).wrId = pingpongRecvWrid from rfl, hwc]
      · have hq : P.qpNum p j = P.qpNum p i ↔ j = i := ⟨P.qpNum_inj, fun he => he ▸ rfl⟩
        have hwc : (failWc P p j).wrId = pingpongSendWrid ∧
            (failWc P p j).qpNum = P.qpNum p j := ⟨rfl, rfl⟩
        simp [hwc, hq]
        omega

theorem EndView.pollCq {p : Player} {c : Context n} {ph : Phase} {V : Volley.State (Fin n)}
    (h : EndView P p ⟨c, ph⟩ V) (hbatch : ph.batchOf = []) (hup : ph.up = true)
    (hopening : ∀ k, ph ≠ .opening k) (numWc : ℕ) (next : Bool) :
    EndView P p ⟨(pollCq P p numWc c).1, .batch next (pollCq P p numWc c).2⟩ V := by
  have hpool : Endpoint.pool ⟨(PingPong.pollCq P p numWc c).1,
      .batch next (PingPong.pollCq P p numWc c).2⟩ = Endpoint.pool ⟨c, ph⟩ := by
    simp only [Endpoint.pool, hbatch, List.nil_append]
    exact List.take_append_drop ..
  refine { h with
    lane := fun i => ?_
    known := hpool ▸ h.known
    left := h.left.trans (iff_of_false (Phase.not_left hup) Bool.false_ne_true)
    routs := hpool ▸ h.routs
    opening := nofun
    opened := fun hp _ => h.opened hp hopening
    finished := nofun
    alive := nofun }
  have hi := h.lane i
  refine { hi with
    sends := hpool ▸ hi.sends
    fails := hpool ▸ hi.fails
    recvs := hpool ▸ hi.recvs
    slots := ?_ }
  have hslots := hi.slots
  have hknown : ∀ w ∈ c.cq.take numWc, Known P p w := fun w hw =>
    h.known w (List.mem_append_right _ (List.mem_of_mem_take hw))
  have hsend : c.cq.count (sendWc P p i) = (c.cq.take numWc).count (sendWc P p i) +
      (c.cq.drop numWc).count (sendWc P p i) := by
    rw [← List.count_append, List.take_append_drop]
  have hfail : c.cq.count (failWc P p i) = (c.cq.take numWc).count (failWc P p i) +
      (c.cq.drop numWc).count (failWc P p i) := by
    rw [← List.count_append, List.take_append_drop]
  simp only [PingPong.pollCq, countP_send hknown] at hslots ⊢
  omega

/-- A context after the adapter has queued a completion. -/
def Context.completed (c : Context n) (w : Wc) : Context n :=
  { c with cq := c.cq ++ [w], armed := false, events := c.events + c.armed.toNat }

theorem pool_completed (c : Context n) (ph : Phase) (w : Wc) :
    Endpoint.pool ⟨c.completed w, ph⟩ = Endpoint.pool ⟨c, ph⟩ ++ [w] :=
  (List.append_assoc ..).symm

theorem count_snoc (l : List Wc) (w w' : Wc) :
    (l ++ [w]).count w' = l.count w' + if w = w' then 1 else 0 := by
  rw [List.count_append, List.count_singleton]
  simp

/-- The lanes a queued completion is not about, on a side of which the adapter
has changed nothing else there. -/
theorem LaneView.completed {p : Player} {c c' : Context n} {ph : Phase} {w : Wc} {j : Fin n}
    {l : Volley.Lane} (h : LaneView P p ⟨c, ph⟩ j l) (hcq : c'.cq = c.cq)
    (hsend : w ≠ sendWc P p j) (hfail : w ≠ failWc P p j) (hrecv : w ≠ recvWc P p j)
    (hwire : (c'.wire j).length = (c.wire j).length) (hun : c'.unfinished j = c.unfinished j)
    (hslots : c'.slots j = c.slots j) (hpending : c'.pending j = c.pending j) :
    LaneView P p ⟨c'.completed w, ph⟩ j l := by
  have hpool : Endpoint.pool ⟨c'.completed w, ph⟩ = Endpoint.pool ⟨c, ph⟩ ++ [w] := by
    rw [pool_completed, Endpoint.pool, Endpoint.pool, hcq]
  have hcount : ∀ {w' : Wc} {l : List Wc}, w ≠ w' → (l ++ [w]).count w' = l.count w' := by
    intro w' l hne
    rw [count_snoc, if_neg hne, Nat.add_zero]
  refine ⟨hwire.trans h.wire, hun.trans h.unfinished, ?_, ?_, ?_, ?_,
    fun ho => hpending.trans (h.pending ho)⟩
  · rw [hpool, hcount hsend, h.sends]
  · rw [hpool, hcount hfail, h.fails]
  · rw [hpool, hcount hrecv, h.recvs]
  · simp only [Context.completed, hcq, hcount hsend, hcount hfail, hun, hslots]
    exact h.slots

theorem count_completed (c c' : Context n) (ph : Phase) (hcq : c'.cq = c.cq) (w w' : Wc) :
    (Endpoint.pool ⟨c'.completed w, ph⟩).count w' =
      (Endpoint.pool ⟨c, ph⟩).count w' + if w = w' then 1 else 0 := by
  rw [pool_completed, count_snoc, Endpoint.pool, Endpoint.pool, hcq]

theorem known_completed {p : Player} {c : Context n} (c' : Context n) {ph : Phase} {w : Wc}
    (hcq : c'.cq = c.cq) (h : ∀ w ∈ Endpoint.pool ⟨c, ph⟩, Known P p w) (hw : Known P p w) :
    ∀ w' ∈ Endpoint.pool ⟨c'.completed w, ph⟩, Known P p w' := by
  intro w' hw'
  rw [pool_completed, Endpoint.pool, hcq] at hw'
  rcases List.mem_append.mp hw' with hmem | hmem
  · exact h w' hmem
  · exact List.mem_singleton.mp hmem ▸ hw

/-- A send completes: the throw is done, or cut when its message is taken back. -/
theorem EndView.finish {p : Player} {c : Context n} {ph : Phase} {V : Volley.State (Fin n)}
    {i : Fin n} {r : Bool} (h : EndView P p ⟨c, ph⟩ V) (ha : (V.lane i).Admits r p .finish)
    (hcounted : (V.lane i).Counted r) :
    EndView P p ⟨complete P p (finishSend c i) (sendWc P p i), ph⟩ (V.play p i .finish) := by
  have hi := h.lane i
  have hunder := ha.1
  have hsends := hi.sends
  have hfails := hi.fails
  have hun : c.unfinished i = 1 := hi.unfinished.trans (if_pos hunder)
  have hslots : c.slots i = c.unfinished i + c.cq.count (sendWc P p i) +
      c.cq.count (failWc P p i) := hi.slots
  rw [hunder] at hsends hfails
  have hroom : (finishSend c i).cq.length < n + P.rxDepth p :=
    h.cq_length_lt (.inl (by rw [hsends, hfails]; rfl))
  rw [complete_eq _ hroom]
  have hhand : (((V.lane i).play p .finish).hand p).throw = .done := by
    rw [Volley.Lane.play_hand]
    rfl
  have hcount := count_completed c (finishSend c i) ph rfl (sendWc P p i)
  have hopen := unopened_play ha nofun hcounted
  refine { h with
    lane := lane_play ?_ fun j hj => ?_
    known := known_completed _ rfl h.known ⟨i, .inl rfl⟩
    scnt := ?_
    rcnt := ?_
    routs := ?_
    opening := fun k hk => ?_
    opened := fun hp hk j => (hopen j).not.mpr (h.opened hp hk j) }
  · refine ⟨hi.wire, ?_, ?_, ?_, ?_, ?_, fun ho => ?_⟩
    · rw [hhand]
      refine (Function.update_self ..).trans ?_
      rw [hun]
      rfl
    · rw [hhand]
      refine (hcount _).trans ?_
      rw [hsends, if_pos rfl]
      rfl
    · rw [hhand]
      refine (hcount _).trans ?_
      rw [hfails, if_neg sendWc_ne_failWc]
      rfl
    · refine (hcount _).trans ?_
      rw [if_neg sendWc_ne_recvWc]
      exact hi.recvs
    · change c.slots i = Function.update c.unfinished i (c.unfinished i - 1) i +
        (c.cq ++ [sendWc P p i]).count (sendWc P p i) +
        (c.cq ++ [sendWc P p i]).count (failWc P p i)
      rw [Function.update_self, count_snoc, count_snoc, if_pos rfl, if_neg sendWc_ne_failWc]
      omega
    · have hpending := hi.pending ho
      rw [mask, hunder] at hpending
      rw [mask, hhand]
      exact hpending
  · exact (h.lane j).completed rfl (fun he => hj (sendWc_inj.mp he).symm) sendWc_ne_failWc
      sendWc_ne_recvWc rfl (Function.update_of_ne hj ..) rfl rfl
  · rw [V.sent_play, if_neg fun hc => nomatch hc.1]
    exact h.scnt
  · rw [V.received_play, if_neg fun hc => nomatch hc.1]
    exact h.rcnt
  · have hrouts := h.routs
    change c.recvQueue + (Endpoint.pool ⟨(finishSend c i).completed _, ph⟩).countP _ = _
    rw [pool_completed, List.countP_append, List.countP_singleton, isRecv_sendWc]
    exact hrouts
  · obtain ⟨hfirst, hle, hballs⟩ := h.opening k hk
    exact ⟨hfirst, hle, fun j => (hopen j).trans (hballs j)⟩

theorem EndView.cut {p : Player} {c : Context n} {ph : Phase} {V : Volley.State (Fin n)}
    {i : Fin n} {r : Bool} (h : EndView P p ⟨c, ph⟩ V) (ha : (V.lane i).Admits r p .cut)
    (hcounted : (V.lane i).Counted r) :
    EndView P p ⟨complete P p (finishSend (dropMessage c i) i) (failWc P p i), ph⟩
      (V.play p i .cut) := by
  have hi := h.lane i
  obtain ⟨hunder, hflying⟩ := ha
  have hsends := hi.sends
  have hfails := hi.fails
  have hrecvs := hi.recvs
  have hwire : (c.wire i).length = 1 := hi.wire.trans (if_pos hflying)
  have hun : c.unfinished i = 1 := hi.unfinished.trans (if_pos hunder)
  have hslots : c.slots i = c.unfinished i + c.cq.count (sendWc P p i) +
      c.cq.count (failWc P p i) := hi.slots
  rw [hunder] at hsends hfails
  rw [hflying] at hrecvs
  have hroom : (finishSend (dropMessage c i) i).cq.length < n + P.rxDepth p :=
    h.cq_length_lt (.inl (by rw [hsends, hfails]; rfl))
  rw [complete_eq _ hroom]
  have hhand : (((V.lane i).play p .cut).hand p).throw = .cut := by
    rw [Volley.Lane.play_hand]
    rfl
  have hball : ((V.lane i).play p .cut).ball = .lost p := rfl
  have hcount := count_completed c (finishSend (dropMessage c i) i) ph rfl (failWc P p i)
  have hopen := unopened_play ⟨hunder, hflying⟩ (m := .cut) nofun hcounted
  refine { h with
    lane := lane_play ?_ fun j hj => ?_
    known := known_completed _ rfl h.known ⟨i, .inr (.inr rfl)⟩
    scnt := ?_
    rcnt := ?_
    routs := ?_
    opening := fun k hk => ?_
    opened := fun hp hk j => (hopen j).not.mpr (h.opened hp hk j) }
  · refine ⟨?_, ?_, ?_, ?_, ?_, ?_, fun _ => ?_⟩
    · rw [hball]
      change (Function.update c.wire i (c.wire i).tail i).length = 0
      rw [Function.update_self, List.length_tail, hwire]
    · rw [hhand]
      refine (Function.update_self ..).trans ?_
      change c.unfinished i - 1 = 0
      rw [hun]
    · rw [hhand]
      refine (hcount _).trans ?_
      rw [hsends, if_neg failWc_ne_sendWc]
      rfl
    · rw [hhand]
      refine (hcount _).trans ?_
      rw [hfails, if_pos rfl]
      rfl
    · refine (hcount _).trans ?_
      rw [if_neg failWc_ne_recvWc, hrecvs, hball]
      rfl
    · change c.slots i = Function.update c.unfinished i (c.unfinished i - 1) i +
        (c.cq ++ [failWc P p i]).count (sendWc P p i) +
        (c.cq ++ [failWc P p i]).count (failWc P p i)
      rw [Function.update_self, count_snoc, count_snoc, if_pos rfl, if_neg failWc_ne_sendWc]
      omega
    · have hpending := hi.pending (.inl (by rw [hflying]; nofun))
      rw [mask, hunder, hflying] at hpending
      rw [mask, hhand, hball]
      exact hpending
  · refine (h.lane j).completed rfl failWc_ne_sendWc
      (fun he => hj (failWc_inj.mp he).symm) failWc_ne_recvWc ?_ (Function.update_of_ne hj ..)
      rfl rfl
    exact congrArg List.length (Function.update_of_ne hj ..)
  · rw [V.sent_play, if_neg fun hc => nomatch hc.1]
    exact h.scnt
  · rw [V.received_play, if_neg fun hc => nomatch hc.1]
    exact h.rcnt
  · have hrouts := h.routs
    change c.recvQueue +
      (Endpoint.pool ⟨(finishSend (dropMessage c i) i).completed _, ph⟩).countP _ = _
    rw [pool_completed, List.countP_append, List.countP_singleton, isRecv_failWc]
    exact hrouts
  · obtain ⟨hfirst, hle, hballs⟩ := h.opening k hk
    exact ⟨hfirst, hle, fun j => (hopen j).trans (hballs j)⟩

/-- A message leaves the sender: it lands or is lost. -/
theorem EndView.drop {p : Player} {c : Context n} {ph : Phase} {V : Volley.State (Fin n)}
    {i : Fin n} {r : Bool} {m : Volley.Move} (h : EndView P p ⟨c, ph⟩ V)
    (hm : m = .land ∨ m = .lose) (hflying : (V.lane i).ball = .flying p)
    (hcounted : (V.lane i).Counted r) :
    EndView P p ⟨dropMessage c i, ph⟩ (V.play p i m) := by
  have hi := h.lane i
  have hrecvs := hi.recvs
  have hwire : (c.wire i).length = 1 := hi.wire.trans (if_pos hflying)
  rw [hflying] at hrecvs
  have hhand : ((V.lane i).play p m).hand p = (V.lane i).hand p := by
    rw [Volley.Lane.play_hand]
    rcases hm with rfl | rfl <;> rfl
  have hball : ((V.lane i).play p m).ball = .landed p.peer ∨
      ((V.lane i).play p m).ball = .lost p := by
    rcases hm with rfl | rfl
    · exact .inl rfl
    · exact .inr rfl
  have hne : (Volley.Ball.landed p.peer) ≠ .landed p := by
    simp
  have hadmits : (V.lane i).Admits r p m := by
    rcases hm with rfl | rfl <;> exact hflying
  have hopen := unopened_play hadmits (by rcases hm with rfl | rfl <;> nofun) hcounted
  refine { h with
    lane := lane_play ?_ fun j hj => ?_
    scnt := ?_
    rcnt := ?_
    opening := fun k hk => ?_
    opened := fun hp hk j => (hopen j).not.mpr (h.opened hp hk j) }
  · refine ⟨?_, ?_, ?_, ?_, ?_, hi.slots, fun _ => ?_⟩
    · change (Function.update c.wire i (c.wire i).tail i).length = _
      rw [Function.update_self, List.length_tail, hwire]
      rcases hball with hb | hb <;> rw [hb] <;> rfl
    · rw [hhand]
      exact hi.unfinished
    · rw [hhand]
      exact hi.sends
    · rw [hhand]
      exact hi.fails
    · refine hrecvs.trans ?_
      rcases hball with hb | hb <;> rw [hb]
      · rw [if_neg hne]
        rfl
      · rfl
    · have hpending := hi.pending (.inl (by rw [hflying]; nofun))
      rw [mask, hflying] at hpending
      rw [mask, hhand]
      rcases hball with hb | hb <;> rw [hb] <;> exact hpending
  · have hj' := h.lane j
    exact { hj' with
      wire := (congrArg List.length (Function.update_of_ne hj ..)).trans hj'.wire }
  · rw [V.sent_play, if_neg (by rcases hm with rfl | rfl <;> nofun)]
    exact h.scnt
  · rw [V.received_play, if_neg (by rcases hm with rfl | rfl <;> nofun)]
    exact h.rcnt
  · obtain ⟨hfirst, hle, hballs⟩ := h.opening k hk
    exact ⟨hfirst, hle, fun j => (hopen j).trans (hballs j)⟩

/-- A message arrives: the ball lands. -/
theorem EndView.receive {p : Player} {c : Context n} {ph : Phase} {V : Volley.State (Fin n)}
    {i : Fin n} {r : Bool} (h : EndView P p.peer ⟨c, ph⟩ V)
    (hflying : (V.lane i).ball = .flying p) (hcounted : (V.lane i).Counted r)
    (bytes : List UInt8) :
    EndView P p.peer ⟨receive P p.peer c i bytes, ph⟩ (V.play p i .land) := by
  have hi := h.lane i
  have hrecvs := hi.recvs
  rw [hflying] at hrecvs
  have hpos : 0 < c.recvQueue := h.recvQueue_pos (i := i) (by rw [hflying]; nofun)
  have hroom : (setBuf { c with recvQueue := c.recvQueue - 1 } bytes).cq.length <
      n + P.rxDepth p.peer := h.cq_length_lt (.inr hrecvs)
  rw [PingPong.receive, if_pos hpos, complete_eq _ hroom]
  have hhand : ((V.lane i).play p .land).hand p.peer = (V.lane i).hand p.peer :=
    Volley.Lane.play_hand_peer ..
  have hball : ((V.lane i).play p .land).ball = .landed p.peer := rfl
  have hcount := count_completed c (setBuf { c with recvQueue := c.recvQueue - 1 } bytes) ph
    rfl (recvWc P p.peer i)
  have hopen := unopened_play (m := .land) (r := r) hflying nofun hcounted
  refine { h with
    lane := lane_play ?_ fun j hj => ?_
    known := known_completed (setBuf { c with recvQueue := c.recvQueue - 1 } bytes) rfl h.known
      ⟨i, .inr (.inl rfl)⟩
    scnt := ?_
    rcnt := ?_
    routs := ?_
    opening := fun k hk => ?_
    opened := fun hp hk j => (hopen j).not.mpr (h.opened hp hk j) }
  · refine ⟨?_, ?_, ?_, ?_, ?_, ?_, fun _ => ?_⟩
    · refine (List.length_map ..).trans (hi.wire.trans ?_)
      rw [hflying, hball, if_neg (by simp)]
      rfl
    · rw [hhand]
      exact hi.unfinished
    · rw [hhand]
      refine (hcount _).trans ?_
      rw [if_neg recvWc_ne_sendWc]
      exact hi.sends
    · rw [hhand]
      refine (hcount _).trans ?_
      rw [if_neg recvWc_ne_failWc]
      exact hi.fails
    · refine (hcount _).trans ?_
      rw [hrecvs, if_pos rfl, hball, if_pos rfl]
      rfl
    · change c.slots i = c.unfinished i +
        (c.cq ++ [recvWc P p.peer i]).count (sendWc P p.peer i) +
        (c.cq ++ [recvWc P p.peer i]).count (failWc P p.peer i)
      rw [count_snoc, count_snoc, if_neg recvWc_ne_sendWc, if_neg recvWc_ne_failWc]
      exact hi.slots
    · have hpending := hi.pending (.inl (by rw [hflying]; nofun))
      rw [mask, hflying] at hpending
      rw [mask, hhand, hball]
      exact hpending
  · exact (h.lane j).completed rfl recvWc_ne_sendWc recvWc_ne_failWc
      (fun he => hj (recvWc_inj.mp he).symm) (List.length_map ..) rfl rfl rfl
  · rw [V.sent_play, if_neg fun hc => nomatch hc.1]
    exact h.scnt
  · rw [V.received_play, if_neg fun hc => nomatch hc.1]
    exact h.rcnt
  · have hrouts : c.recvQueue + (Endpoint.pool ⟨c, ph⟩).countP Wc.isRecv = c.routs := h.routs
    change c.recvQueue - 1 + (Endpoint.pool
      ⟨(setBuf { c with recvQueue := c.recvQueue - 1 } bytes).completed _, ph⟩).countP _ = c.routs
    rw [pool_completed, List.countP_append, List.countP_singleton, isRecv_recvWc, if_pos rfl]
    change c.recvQueue - 1 + ((Endpoint.pool ⟨c, ph⟩).countP Wc.isRecv + 1) = c.routs
    omega
  · obtain ⟨hfirst, hle, hballs⟩ := h.opening k hk
    exact ⟨hfirst, hle, fun j => (hopen j).trans (hballs j)⟩

def rules (P : Program n) : Rules := ⟨P.iters, P.reliable, P.quits⟩

theorem EndView.stays {p : Player} {e : Endpoint n} {V : Volley.State (Fin n)}
    (h : EndView P p e V) (hup : e.phase.up = true) : V.left p = false := by
  rw [← Bool.not_eq_true, h.left]
  exact Phase.not_left hup

/-- A side that failed did so at a throw that was cut. -/
def Shows (P : Program n) (p : Player) (e : Endpoint n) (V : Volley.State (Fin n)) : Prop :=
  EndView P p e V ∨ (e.phase = .failed .status ∧ V.left p = false ∧ e.ctx.overrun = false ∧
    e.ctx.notReady = false ∧ ∃ i, ((V.lane i).hand p).throw = .cut)

theorem Shows.play_peer {p : Player} {e : Endpoint n} {i : Fin n} {m : Volley.Move}
    {V : Volley.State (Fin n)} (h : Shows P p.peer e V) (hV : V.Sound (rules P))
    (ha : V.allows (rules P) p i m) (hm : m ≠ .land) : Shows P p.peer e (V.play p i m) := by
  rcases h with h | ⟨hfailed, hstay, hoverrun, hready, j, hcut⟩
  · exact .inl (h.play_peer ha.admits hm (hV.counted i))
  · refine .inr ⟨hfailed, hstay, hoverrun, hready, j, ?_⟩
    by_cases hj : j = i
    · subst hj
      rw [V.play_lane, Volley.Lane.play_hand_peer]
      exact hcut
    · rw [V.play_lane_ne p hj]
      exact hcut

theorem EndView.leave_peer {p : Player} {e : Endpoint n} {V : Volley.State (Fin n)}
    (h : Shows P p.peer e V) :
    Shows P p.peer e { V with left := Function.update V.left p true } := by
  rcases h with h | h
  · refine .inl { h with
      left := ?_
      lane := fun i => { h.lane i with } }
    simp only [Function.update_of_ne p.peer_ne]
    exact h.left
  · refine .inr ⟨h.1, ?_, h.2.2⟩
    simp only [Function.update_of_ne p.peer_ne]
    exact h.2.1

/-- What a step comes to: moves that the other side does not see. -/
def Matched (P : Program n) (p : Player) (V : Volley.State (Fin n)) (e' : Endpoint n) : Prop :=
  ∃ es V', Runs.run (Volley.step (rules P)) V es = some V' ∧ Shows P p e' V' ∧
    ∀ x, Shows P p.peer x V → Shows P p.peer x V'

theorem Matched.quiet {p : Player} {e' : Endpoint n} {V : Volley.State (Fin n)}
    (h : Shows P p e' V) : Matched P p V e' := ⟨[], V, rfl, h, fun _ hx => hx⟩

/-- A move with the toss that may answer it. -/
theorem Matched.answered {p : Player} {c c' : Context n} {next : Bool} {wcs : List Wc}
    {V : Volley.State (Fin n)} {m : Volley.Move} {i : Fin n} {e' : Endpoint n}
    (hV : V.Sound (rules P)) (hstay : V.left p = false) (ha : V.allows (rules P) p i m)
    (hm : m ≠ .land) (h : EndView P p ⟨c', .batch next wcs⟩ (V.play p i m))
    (hs : (match reply P c' i with
      | Except.error f => some (⟨c, .failed f⟩ : Endpoint n)
      | Except.ok c => some ⟨c, .batch next wcs⟩) = some e') : Matched P p V e' := by
  have hstep := Volley.step_move.mpr ⟨ha, rfl⟩
  have ho : ((V.play p i m).lane i).ball ≠ .unopened ∨ p = .second := by
    cases p with
    | first => exact .inl (h.opened rfl nofun i)
    | second => exact .inr rfl
  rcases h.replied ho with ⟨hok, -⟩ | ⟨hok, hlt, hidle, hball, htoss⟩
  · rw [hok] at hs
    cases hs
    exact ⟨[.move m p i], _, Runs.run_cons hstep rfl, .inl h, fun x hx => hx.play_peer hV ha hm⟩
  · rw [hok] at hs
    cases hs
    have hat : (V.play p i m).allows (rules P) p i .toss := ⟨hball, hidle, h.scnt ▸ hlt, hstay⟩
    exact ⟨[.move m p i, .move .toss p i], _,
      Runs.run_cons hstep (Runs.run_cons (Volley.step_move.mpr ⟨hat, rfl⟩) rfl), .inl htoss,
      fun x hx => (hx.play_peer hV ha hm).play_peer (hV.step hstep) hat nofun⟩

theorem EndView.work {p : Player} {c : Context n} {w : Wc} {next : Bool} {wcs : List Wc}
    {e' : Endpoint n} {V : Volley.State (Fin n)}
    (h : EndView P p ⟨c, .batch next (w::wcs)⟩ V) (hV : V.Sound (rules P))
    (hs : PingPong.advance P p ⟨c, .batch next (w::wcs)⟩ = some e') : Matched P p V e' := by
  have hstay : V.left p = false := h.stays rfl
  simp only [PingPong.advance] at hs
  obtain ⟨i, rfl | rfl | rfl⟩ := h.known w List.mem_cons_self
  · obtain ⟨hdone, hview⟩ := h.clear
    rw [parseWc_sendWc] at hs
    exact .answered (m := .clear) hV hstay ⟨hdone, hstay⟩ nofun hview hs
  · obtain ⟨hlanded, hpos, hqueue, hview⟩ := h.take
    obtain ⟨k, hcount, hle, hge⟩ := countRecv_eq hpos h.routs_le hqueue
    rw [parseWc_recvWc i hcount] at hs
    exact .answered (m := .take) hV hstay ⟨hlanded, hstay⟩ nofun (hview k hle hge) hs
  · rw [parseWc_failWc] at hs
    cases hs
    exact .quiet (.inr ⟨rfl, hstay, h.overrun, h.notReady, i, h.cut_of_failWc⟩)

/-- A poll moves nothing, but for the one that makes a process quit. -/
theorem EndView.poll {p : Player} {c : Context n} {e' : Endpoint n} {V : Volley.State (Fin n)}
    (h : EndView P p ⟨c, .poll⟩ V) (hs : PingPong.advance P p ⟨c, .poll⟩ = some e') :
    Matched P p V e' := by
  have hpolled := h.pollCq rfl rfl nofun
  simp only [PingPong.advance] at hs
  split_ifs at hs with hts hnone hpolling hnone
  · cases hs
    have hquits : P.quits p = true := by
      simp [Program.quits, hts, hpolling]
    exact ⟨[.leave p], _,
      Runs.run_cons (Volley.step_leave.mpr ⟨.inr ⟨h.stays rfl, hquits⟩, rfl⟩) rfl,
      .inl (h.leave c.unacked rfl nofun rfl nofun fun _ _ => hquits),
      fun _ hx => EndView.leave_peer hx⟩
  · cases hs
    exact .quiet (.inl (hpolled 1 true))
  · cases hs
    exact .quiet (.inl (hpolled (P.numWc p) false))

/-- What a process does next is a serve, a catch or a clear with the toss that
answers it, its leaving, or no move. -/
theorem EndView.advance {p : Player} {e e' : Endpoint n} {V : Volley.State (Fin n)}
    (h : EndView P p e V) (hV : V.Sound (rules P)) (hs : advance P p e = some e') :
    Matched P p V e' := by
  obtain ⟨c, ph⟩ := e
  cases ph with
  | opening k =>
      simp only [PingPong.advance] at hs
      obtain ⟨hfirst, hle, hballs⟩ := h.opening k rfl
      split_ifs at hs with hk
      · obtain ⟨-, hball, hslots, hview⟩ := h.serve hk (hV.counted _)
        rw [ppPostSend_eq hslots] at hs
        cases hs
        have ha : V.allows (rules P) p ⟨k, hk⟩ .serve := ⟨hball, hfirst⟩
        exact ⟨[.move .serve p ⟨k, hk⟩], _, Runs.run_cons (Volley.step_move.mpr ⟨ha, rfl⟩) rfl,
          .inl hview, fun x hx => hx.play_peer hV ha nofun⟩
      · cases hs
        refine .quiet (.inl (h.control c.armed c.events c.unacked c.numCqEvents rfl rfl rfl nofun
          (fun _ i hi => ?_) nofun))
        have hki := (hballs i).mp hi
        omega
  | test =>
      simp only [PingPong.advance] at hs
      have hop : p = .first → ∀ i, (V.lane i).ball ≠ .unopened := fun hp => h.opened hp nofun
      split_ifs at hs with hmore hevent
      · cases hs
        exact .quiet (.inl (h.control c.armed c.events c.unacked c.numCqEvents rfl rfl rfl nofun
          hop nofun))
      · cases hs
        exact .quiet (.inl (h.control c.armed c.events c.unacked c.numCqEvents rfl rfl rfl nofun
          hop nofun))
      · cases hs
        exact .quiet (.inl (h.control c.armed c.events c.unacked c.numCqEvents rfl rfl rfl nofun
          hop fun _ => by omega))
  | waiting =>
      simp only [PingPong.advance] at hs
      split_ifs at hs with hev
      cases hs
      exact .quiet (.inl (h.control c.armed (c.events - 1) (c.unacked + 1) (c.numCqEvents + 1) rfl
        rfl rfl nofun (fun hp => h.opened hp nofun) nofun))
  | notify =>
      cases hs
      exact .quiet (.inl (h.control true c.events c.unacked c.numCqEvents rfl rfl rfl nofun
        (fun hp => h.opened hp nofun) nofun))
  | poll => exact h.poll hs
  | batch next wcs =>
      cases wcs with
      | nil =>
          cases next with
          | false =>
              cases hs
              exact .quiet (.inl (h.control c.armed c.events c.unacked c.numCqEvents rfl rfl rfl
                nofun (fun hp => h.opened hp nofun) nofun))
          | true =>
              cases hs
              exact .quiet (.inl (h.pollCq rfl rfl nofun 1 false))
      | cons w wcs => exact h.work hV hs
  | done =>
      simp only [PingPong.advance, closeCtx] at hs
      split_ifs at hs with hacked
      · cases hs
        have hquota := h.finished (.inl rfl)
        have hmay : V.mayLeave (rules P) p :=
          ⟨h.stays rfl, h.scnt ▸ hquota.2, h.rcnt ▸ hquota.1⟩
        exact ⟨[.leave p], _, Runs.run_cons (Volley.step_leave.mpr ⟨.inl hmay, rfl⟩) rfl,
          .inl (h.leave _ rfl nofun rfl (fun _ => hquota) nofun),
          fun _ hx => EndView.leave_peer hx⟩
      · cases hs
  | closed => cases hs
  | failed f => cases hs

/-- The two sides show the state of play, which is a sound one. -/
structure Refines (P : Program n) (N : Network n) (V : Volley.State (Fin n)) : Prop where
  sound : V.Sound (rules P)
  side : ∀ p, Shows P p (N p) V

theorem Shows.view {p : Player} {e : Endpoint n} {V : Volley.State (Fin n)} (h : Shows P p e V)
    (hup : e.phase.up = true) : EndView P p e V := by
  rcases h with h | ⟨hfailed, -⟩
  · exact h
  · rw [hfailed] at hup
    cases hup

theorem EndView.left_of_down {p : Player} {e : Endpoint n} {V : Volley.State (Fin n)}
    (h : EndView P p e V) (hdown : e.phase.up = false) : e.phase.left = true := by
  have halive := h.alive
  cases hph : e.phase with
  | closed => rfl
  | failed f =>
      rw [(halive f hph).1]
      rfl
  | _ =>
      rw [hph] at hdown
      cases hdown

theorem EndView.closed_of_left {p : Player} {e : Endpoint n} {V : Volley.State (Fin n)}
    (h : EndView P p e V) (hquits : P.quits p = false) (hleft : e.phase.left = true) :
    e.phase = .closed := by
  refine (Phase.left_iff.mp hleft).resolve_right fun hfailed => ?_
  rw [(h.alive _ hfailed).2] at hquits
  cases hquits

/-- Once a side has a throw cut, the other has left. -/
theorem Refines.left_of_cut {N : Network n} {V : Volley.State (Fin n)} (h : Refines P N V)
    {p : Player} {i : Fin n} (hcut : ((V.lane i).hand p).throw = .cut) :
    (N p.peer).phase.left = true := by
  have hleft := (h.sound.cut p i hcut).2.1
  rcases h.side p.peer with hview | ⟨-, hstay, -⟩
  · exact hview.left.mp hleft
  · rw [hstay] at hleft
    cases hleft

theorem Refines.of_move {N N' : Network n} {V : Volley.State (Fin n)} {p : Player} {i : Fin n}
    {m : Volley.Move} (h : Refines P N V) (ha : V.allows (rules P) p i m)
    (hown : Shows P p (N' p) (V.play p i m))
    (hpeer : Shows P p.peer (N' p.peer) (V.play p i m)) :
    ∃ m p i, V.allows (rules P) p i m ∧ Refines P N' (V.play p i m) := by
  refine ⟨m, p, i, ha, h.sound.play ha, fun q => ?_⟩
  rcases p.eq_or_peer q with rfl | rfl
  · exact hown
  · exact hpeer

@[simp] theorem Network.set_self (N : Network n) (p : Player) (c : Context n) :
    N.set p c p = ⟨c, (N p).phase⟩ := Function.update_self ..

@[simp] theorem Network.set_peer (N : Network n) (p : Player) (c : Context n) :
    N.set p c p.peer = N p.peer := Function.update_of_ne p.peer_ne ..

@[simp] theorem Network.set_of_peer (N : Network n) (p : Player) (c : Context n) :
    N.set p.peer c p = N p := Function.update_of_ne p.ne_peer ..

theorem EndView.flying_of_wire {p : Player} {e : Endpoint n} {V : Volley.State (Fin n)}
    (h : EndView P p e V) {i : Fin n} (hwire : e.ctx.wire i ≠ []) :
    (V.lane i).ball = .flying p := by
  by_contra hne
  have hlen := (h.lane i).wire
  rw [if_neg hne] at hlen
  exact hwire (List.length_eq_zero_iff.mp hlen)

theorem EndView.under_of_unfinished {p : Player} {e : Endpoint n} {V : Volley.State (Fin n)}
    (h : EndView P p e V) {i : Fin n} (hun : 0 < e.ctx.unfinished i) :
    ((V.lane i).hand p).throw = .under := by
  by_contra hne
  have hun' := (h.lane i).unfinished
  rw [if_neg hne] at hun'
  omega

/-- A lost message is a lost ball. -/
theorem Refines.lose {N N' : Network n} {V : Volley.State (Fin n)} {p : Player} {i : Fin n}
    (h : Refines P N V) (hs : PingPong.step P N (.lose p i) = some N') :
    V.allows (rules P) p i .lose ∧ Refines P N' (V.play p i .lose) := by
  simp only [PingPong.step] at hs
  split_ifs at hs with hok
  cases hs
  obtain ⟨hwire, hwhy⟩ := hok
  have hview : EndView P p (N p) V := by
    rcases h.side p with hview | ⟨hfailed, -, -, -, j, hcut⟩
    · exact hview
    · have hrel := (h.sound.cut p j hcut).1
      rcases hwhy with hun | hclosed
      · rw [show P.reliable = true from hrel] at hun
        cases hun
      · rw [hfailed] at hclosed
        cases hclosed
  have hflying := hview.flying_of_wire hwire
  have ha : V.allows (rules P) p i .lose := ⟨hflying, hwhy.imp_right hview.left.mpr⟩
  refine ⟨ha, h.sound.play ha, fun q => ?_⟩
  rcases p.eq_or_peer q with rfl | rfl
  · rw [Network.set_self]
    exact .inl (hview.drop (.inr rfl) hflying (h.sound.counted i))
  · rw [Network.set_peer]
    exact (h.side p.peer).play_peer h.sound ha nofun

/-- What the adapters do is a move. -/
theorem Refines.adapter {N N' : Network n} {V : Volley.State (Fin n)} {e : Event n}
    (h : Refines P N V) (hs : PingPong.step P N e = some N') (he : ∀ p, e ≠ .run p) :
    ∃ m p i, V.allows (rules P) p i m ∧ Refines P N' (V.play p i m) := by
  cases e with
  | run p => exact absurd rfl (he p)
  | deliver p i bytes =>
      simp only [PingPong.step] at hs
      cases hwire : (N p).ctx.wire i with
      | nil => simp only [hwire, reduceCtorEq] at hs
      | cons m ms =>
          simp only [hwire] at hs
          split_ifs at hs with hok
          cases hs
          have hpeer := (h.side p.peer).view hok.2
          have hown : EndView P p (N p) V := by
            rcases h.side p with hview | ⟨-, -, -, -, j, hcut⟩
            · exact hview
            · exact absurd (h.left_of_cut hcut) (Phase.not_left hok.2)
          have hflying := hown.flying_of_wire (i := i) (by rw [hwire]; nofun)
          have hcounted := h.sound.counted i
          refine h.of_move (m := .land) ⟨hflying, hpeer.stays hok.2⟩ ?_ ?_
          · rw [Network.set_of_peer, Network.set_self]
            exact .inl (hown.drop (.inl rfl) hflying hcounted)
          · rw [Network.set_self, Network.set_peer]
            exact .inl (hpeer.receive hflying hcounted bytes)
  | finish p i =>
      simp only [PingPong.step] at hs
      split_ifs at hs with hok
      cases hs
      obtain ⟨hup, hpos, hrel⟩ := hok
      have hview := (h.side p).view hup
      have hunder := hview.under_of_unfinished hpos
      have hstay := hview.stays hup
      have hball : P.reliable = true →
          (V.lane i).ball ≠ .flying p ∧ (V.lane i).ball ≠ .lost p := by
        intro hr
        have hlen := hrel hr
        refine ⟨fun hflying => ?_, fun hlost => ?_⟩
        · rw [(hview.lane i).wire, (hview.lane i).unfinished, if_pos hflying, if_pos hunder] at hlen
          exact absurd hlen (Nat.lt_irrefl 1)
        · rcases h.sound.lost hr p i hlost with hleft | hcut
          · rw [hstay] at hleft
            cases hleft
          · rw [hunder] at hcut
            cases hcut
      have ha : V.allows (rules P) p i .finish := ⟨hunder, hstay, hball⟩
      refine h.of_move ha ?_ ?_
      · rw [Network.set_self]
        exact .inl (hview.finish ha.admits (h.sound.counted i))
      · rw [Network.set_peer]
        exact (h.side p.peer).play_peer h.sound ha nofun
  | lose p i => exact ⟨.lose, p, i, h.lose hs⟩
  | cut p i =>
      simp only [PingPong.step] at hs
      split_ifs at hs with hok
      cases hs
      obtain ⟨hrel, hup, hdown, hwire, hpos⟩ := hok
      have hview := (h.side p).view hup
      have hflying := hview.flying_of_wire hwire
      have hunder := hview.under_of_unfinished hpos
      have hleft : V.left p.peer = true := by
        rcases h.side p.peer with hpeer | ⟨-, -, -, -, j, hcut⟩
        · exact hpeer.left.mpr (hpeer.left_of_down hdown)
        · have hgone := h.left_of_cut hcut
          rw [Player.peer_peer] at hgone
          exact absurd hgone (Phase.not_left hup)
      have ha : V.allows (rules P) p i .cut := ⟨hrel, hunder, hflying, hleft, hview.stays hup⟩
      refine h.of_move ha ?_ ?_
      · rw [Network.set_self]
        exact .inl (hview.cut ha.admits (h.sound.counted i))
      · rw [Network.set_peer]
        exact (h.side p.peer).play_peer h.sound ha nofun

/-- A step of a process is a few moves, or none. -/
theorem Refines.process {N N' : Network n} {V : Volley.State (Fin n)} {p : Player}
    (h : Refines P N V) (hs : PingPong.step P N (.run p) = some N') :
    ∃ es V', Runs.run (Volley.step (rules P)) V es = some V' ∧ Refines P N' V' := by
  simp only [PingPong.step, Option.map_eq_some_iff] at hs
  obtain ⟨e', he, rfl⟩ := hs
  rcases h.side p with hview | ⟨hfailed, -⟩
  · obtain ⟨es, V', hrun, hown, hpeer⟩ := hview.advance h.sound he
    refine ⟨es, V', hrun, h.sound.run hrun, fun q => ?_⟩
    rcases p.eq_or_peer q with rfl | rfl
    · rw [Function.update_self]
      exact hown
    · rw [Function.update_of_ne p.peer_ne]
      exact hpeer _ (h.side p.peer)
  · simp only [PingPong.advance, hfailed, reduceCtorEq] at he

/-- Every step of the network is matched by moves that are played. -/
theorem Refines.step {N N' : Network n} {V : Volley.State (Fin n)} {e : Event n}
    (h : Refines P N V) (hs : PingPong.step P N e = some N') :
    ∃ es V', Runs.run (Volley.step (rules P)) V es = some V' ∧ Refines P N' V' := by
  by_cases hrun : ∃ p, e = .run p
  · obtain ⟨p, rfl⟩ := hrun
    exact h.process hs
  · obtain ⟨m, p, i, ha, hR⟩ := h.adapter hs fun p hp => hrun ⟨p, hp⟩
    exact ⟨[.move m p i], _, Runs.run_cons (Volley.step_move.mpr ⟨ha, rfl⟩) rfl, hR⟩

theorem endView_start (P : Program n) (p : Player) :
    EndView P p (start P p) (Volley.State.fresh : Volley.State (Fin n)) := by
  have hposts : ppPostRecv (P.rxDepth p) 0 (P.rxDepth p) = (P.rxDepth p, P.rxDepth p) := by
    rw [ppPostRecv_eq _ _ _ (by omega), Nat.zero_add]
  have hdepth := P.le_rxDepth p
  cases p with
  | first =>
      constructor <;>
        simp [start, start.connected, Endpoint.pool, Phase.batchOf, Phase.left, hposts, hdepth,
          Volley.State.fresh, Volley.Lane.fresh, Volley.State.sent, Volley.State.received,
          Volley.State.total]
      intro i
      constructor <;> simp [Endpoint.pool, Phase.batchOf]
  | second =>
      constructor <;>
        simp [start, start.connected, Endpoint.pool, Phase.batchOf, Phase.left, hposts, hdepth,
          Volley.State.fresh, Volley.Lane.fresh, Volley.State.sent, Volley.State.received,
          Volley.State.total]
      intro i
      constructor <;> simp [Endpoint.pool, Phase.batchOf, mask]

theorem refines_start (P : Program n) : Refines P (start P) (Volley.State.fresh) :=
  ⟨Volley.State.sound_fresh _, fun p => .inl (endView_start P p)⟩

/-- Every run of the programs is a run of the game, move by move. -/
theorem refines_of_run {N : Network n} {es : List (Event n)}
    (h : Runs.run (step P) (start P) es = some N) :
    ∃ es' V, Runs.run (Volley.step (rules P)) Volley.State.fresh es' = some V ∧ Refines P N V :=
  Runs.stuttering (fun hR hs => Refines.step hR hs) (refines_start P) h

end CppPlayground.PingPong
