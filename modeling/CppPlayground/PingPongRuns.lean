import CppPlayground.PingPongVolley

/-!
# Runs of the ping-pong programs

The game bounds what is queued and counted. What it does not show is the
control of each process: that a process in its loop has something to wait for,
that nothing stays unanswered, and that an event is raised for whatever is in
the completion queue of a process that waits. With it every run ends, with
both sides through.
-/
namespace CppPlayground.PingPong
open Volley (Player Rules)

variable {n : ℕ} {P : Program n}

/-- How many completions a process is still going to take without an event,
where it relies on one for the others. -/
def Phase.spare : Phase → Option ℕ
  | .opening _ | .test | .waiting | .done => some 0
  | .batch next _ => some next.toNat
  | .notify | .poll | .closed | .failed _ => none

/-- What a process knows at each place, whatever its peer does. -/
structure Control (P : Program n) (p : Player) (e : Endpoint n) : Prop where
  looping : e.phase = .waiting ∨ e.phase = .notify ∨ e.phase = .poll →
    e.ctx.rcnt < P.iters ∨ e.ctx.scnt < P.iters
  replied : ∀ i : Fin n, (∀ k, e.phase = .opening k → (i : ℕ) < k) → e.ctx.pending i = 0 →
    P.iters ≤ e.ctx.scnt ∨ e.phase.up = false
  acked : e.phase ≠ .closed → e.ctx.unacked = e.ctx.numCqEvents
  event : e.phase = .waiting ∨ e.phase = .notify → P.useEvent p = true
  armed : P.useEvent p = true → e.phase ≠ .notify → e.ctx.armed = true ∨ 0 < e.ctx.events
  heard : P.useEvent p = true → ∀ k, e.phase.spare = some k → k < e.ctx.cq.length →
    0 < e.ctx.events

theorem pollCq_length (P : Program n) (p : Player) (numWc : ℕ) (c : Context n) :
    (pollCq P p numWc c).2.length + (pollCq P p numWc c).1.cq.length = c.cq.length := by
  simp only [pollCq]
  rw [← List.length_append, List.take_append_drop]

theorem pollCq_events (P : Program n) (p : Player) (numWc : ℕ) (c : Context n) :
    (pollCq P p numWc c).1.events = c.events := rfl

/-- The parts of a context that working through completions leaves alone. -/
structure SameQueue (c c' : Context n) : Prop where
  cq : c'.cq = c.cq
  armed : c'.armed = c.armed
  events : c'.events = c.events
  unacked : c'.unacked = c.unacked
  numCqEvents : c'.numCqEvents = c.numCqEvents

theorem ppPostSend_frame {c c' : Context n} {i : Fin n} (h : ppPostSend c i = some c') :
    SameQueue c c' ∧ c'.scnt = c.scnt ∧ c'.pending = c.pending := by
  unfold ppPostSend at h
  split_ifs at h
  cases h
  exact ⟨⟨rfl, rfl, rfl, rfl, rfl⟩, rfl, rfl⟩

theorem reply_frame {c c' : Context n} {i : Fin n} (h : reply P c i = .ok c') :
    SameQueue c c' ∧ c'.scnt = c.scnt ∧
      ∀ j, c'.pending j = 0 → (j ≠ i ∧ c.pending j = 0) ∨ P.iters ≤ c'.scnt := by
  unfold reply at h
  split_ifs at h with hsend
  · cases hpost : ppPostSend c i with
    | none => simp only [hpost, reduceCtorEq] at h
    | some d =>
        simp only [hpost, Except.ok.injEq] at h
        subst h
        obtain ⟨hsame, hscnt, hpending⟩ := ppPostSend_frame hpost
        refine ⟨⟨hsame.cq, hsame.armed, hsame.events, hsame.unacked, hsame.numCqEvents⟩, hscnt,
          fun j hj => .inl ?_⟩
        by_cases hji : j = i
        · subst hji
          simp only [Function.update_self] at hj
          exact absurd hj (by decide)
        · simp only [Function.update_of_ne hji, hpending] at hj
          exact ⟨hji, hj⟩
  · cases h
    refine ⟨⟨rfl, rfl, rfl, rfl, rfl⟩, rfl, fun j hj => ?_⟩
    by_cases hji : j = i
    · subst hji
      exact .inr (not_lt.mp fun hlt => hsend ⟨hlt, hj⟩)
    · exact .inl ⟨hji, hj⟩

theorem countWc_frame {p : Player} {c c' : Context n} {wrId : BitVec 64}
    (h : countWc P p c wrId = .ok c') :
    SameQueue c c' ∧ c.scnt ≤ c'.scnt ∧ c'.pending = c.pending := by
  unfold countWc countRecv at h
  simp only at h
  split_ifs at h <;> cases h
  · exact ⟨⟨rfl, rfl, rfl, rfl, rfl⟩, Nat.le_succ _, rfl⟩
  · exact ⟨⟨rfl, rfl, rfl, rfl, rfl⟩, le_rfl, rfl⟩
  · exact ⟨⟨rfl, rfl, rfl, rfl, rfl⟩, le_rfl, rfl⟩

/-- The body answers on the queue pair it looks at, unless enough has been sent. -/
theorem parseWc_frame {p : Player} {c c' : Context n} {w : Wc} (h : parseWc P p c w = .ok c') :
    SameQueue c c' ∧ c.scnt ≤ c'.scnt ∧
      ∀ j, c'.pending j = 0 → c.pending j = 0 ∨ P.iters ≤ c'.scnt := by
  unfold parseWc at h
  split_ifs at h
  cases hfind : P.findQp p w.qpNum with
  | none => simp only [hfind, reduceCtorEq] at h
  | some i =>
      simp only [hfind] at h
      cases hcount : countWc P p c w.wrId with
      | error f => simp only [hcount, reduceCtorEq] at h
      | ok d =>
          simp only [hcount] at h
          obtain ⟨hsame, hle, hpending⟩ := countWc_frame hcount
          obtain ⟨hsame', hscnt, hreply⟩ := reply_frame h
          refine ⟨⟨hsame'.cq.trans hsame.cq, hsame'.armed.trans hsame.armed,
            hsame'.events.trans hsame.events, hsame'.unacked.trans hsame.unacked,
            hsame'.numCqEvents.trans hsame.numCqEvents⟩, hscnt ▸ hle, fun j hj => ?_⟩
          rcases hreply j hj with ⟨hji, hzero⟩ | hiters
          · rw [clearPending] at hzero
            simp only [Function.update_of_ne hji, hpending] at hzero
            exact .inl hzero
          · exact .inr hiters

theorem Control.advance {p : Player} {e e' : Endpoint n} (h : Control P p e)
    (hlen : e.ctx.cq.length ≤ P.numWc p) (hs : advance P p e = some e') : Control P p e' := by
  obtain ⟨c, ph⟩ := e
  obtain ⟨hlooping, hreplied, hacked, hevent, harmed, hheard⟩ := h
  cases ph with
  | opening k =>
      simp only [PingPong.advance] at hs
      split_ifs at hs with hk
      · cases hpost : ppPostSend c ⟨k, hk⟩ with
        | none =>
            simp only [hpost, Option.some.injEq] at hs
            subst hs
            exact ⟨by simp, fun _ _ _ => .inr rfl, fun _ => hacked (by simp), by simp,
              fun hu _ => harmed hu (by simp), fun _ _ hm => by cases hm⟩
        | some d =>
            simp only [hpost, Option.some.injEq] at hs
            subst hs
            obtain ⟨hsame, hscnt, hpending⟩ := ppPostSend_frame hpost
            refine ⟨by simp, fun i hi hzero => ?_, fun _ => ?_, by simp, fun hu _ => ?_,
              fun hu m hm hcq => ?_⟩
            · by_cases hik : i = ⟨k, hk⟩
              · subst hik
                simp only [Function.update_self] at hzero
                exact absurd hzero (by decide)
              · simp only [Function.update_of_ne hik, hpending] at hzero
                have hlt := hi (k + 1) rfl
                have hne : (i : ℕ) ≠ k := fun he => hik (Fin.ext he)
                rw [hscnt]
                exact hreplied i (fun k' hk' => by cases hk'; omega) hzero
            · rw [hsame.unacked, hsame.numCqEvents]
              exact hacked (by simp)
            · rw [hsame.armed, hsame.events]
              exact harmed hu (by simp)
            · rw [hsame.events]
              exact hheard hu m hm (hsame.cq ▸ hcq)
      · cases hs
        refine ⟨by simp, fun i _ => hreplied i fun k' hk' => ?_, fun _ => hacked (by simp), by simp,
          fun hu _ => harmed hu (by simp), fun hu => hheard hu⟩
        cases hk'
        omega
  | test =>
      simp only [PingPong.advance] at hs
      split_ifs at hs with hmore hev
      · cases hs
        exact ⟨fun _ => hmore, fun i _ => hreplied i (by simp), fun _ => hacked (by simp),
          fun _ => hev, fun hu _ => harmed hu (by simp), fun hu => hheard hu⟩
      · cases hs
        exact ⟨fun _ => hmore, fun i _ => hreplied i (by simp), fun _ => hacked (by simp), by simp,
          fun hu _ => harmed hu (by simp), fun _ _ hm => by cases hm⟩
      · cases hs
        exact ⟨by simp, fun i _ => hreplied i (by simp), fun _ => hacked (by simp), by simp,
          fun hu _ => harmed hu (by simp), fun hu => hheard hu⟩
  | waiting =>
      simp only [PingPong.advance] at hs
      split_ifs at hs with hpos
      cases hs
      exact ⟨fun _ => hlooping (.inl rfl), fun i _ => hreplied i (by simp),
        fun _ => congrArg (· + 1) (hacked (by simp)), fun _ => hevent (.inl rfl),
        fun _ hne => absurd rfl hne, fun _ _ hm => by cases hm⟩
  | notify =>
      cases hs
      exact ⟨fun _ => hlooping (.inr (.inl rfl)), fun i _ => hreplied i (by simp),
        fun _ => hacked (by simp), by simp, fun _ _ => .inl rfl, fun _ _ hm => by cases hm⟩
  | poll =>
      simp only [PingPong.advance] at hs
      simp only at hlen
      split_ifs at hs with hts hnone hpolling hnone
      · cases hs
        exact ⟨by simp, fun _ _ _ => .inr rfl, fun _ => hacked (by simp), by simp,
          fun hu _ => harmed hu (by simp), fun _ _ hm => by cases hm⟩
      · -- at most one is left, and the second poll takes it
        cases hs
        refine ⟨by simp, fun i _ => hreplied i (by simp), fun _ => hacked (by simp), by simp,
          fun hu _ => harmed hu (by simp), fun _ m hm hcq => ?_⟩
        cases hm
        have htwo := (P.useTs_numWc p hts).1
        simp only [pollCq, List.length_drop, Bool.toNat_true] at hcq
        omega
      · cases hs
        refine ⟨by simp, fun i _ => hreplied i (by simp), fun _ => hacked (by simp), by simp,
          fun hu _ => harmed hu (by simp), fun _ m hm hcq => ?_⟩
        cases hm
        simp only [pollCq, List.length_drop, Bool.toNat_false] at hcq
        omega
  | batch next wcs =>
      cases wcs with
      | nil =>
          cases next with
          | false =>
              cases hs
              exact ⟨by simp, fun i _ => hreplied i (by simp), fun _ => hacked (by simp), by simp,
                fun hu _ => harmed hu (by simp), fun hu => hheard hu⟩
          | true =>
              cases hs
              refine ⟨by simp, fun i _ => hreplied i (by simp), fun _ => hacked (by simp), by simp,
                fun hu _ => harmed hu (by simp), fun hu m hm hcq => hheard hu 1 rfl ?_⟩
              cases hm
              simp only [pollCq, List.length_drop, Bool.toNat_false] at hcq ⊢
              omega
      | cons w wcs =>
          simp only [PingPong.advance] at hs
          cases hparse : parseWc P p c w with
          | error f =>
              simp only [hparse, Option.some.injEq] at hs
              subst hs
              exact ⟨by simp, fun _ _ _ => .inr rfl, fun _ => hacked (by simp), by simp,
                fun hu _ => harmed hu (by simp), fun _ _ hk => by cases hk⟩
          | ok d =>
              simp only [hparse, Option.some.injEq] at hs
              subst hs
              obtain ⟨hsame, hle, hpending⟩ := parseWc_frame hparse
              refine ⟨by simp, fun i _ hzero => ?_, fun _ => ?_, by simp, fun hu _ => ?_,
                fun hu m hm hcq => ?_⟩
              · rcases hpending i hzero with hz | hiters
                · have hiters := (hreplied i (by simp) hz).resolve_right (by simp [Phase.up])
                  exact .inl (hiters.trans hle)
                · exact .inl hiters
              · rw [hsame.unacked, hsame.numCqEvents]
                exact hacked (by simp)
              · rw [hsame.armed, hsame.events]
                exact harmed hu (by simp)
              · rw [hsame.events]
                exact hheard hu m hm (hsame.cq ▸ hcq)
  | done =>
      simp only [PingPong.advance, closeCtx] at hs
      split_ifs at hs with hz
      · cases hs
        exact ⟨by simp, fun _ _ _ => .inr rfl, fun hne => absurd rfl hne, by simp,
          fun hu _ => harmed hu (by simp), fun _ _ hm => by cases hm⟩
      · cases hs
  | closed => cases hs
  | failed f => cases hs

/-- What an adapter may change of what a process looks at: a completion comes
with an event, if one was asked for. -/
structure Notified (c c' : Context n) : Prop where
  pending : c'.pending = c.pending
  scnt : c'.scnt = c.scnt
  rcnt : c'.rcnt = c.rcnt
  unacked : c'.unacked = c.unacked
  numCqEvents : c'.numCqEvents = c.numCqEvents
  queue : (c'.cq = c.cq ∧ c'.armed = c.armed ∧ c'.events = c.events) ∨
    (c'.cq.length = c.cq.length + 1 ∧ c'.armed = false ∧ c'.events = c.events + c.armed.toNat)

theorem notified_complete (p : Player) (c : Context n) (w : Wc) :
    Notified c (complete P p c w) := by
  unfold complete
  split_ifs
  · exact ⟨rfl, rfl, rfl, rfl, rfl, .inr ⟨List.length_append, rfl, rfl⟩⟩
  · exact ⟨rfl, rfl, rfl, rfl, rfl, .inl ⟨rfl, rfl, rfl⟩⟩

theorem notified_receive (p : Player) (c : Context n) (i : Fin n) (bytes : List UInt8) :
    Notified c (receive P p c i bytes) := by
  unfold receive
  split_ifs
  · have h := notified_complete (P := P) p (setBuf { c with recvQueue := c.recvQueue - 1 } bytes)
      (recvWc P p i)
    exact ⟨h.pending, h.scnt, h.rcnt, h.unacked, h.numCqEvents, h.queue⟩
  · exact ⟨rfl, rfl, rfl, rfl, rfl, .inl ⟨rfl, rfl, rfl⟩⟩

theorem notified_finish (p : Player) (c : Context n) (i : Fin n) (w : Wc) :
    Notified c (complete P p (finishSend c i) w) := by
  have h := notified_complete (P := P) p (finishSend c i) w
  exact ⟨h.pending, h.scnt, h.rcnt, h.unacked, h.numCqEvents, h.queue⟩

theorem notified_cut (p : Player) (c : Context n) (i : Fin n) (w : Wc) :
    Notified c (complete P p (finishSend (dropMessage c i) i) w) := by
  have h := notified_complete (P := P) p (finishSend (dropMessage c i) i) w
  exact ⟨h.pending, h.scnt, h.rcnt, h.unacked, h.numCqEvents, h.queue⟩

theorem notified_drop (c : Context n) (i : Fin n) : Notified c (dropMessage c i) :=
  ⟨rfl, rfl, rfl, rfl, rfl, .inl ⟨rfl, rfl, rfl⟩⟩

theorem Control.notified {p : Player} {c c' : Context n} {ph : Phase} (h : Control P p ⟨c, ph⟩)
    (hc : Notified c c') : Control P p ⟨c', ph⟩ where
  looping hph := by
    rw [hc.rcnt, hc.scnt]
    exact h.looping hph
  replied i hi hzero := by
    rw [hc.scnt]
    exact h.replied i hi (hc.pending ▸ hzero)
  acked hph := by
    rw [hc.unacked, hc.numCqEvents]
    exact h.acked hph
  event := h.event
  armed hu hph := by
    have harmed := h.armed hu hph
    rcases hc.queue with ⟨-, ha, he⟩ | ⟨-, -, he⟩
    · rw [ha, he]
      exact harmed
    · refine .inr ?_
      rw [he]
      rcases harmed with ha | hpos
      · rw [show c.armed = true from ha]
        exact Nat.succ_pos _
      · exact Nat.lt_of_lt_of_le hpos (Nat.le_add_right _ _)
  heard hu m hm hcq := by
    have hph : ph ≠ .notify := by
      rintro rfl
      cases hm
    have harmed := h.armed hu hph
    rcases hc.queue with ⟨hq, -, he⟩ | ⟨-, -, he⟩
    · rw [he]
      exact h.heard hu m hm (hq ▸ hcq)
    · rw [he]
      rcases harmed with ha | hpos
      · rw [show c.armed = true from ha]
        exact Nat.succ_pos _
      · exact Nat.lt_of_lt_of_le hpos (Nat.le_add_right _ _)

/-- A step of the network, side by side: one process goes on, or the adapters
change what the processes look at. -/
theorem step_sides {N N' : Network n} {e : Event n} (hs : step P N e = some N') (q : Player) :
    advance P q (N q) = some (N' q) ∨
      ((N' q).phase = (N q).phase ∧ Notified (N q).ctx (N' q).ctx) := by
  have hkeep : ∀ {x : Endpoint n}, x = N q → x.phase = (N q).phase ∧
      Notified (N q).ctx x.ctx := by
    rintro x rfl
    exact ⟨rfl, rfl, rfl, rfl, rfl, rfl, .inl ⟨rfl, rfl, rfl⟩⟩
  have hset : ∀ {p : Player} {c : Context n}, Notified (N p).ctx c →
      (N.set p c q).phase = (N q).phase ∧ Notified (N q).ctx (N.set p c q).ctx := by
    intro p c hc
    rcases p.eq_or_peer q with rfl | rfl
    · rw [Network.set_self]
      exact ⟨rfl, hc⟩
    · exact hkeep (Network.set_peer ..)
  cases e with
  | run p =>
      simp only [step, Option.map_eq_some_iff] at hs
      obtain ⟨e', he, rfl⟩ := hs
      rcases p.eq_or_peer q with rfl | rfl
      · rw [Function.update_self]
        exact .inl he
      · exact .inr (hkeep (Function.update_of_ne p.peer_ne ..))
  | deliver p i bytes =>
      simp only [step] at hs
      cases hwire : (N p).ctx.wire i with
      | nil => simp only [hwire, reduceCtorEq] at hs
      | cons m ms =>
          simp only [hwire] at hs
          split_ifs at hs
          cases hs
          refine .inr ?_
          rcases p.eq_or_peer q with rfl | rfl
          · rw [Network.set_of_peer]
            exact hset (notified_drop _ i)
          · rw [Network.set_self, Network.set_peer]
            exact ⟨rfl, notified_receive _ _ i bytes⟩
  | finish p i =>
      simp only [step] at hs
      split_ifs at hs
      cases hs
      exact .inr (hset (notified_finish _ _ i _))
  | lose p i =>
      simp only [step] at hs
      split_ifs at hs
      cases hs
      exact .inr (hset (notified_drop _ i))
  | cut p i =>
      simp only [step] at hs
      split_ifs at hs
      cases hs
      exact .inr (hset (notified_cut _ _ i _))

/-- The game with the control of both processes. -/
structure Playing (P : Program n) (N : Network n) (V : Volley.State (Fin n)) : Prop extends
    Refines P N V where
  control : ∀ p, Control P p (N p)

theorem Playing.control_step {N N' : Network n} {V : Volley.State (Fin n)} {e : Event n}
    (h : Playing P N V) (hs : step P N e = some N') (p : Player) : Control P p (N' p) := by
  rcases step_sides hs p with hadv | ⟨hphase, hnotified⟩
  · rcases h.side p with hview | ⟨hfailed, -⟩
    · refine (h.control p).advance ?_ hadv
      have hpool := hview.pool_length_le
      have hwc := P.le_numWc p
      rw [Endpoint.pool, List.length_append] at hpool
      omega
    · simp only [advance, hfailed, reduceCtorEq] at hadv
  · have hcontrol := (h.control p).notified hnotified
    rw [← hphase] at hcontrol
    exact hcontrol

theorem control_start (P : Program n) (p : Player) : Control P p (start P p) := by
  cases p with
  | first =>
      refine ⟨by simp [start], fun i hi => ?_, fun _ => rfl, by simp [start], fun hu _ => .inl hu,
        fun _ m _ hcq => absurd hcq (Nat.not_lt_zero m)⟩
      exact absurd (hi 0 rfl) (Nat.not_lt_zero _)
  | second =>
      refine ⟨by simp [start], fun i _ hzero => ?_, fun _ => rfl, by simp [start],
        fun hu _ => .inl hu, fun _ m _ hcq => absurd hcq (Nat.not_lt_zero m)⟩
      exact absurd (show (1 : BitVec 32) = 0 from hzero) (by decide)

theorem playing_start (P : Program n) : Playing P (start P) Volley.State.fresh :=
  ⟨refines_start P, control_start P⟩

/-- The steps a process can still take without a completion or an event. -/
def Phase.rank (n : ℕ) (useEvent : Bool) : Phase → ℕ
  | .opening k => n - k + 3
  | .test => 2
  | .waiting => 1
  | .notify => 5
  | .poll => if useEvent then 4 else 1
  | .batch next wcs => wcs.length + 3 + next.toNat
  | .done => 1
  | .closed | .failed _ => 0

/-- What one side can still do before the game goes on. -/
def Endpoint.weight (P : Program n) (p : Player) (e : Endpoint n) : ℕ :=
  5 * e.ctx.events + 5 * e.ctx.cq.length + e.phase.rank n (P.useEvent p)

def weight (P : Program n) (N : Network n) (V : Volley.State (Fin n)) : ℕ :=
  21 * V.remaining (rules P) + ((N .first).weight P .first + (N .second).weight P .second)

theorem weight_eq (p : Player) (N : Network n) (V : Volley.State (Fin n)) :
    weight P N V =
      21 * V.remaining (rules P) + ((N p).weight P p + (N p.peer).weight P p.peer) := by
  cases p with
  | first => rfl
  | second =>
      unfold weight
      rw [Nat.add_comm ((N .first).weight P .first)]
      rfl

theorem Notified.weight_le {p : Player} {c c' : Context n} (h : Notified c c') (ph : Phase) :
    Endpoint.weight P p ⟨c', ph⟩ ≤ Endpoint.weight P p ⟨c, ph⟩ + 10 := by
  have harmed : c.armed.toNat ≤ 1 := Bool.toNat_le _
  unfold Endpoint.weight
  rcases h.queue with ⟨hq, -, he⟩ | ⟨hq, -, he⟩ <;> simp only [hq, he] <;> omega

/-- Every step of a process lowers its own weight. -/
theorem advance_weight {p : Player} {e e' : Endpoint n}
    (hevent : e.phase = .waiting ∨ e.phase = .notify → P.useEvent p = true)
    (hs : advance P p e = some e') : e'.weight P p + 1 ≤ e.weight P p := by
  obtain ⟨c, ph⟩ := e
  unfold Endpoint.weight
  cases ph with
  | opening k =>
      simp only [advance] at hs
      split_ifs at hs with hk
      · cases hpost : ppPostSend c ⟨k, hk⟩ with
        | none =>
            simp only [hpost, Option.some.injEq] at hs
            subst hs
            simp only [Phase.rank]
            omega
        | some d =>
            simp only [hpost, Option.some.injEq] at hs
            subst hs
            obtain ⟨hsame, -, -⟩ := ppPostSend_frame hpost
            simp only [Phase.rank, hsame.events, hsame.cq]
            omega
      · cases hs
        simp only [Phase.rank]
        omega
  | test =>
      simp only [advance] at hs
      split_ifs at hs with hmore hu
      · cases hs
        simp only [Phase.rank]
        omega
      · cases hs
        simp only [Phase.rank, if_neg hu]
        omega
      · cases hs
        simp only [Phase.rank]
        omega
  | waiting =>
      simp only [advance] at hs
      split_ifs at hs with hpos
      cases hs
      simp only [Phase.rank]
      omega
  | notify =>
      cases hs
      simp only [Phase.rank, hevent (.inr rfl), if_true]
      omega
  | poll =>
      simp only [advance] at hs
      have hlen := fun numWc => pollCq_length P p numWc c
      split_ifs at hs with hts hnone hpolling hnone
      · cases hs
        simp only [Phase.rank]
        split_ifs <;> omega
      · cases hs
        have htaken := hlen 1
        simp only [Phase.rank, Bool.toNat_true, pollCq_events]
        split_ifs <;> omega
      · cases hs
        have htaken := hlen (P.numWc p)
        simp only [Phase.rank, Bool.toNat_false, pollCq_events]
        cases hu : P.useEvent p with
        | true =>
            simp only [if_true]
            omega
        | false =>
            simp only [hu, true_and] at hnone
            simp only [Bool.false_eq_true, if_false]
            omega
  | batch next wcs =>
      cases wcs with
      | nil =>
          cases next with
          | false =>
              cases hs
              simp only [Phase.rank, List.length_nil, Bool.toNat_false]
              omega
          | true =>
              cases hs
              have htaken := pollCq_length P p 1 c
              simp only [Phase.rank, List.length_nil, Bool.toNat_true, Bool.toNat_false,
                pollCq_events]
              omega
      | cons w wcs =>
          simp only [advance] at hs
          cases hparse : parseWc P p c w with
          | error f =>
              simp only [hparse, Option.some.injEq] at hs
              subst hs
              simp only [Phase.rank]
              omega
          | ok d =>
              simp only [hparse, Option.some.injEq] at hs
              subst hs
              obtain ⟨hsame, -, -⟩ := parseWc_frame hparse
              simp only [Phase.rank, hsame.events, hsame.cq, List.length_cons]
              omega
  | done =>
      simp only [advance, closeCtx] at hs
      split_ifs at hs
      · cases hs
        simp only [Phase.rank]
        omega
      · cases hs
  | closed => cases hs
  | failed f => cases hs

/-- Every step of the network uses up a unit: a process its own, an adapter
some of the twenty-one that a move is worth. -/
theorem Playing.step {N N' : Network n} {V : Volley.State (Fin n)} {e : Event n}
    (h : Playing P N V) (hs : PingPong.step P N e = some N') :
    ∃ V', Playing P N' V' ∧ weight P N' V' + 1 ≤ weight P N V := by
  by_cases hrun : ∃ p, e = .run p
  · obtain ⟨p, rfl⟩ := hrun
    obtain ⟨es, V', hes, hR⟩ := h.toRefines.process hs
    have hpay := h.sound.remaining_run hes
    refine ⟨V', ⟨hR, fun q => h.control_step hs q⟩, ?_⟩
    simp only [PingPong.step, Option.map_eq_some_iff] at hs
    obtain ⟨e', he, rfl⟩ := hs
    have hown := advance_weight (h.control p).event he
    rw [weight_eq p, weight_eq p N, Function.update_self, Function.update_of_ne p.peer_ne]
    omega
  · obtain ⟨m, p, i, ha, hR⟩ := h.toRefines.adapter hs fun p hp => hrun ⟨p, hp⟩
    have hpay := h.sound.remaining_step (Volley.step_move.mpr ⟨ha, rfl⟩)
    refine ⟨V.play p i m, ⟨hR, fun q => h.control_step hs q⟩, ?_⟩
    have hside : ∀ q, (N' q).weight P q ≤ (N q).weight P q + 10 := by
      intro q
      rcases step_sides hs q with hadv | ⟨hphase, hnotified⟩
      · have hdown := advance_weight (h.control q).event hadv
        omega
      · have hup := hnotified.weight_le (P := P) (p := q) (N q).phase
        have hsame : N' q = ⟨(N' q).ctx, (N q).phase⟩ := by rw [← hphase]
        rw [hsame]
        exact hup
    have hfirst := hside .first
    have hsecond := hside .second
    unfold weight
    omega

/-- Whatever happens after the start keeps the game and the control, and is
no longer than the weight of the start. -/
theorem playing_of_run {N : Network n} {es : List (Event n)}
    (h : Runs.run (step P) (start P) es = some N) :
    ∃ V, Playing P N V ∧ es.length + weight P N V ≤ weight P (start P) Volley.State.fresh :=
  Runs.stuttering_potential (weight P) (fun hP hs => hP.step hs) (playing_start P) h

end CppPlayground.PingPong
