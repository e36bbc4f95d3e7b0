import CppPlayground.PingPongRuns

/-!
# What the ping-pong messages carry

Both sides send from the buffer they receive into. What the client's buffer
has from the start, and what bytes mixed from buffers that have it have again,
is in every message: the server sends only what it has received. The pages the
client stamps are so the pages the server finds.
-/
namespace CppPlayground.PingPong
open Volley (Player Rules)

variable {n : ℕ} {P : Program n}

/-- A property of buffers that a message read at several times keeps. -/
def Mixes (size : ℕ) (G : List UInt8 → Prop) : Prop :=
  ∀ (m : Message) (bytes : List UInt8), m.contents ≠ [] → (∀ b ∈ m.contents, G b) →
    m.Carries size bytes → G bytes

/-- The receives that have completed, worked through or not. -/
def Endpoint.received (e : Endpoint n) : ℕ := e.ctx.rcnt + e.pool.countP Wc.isRecv

/-- The client's buffer, the server's once it has received, and all messages
have the property. -/
structure Carried (G : List UInt8 → Prop) (N : Network n) : Prop where
  buf : ∀ p, p = .first ∨ 0 < (N p).received → G (N p).ctx.buf
  wire : ∀ p i, ∀ m ∈ (N p).ctx.wire i, m.contents ≠ [] ∧ ∀ b ∈ m.contents, G b

theorem ppPostSend_data {c c' : Context n} {i : Fin n} (h : ppPostSend c i = some c') :
    c'.buf = c.buf ∧ c'.rcnt = c.rcnt ∧
      ∀ j, ∀ m ∈ c'.wire j, m ∈ c.wire j ∨ m = ⟨[c.buf]⟩ := by
  unfold ppPostSend at h
  split_ifs at h
  cases h
  refine ⟨rfl, rfl, fun j m hm => ?_⟩
  by_cases hj : j = i
  · subst hj
    simpa using hm
  · simp only [Function.update_of_ne hj] at hm
    exact .inl hm

theorem reply_data {c c' : Context n} {i : Fin n} (h : reply P c i = .ok c') :
    c'.buf = c.buf ∧ c'.rcnt = c.rcnt ∧
      ∀ j, ∀ m ∈ c'.wire j, m ∈ c.wire j ∨ m = ⟨[c.buf]⟩ := by
  unfold reply at h
  split_ifs at h
  · cases hpost : ppPostSend c i with
    | none => simp only [hpost, reduceCtorEq] at h
    | some d =>
        simp only [hpost, Except.ok.injEq] at h
        subst h
        obtain ⟨hbuf, hrcnt, hnew⟩ := ppPostSend_data hpost
        exact ⟨hbuf, hrcnt, hnew⟩
  · cases h
    exact ⟨rfl, rfl, fun _ _ hm => .inl hm⟩

theorem countWc_data {p : Player} {c c' : Context n} {wrId : BitVec 64}
    (h : countWc P p c wrId = .ok c') :
    c'.buf = c.buf ∧ c'.wire = c.wire ∧
      c'.rcnt ≤ c.rcnt + if wrId.setWidth 32 = 1 then 1 else 0 := by
  unfold countWc countRecv at h
  simp only at h
  split_ifs at h with hsend hrecv <;> cases h
  · exact ⟨rfl, rfl, Nat.le_add_right _ _⟩
  · rw [if_pos hrecv]
    exact ⟨rfl, rfl, le_rfl⟩
  · rw [if_pos hrecv]
    exact ⟨rfl, rfl, le_rfl⟩

theorem parseWc_data {p : Player} {c c' : Context n} {w : Wc} (h : parseWc P p c w = .ok c') :
    c'.buf = c.buf ∧ c'.rcnt ≤ c.rcnt + (if w.wrId.setWidth 32 = 1 then 1 else 0) ∧
      ∀ j, ∀ m ∈ c'.wire j, m ∈ c.wire j ∨ m = ⟨[c.buf]⟩ := by
  unfold parseWc at h
  split_ifs at h
  cases hfind : P.findQp p w.qpNum with
  | none => simp only [hfind, reduceCtorEq] at h
  | some i =>
      simp only [hfind] at h
      cases hcount : countWc P p c w.wrId with
      | error f => simp only [hcount, reduceCtorEq] at h
      | ok d =>
          simp only [hcount] at h
          obtain ⟨hbuf, hwire, hrcnt⟩ := countWc_data hcount
          obtain ⟨hbuf', hrcnt', hnew⟩ := reply_data h
          refine ⟨hbuf'.trans hbuf, hrcnt'.trans_le hrcnt, fun j m hm => ?_⟩
          rcases hnew j m hm with hold | hm
          · exact .inl (hwire ▸ hold)
          · have hclear : (clearPending d i w.wrId).buf = d.buf := rfl
            exact .inr (hm.trans (by rw [hclear, hbuf]))

/-- A process counts what has completed, and what it adds to the wire is read
from its buffer. -/
theorem advance_data {p : Player} {e e' : Endpoint n} (hknown : ∀ w ∈ e.pool, Known P p w)
    (hs : advance P p e = some e') :
    e'.ctx.buf = e.ctx.buf ∧ e'.received ≤ e.received ∧
      ∀ j, ∀ m ∈ e'.ctx.wire j, m ∈ e.ctx.wire j ∨ (m = ⟨[e.ctx.buf]⟩ ∧ e'.phase.up = true) := by
  obtain ⟨c, ph⟩ := e
  have hsame : ∀ (ph' : Phase) (armed : Bool) (events unacked numCqEvents : ℕ),
      ph'.batchOf = ph.batchOf → (c.control armed events unacked numCqEvents).buf = c.buf ∧
        Endpoint.received ⟨c.control armed events unacked numCqEvents, ph'⟩ ≤
          Endpoint.received ⟨c, ph⟩ ∧
        ∀ j, ∀ m ∈ (c.control armed events unacked numCqEvents).wire j,
          m ∈ c.wire j ∨ (m = ⟨[c.buf]⟩ ∧ ph'.up = true) := by
    intro ph' armed events unacked numCqEvents hbatch
    refine ⟨rfl, le_of_eq ?_, fun j m hm => .inl hm⟩
    simp only [Endpoint.received, Endpoint.pool, hbatch, Context.control]
  cases ph with
  | opening k =>
      simp only [advance] at hs
      split_ifs at hs with hk
      · cases hpost : ppPostSend c ⟨k, hk⟩ with
        | none =>
            simp only [hpost, Option.some.injEq] at hs
            subst hs
            exact ⟨rfl, le_rfl, fun _ _ hm => .inl hm⟩
        | some d =>
            simp only [hpost, Option.some.injEq] at hs
            subst hs
            obtain ⟨hframe, -, -⟩ := ppPostSend_frame hpost
            obtain ⟨hbuf, hrcnt, hnew⟩ := ppPostSend_data hpost
            refine ⟨hbuf, le_of_eq ?_, fun j m hm => (hnew j m hm).imp_right fun he => ⟨he, rfl⟩⟩
            simp only [Endpoint.received, Endpoint.pool, Phase.batchOf, hrcnt, hframe.cq]
      · cases hs
        exact hsame _ c.armed c.events c.unacked c.numCqEvents rfl
  | test =>
      simp only [advance] at hs
      split_ifs at hs <;> cases hs <;>
        exact hsame _ c.armed c.events c.unacked c.numCqEvents rfl
  | waiting =>
      simp only [advance] at hs
      split_ifs at hs
      cases hs
      exact hsame _ c.armed _ _ _ rfl
  | notify =>
      cases hs
      exact hsame _ _ c.events c.unacked c.numCqEvents rfl
  | poll =>
      have hpolled : ∀ numWc next, Endpoint.received
          ⟨(pollCq P p numWc c).1, .batch next (pollCq P p numWc c).2⟩ =
            Endpoint.received ⟨c, .poll⟩ := fun numWc next => by
        simp only [Endpoint.received, Endpoint.pool, Phase.batchOf, pollCq, List.take_append_drop,
          List.nil_append]
      simp only [advance] at hs
      split_ifs at hs
      · cases hs
        exact hsame _ c.armed c.events c.unacked c.numCqEvents rfl
      · cases hs
        exact ⟨rfl, (hpolled 1 true).le, fun _ _ hm => .inl hm⟩
      · cases hs
        exact ⟨rfl, (hpolled (P.numWc p) false).le, fun _ _ hm => .inl hm⟩
  | batch next wcs =>
      cases wcs with
      | nil =>
          cases next with
          | false =>
              cases hs
              exact hsame _ c.armed c.events c.unacked c.numCqEvents rfl
          | true =>
              cases hs
              refine ⟨rfl, le_of_eq ?_, fun _ _ hm => .inl hm⟩
              simp only [Endpoint.received, Endpoint.pool, Phase.batchOf, pollCq,
                List.take_append_drop, List.nil_append]
      | cons w wcs =>
          simp only [advance] at hs
          cases hparse : parseWc P p c w with
          | error f =>
              simp only [hparse, Option.some.injEq] at hs
              subst hs
              refine ⟨rfl, ?_, fun _ _ hm => .inl hm⟩
              simp only [Endpoint.received, Endpoint.pool, Phase.batchOf, List.countP_append,
                List.countP_nil]
              omega
          | ok d =>
              simp only [hparse, Option.some.injEq] at hs
              subst hs
              obtain ⟨hframe, -, -⟩ := parseWc_frame hparse
              obtain ⟨hbuf, hrcnt, hnew⟩ := parseWc_data hparse
              refine ⟨hbuf, ?_, fun j m hm => (hnew j m hm).imp_right fun he => ⟨he, rfl⟩⟩
              have hkind : (if w.wrId.setWidth 32 = 1 then 1 else 0) =
                  if w.isRecv = true then 1 else 0 := by
                obtain ⟨i, rfl | rfl | rfl⟩ := hknown w List.mem_cons_self <;> rfl
              rw [hkind] at hrcnt
              simp only [Endpoint.received, Endpoint.pool, Phase.batchOf, List.cons_append,
                List.countP_cons, hframe.cq]
              omega
  | done =>
      simp only [advance, closeCtx] at hs
      split_ifs at hs
      · cases hs
        exact hsame _ c.armed c.events _ c.numCqEvents rfl
      · cases hs
  | closed => cases hs
  | failed f => cases hs

/-- What the server has under way answers what it has worked through. -/
theorem Refines.rcnt_pos {N : Network n} {V : Volley.State (Fin n)} (h : Refines P N V)
    (hview : EndView P .second (N .second) V) {i : Fin n}
    (hwire : (N .second).ctx.wire i ≠ []) : 0 < (N .second).ctx.rcnt := by
  have hflying := hview.flying_of_wire hwire
  have hcounted := h.sound.counted i
  have hfirst := hcounted.caught .first
  have hsecond := hcounted.caught .second
  have hturns := hcounted.turns
  simp only [Volley.Lane.away, Volley.Lane.aloft, hflying, Player.peer, reduceCtorEq,
    Volley.Ball.flying.injEq, or_self, if_false, true_or, if_true] at hfirst hsecond hturns
  have hle : ((V.lane i).hand .second).caught ≤ V.received .second :=
    Finset.single_le_sum (f := fun j => ((V.lane j).hand .second).caught)
      (fun _ _ => Nat.zero_le _) (Finset.mem_univ i)
  rw [hview.rcnt]
  omega

theorem countP_complete_le (p : Player) (c : Context n) (ph : Phase) {w : Wc}
    (hw : w.isRecv = false) :
    Endpoint.received ⟨complete P p c w, ph⟩ = Endpoint.received ⟨c, ph⟩ := by
  unfold complete
  split_ifs
  · simp [Endpoint.received, Endpoint.pool, hw]
  · rfl

/-- A message of the sender is dropped or the sender's send completes. -/
theorem Carried.set {G : List UInt8 → Prop} {N : Network n} (h : Carried G N) {p : Player}
    {c : Context n} (hbuf : c.buf = (N p).ctx.buf)
    (hreceived : Endpoint.received ⟨c, (N p).phase⟩ = (N p).received)
    (hwire : ∀ i, ∀ m ∈ c.wire i, m ∈ (N p).ctx.wire i) : Carried G (N.set p c) where
  buf q hq := by
    rcases p.eq_or_peer q with rfl | rfl
    · rw [Network.set_self] at hq ⊢
      rw [hreceived] at hq
      exact hbuf ▸ h.buf _ hq
    · rw [Network.set_peer] at hq ⊢
      exact h.buf _ hq
  wire q i m hm := by
    rcases p.eq_or_peer q with rfl | rfl
    · rw [Network.set_self] at hm
      exact h.wire _ i m (hwire i m hm)
    · rw [Network.set_peer] at hm
      exact h.wire _ i m hm

theorem mem_dropMessage {c : Context n} {i j : Fin n} {m : Message}
    (hm : m ∈ (dropMessage c i).wire j) : m ∈ c.wire j := by
  by_cases hj : j = i
  · subst hj
    simp only [dropMessage, Function.update_self] at hm
    exact List.mem_of_mem_tail hm
  · simp only [dropMessage, Function.update_of_ne hj] at hm
    exact hm

theorem complete_buf (p : Player) (c : Context n) (w : Wc) :
    (complete P p c w).buf = c.buf ∧ (complete P p c w).wire = c.wire := by
  unfold complete
  split_ifs <;> exact ⟨rfl, rfl⟩

/-- Bytes with the property arrive. -/
theorem Carried.receive {G : List UInt8 → Prop} {N : Network n} (h : Carried G N) (p : Player)
    (i : Fin n) {bytes : List UInt8} (hbytes : G bytes) :
    Carried G (N.set p (receive P p (N p).ctx i bytes)) := by
  unfold PingPong.receive
  split_ifs with hpos
  · obtain ⟨hbuf, hwire⟩ := complete_buf (P := P) p
      (setBuf { (N p).ctx with recvQueue := (N p).ctx.recvQueue - 1 } bytes) (recvWc P p i)
    constructor
    · intro q hq
      rcases p.eq_or_peer q with rfl | rfl
      · rw [Network.set_self, hbuf]
        exact hbytes
      · rw [Network.set_peer] at hq ⊢
        exact h.buf _ hq
    · intro q j m hm
      rcases p.eq_or_peer q with rfl | rfl
      · rw [Network.set_self, hwire] at hm
        obtain ⟨m', hm', rfl⟩ := List.mem_map.mp hm
        obtain ⟨-, hall⟩ := h.wire _ j m' hm'
        refine ⟨by simp, fun b hb => ?_⟩
        rcases List.mem_append.mp hb with hold | hnew
        · exact hall b hold
        · exact List.mem_singleton.mp hnew ▸ hbytes
      · rw [Network.set_peer] at hm
        exact h.wire _ j m hm
  · exact h.set rfl rfl fun _ _ hm => hm

theorem Carried.step {G : List UInt8 → Prop} (hG : Mixes P.size G) {N N' : Network n}
    {V V' : Volley.State (Fin n)} {e : Event n} (h : Carried G N) (hR : Refines P N V)
    (hR' : Refines P N' V') (hs : step P N e = some N') : Carried G N' := by
  cases e with
  | run p =>
      simp only [PingPong.step, Option.map_eq_some_iff] at hs
      obtain ⟨e', he, rfl⟩ := hs
      rcases hR.side p with hview | ⟨hfailed, -⟩
      · obtain ⟨hbuf, hreceived, hnew⟩ := advance_data hview.known he
        have hgood : p = .first ∨ 0 < e'.received → G e'.ctx.buf := by
          intro hp
          rw [hbuf]
          exact h.buf p (hp.imp_right fun hpos => hpos.trans_le hreceived)
        constructor
        · intro q hq
          rcases p.eq_or_peer q with rfl | rfl
          · rw [Function.update_self] at hq ⊢
            exact hgood hq
          · rw [Function.update_of_ne p.peer_ne] at hq ⊢
            exact h.buf _ hq
        · intro q i m hm
          rcases p.eq_or_peer q with rfl | rfl
          · rw [Function.update_self] at hm
            rcases hnew i m hm with hold | ⟨rfl, hup⟩
            · exact h.wire _ i m hold
            · refine ⟨by simp, fun b hb => ?_⟩
              rw [List.mem_singleton.mp hb, ← hbuf]
              refine hgood ?_
              cases q with
              | first => exact .inl rfl
              | second =>
                  have hside := hR'.side .second
                  rw [Function.update_self] at hside
                  have hpos := hR'.rcnt_pos (i := i)
                    (by rw [Function.update_self]; exact hside.view hup)
                    (by rw [Function.update_self]; exact List.ne_nil_of_mem hm)
                  rw [Function.update_self] at hpos
                  exact .inr (Nat.add_pos_left hpos _)
          · rw [Function.update_of_ne p.peer_ne] at hm
            exact h.wire _ i m hm
      · simp only [advance, hfailed, reduceCtorEq] at he
  | deliver p i bytes =>
      simp only [PingPong.step] at hs
      cases hwire : (N p).ctx.wire i with
      | nil => simp only [hwire, reduceCtorEq] at hs
      | cons m ms =>
          simp only [hwire] at hs
          split_ifs at hs with hok
          cases hs
          obtain ⟨hne, hall⟩ := h.wire p i m (by rw [hwire]; exact List.mem_cons_self)
          have hbytes : G bytes := hG m bytes hne hall hok.1
          have hdrop : Carried G (N.set p (dropMessage (N p).ctx i)) :=
            h.set rfl rfl fun _ _ => mem_dropMessage
          have hreceive := hdrop.receive (P := P) p.peer i hbytes
          rw [Network.set_peer] at hreceive
          exact hreceive
  | finish p i =>
      simp only [PingPong.step] at hs
      split_ifs at hs
      cases hs
      obtain ⟨hbuf, hwire⟩ := complete_buf (P := P) p (finishSend (N p).ctx i) (sendWc P p i)
      exact h.set hbuf (countP_complete_le p _ _ (isRecv_sendWc p i)) fun j m hm => hwire ▸ hm
  | lose p i =>
      simp only [PingPong.step] at hs
      split_ifs at hs
      cases hs
      exact h.set rfl rfl fun _ _ => mem_dropMessage
  | cut p i =>
      simp only [PingPong.step] at hs
      split_ifs at hs
      cases hs
      obtain ⟨hbuf, hwire⟩ := complete_buf (P := P) p (finishSend (dropMessage (N p).ctx i) i)
        (failWc P p i)
      exact h.set hbuf (countP_complete_le p _ _ (isRecv_failWc p i))
        fun j m hm => mem_dropMessage (hwire ▸ hm)

end CppPlayground.PingPong
