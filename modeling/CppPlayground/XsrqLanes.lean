import CppPlayground.XsrqBooks

/-!
# The server and one client of xsrq_pingpong

Between the server and one client one message goes back and forth `num_tests`
times. The state of the two follows from the number of hops it has made, however
the messages for other clients interleave. Beside it, the bytes of END under way
follow from what the one has said and the other has heard.
-/
namespace CppPlayground.Xsrq
open ScanText (cString)

/-- What the server and a client hold of each other: sends of the server, its
messages under way and queued, what the client has counted and sent, and its
messages under way and queued at the server. -/
structure Lane where
  opened : Bool
  sent : ℕ
  flying : ℕ
  queued : ℕ
  cnt : ℕ
  replies : ℕ
  replying : ℕ
  arrived : ℕ

/-- The lane after `t` of its `2 * T` hops: even hops lead to the client. -/
structure Lane.After (T t : ℕ) (l : Lane) : Prop where
  le : t ≤ 2 * T
  unopened : l.opened = false → t = 0
  sent : l.sent = if l.opened = true then min T (t / 2 + 1) else 0
  out : l.flying + l.queued = if l.opened = true ∧ t % 2 = 0 ∧ t < 2 * T then 1 else 0
  back : l.replying + l.arrived = t % 2
  cnt : l.cnt = (t + 1) / 2
  replies : l.replies = (t + 1) / 2

section Hops
variable {T t : ℕ} {l : Lane}

theorem Lane.After.queue (h : l.After T t) (hq : 0 < l.queued) :
    l.opened = true ∧ t % 2 = 0 ∧ t < 2 * T ∧ l.queued = 1 ∧ l.flying = 0 := by
  have hout := h.out
  split_ifs at hout with hturn
  · exact ⟨hturn.1, hturn.2.1, hturn.2.2, by omega, by omega⟩
  · omega

theorem Lane.After.fly (h : l.After T t) (hf : 0 < l.flying) :
    l.opened = true ∧ t % 2 = 0 ∧ t < 2 * T ∧ l.queued = 0 ∧ l.flying = 1 := by
  have hout := h.out
  split_ifs at hout with hturn
  · exact ⟨hturn.1, hturn.2.1, hturn.2.2, by omega, by omega⟩
  · omega

/-- The server's first send. -/
theorem Lane.After.serve_first (h : l.After T t) (hT : 0 < T) (hunopened : l.opened = false) :
    Lane.After T t { l with opened := true, sent := l.sent + 1, flying := l.flying + 1 } := by
  have hzero := h.unopened hunopened
  subst hzero
  have hsent := h.sent
  have hout := h.out
  rw [hunopened] at hsent hout
  simp only [Bool.false_eq_true, if_false, false_and] at hsent hout
  refine ⟨h.le, by simp, ?_, ?_, h.back, h.cnt, h.replies⟩
  · simp only [if_true]
    omega
  · rw [if_pos ⟨rfl, rfl, by omega⟩]
    simp only
    omega

/-- A message of the server is delivered. -/
theorem Lane.After.deliver (h : l.After T t) (hf : 0 < l.flying) :
    Lane.After T t { l with flying := l.flying - 1, queued := l.queued + 1 } := by
  have hout := h.out
  refine ⟨h.le, h.unopened, h.sent, ?_, h.back, h.cnt, h.replies⟩
  simp only
  omega

/-- The client counts and answers. -/
theorem Lane.After.reply (h : l.After T t) (hq : 0 < l.queued) :
    Lane.After T (t + 1) { l with
      queued := l.queued - 1, cnt := l.cnt + 1, replies := l.replies + 1,
      replying := l.replying + 1 } := by
  obtain ⟨hopened, heven, hlt, hone, hnone⟩ := h.queue hq
  have hsent := h.sent
  have hback := h.back
  have hcnt := h.cnt
  have hreplies := h.replies
  rw [if_pos hopened] at hsent
  refine ⟨by omega, fun hf => absurd (hopened.symm.trans hf) (by simp), ?_, ?_, ?_, ?_, ?_⟩ <;>
    simp only
  · rw [if_pos hopened]
    omega
  · rw [if_neg (by omega)]
    omega
  all_goals omega

/-- A message of the client is delivered. -/
theorem Lane.After.land (h : l.After T t) (hr : 0 < l.replying) :
    Lane.After T t { l with replying := l.replying - 1, arrived := l.arrived + 1 } := by
  have hback := h.back
  refine ⟨h.le, h.unopened, h.sent, h.out, ?_, h.cnt, h.replies⟩
  simp only
  omega

/-- The server counts, and answers unless it has sent its last message. -/
theorem Lane.After.answer (h : l.After T t) (ha : 0 < l.arrived) :
    Lane.After T (t + 1) (if l.sent < T then
      { l with arrived := l.arrived - 1, sent := l.sent + 1, flying := l.flying + 1 }
    else { l with arrived := l.arrived - 1 }) := by
  have hback := h.back
  have hle := h.le
  have hopened : l.opened = true := by
    by_contra hf
    have hzero := h.unopened (by simpa using hf)
    omega
  have hsent := h.sent
  have hout := h.out
  have hcnt := h.cnt
  have hreplies := h.replies
  rw [if_pos hopened] at hsent
  rw [if_neg (by omega)] at hout
  split_ifs with hmore <;>
    refine ⟨by omega, fun hf => absurd hopened (by simp_all), ?_, ?_, ?_, ?_, ?_⟩ <;> simp only
  · rw [if_pos hopened]
    omega
  · rw [if_pos ⟨hopened, by omega, by omega⟩]
    omega
  · omega
  · omega
  · omega
  · rw [if_pos hopened]
    omega
  · rw [if_neg (by omega)]
    omega
  all_goals omega

/-- All hops made, nothing is under way. -/
theorem Lane.After.complete (h : l.After T (2 * T)) (hT : 0 < T) :
    l.opened = true ∧ l.sent = T ∧ l.flying = 0 ∧ l.queued = 0 ∧ l.replying = 0 ∧
      l.arrived = 0 ∧ l.cnt = T ∧ l.replies = T := by
  have hopened : l.opened = true := by
    by_contra hf
    have hzero := h.unopened (by simpa using hf)
    omega
  have hsent := h.sent
  have hout := h.out
  have hback := h.back
  have hcnt := h.cnt
  have hreplies := h.replies
  rw [if_pos hopened] at hsent
  rw [if_neg (by omega)] at hout
  refine ⟨hopened, ?_, ?_, ?_, ?_, ?_, ?_, ?_⟩ <;> omega

/-- There is one message at most. -/
theorem Lane.After.alone (h : l.After T t) :
    l.flying + l.queued + l.replying + l.arrived ≤ 1 := by
  have hout := h.out
  have hback := h.back
  by_cases heven : t % 2 = 0
  · have hle : (if l.opened = true ∧ t % 2 = 0 ∧ t < 2 * T then 1 else 0) ≤ 1 := by
      split_ifs <;> omega
    omega
  · rw [if_neg fun hc => heven hc.2.1] at hout
    omega

/-- Otherwise a message is somewhere. -/
theorem Lane.After.under_way (h : l.After T t) (hopened : l.opened = true) (hlt : t < 2 * T) :
    0 < l.flying ∨ 0 < l.queued ∨ 0 < l.replying ∨ 0 < l.arrived := by
  have hout := h.out
  have hback := h.back
  by_cases heven : t % 2 = 0
  · rw [if_pos ⟨hopened, heven, hlt⟩] at hout
    omega
  · omega

end Hops

def terminationBytes : List UInt8 := terminationMsg ++ [0]

/-- A process has sent its END to index `i`; the server hears first. -/
def Phase.hasSaid (server : Bool) (i : ℕ) : Phase → Bool
  | .grants k => i < k
  | .acks _ _ => !server
  | .closing | .closed => true
  | _ => false

/-- What a process has heard of the END of index `i`. -/
def Phase.hasHeard (server : Bool) (i : ℕ) : Phase → List UInt8
  | .acks k msg => if i < k then terminationBytes else if i = k then msg else []
  | .grants _ => if server then terminationBytes else []
  | .closing | .closed => terminationBytes
  | _ => []

/-- The bytes heard and those under way are an END that was said, or nothing. -/
def Told {m k : ℕ} (said : Bool) (x : Process m) (i : Fin m) (heard : Bool) (y : Process k)
    (j : Fin k) : Prop :=
  y.phase.hasHeard heard j ++ x.out i = if x.phase.hasSaid said i then terminationBytes else []

variable {m k : ℕ} {S : Settings m} {x x' : Process m} {y : Process k} {i : Fin m} {j : Fin k}
variable {b : Bool}

theorem Told.of_quiet (h : Told S.server x i b y j) (hout : x'.out = x.out)
    (hsaid : x'.phase.hasSaid S.server i = x.phase.hasSaid S.server i) :
    Told S.server x' i b y j := by
  unfold Told
  rw [hout, hsaid]
  exact h

theorem Told.of_deaf (h : Told b y j S.server x i)
    (hheard : x'.phase.hasHeard S.server i = x.phase.hasHeard S.server i) :
    Told b y j S.server x' i := by
  unfold Told
  rw [hheard]
  exact h

/-- Whoever has said END was past the loop. -/
theorem Phase.past_of_hasSaid {server : Bool} {i : ℕ} {ph : Phase}
    (h : ph.hasSaid server i = true) : ph.past = true := by
  cases ph <;> first | rfl | simp [Phase.hasSaid] at h

theorem Phase.flushed_of_hasSaid {server : Bool} {i : ℕ} {ph : Phase}
    (h : ph.hasSaid server i = true) (m : ℕ) : ph.flushed m = m := by
  cases ph <;> first | rfl | simp [Phase.hasSaid] at h

/-- A server that has said END to anyone has heard it from everyone. -/
theorem Phase.hasHeard_of_hasSaid {i : ℕ} {ph : Phase} (h : ph.hasSaid true i = true) (k : ℕ) :
    ph.hasHeard true k = terminationBytes := by
  cases ph <;> first | rfl | simp [Phase.hasSaid] at h

theorem Told.of_full (h : Told S.server x i b y j)
    (hfull : terminationMsgSize ≤ (y.phase.hasHeard b j).length) :
    y.phase.hasHeard b j = terminationBytes ∧ x.phase.hasSaid S.server i = true ∧ x.out i = [] := by
  unfold Told at h
  have hlen := congrArg List.length h
  rw [List.length_append] at hlen
  split_ifs at h hlen with hsaid
  · have hend : terminationBytes.length = terminationMsgSize := rfl
    have hnil : x.out i = [] := List.length_eq_zero_iff.mp (by omega)
    rw [hnil, List.append_nil] at h
    exact ⟨h, hsaid, hnil⟩
  · rw [List.length_nil] at hlen
    exact absurd hfull (by unfold terminationMsgSize; omega)

/-- No END was heard that was not one. -/
def Sane (S : Settings m) (x : Process m) : Prop :=
  ∀ i : Fin m, terminationMsgSize ≤ (x.phase.hasHeard S.server i).length →
    x.phase.hasHeard S.server i = terminationBytes

theorem cString_terminationBytes : cString terminationBytes = terminationMsg := by
  decide

/-- A message that is complete is the one that was heard. -/
theorem Sane.message (h : Sane S x) {i : ℕ} {msg : List UInt8} (hp : x.phase = .acks i msg)
    (hi : i < m) (hmsg : terminationMsgSize ≤ msg.length) : msg = terminationBytes := by
  have hi := h ⟨i, hi⟩
  rw [hp] at hi
  simp only [Phase.hasHeard, lt_irrefl, if_false, if_true] at hi
  exact hi hmsg

theorem Turn.unfailed (h : Turn S x x') (hsane : Sane S x) : x'.phase ≠ .failed := by
  cases h with
  | heard hp hi hmsg =>
      rw [hsane.message hp hi hmsg, if_pos cString_terminationBytes]
      simp
  | again _ _ => cases S.useEvent <;> simp
  | flushed _ _ | told _ _ | said _ _ => cases S.server <;> simp
  | opened _ _ | leave _ _ | wake _ _ | rearm _ | drained _ _ _ | say _ _ | close _ _ => simp

theorem Turn.hasHeard (h : Turn S x x') (hsane : Sane S x) (i : Fin m) :
    x'.phase.hasHeard S.server i = x.phase.hasHeard S.server i := by
  have hlt := i.isLt
  cases h with
  | @heard k msg hp hi hmsg =>
      have hend := hsane.message hp hi hmsg
      subst hend
      rw [if_pos cString_terminationBytes, hp]
      simp only [Phase.hasHeard]
      split_ifs <;> first | rfl | omega
  | @told k msg hp hk =>
      rw [hp]
      cases hserver : S.server <;> simp [Phase.hasHeard, show (i : ℕ) < k by omega]
  | again hp _ =>
      rw [hp]
      cases S.useEvent <;> rfl
  | flushed hp _ =>
      rw [hp]
      cases S.server <;> simp [Phase.hasHeard]
  | said hp _ =>
      rw [hp]
      cases S.server <;> simp [Phase.hasHeard]
  | opened hp _ | leave hp _ | wake hp _ | rearm hp | drained hp _ _ | say hp _ | close hp _ =>
      rw [hp]
      rfl

theorem Turn.hasSaid (h : Turn S x x') (hsane : Sane S x) (i : Fin m) :
    (x'.out i = x.out i ∧ x'.phase.hasSaid S.server i = x.phase.hasSaid S.server i) ∨
      (x'.out i = x.out i ++ terminationBytes ∧ x.phase.hasSaid S.server i = false ∧
        x'.phase.hasSaid S.server i = true) := by
  have hlt := i.isLt
  cases h with
  | @say k hp hk =>
      rw [hp]
      by_cases hik : i = ⟨k, hk⟩
      · subst hik
        refine .inr ⟨?_, by simp [Phase.hasSaid], by simp [Phase.hasSaid]⟩
        simp [sendTerminationAck, terminationBytes]
      · have hne : (i : ℕ) ≠ k := fun he => hik (Fin.ext he)
        refine .inl ⟨?_, ?_⟩
        · simp [sendTerminationAck, Function.update_of_ne hik]
        · simp only [Phase.hasSaid, decide_eq_decide]
          omega
  | heard hp hi hmsg =>
      rw [hsane.message hp hi hmsg, if_pos cString_terminationBytes, hp]
      exact .inl ⟨rfl, rfl⟩
  | said hp hk =>
      rw [hp]
      refine .inl ⟨rfl, ?_⟩
      cases S.server <;> simp [Phase.hasSaid] <;> omega
  | again hp _ =>
      rw [hp]
      cases S.useEvent <;> exact .inl ⟨rfl, rfl⟩
  | flushed hp _ | told hp _ =>
      rw [hp]
      refine .inl ⟨rfl, ?_⟩
      cases S.server <;> simp [Phase.hasSaid]
  | opened hp _ | leave hp _ | wake hp _ | rearm hp | drained hp _ _ | close hp _ =>
      rw [hp]
      exact .inl ⟨rfl, rfl⟩

/-- Any other step of the program neither says nor hears. -/
theorem Advance.quiet (h : Advance S x x') :
    Turn S x x' ∨ (x'.out = x.out ∧ x'.phase ≠ .failed ∧
      ∀ i, x'.phase.hasSaid S.server i = x.phase.hasSaid S.server i ∧
        x'.phase.hasHeard S.server i = x.phase.hasHeard S.server i) := by
  cases h with
  | post hp hk =>
      have hsame := (ppPostSend_posting S x ⟨_, hk⟩).1
      exact .inr ⟨hsame.out, by simp, fun i => by rw [hp]; exact ⟨rfl, rfl⟩⟩
  | @serve qpn rest hp hcq =>
      have hsame := (serve_posting S { x with recvCq := rest } qpn).1
      have hphase : (Xsrq.serve S { x with recvCq := rest } qpn).phase = x.phase := hsame.phase
      exact .inr ⟨hsame.out, by rw [hphase, hp]; simp, fun i => by rw [hphase]; exact ⟨rfl, rfl⟩⟩
  | collect hp _ _ => exact .inr ⟨rfl, by simp, fun i => by rw [hp]; exact ⟨rfl, rfl⟩⟩
  | turn h => exact .inl h

theorem Advance.unfailed (h : Advance S x x') (hsane : Sane S x) : x'.phase ≠ .failed := by
  rcases h.quiet with hturn | ⟨_, hphase, _⟩
  · exact hturn.unfailed hsane
  · exact hphase

theorem Told.speaks (h : Told S.server x i b y j) (hs : Advance S x x') (hsane : Sane S x) :
    Told S.server x' i b y j := by
  rcases hs.quiet with hturn | ⟨hout, _, hphase⟩
  · rcases hturn.hasSaid hsane i with ⟨hout, hsaid⟩ | ⟨hout, hbefore, hsaid⟩
    · unfold Told at h ⊢
      rw [hout, hsaid]
      exact h
    · unfold Told at h ⊢
      rw [hbefore] at h
      rw [hout, hsaid, ← List.append_assoc, h]
      rfl
  · exact h.of_quiet hout (hphase i).1

theorem Told.hears (h : Told b y j S.server x i) (hs : Advance S x x') (hsane : Sane S x) :
    Told b y j S.server x' i := by
  rcases hs.quiet with hturn | ⟨_, _, hphase⟩
  · exact h.of_deaf (hturn.hasHeard hsane i)
  · exact h.of_deaf (hphase i).2

/-- A read moves bytes from what is under way to what was heard. -/
theorem Told.read (h : Told b y j S.server x i) {k : ℕ} (hawaits : x.phase.awaits = some (i : ℕ))
    (hs : hear x ((y.out j).take k) = some x') {z : Process _}
    (hz : z.phase = y.phase ∧ z.out j = (y.out j).drop k) : Told b z j S.server x' i := by
  obtain ⟨l, msg, hp, _, _, rfl⟩ := hear_eq hs
  have hl : l = i := by
    rw [hp, Phase.awaits] at hawaits
    split_ifs at hawaits
    simpa using hawaits
  subst hl
  unfold Told at h ⊢
  rw [hp] at h
  rw [hz.1, hz.2]
  simp only [Phase.hasHeard, lt_irrefl, if_false, if_true] at h ⊢
  rw [List.append_assoc, List.take_append_drop]
  exact h

/-- Of an END that was said and not heard to its end there is a byte to read. -/
theorem Told.readable (h : Told b y j S.server x i) (hsaid : y.phase.hasSaid b j = true)
    {msg : List UInt8} (hp : x.phase = .acks i msg) (hmsg : msg.length < terminationMsgSize) :
    1 ≤ (y.out j).length ∧ ∃ x', hear x ((y.out j).take 1) = some x' := by
  unfold Told at h
  rw [if_pos hsaid, hp] at h
  simp only [Phase.hasHeard, lt_irrefl, if_false, if_true] at h
  have hlen := congrArg List.length h
  have hend : terminationBytes.length = terminationMsgSize := rfl
  rw [List.length_append, hend] at hlen
  have hone : ((y.out j).take 1).length = 1 := by
    rw [List.length_take]
    omega
  have hne : (y.out j).take 1 ≠ [] := List.length_pos_iff.mp (by omega)
  refine ⟨by omega, { x with phase := .acks i (msg ++ (y.out j).take 1) }, ?_⟩
  simp only [hear, hp]
  rw [if_pos ⟨hne, by omega⟩]

/-- It is heard of nobody else, and nothing is said. -/
theorem hear_others {bytes : List UInt8} (hs : hear x bytes = some x') {l : ℕ}
    (hawaits : x.phase.awaits ≠ some l) :
    x'.phase.hasHeard S.server l = x.phase.hasHeard S.server l := by
  obtain ⟨i, msg, hp, hne, hlen, rfl⟩ := hear_eq hs
  have hshort : msg.length < terminationMsgSize := by
    have hpos := List.length_pos_iff.mpr hne
    omega
  rw [hp, Phase.awaits, if_pos hshort] at hawaits
  rw [hp]
  have hli : l ≠ i := fun he => hawaits (he ▸ rfl)
  simp only [Phase.hasHeard, if_neg hli]

theorem hear_silent {bytes : List UInt8} (hs : hear x bytes = some x') (l : ℕ) :
    x'.out = x.out ∧ x'.phase.hasSaid S.server l = x.phase.hasSaid S.server l := by
  obtain ⟨i, msg, hp, _, _, rfl⟩ := hear_eq hs
  rw [hp]
  exact ⟨rfl, rfl⟩

end CppPlayground.Xsrq
