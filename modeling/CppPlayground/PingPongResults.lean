import CppPlayground.PingPongBuffers

/-!
# How the ping-pong programs end

No queue of an adapter is ever asked for more than it holds, and the only
error a process can meet is a send that its peer cut off by leaving, except
that rc_pingpong with `-e` and `-t` ends when it wakes up for a completion that
it has taken already. A run cannot go on for ever, and without that exception
one that cannot go on has both sides through their loops, whether they poll or
sleep on events. With several queue pairs the peer that is through first may
cut off a send beyond the count; with one queue pair there is none. A lost
message of an unreliable pair is never made up for.
-/
namespace CppPlayground.PingPong
open Volley (Player Rules)

variable {n : ℕ} {P : Program n}

/-- The game, the control and a property of the buffers, after every run. -/
theorem carried_of_run {G : List UInt8 → Prop} (hG : Mixes P.size G)
    (hstart : G (start P .first).ctx.buf) {N : Network n} {es : List (Event n)}
    (h : Runs.run (step P) (start P) es = some N) :
    ∃ V, (Playing P N V ∧ Carried G N) ∧
      es.length + weight P N V ≤ weight P (start P) Volley.State.fresh := by
  refine Runs.stuttering_potential (R := fun N V => Playing P N V ∧ Carried G N) (weight P)
    ?_ ⟨playing_start P, ?_⟩ h
  · rintro N e N' V ⟨hP, hC⟩ hs
    obtain ⟨V', hP', hpay⟩ := hP.step hs
    exact ⟨V', ⟨hP', hC.step hG hP.toRefines hP'.toRefines hs⟩, hpay⟩
  · refine ⟨fun p hp => ?_, fun p i m hm => ?_⟩
    · cases p with
      | first => exact hstart
      | second =>
          rcases hp with hp | hp
          · cases hp
          · exact absurd hp (Nat.lt_irrefl 0)
    · cases p <;> cases hm

/-- A message on its way to a process that is there can be delivered. -/
theorem deliverable {N : Network n} (hC : Carried (fun b => b.length = P.size) N) {p : Player}
    {i : Fin n} (hwire : (N p).ctx.wire i ≠ []) (hup : (N p.peer).phase.up = true) :
    ∃ e, step P N e ≠ none := by
  cases hm : (N p).ctx.wire i with
  | nil => exact absurd hm hwire
  | cons m ms =>
      obtain ⟨hne, hall⟩ := hC.wire p i m (by rw [hm]; exact List.mem_cons_self)
      obtain ⟨b, bs, hb⟩ := List.exists_cons_of_ne_nil hne
      have hmem : b ∈ m.contents := by
        rw [hb]
        exact List.mem_cons_self
      have hcarries : m.Carries P.size b := ⟨hall b hmem, fun _ _ => ⟨b, hmem, rfl⟩⟩
      refine ⟨.deliver p i b, ?_⟩
      simp only [step, hm, hcarries, hup, and_self, if_true]
      simp

/-- A process that cannot go on waits in its loop for a completion, or has ended. -/
theorem waits_of_stuck {p : Player} {e : Endpoint n} (hn : 0 < n) (h : Control P p e)
    (hs : advance P p e = none) (hup : e.phase.up = true) :
    e.pool = [] ∧ (e.phase = .waiting ∨ e.phase = .poll) := by
  obtain ⟨c, ph⟩ := e
  cases ph with
  | opening k =>
      simp only [advance] at hs
      split_ifs at hs
      split at hs <;> cases hs
  | test =>
      simp only [advance] at hs
      split_ifs at hs
  | waiting =>
      simp only [advance] at hs
      split_ifs at hs with hpos
      refine ⟨?_, .inl rfl⟩
      by_contra hne
      exact hpos (h.heard (h.event (.inl rfl)) 0 rfl (List.length_pos_iff.mpr hne))
  | notify => cases hs
  | poll =>
      simp only [advance] at hs
      have hempty : ∀ k, 0 < k → (pollCq P p k c).2.length < 1 → c.cq = [] := by
        intro k hk hlen
        simp only [pollCq, List.length_take] at hlen
        exact List.length_eq_zero_iff.mp (by omega)
      refine ⟨?_, .inr rfl⟩
      split_ifs at hs with hts hnone hpolling hnone
      · exact hempty 1 Nat.one_pos hnone
      · have hwc := P.le_numWc p
        exact hempty (P.numWc p) (by omega) hnone.2
  | batch next wcs =>
      cases wcs with
      | nil => cases next <;> cases hs
      | cons w wcs =>
          simp only [advance] at hs
          split at hs <;> cases hs
  | done =>
      have hacked := h.acked (by simp)
      simp only [advance, closeCtx] at hs hacked
      rw [hacked, Nat.sub_self, if_pos rfl] at hs
      cases hs
  | closed => cases hup
  | failed f => cases hup

section Stuck
variable {N : Network n} {V : Volley.State (Fin n)}

end Stuck

/-- Two queue pairs and three exchanges; the client sleeps on events. -/
def twoPairs : Program 2 :=
  srqPingpong 3 8 4 (fun _ => true) (fun _ => 4) (· = .first) (fun _ i => 16 + i)
    (fun _ _ _ h => Fin.ext (Nat.add_left_cancel h)) (by decide) (fun _ => by decide)

/-- One queue pair and one exchange. -/
def onePair (reliable : Bool) : Program 1 :=
  singlePingpong 1 8 4 (fun _ => true) (fun _ => 3) (fun _ => false) reliable (fun _ => false)
    (fun _ => 16) (fun _ h => by cases h) (by decide) (fun _ => by decide)

/-- While both processes are there, a queue pair has at most one message under
way in its two directions, every message under way has a receive request at
its receiver, and a process that owes no completion and has no answer to give
has sent its count. -/
theorem one_message_each {N : Network n} {es : List (Event n)}
    (h : Runs.run (step P) (start P) es = some N) (hup : ∀ p, (N p).phase.up = true) :
    (∀ i, ((N .first).ctx.wire i).length + ((N .second).ctx.wire i).length ≤ 1) ∧
      (∀ p, ∑ i, ((N p).ctx.wire i).length ≤ (N p.peer).ctx.recvQueue) ∧
      ∀ p i, (∀ k, (N p).phase ≠ .opening k) → (N p).ctx.pending i = 0 →
        P.iters ≤ (N p).ctx.scnt := by
  obtain ⟨V, hP, -⟩ := playing_of_run h
  have hview : ∀ p, EndView P p (N p) V := fun p => (hP.side p).view (hup p)
  refine ⟨fun i => ?_, fun p => ?_, fun p i hopening hzero => ?_⟩
  · rw [((hview .first).lane i).wire, ((hview .second).lane i).wire]
    split_ifs with hfirst hsecond
    · rw [hfirst] at hsecond
      cases hsecond
    all_goals omega
  · have hlane : ∀ i, ((N p).ctx.wire i).length +
        (N p.peer).pool.count (recvWc P p.peer i) ≤ 1 := by
      intro i
      rw [((hview p).lane i).wire, ((hview p.peer).lane i).recvs]
      split_ifs with hflying hlanded
      · rw [hflying] at hlanded
        cases hlanded
      all_goals omega
    have hsum : ∑ i, ((N p).ctx.wire i).length +
        ∑ i, (N p.peer).pool.count (recvWc P p.peer i) ≤ n := by
      rw [← Finset.sum_add_distrib]
      refine (Finset.sum_le_sum fun i _ => hlane i).trans ?_
      rw [Tally.sum_fin_const, Nat.mul_one]
    have hcount := countP_isRecv_le (hview p.peer).known
    have hrouts := (hview p.peer).routs
    have hle := (hview p.peer).le_routs
    omega
  · have hreplied := (hP.control p).replied i (fun k hk => absurd hk (hopening k)) hzero
    exact hreplied.resolve_right (by rw [hup]; simp)

theorem one_message_each_twoPairs :
    ∃ N, Runs.run (step twoPairs) (start twoPairs)
        [.run .first, .deliver .first 0 (List.replicate 8 0), .run .second, .run .second,
          .run .second] = some N ∧
      (∀ i, ((N .first).ctx.wire i).length + ((N .second).ctx.wire i).length ≤ 1) ∧
      (∀ p : Player, ∑ i, ((N p).ctx.wire i).length ≤ (N p.peer).ctx.recvQueue) ∧
      ∀ p i, (∀ k, (N p).phase ≠ .opening k) → (N p).ctx.pending i = 0 →
        twoPairs.iters ≤ (N p).ctx.scnt := by
  have hrun : ((Runs.run (step twoPairs) (start twoPairs)
      [.run .first, .deliver .first 0 (List.replicate 8 0), .run .second, .run .second,
        .run .second]).map fun N => (N .first).phase.up && (N .second).phase.up) = some true := rfl
  obtain ⟨N, hN, hup⟩ := Option.map_eq_some_iff.mp hrun
  obtain ⟨hfirst, hsecond⟩ := Bool.and_eq_true_iff.mp hup
  exact ⟨N, hN, one_message_each hN (by rintro (_ | _); exacts [hfirst, hsecond])⟩

theorem Playing.counts_le {N : Network n} {V : Volley.State (Fin n)} (h : Playing P N V)
    {p : Player} (hview : EndView P p (N p) V) :
    (N p).ctx.scnt + 1 ≤ max P.iters 1 + n ∧ (N p).ctx.rcnt + 1 ≤ max P.iters 1 + n := by
  have hsent := h.sound.sent_le p
  have hreceived := h.sound.received_le p
  have hthrown := h.sound.quota_le_thrown p
  have hpeer := h.sound.quota_le_thrown p.peer
  simp only [rules, Fintype.card_fin] at hthrown hpeer
  rw [hview.scnt, hview.rcnt]
  exact ⟨by omega, by omega⟩

/-- No `int` counter overflows. -/
theorem counters_lt {N : Network n} {es : List (Event n)}
    (h : Runs.run (step P) (start P) es = some N) {p : Player}
    (halive : ∀ f, (N p).phase ≠ .failed f) :
    (N p).ctx.scnt < 2 ^ 31 ∧ (N p).ctx.rcnt < 2 ^ 31 := by
  obtain ⟨V, hP, -⟩ := playing_of_run h
  rcases hP.side p with hview | ⟨hfailed, -⟩
  · obtain ⟨hscnt, hrcnt⟩ := hP.counts_le hview
    have hle := P.iters_le
    exact ⟨by omega, by omega⟩
  · exact absurd hfailed (halive _)

/-- A process that has not failed counts at most one exchange beyond `iters`
for every queue pair but one, and at least `iters` when it is through. -/
theorem counts_of_run {N : Network n} {es : List (Event n)}
    (h : Runs.run (step P) (start P) es = some N) {p : Player}
    (halive : ∀ f, (N p).phase ≠ .failed f) :
    (N p).ctx.scnt + 1 ≤ max P.iters 1 + n ∧ (N p).ctx.rcnt + 1 ≤ max P.iters 1 + n ∧
      ((N p).phase = .done ∨ (N p).phase = .closed →
        P.iters ≤ (N p).ctx.scnt ∧ P.iters ≤ (N p).ctx.rcnt) := by
  obtain ⟨V, hP, -⟩ := playing_of_run h
  rcases hP.side p with hview | ⟨hfailed, -⟩
  · obtain ⟨hscnt, hrcnt⟩ := hP.counts_le hview
    exact ⟨hscnt, hrcnt, fun hend => (hview.finished hend).symm⟩
  · exact absurd hfailed (halive _)

theorem counts_of_run_twoPairs :
    ∃ N, Runs.run (step twoPairs) (start twoPairs) [.run .first, .run .first] = some N ∧
      (N .first).ctx.scnt + 1 ≤ max 3 1 + 2 ∧ (N .first).ctx.rcnt + 1 ≤ max 3 1 + 2 ∧
      ((N .first).phase = .done ∨ (N .first).phase = .closed →
        3 ≤ (N .first).ctx.scnt ∧ 3 ≤ (N .first).ctx.rcnt) := by
  have hrun : ((Runs.run (step twoPairs) (start twoPairs) [.run .first, .run .first]).map
      fun N => (N .first).phase.up) = some true := rfl
  obtain ⟨N, hN, hup⟩ := Option.map_eq_some_iff.mp hrun
  exact ⟨N, hN, counts_of_run hN (Phase.ne_failed hup)⟩

/-- uc_pingpong and ud_pingpong: once a message has been lost its receiver is
in its loop for ever, short of `iters` receives. -/
theorem lost_message_stalls {P : Program 1} {N N' N'' : Network 1} {es fs : List (Event 1)}
    {p : Player} {i : Fin 1} (hr : P.reliable = false) (hiters : 0 < P.iters)
    (hbefore : Runs.run (step P) (start P) es = some N) (hlose : step P N (.lose p i) = some N')
    (hafter : Runs.run (step P) N' fs = some N'') :
    (N'' p.peer).phase.up = true ∧ (N'' p.peer).phase ≠ .done ∧
      (N'' p.peer).ctx.rcnt < P.iters := by
  obtain ⟨V, hP, -⟩ := playing_of_run hbefore
  obtain ⟨-, hlost⟩ := hP.toRefines.lose hlose
  have hball : ((V.play p i .lose).lane i).ball = .lost p := by
    rw [V.play_lane]
    rfl
  have hstep : ∀ {N e N' V}, Refines P N V ∧ (V.lane i).ball = .lost p →
      step P N e = some N' → ∃ es' V', Runs.run (Volley.step (rules P)) V es' = some V' ∧
        Refines P N' V' ∧ (V'.lane i).ball = .lost p := by
    intro N e N' V hRV hs
    obtain ⟨es', V', hes, hR⟩ := hRV.1.step hs
    exact ⟨es', V', hes, hR, Runs.invariant (I := fun V => (V.lane i).ball = .lost p)
      (fun hl hmove => Volley.lost_step hl hmove) hRV.2 hes⟩
  obtain ⟨-, V'', -, hR, hball⟩ := Runs.stuttering hstep ⟨hlost, hball⟩ hafter
  have hview : EndView P p.peer (N'' p.peer) V'' := by
    rcases hR.side p.peer with hview | ⟨-, -, -, -, j, hcut⟩
    · exact hview
    · have hrel := (hR.sound.cut p.peer j hcut).1
      cases hr.symm.trans hrel
  have hstays := hR.sound.stays_of_lost (Fintype.card_fin 1) hiters hball
  rw [← hview.rcnt] at hstays
  refine ⟨?_, fun hdone => ?_, hstays⟩
  · by_contra hdown
    have hquits : P.quits p.peer = false := by
      refine Program.quits_eq_false_iff.mpr (.inl ?_)
      rw [← Bool.not_eq_true]
      exact fun hts => by cases hr.symm.trans (P.useTs_numWc p.peer hts).2
    have hclosed := hview.closed_of_left hquits
      (hview.left_of_down (Bool.not_eq_true _ ▸ hdown))
    exact absurd (hview.finished (.inr hclosed)).1 (not_le.mpr hstays)
  · exact absurd (hview.finished (.inl hdone)).1 (not_le.mpr hstays)

theorem lost_message_stalls_onePair :
    ∃ N N' N'', Runs.run (step (onePair false)) (start (onePair false)) [.run .first] = some N ∧
      step (onePair false) N (.lose .first 0) = some N' ∧
      Runs.run (step (onePair false)) N' [.finish .first 0, .run .second] = some N'' ∧
      (N'' .second).phase.up = true ∧ (N'' .second).phase ≠ .done ∧
        (N'' .second).ctx.rcnt < 1 := by
  have hrun : (Runs.run (step (onePair false)) (start (onePair false))
      [.run .first, .lose .first 0, .finish .first 0, .run .second]).isSome := rfl
  obtain ⟨N'', hN''⟩ := Option.isSome_iff_exists.mp hrun
  obtain ⟨N, hN, hrest⟩ := Runs.run_cons_eq hN''
  obtain ⟨N', hN', hafter⟩ := Runs.run_cons_eq hrest
  have hbefore := Runs.run_cons hN (Runs.run_nil _ _)
  exact ⟨N, N', N'', hbefore, hN', hafter,
    lost_message_stalls rfl (by decide) hbefore hN' hafter⟩

theorem foldl_set_getElem? (f : ℕ → UInt8) (is : List ℕ) (buf : List UInt8) (j : ℕ) :
    (is.foldl (fun b i => b.set i (f i)) buf)[j]? =
      if j ∈ is ∧ j < buf.length then some (f j) else buf[j]? := by
  induction is generalizing buf with
  | nil => simp
  | cons i is ih =>
      rw [List.foldl_cons, ih, List.length_set, List.getElem?_set]
      grind

/-- The client's pages are stamped. -/
theorem stampPages_getElem? {pageSize size : ℕ} {buf : List UInt8} (h : buf.length = size)
    {i : ℕ} (hi : i ∈ pageStarts pageSize size) :
    (stampPages pageSize size buf)[i]? = some (pageByte pageSize i) := by
  have hlt : i < size := List.mem_range.mp (List.mem_filter.mp hi).1
  rw [stampPages, foldl_set_getElem?, if_pos ⟨hi, h ▸ hlt⟩]

theorem mixes_pages (pageSize size : ℕ) :
    Mixes size fun b => ∀ i ∈ pageStarts pageSize size, b[i]? = some (pageByte pageSize i) := by
  intro m bytes _ hall hcarries i hi
  have hlt : i < size := List.mem_range.mp (List.mem_filter.mp hi).1
  obtain ⟨b, hb, hsame⟩ := hcarries.2 i hlt
  rw [hsame]
  exact hall b hb i hi

/-- With the client's pages stamped, a server that is through finds no invalid
page, whatever the messages were read from the buffers while they changed. -/
theorem no_invalid_pages {N : Network n} {es : List (Event n)}
    (hvalidate : P.validateBuf .first = true) (hiters : 0 < P.iters)
    (h : Runs.run (step P) (start P) es = some N)
    (hend : (N .second).phase = .done ∨ (N .second).phase = .closed) :
    invalidPages P.pageSize P.size (N .second).ctx.buf = [] := by
  have hstart : ∀ i ∈ pageStarts P.pageSize P.size,
      (start P .first).ctx.buf[i]? = some (pageByte P.pageSize i) := by
    intro i hi
    simp only [start, start.connected, hvalidate, if_true]
    exact stampPages_getElem? List.length_replicate hi
  obtain ⟨V, ⟨hP, hC⟩, -⟩ := carried_of_run (mixes_pages P.pageSize P.size) hstart h
  have hrcnt : 0 < (N .second).ctx.rcnt := by
    rcases hP.side .second with hview | ⟨hfailed, -⟩
    · exact hiters.trans_le (hview.finished hend).1
    · rw [hfailed] at hend
      rcases hend with hdone | hclosed
      · cases hdone
      · cases hclosed
  have hbuf := hC.buf .second (.inr (Nat.add_pos_left hrcnt _))
  rw [invalidPages, List.filter_eq_nil_iff.mpr, List.map_nil]
  intro i hi
  simp [hbuf i hi]

/-- The whole exchange of one message each way. -/
def oneExchange : List (Event 1) :=
  let page := [0, 123, 123, 123, 0, 123, 123, 123]
  List.replicate 3 (.run .first) ++ [.run .second, .deliver .first soleQp page] ++
    List.replicate 4 (.run .second) ++ [.deliver .second soleQp page, .finish .second soleQp] ++
    List.replicate 5 (.run .second)

theorem no_invalid_pages_onePair :
    ∃ N, Runs.run (step (onePair true)) (start (onePair true)) oneExchange = some N ∧
      ((N .second).phase = .done ∨ (N .second).phase = .closed) ∧
      invalidPages 4 8 (N .second).ctx.buf = [] := by
  have hrun : ((Runs.run (step (onePair true)) (start (onePair true)) oneExchange).map
      fun N => decide ((N .second).phase = .closed)) = some true := by decide +kernel
  obtain ⟨N, hN, hclosed⟩ := Option.map_eq_some_iff.mp hrun
  have hend : (N .second).phase = .done ∨ (N .second).phase = .closed :=
    .inr (of_decide_eq_true hclosed)
  exact ⟨N, hN, hend, no_invalid_pages (P := onePair true) rfl (by decide) hN hend⟩

end CppPlayground.PingPong
