import CppPlayground.SrqDestinations
import CppPlayground.DialogueOrder

/-!
# The exchanges complete

Where nothing fails and no single read is short, both programs end with the
destinations of the other: every run is bounded, and until both are through one
of them can move. The programs with one queue pair need streams that hold a
whole record, since they read it at once; those of `srq_pingpong.c` need only
space for the five bytes of "done".
-/
namespace CppPlayground.DestExchange
open HostBytes HelloText DestRecord Dialogue Runs Volley

theorem msg_ne_nil (own : Own) (e : Endian) : own.dest.msg e ≠ [] := by
  have hpos : 0 < msgSize := by decide
  exact List.ne_nil_of_length_pos (by rwa [own.msg_length])

theorem doneMsg_ne_nil : doneMsg ≠ [] := by decide

theorem doneMsg_le : doneMsg.length ≤ msgSize := by decide

section Single
variable {host : Player → Host} {own : Player → Own} {connectCtx : Player → Dest → List Call}
  {room : ℕ}

/-- The client's record, the server's, and the client's "done". -/
def singleOrder : List Player :=
  List.replicate msgSize .first ++
    (List.replicate msgSize .second ++ (List.replicate doneMsg.length .first ++ []))

theorem clientMain_follows (hroom : msgSize ≤ room) :
    (singleMain host own connectCtx .first).Follows room .first (sent host own .second)
      (fun r => r = .ready (own .second).dest) [] singleOrder
      (1 + (connectCtx .first (own .second).dest).length) := by
  have hpos : 0 < msgSize := by decide
  refine ⟨msg_ne_nil _ _, _, by rw [Own.msg_length]; rfl, hpos, le_rfl, hroom, _, rfl, ?_⟩
  intro piece hlen hheard
  obtain rfl : piece = sent host own .second :=
    piece_eq [] [] (hlen.trans (Own.msg_length ..).symm) (by rwa [List.append_nil])
  refine ⟨doneMsg_ne_nil, _, rfl, _, Nat.add_comm _ _, ?_⟩
  simp only [sent, if_true, Own.scan_msg]
  exact Prog.Follows.calls (m := 0) ⟨rfl, rfl⟩

theorem serverMain_follows (hroom : msgSize ≤ room) :
    (singleMain host own connectCtx .second).Follows room .second (sent host own .first ++ doneMsg)
      (fun r => r = .ready (own .first).dest) [] singleOrder
      (1 + (connectCtx .second (own .first).dest).length) := by
  have hpos : 0 < msgSize := by decide
  refine ⟨hpos, le_rfl, hroom, _, rfl, ?_⟩
  intro piece hlen hheard
  obtain rfl : piece = sent host own .first :=
    piece_eq [] doneMsg (hlen.trans (Own.msg_length ..).symm) hheard
  refine ⟨_, Nat.add_comm _ _, ?_⟩
  simp only [sent, if_true, Own.scan_msg]
  refine Prog.Follows.calls (m := 0) ⟨msg_ne_nil _ _, _, by rw [Own.msg_length], ?_⟩
  refine ⟨by decide, doneMsg_le, doneMsg_le.trans hroom, _, rfl, ?_⟩
  intro reply _ _
  exact ⟨rfl, rfl⟩

/-- Without a fault the exchange of one record each way is bounded, and it goes
on until both programs have the other's destination. -/
theorem exchange_completes (hroom : msgSize ≤ room) {es : List Event}
    {N : Network UInt8 Call (Exit Dest)}
    (h : run (guarded smooth (step room)) (start (singleMain host own connectCtx)) es = some N) :
    es.length ≤ 2*(2*msgSize + doneMsg.length) +
        (1 + (connectCtx .first (own .second).dest).length) +
        (1 + (connectCtx .second (own .first).dest).length) ∧
      ((∀ p, (N p).prog = .done (.ready (own p.peer).dest)) ∨
        ∃ e N', smooth N e = true ∧ step room N e = some N') := by
  have hpos : 0 < msgSize := by decide
  have hfollows : ∀ p, (singleMain host own connectCtx p).Follows room p
      (singleContract host own connectCtx p).hears (fun r => r = .ready (own p.peer).dest) []
        singleOrder (1 + (connectCtx p (own p.peer).dest).length) := by
    intro p
    cases p with
    | first => exact clientMain_follows hroom
    | second => exact serverMain_follows hroom
  obtain ⟨hlen, hends⟩ := smooth_run (by omega) single_fits singleMain_meets hfollows h
  refine ⟨?_, hends.imp_left fun hdone p => ?_⟩
  · refine hlen.trans (le_of_eq ?_)
    simp only [singleOrder, List.length_append, List.length_replicate, List.length_nil, Player.peer]
    omega
  · obtain ⟨r, hr, rfl⟩ := hdone p
    exact hr

end Single

theorem exchange_completes_pair :
    ∃ N, run (guarded smooth (step 52)) (start (singleMain pairHost pairOwn pairConnect))
        (pairEvents.take 6) = some N ∧
      ((∀ p, (N p).prog = .done (.ready (pairOwn p.peer).dest)) ∨
        ∃ e N', smooth N e = true ∧ step 52 N e = some N') := by
  have hrun : ((run (guarded smooth (step 52)) (start (singleMain pairHost pairOwn pairConnect))
      (pairEvents.take 6)).map fun _ => ()) = some () := by decide +kernel
  obtain ⟨N, hN, _⟩ := Option.map_eq_some_iff.mp hrun
  exact ⟨N, hN, (exchange_completes (by decide) hN).2⟩

namespace Srq

section Loop
variable {room : ℕ} {p : Player} {hears heard : List UInt8} {good : Exit (ℕ → Dest) → Prop}
  {order : List Player} {host : Host} {theirs : ℕ → Own} {next : (ℕ → Dest) → Bool → Talk}

theorem receiveAll_follows (e : Endian) (tail : List UInt8) {k m c : ℕ}
    (hhears : hears = heard ++ records e theirs k m ++ tail)
    (h : (next (filled host.before theirs (k + m)) true).Follows room p hears good
      (heard ++ records e theirs k m) order c) :
    (receiveAll host next (filled host.before theirs k) (List.range' k m)).Follows room p hears
      good heard (List.replicate (m*msgSize) p.peer ++ order) c := by
  induction m generalizing k heard with
  | zero => simpa [receiveAll, records] using h
  | succ m ih =>
    rw [records_succ] at hhears h
    rw [List.range'_succ]
    refine ⟨by decide, List.replicate (m*msgSize) p.peer ++ order, ?_, fun piece hlen hpre => ?_⟩
    · rw [Nat.succ_mul, Nat.add_comm, List.replicate_add, List.append_assoc]
    · obtain rfl : piece = (theirs k).dest.msg e := by
        refine piece_eq heard (records e theirs (k + 1) m ++ tail)
          (hlen.trans (Own.msg_length ..).symm) ?_
        rw [hhears] at hpre
        simpa only [List.append_assoc] using hpre
      simp only [Own.scan_msg, filled_update]
      refine ih ?_ ?_
      · rw [hhears]
        simp only [List.append_assoc]
      · rw [show k + 1 + m = k + (m + 1) by omega]
        rwa [List.append_assoc]

end Loop

section Both
variable {host : Player → Host} {own : Player → ℕ → Own} {maxQp numQp room : ℕ}

def srqOrder (maxQp : ℕ) : List Player :=
  List.replicate (maxQp*msgSize) .first ++
    (List.replicate (maxQp*msgSize) .second ++ (List.replicate doneMsg.length .first ++ []))

theorem sendAll_follows {p : Player} {hears heard : List UInt8} {good : Exit (ℕ → Dest) → Prop}
    {order : List Player} {next : Bool → Talk} {c : ℕ}
    (h : (next true).Follows room p hears good heard order c) :
    (sendAll (host p).endian maxQp (mine own p) next).Follows room p hears good heard
      (List.replicate (maxQp*msgSize) p ++ order) c := by
  have hws : ∀ w ∈ (List.range maxQp).map fun i => (mine own p i).msg (host p).endian, w ≠ [] := by
    intro w hw
    obtain ⟨i, _, rfl⟩ := List.mem_map.mp hw
    exact msg_ne_nil _ _
  have hwrites := Prog.Follows.writes (p := p) hws h
  rwa [sent_eq, sent_length] at hwrites

theorem srqMain_first_follows :
    (srqMain host own maxQp numQp .first).Follows room .first (sent host own maxQp .second)
      (fun r => r = .ready (table host own .first maxQp)) [] (srqOrder maxQp)
      (1 + (connectCalls host own numQp .first maxQp).length) := by
  refine sendAll_follows ⟨_, Nat.add_comm _ _, ?_⟩
  simp only [if_true]
  rw [List.range_eq_range', ← table_zero host own]
  refine receiveAll_follows (host .second).endian [] (by rw [List.append_nil]; rfl) ?_
  rw [Nat.zero_add]
  exact ⟨doneMsg_ne_nil, _, rfl, Prog.Follows.calls (m := 0) ⟨rfl, rfl⟩⟩

theorem srqMain_second_follows (hroom : doneMsg.length ≤ room) :
    (srqMain host own maxQp numQp .second).Follows room .second
      (sent host own maxQp .first ++ doneMsg)
      (fun r => r = .ready (table host own .second maxQp)) [] (srqOrder maxQp)
      (1 + (connectCalls host own numQp .second maxQp).length) := by
  refine ⟨_, Nat.add_comm _ _, ?_⟩
  simp only [if_true]
  rw [List.range_eq_range', ← table_zero host own]
  refine receiveAll_follows (host .first).endian doneMsg rfl ?_
  rw [Nat.zero_add]
  refine Prog.Follows.calls (m := 0) ?_
  refine sendAll_follows ⟨by decide, doneMsg_le, hroom, _, rfl, ?_⟩
  intro reply _ _
  exact ⟨rfl, rfl⟩

theorem connectCalls_length (p : Player) (k : ℕ) :
    (connectCalls host own numQp p k).length = 2*numQp := by
  simp [connectCalls, srqConnectCtx, List.length_flatMap, Nat.mul_comm]

/-- Without a fault the exchange of the tables is bounded, and it goes on until
both programs have the other's whole table, however little the streams hold. -/
theorem tables_complete (hroom : doneMsg.length ≤ room) {es : List Event}
    {N : Network UInt8 Call (Exit (ℕ → Dest))}
    (h : run (guarded smooth (step room)) (start (srqMain host own maxQp numQp)) es = some N) :
    es.length ≤ 2*(2*(maxQp*msgSize) + doneMsg.length) + 2*(1 + 2*numQp) ∧
      ((∀ p, (N p).prog = .done (.ready (table host own p maxQp))) ∨
        ∃ e N', smooth N e = true ∧ step room N e = some N') := by
  have hpos : 0 < doneMsg.length := by decide
  have hfollows : ∀ p, (srqMain host own maxQp numQp p).Follows room p
      (srqContract host own maxQp numQp (fun _ => False) p).hears
      (fun r => r = .ready (table host own p maxQp)) [] (srqOrder maxQp)
      (1 + (connectCalls host own numQp p maxQp).length) := by
    intro p
    cases p with
    | first => exact srqMain_first_follows
    | second => exact srqMain_second_follows hroom
  obtain ⟨hlen, hends⟩ := smooth_run (by omega) srq_fits srqMain_meets hfollows h
  refine ⟨?_, hends.imp_left fun hdone p => ?_⟩
  · refine hlen.trans (le_of_eq ?_)
    simp only [srqOrder, List.length_append, List.length_replicate, List.length_nil,
      connectCalls_length]
    omega
  · obtain ⟨r, hr, rfl⟩ := hdone p
    exact hr

end Both

/-- The whole exchange of two records each way through streams that hold five bytes. -/
def twoEvents : List Event :=
  let carry (p : Player) (k : ℕ) : List Event :=
    (List.range k).flatMap fun _ => [.put p 4, .get p.peer 4]
  List.flatten [[.call .second true], carry .first 26, [.call .first true],
    List.replicate 2 (.call .second true), carry .second 26, [.put .first 5, .get .second 5],
    List.replicate 2 (.call .first true)]

theorem tables_complete_two :
    ∃ N, run (guarded smooth (step 5)) (start (srqMain pairHost twoOwn 2 1)) twoEvents = some N ∧
      ((∀ p, (N p).prog = .done (.ready (table pairHost twoOwn p 2))) ∨
        ∃ e N', smooth N e = true ∧ step 5 N e = some N') := by
  have hrun : ((run (guarded smooth (step 5)) (start (srqMain pairHost twoOwn 2 1)) twoEvents).map
      fun _ => ()) = some () := by decide +kernel
  obtain ⟨N, hN, _⟩ := Option.map_eq_some_iff.mp hrun
  exact ⟨N, hN, (tables_complete (by decide) hN).2⟩

end Srq

end CppPlayground.DestExchange
