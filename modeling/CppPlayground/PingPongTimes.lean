import CppPlayground.PingPong
import Mathlib.Tactic.NormNum

/-!
# Completion times in rc_pingpong

With `-t` rc_pingpong works through its completions by `parse_single_wc`, which
is the body the other programs have in their loops, and also records the time
the adapter's clock showed at each receive. The clock counts in fewer bits than
the 64 the program computes in; a step over its wraparound is told by the next
time being the smaller one. The shortest interval starts at 0xffffffff, so a
longer one is never reported as the minimum.
-/
namespace CppPlayground.PingPong
open Volley (Player)

structure TsParams where
  compRecvMaxTimeDelta : BitVec 64
  compRecvMinTimeDelta : BitVec 64
  compRecvTotalTimeDelta : BitVec 64
  compRecvPrevTime : BitVec 64
  lastCompWithTs : Bool
  compWithTimeIters : BitVec 32

def TsParams.start : TsParams := ⟨0, 0xffffffff, 0, 0, false, 0⟩

/-- The time since the last receive, over at most one wraparound. -/
def timeDelta (mask prev now : BitVec 64) : BitVec 64 :=
  if prev ≤ now then now - prev else mask - prev + now + 1

/-- What `parse_single_wc` does to `ts` at a receive when times are used. -/
def TsParams.record (mask : BitVec 64) (ts : TsParams) (now : BitVec 64) : TsParams :=
  if ts.lastCompWithTs then
    let delta := timeDelta mask ts.compRecvPrevTime now
    { compRecvMaxTimeDelta :=
        if delta < ts.compRecvMaxTimeDelta then ts.compRecvMaxTimeDelta else delta
      compRecvMinTimeDelta :=
        if ts.compRecvMinTimeDelta < delta then ts.compRecvMinTimeDelta else delta
      compRecvTotalTimeDelta := ts.compRecvTotalTimeDelta + delta
      compWithTimeIters := ts.compWithTimeIters + 1
      compRecvPrevTime := now
      lastCompWithTs := true }
  else { ts with compRecvPrevTime := now, lastCompWithTs := true }

/-- The end of `parse_single_wc`: the bit of the one queue pair, and the send,
which an `int iters` decides on. -/
def finishSingleWc (P : Program 1) (c : Context 1) (ts : TsParams) (wrId : BitVec 64) :
    Except Failure (Context 1 × TsParams) :=
  let c := { c with pending := fun i => c.pending i &&& ~~~(wrId.setWidth 32) }
  if c.scnt < P.intIters ∧ c.pending soleQp = 0 then
    match ppPostSend c soleQp with
    | none => .error .postSend
    | some c => .ok ({ c with pending := fun _ => 1 ||| 2 }, ts)
  else .ok (c, ts)

def parseSingleWc (P : Program 1) (p : Player) (useTs : Bool) (mask : BitVec 64) (c : Context 1)
    (ts : TsParams) (wrId : BitVec 64) (status : Bool) (timestamp : BitVec 64) :
    Except Failure (Context 1 × TsParams) :=
  if status = false then .error .status
  else if wrId.setWidth 32 = 2 then finishSingleWc P { c with scnt := c.scnt + 1 } ts wrId
  else if wrId.setWidth 32 = 1 then
    match countRecv P p c with
    | .error f => .error f
    | .ok c =>
        finishSingleWc P c
          (if useTs then ts.record mask timestamp else { ts with lastCompWithTs := false }) wrId
  else .error .unknownWrId

/-- The calls of a run of the program, in order. -/
def parseCompletions (P : Program 1) (p : Player) (useTs : Bool) (mask : BitVec 64) :
    Context 1 → TsParams → List (Wc × BitVec 64) → Except Failure (Context 1 × TsParams)
  | c, ts, [] => .ok (c, ts)
  | c, ts, (w, timestamp)::ws =>
      match parseSingleWc P p useTs mask c ts w.wrId w.status timestamp with
      | .error f => .error f
      | .ok r => parseCompletions P p useTs mask r.1 r.2 ws

/-- The same completions through the loop body of the other programs. -/
def parseWcs (P : Program 1) (p : Player) : Context 1 → List Wc → Except Failure (Context 1)
  | c, [] => .ok c
  | c, w::ws =>
      match parseWc P p c w with
      | .error f => .error f
      | .ok c => parseWcs P p c ws

/-- The receives among the completions. -/
def Wc.counted (w : Wc) : Bool := w.wrId.setWidth 32 = 1

/-- What a completion does to `ts`. -/
def TsParams.next (useTs : Bool) (mask : BitVec 64) (ts : TsParams) (w : Wc × BitVec 64) :
    TsParams :=
  if w.1.counted then
    if useTs then ts.record mask w.2 else { ts with lastCompWithTs := false }
  else ts

/-- `parse_single_wc` compares with the number that `main` compares with. -/
theorem Program.intIters_eq {n : ℕ} (P : Program n) (hn : 0 < n) : P.intIters = P.iters := by
  have hle := P.iters_le
  have hlt : P.iters < 2 ^ 31 := by omega
  rw [Program.intIters, BitVec.toInt_eq_toNat_of_lt, BitVec.toNat_ofNat, Nat.mod_eq_of_lt]
  · omega
  · rw [BitVec.toNat_ofNat, Nat.mod_eq_of_lt] <;> omega

theorem finishSingleWc_eq (P : Program 1) (c : Context 1) (ts : TsParams) (wrId : BitVec 64) :
    finishSingleWc P c ts wrId =
      (reply P (clearPending c soleQp wrId) soleQp).map fun c => (c, ts) := by
  have hupdate : ∀ (f : Fin 1 → BitVec 32) (b : BitVec 32),
      Function.update f soleQp b = fun _ => b := by
    intro f b
    funext i
    rw [← soleQp_eq i, Function.update_self]
  have hclear : clearPending c soleQp wrId =
      { c with pending := fun i => c.pending i &&& ~~~(wrId.setWidth 32) } := by
    rw [clearPending, hupdate]
    congr 1
    funext i
    rw [← soleQp_eq i]
  rw [finishSingleWc, ← hclear, P.intIters_eq Nat.one_pos]
  generalize clearPending c soleQp wrId = d
  unfold reply
  simp only [Nat.cast_lt]
  split_ifs
  · cases ppPostSend d soleQp with
    | none => rfl
    | some d => simp only [hupdate, Except.map]
  · rfl

/-- With one queue pair the body is that of the other programs. -/
theorem parseSingleWc_eq {P : Program 1} (hfind : ∀ p q, P.findQp p q = some soleQp) (p : Player)
    (useTs : Bool) (mask : BitVec 64) (c : Context 1) (ts : TsParams) (w : Wc)
    (timestamp : BitVec 64) :
    parseSingleWc P p useTs mask c ts w.wrId w.status timestamp =
      (parseWc P p c w).map fun c => (c, ts.next useTs mask (w, timestamp)) := by
  unfold parseSingleWc parseWc countWc
  rw [hfind]
  by_cases hstatus : w.status = false
  · rw [if_pos hstatus, if_pos hstatus]
    rfl
  rw [if_neg hstatus, if_neg hstatus]
  by_cases hsend : w.wrId.setWidth 32 = 2
  · have hnext : ts.next useTs mask (w, timestamp) = ts := by
      simp [TsParams.next, Wc.counted, hsend]
    rw [if_pos hsend, hnext, finishSingleWc_eq]
    simp only [hsend, if_true]
  · by_cases hrecv : w.wrId.setWidth 32 = 1
    · have hnext : ts.next useTs mask (w, timestamp) =
          if useTs then ts.record mask timestamp else { ts with lastCompWithTs := false } := by
        simp [TsParams.next, Wc.counted, hrecv]
      rw [if_neg hsend, if_pos hrecv, hnext]
      simp only [if_neg hsend, if_pos hrecv]
      cases countRecv P p c with
      | error f => rfl
      | ok d => exact finishSingleWc_eq P d _ w.wrId
    · rw [if_neg hsend, if_neg hrecv]
      simp only [if_neg hsend, if_neg hrecv]
      rfl

theorem parseCompletions_eq {P : Program 1} (hfind : ∀ p q, P.findQp p q = some soleQp) (p : Player)
    (useTs : Bool) (mask : BitVec 64) (c : Context 1) (ts : TsParams) (ws : List (Wc × BitVec 64)) :
    parseCompletions P p useTs mask c ts ws =
      (parseWcs P p c (ws.map Prod.fst)).map
        fun c => (c, ws.foldl (TsParams.next useTs mask) ts) := by
  induction ws generalizing c ts with
  | nil => rfl
  | cons w ws ih =>
      obtain ⟨w, timestamp⟩ := w
      simp only [parseCompletions, parseWcs, List.map_cons, List.foldl_cons]
      rw [parseSingleWc_eq hfind]
      cases parseWc P p c w with
      | error f => rfl
      | ok d => exact ih d _

/-- The times between the receives. -/
def gaps : List ℕ → List ℕ
  | a::b::ts => (b - a)::gaps (b::ts)
  | _ => []

/-- The clock shows a time in `k` bits. -/
def clock (k t : ℕ) : BitVec 64 := BitVec.ofNat 64 (t % 2 ^ k)

theorem clock_toNat {k : ℕ} (hk : k ≤ 64) (t : ℕ) : (clock k t).toNat = t % 2 ^ k := by
  have hle : 2 ^ k ≤ 2 ^ 64 := Nat.pow_le_pow_right (by decide) hk
  have hlt : t % 2 ^ k < 2 ^ k := Nat.mod_lt _ (Nat.two_pow_pos k)
  rw [clock, BitVec.toNat_ofNat, Nat.mod_eq_of_lt (hlt.trans_le hle)]

/-- A time that has passed, less than one round of the clock, is found from
what the clock shows. -/
theorem timeDelta_clock {k : ℕ} (hk : k ≤ 64) {mask : BitVec 64} (hmask : mask.toNat = 2 ^ k - 1)
    {a b : ℕ} (hab : a ≤ b) (hround : b - a < 2 ^ k) :
    (timeDelta mask (clock k a) (clock k b)).toNat = b - a := by
  have hle : 2 ^ k ≤ 2 ^ 64 := Nat.pow_le_pow_right (by decide) hk
  have hra : a % 2 ^ k < 2 ^ k := Nat.mod_lt _ (Nat.two_pow_pos k)
  have hrb : b % 2 ^ k < 2 ^ k := Nat.mod_lt _ (Nat.two_pow_pos k)
  have hsum : (a % 2 ^ k + (b - a)) % 2 ^ k = b % 2 ^ k := by
    rw [Nat.mod_add_mod]
    congr 1
    omega
  have hca := clock_toNat hk a
  have hcb := clock_toNat hk b
  by_cases hwrap : a % 2 ^ k + (b - a) < 2 ^ k
  · rw [Nat.mod_eq_of_lt hwrap] at hsum
    have hcmp : clock k a ≤ clock k b := by
      rw [BitVec.le_def, hca, hcb]
      omega
    rw [timeDelta, if_pos hcmp, BitVec.toNat_sub_of_le hcmp, hca, hcb]
    omega
  · have hback : b % 2 ^ k = a % 2 ^ k + (b - a) - 2 ^ k := by
      rw [← hsum, Nat.mod_eq_sub_mod (not_lt.mp hwrap), Nat.mod_eq_of_lt (by omega)]
    have hcmp : ¬ clock k a ≤ clock k b := by
      rw [BitVec.le_def, hca, hcb]
      omega
    have hone : (1 : BitVec 64).toNat = 1 := rfl
    rw [timeDelta, if_neg hcmp]
    simp only [BitVec.toNat_add, BitVec.toNat_sub, hca, hcb, hmask, hone]
    generalize a % 2 ^ k = x at *
    generalize b % 2 ^ k = y at *
    generalize 2 ^ k = M at *
    omega

/-- The times go forward, each by less than a round of the clock. -/
def Paced (k : ℕ) (ts : List ℕ) : Prop := ts.IsChain fun a b => a ≤ b ∧ b - a < 2 ^ k

theorem gaps_sum {k : ℕ} {a : ℕ} {ts : List ℕ} (h : Paced k (a::ts)) :
    a + (gaps (a::ts)).sum = (a::ts).getLast (List.cons_ne_nil a ts) := by
  induction ts generalizing a with
  | nil => rfl
  | cons b ts ih =>
      obtain ⟨⟨hab, -⟩, hrest⟩ := List.isChain_cons_cons.mp h
      rw [gaps, List.sum_cons, List.getLast_cons (List.cons_ne_nil b ts), ← ih hrest]
      omega

theorem record_next {k : ℕ} (hk : k ≤ 64) {mask : BitVec 64} (hmask : mask.toNat = 2 ^ k - 1)
    {s : TsParams} {a b : ℕ} (hlast : s.lastCompWithTs = true)
    (hprev : s.compRecvPrevTime = clock k a) (hab : a ≤ b) (hround : b - a < 2 ^ k) :
    let s' := s.record mask (clock k b)
    s'.lastCompWithTs = true ∧ s'.compRecvPrevTime = clock k b ∧
      s'.compRecvMaxTimeDelta.toNat = max s.compRecvMaxTimeDelta.toNat (b - a) ∧
      s'.compRecvMinTimeDelta.toNat = min s.compRecvMinTimeDelta.toNat (b - a) ∧
      s'.compRecvTotalTimeDelta = s.compRecvTotalTimeDelta + BitVec.ofNat 64 (b - a) ∧
      s'.compWithTimeIters = s.compWithTimeIters + 1 := by
  have hdelta := timeDelta_clock hk hmask hab hround
  have hofNat : timeDelta mask (clock k a) (clock k b) = BitVec.ofNat 64 (b - a) := by
    rw [← hdelta, BitVec.ofNat_toNat, BitVec.setWidth_eq]
  simp only [TsParams.record, hlast, hprev, if_true]
  refine ⟨trivial, trivial, ?_, ?_, by rw [hofNat], trivial⟩
  · split_ifs with hlt
    · rw [BitVec.lt_def, hdelta] at hlt
      omega
    · rw [BitVec.lt_def, hdelta] at hlt
      rw [hdelta]
      omega
  · split_ifs with hlt
    · rw [BitVec.lt_def, hdelta] at hlt
      omega
    · rw [BitVec.lt_def, hdelta] at hlt
      rw [hdelta]
      omega

/-- The intervals of a list of times, recorded one after the other. -/
theorem foldl_record {k : ℕ} (hk : k ≤ 64) {mask : BitVec 64} (hmask : mask.toNat = 2 ^ k - 1)
    {s : TsParams} {a : ℕ} {ts : List ℕ} (hlast : s.lastCompWithTs = true)
    (hprev : s.compRecvPrevTime = clock k a) (h : Paced k (a::ts)) :
    let s' := (ts.map (clock k)).foldl (TsParams.record mask) s
    s'.compRecvMaxTimeDelta.toNat = (gaps (a::ts)).foldl max s.compRecvMaxTimeDelta.toNat ∧
      s'.compRecvMinTimeDelta.toNat = (gaps (a::ts)).foldl min s.compRecvMinTimeDelta.toNat ∧
      s'.compRecvTotalTimeDelta =
        s.compRecvTotalTimeDelta + BitVec.ofNat 64 (gaps (a::ts)).sum ∧
      s'.compWithTimeIters = s.compWithTimeIters + BitVec.ofNat 32 ts.length := by
  induction ts generalizing s a with
  | nil => simp [gaps]
  | cons b ts ih =>
      obtain ⟨⟨hab, hround⟩, hrest⟩ := List.isChain_cons_cons.mp h
      obtain ⟨hlast', hprev', hmax, hmin, htotal, hiters⟩ :=
        record_next hk hmask hlast hprev hab hround
      obtain ⟨hmax', hmin', htotal', hiters'⟩ := ih hlast' hprev' hrest
      simp only [List.map_cons, List.foldl_cons, gaps, List.sum_cons, List.length_cons]
      refine ⟨?_, ?_, ?_, ?_⟩
      · rw [hmax', hmax]
      · rw [hmin', hmin]
      · rw [htotal', htotal, BitVec.add_assoc, ← BitVec.ofNat_add]
      · rw [hiters', hiters, BitVec.add_assoc, Nat.add_comm, BitVec.ofNat_add]
        rfl

theorem foldl_next (mask : BitVec 64) (ts : TsParams) (ws : List (Wc × BitVec 64)) :
    ws.foldl (TsParams.next true mask) ts =
      ((ws.filter fun w => w.1.counted).map Prod.snd).foldl (TsParams.record mask) ts := by
  induction ws generalizing ts with
  | nil => rfl
  | cons w ws ih =>
      rw [List.foldl_cons, ih, List.filter_cons]
      cases hcounted : w.1.counted <;> simp [TsParams.next, hcounted]

/-- A sequence of completions that `parse_single_wc` gets through is one the
other programs get through with the same context; and when its receives came
at times less than a round of the clock apart, the recorded total is the time
from the first to the last and the recorded extremes are those of the times
between them, but for a minimum beyond 32 bits. -/
theorem parse_single_wc_times {P : Program 1} (hfind : ∀ p q, P.findQp p q = some soleQp)
    {p : Player} {k : ℕ} (hk : k ≤ 64) {mask : BitVec 64} (hmask : mask.toNat = 2 ^ k - 1)
    {c c' : Context 1}
    {ts : TsParams} {ws : List (Wc × BitVec 64)}
    (h : parseCompletions P p true mask c .start ws = .ok (c', ts)) :
    parseWcs P p c (ws.map Prod.fst) = .ok c' ∧
      ∀ (t : ℕ) (rest : List ℕ), (ws.filter fun w => w.1.counted).map Prod.snd =
        (t::rest).map (clock k) → Paced k (t::rest) →
          ts.compRecvMaxTimeDelta.toNat = (gaps (t::rest)).foldl max 0 ∧
          ts.compRecvMinTimeDelta.toNat = (gaps (t::rest)).foldl min (2 ^ 32 - 1) ∧
          ts.compRecvTotalTimeDelta.toNat =
            ((t::rest).getLast (List.cons_ne_nil t rest) - t) % 2 ^ 64 ∧
          ts.compWithTimeIters.toNat = rest.length % 2 ^ 32 := by
  rw [parseCompletions_eq hfind] at h
  cases hparse : parseWcs P p c (ws.map Prod.fst) with
  | error f =>
      rw [hparse] at h
      cases h
  | ok d =>
      rw [hparse] at h
      cases h
      refine ⟨rfl, fun t rest htimes hpaced => ?_⟩
      rw [foldl_next, htimes, List.map_cons, List.foldl_cons]
      obtain ⟨hmax, hmin, htotal, hiters⟩ := foldl_record hk hmask
        (s := TsParams.start.record mask (clock k t)) rfl rfl hpaced
      refine ⟨hmax, hmin, ?_, ?_⟩
      · rw [htotal, ← gaps_sum hpaced, Nat.add_sub_cancel_left]
        simp [TsParams.record, TsParams.start]
      · rw [hiters]
        simp [TsParams.record, TsParams.start]

/-- A server of rc_pingpong that gets two messages over a wraparound of an
eight-bit clock. -/
theorem parse_single_wc_times_wrapped :
    let P : Program 1 := singlePingpong 2 8 4 (fun _ => false) (fun _ => 4) (fun _ => false) true
      (fun _ => true) (fun _ => 16) (fun _ _ => rfl) (by decide) (fun _ => by decide)
    ∃ c ts, parseCompletions P .second true 255 (start P .second).ctx .start
        [(recvWc P .second 0, 250), (recvWc P .second 0, 4)] = .ok (c, ts) ∧
      ts.compRecvMaxTimeDelta.toNat = 10 ∧ ts.compRecvTotalTimeDelta.toNat = 10 := by
  intro P
  cases h : parseCompletions P .second true 255 (start P .second).ctx .start
      [(recvWc P .second 0, 250), (recvWc P .second 0, 4)] with
  | error f =>
      have hok : (parseCompletions P .second true 255 (start P .second).ctx .start
          [(recvWc P .second 0, 250), (recvWc P .second 0, 4)]).isOk = true := by decide
      rw [h] at hok
      cases hok
  | ok r =>
      obtain ⟨-, htimes⟩ := parse_single_wc_times (P := P) (k := 8) (fun _ _ => rfl) (by decide)
        (by decide) h
      obtain ⟨hmax, -, htotal, -⟩ := htimes 250 [260] rfl
        (List.isChain_cons_cons.mpr ⟨by decide, .singleton _⟩)
      exact ⟨r.1, r.2, rfl, hmax, htotal⟩

end CppPlayground.PingPong
