import CppPlayground.DestAgreement

/-!
# Both programs end with each other's tables

The programs of `srq_pingpong.c` exchange a table of destinations, record by
record, with loops of reads. What they have stored is exact record by record,
however the stream cuts the bytes. But a read that fails after the table has
been allocated leaves by the way of success: the program goes on with the
records it has and memory it never wrote, and the server without having
connected any queue pair.
-/
namespace CppPlayground.DestExchange.Srq
open HostBytes HelloText DestRecord Dialogue Runs Volley

/-- A table whose first records have been stored. -/
def filled (before : ℕ → Dest) (theirs : ℕ → Own) (k : ℕ) : ℕ → Dest := fun j =>
  if j < k then (theirs j).dest else before j

theorem filled_update (before : ℕ → Dest) (theirs : ℕ → Own) (k : ℕ) :
    Function.update (filled before theirs k) k (theirs k).dest = filled before theirs (k + 1) := by
  funext j
  by_cases hj : j = k
  · subst hj
    simp [filled]
  · rw [Function.update_of_ne hj]
    simp only [filled]
    congr 1
    simp only [eq_iff_iff]
    omega

/-- The records of a table, from the `k`-th on. -/
def records (e : Endian) (own : ℕ → Own) (k m : ℕ) : List UInt8 :=
  ((List.range' k m).map fun i => (own i).dest.msg e).flatten

theorem records_succ (e : Endian) (own : ℕ → Own) (k m : ℕ) :
    records e own k (m + 1) = (own k).dest.msg e ++ records e own (k + 1) m := by
  simp [records, List.range'_succ]

@[simp] theorem records_length (e : Endian) (own : ℕ → Own) (k m : ℕ) :
    (records e own k m).length = m*msgSize := by
  induction m generalizing k with
  | zero => simp [records]
  | succ m ih =>
      rw [records_succ, List.length_append, ih, Own.msg_length, Nat.succ_mul, Nat.add_comm]

section Loop
variable {S : Contract UInt8 Call (Exit (ℕ → Dest))} {host : Host} {theirs : ℕ → Own}
  {next : (ℕ → Dest) → Bool → Talk} {heard told : List UInt8} {log : List (Call × Bool)}

/-- The loop stores the peer's records one by one, up to a read that fails. -/
theorem receiveAll_meets (e : Endian) (tail : List UInt8) {k m : ℕ}
    (hhears : S.hears = heard ++ records e theirs k m ++ tail)
    (hkeeps : ∀ piece, piece.length < m*msgSize → heard ++ piece <+: S.hears →
      S.keeps (heard ++ piece) told log)
    (hno : S.readsFail → ∀ j piece, j < m → j*msgSize ≤ piece.length →
      piece.length < (j + 1)*msgSize → heard ++ piece <+: S.hears →
        (next (filled host.before theirs (k + j)) false).Meets S (heard ++ piece) told log)
    (hyes : (next (filled host.before theirs (k + m)) true).Meets S
      (heard ++ records e theirs k m) told log) :
    (receiveAll host next (filled host.before theirs k) (List.range' k m)).Meets S
      heard told log := by
  induction m generalizing k heard with
  | zero => simpa [receiveAll, records] using hyes
  | succ m ih =>
    have hsize : 0 < msgSize := by decide
    rw [records_succ] at hhears hyes
    rw [List.range'_succ]
    refine ⟨hsize, fun piece hpiece hpre => ⟨hkeeps piece ?_ hpre, fun hfail => ?_⟩, ?_⟩
    · rw [Nat.succ_mul]
      omega
    · exact hno hfail 0 piece (by omega) (by omega) (by omega) hpre
    · intro piece hlen hpre
      obtain rfl : piece = (theirs k).dest.msg e := by
        refine piece_eq heard (records e theirs (k + 1) m ++ tail)
          (hlen.trans (Own.msg_length ..).symm) ?_
        rw [hhears] at hpre
        simpa only [List.append_assoc] using hpre
      simp only [Own.scan_msg, filled_update]
      refine ih ?_ (fun piece hlt hpre => ?_) (fun hfail j piece hj hle hlt hpre => ?_) ?_
      · rw [hhears]
        simp only [List.append_assoc]
      · rw [List.append_assoc] at hpre ⊢
        refine hkeeps _ ?_ hpre
        rw [List.length_append, Own.msg_length, Nat.succ_mul]
        omega
      · rw [List.append_assoc] at hpre ⊢
        have hmeets := hno hfail (j + 1) ((theirs k).dest.msg e ++ piece) (by omega)
          (by rw [List.length_append, Own.msg_length, Nat.succ_mul]; omega)
          (by rw [List.length_append, Own.msg_length, Nat.succ_mul (j + 1)]; omega) hpre
        rwa [show k + (j + 1) = k + 1 + j by omega] at hmeets
      · rw [show k + 1 + m = k + (m + 1) by omega]
        rwa [List.append_assoc]

end Loop

section Both
variable (host : Player → Host) (own : Player → ℕ → Own) (maxQp numQp : ℕ) (reads : Prop)

/-- All records of a party. -/
def sent (p : Player) : List UInt8 := records (host p).endian (own p) 0 maxQp

/-- A party's own destinations. -/
def mine (p : Player) : ℕ → Dest := fun i => (own p i).dest

/-- The party's table after its first `k` records. -/
def table (p : Player) (k : ℕ) : ℕ → Dest := filled (host p).before (own p.peer) k

/-- The first party is the client. -/
def srqMain : Player → Talk
  | .first => clientMain (host .first) maxQp numQp (mine own .first)
  | .second => serverMain (host .second) maxQp numQp (mine own .second)

/-- The calls that connect a party's queue pairs once its table has been stored. -/
def connectCalls (p : Player) (k : ℕ) : List Call :=
  srqConnectCtx numQp (mine own p) (table host own p k)

def clientContract : Contract UInt8 Call (Exit (ℕ → Dest)) where
  hears := sent host own maxQp .second
  readsFail := reads
  keeps heard told _ := told <+: sent host own maxQp .first ++ doneMsg ∧
    (maxQp*msgSize < told.length → heard = sent host own maxQp .second)
  ends heard _ log r := r ≠ .overrun ∧ ∀ rem, r = .ready rem →
    rem = table host own .first (heard.length / msgSize) ∧
      Made log (connectCalls host own numQp .first (heard.length / msgSize)) ∧
        (¬ reads → heard.length / msgSize = maxQp)

def serverContract : Contract UInt8 Call (Exit (ℕ → Dest)) where
  hears := sent host own maxQp .first ++ doneMsg
  readsFail := reads
  keeps _ told log := told <+: sent host own maxQp .second ∧
    (told ≠ [] → Made log (connectCalls host own numQp .second maxQp))
  ends heard _ log r := r ≠ .overrun ∧ ∀ rem, r = .ready rem →
    rem = table host own .second (heard.length / msgSize) ∧
      (heard.length / msgSize < maxQp ∧ reads ∧ log = [(.malloc, true)] ∨
        heard = sent host own maxQp .first ++ doneMsg ∧
          Made log (connectCalls host own numQp .second maxQp))

variable {host own maxQp numQp reads}

theorem sent_length (p : Player) : (sent host own maxQp p).length = maxQp*msgSize :=
  records_length ..

theorem sent_eq (p : Player) :
    ((List.range maxQp).map fun i => (mine own p i).msg (host p).endian).flatten =
      sent host own maxQp p := by
  rw [List.range_eq_range']
  rfl

theorem table_zero (host : Player → Host) (own : Player → ℕ → Own) (p : Player) :
    table host own p 0 = (host p).before := by
  funext j
  simp [table, filled]

/-- The records are as many as fit the bytes heard. -/
theorem heard_records {piece : List UInt8} {j : ℕ} (hle : j*msgSize ≤ piece.length)
    (hlt : piece.length < (j + 1)*msgSize) : piece.length / msgSize = j :=
  Nat.div_eq_of_lt_le hle hlt

theorem done_records (p : Player) :
    (sent host own maxQp p ++ doneMsg).length / msgSize = maxQp := by
  have hdone : doneMsg.length < msgSize := by decide
  rw [List.length_append, sent_length]
  exact Nat.div_eq_of_lt_le (by omega) (by rw [Nat.succ_mul]; omega)

/-- A whole table connects the queue pairs to the peer's own. -/
theorem connectCalls_whole (hnum : numQp ≤ maxQp) (p : Player) :
    connectCalls host own numQp p maxQp = srqConnectCtx numQp (mine own p) (mine own p.peer) := by
  simp only [connectCalls, srqConnectCtx]
  apply List.flatMap_congr
  intro i hi
  have hi' := List.mem_range.mp hi
  simp only [table, filled, mine, if_pos (show i < maxQp by omega),
    if_pos (show 0 < maxQp by omega)]

theorem client_failed {heard told : List UInt8} {log : List (Call × Bool)}
    (h : (clientContract host own maxQp numQp reads).keeps heard told log) :
    (Prog.done .failed : Talk).Meets (clientContract host own maxQp numQp reads) heard told log :=
  ⟨h, by simp, by simp⟩

/-- `main` with a table. -/
theorem client_connects {heard told : List UInt8} {log : List (Call × Bool)} {k : ℕ}
    (hkeeps : ∀ log, (clientContract host own maxQp numQp reads).keeps heard told log)
    (hk : heard.length / msgSize = k) (hreads : ¬ reads → k = maxQp) :
    (Prog.calls (fun ok => .done (if ok then .ready (table host own .first k) else .failed))
      (srqConnectCtx numQp (mine own .first) (table host own .first k)) : Talk).Meets
        (clientContract host own maxQp numQp reads) heard told log := by
  refine Prog.Meets.calls (fun more => hkeeps _) (fun more => client_failed (hkeeps _))
    ⟨hkeeps _, by simp, fun rem hrem => ?_⟩
  cases hrem
  rw [hk]
  exact ⟨rfl, made_append _ _, hreads⟩

theorem clientMain_meets :
    (srqMain host own maxQp numQp .first).Meets (clientContract host own maxQp numQp reads)
      [] [] [] := by
  have hearly : ∀ heard piece log, piece <+: sent host own maxQp .first →
      (clientContract host own maxQp numQp reads).keeps heard ([] ++ piece) log := by
    intro heard piece log hpiece
    have hle := hpiece.length_le
    rw [sent_length] at hle
    exact ⟨hpiece.trans (List.prefix_append _ _), fun h => by simp at h; omega⟩
  refine Prog.Meets.writes (fun piece hpiece => ?_) ?_
  · rw [sent_eq] at hpiece
    exact ⟨hearly _ _ _ hpiece, client_failed (hearly _ _ _ hpiece)⟩
  · rw [sent_eq]
    have htold := fun heard log => hearly heard _ log List.prefix_rfl
    refine ⟨htold _ _, fun ok => ?_⟩
    cases ok with
    | false => exact client_failed (htold _ _)
    | true =>
      simp only [if_true]
      rw [List.range_eq_range', ← table_zero host own]
      refine receiveAll_meets (host .second).endian [] (by rw [List.append_nil]; rfl)
        (fun piece _ _ => htold _ _) (fun hfail j piece hj hle hlt _ => ?_) ?_
      · rw [Nat.zero_add]
        exact client_connects (htold _) (heard_records hle hlt) (absurd hfail)
      · -- the whole table; whether "done" goes out makes no difference
        rw [Nat.zero_add]
        have hlate : ∀ piece, piece <+: doneMsg → ∀ log,
            (clientContract host own maxQp numQp reads).keeps ([] ++ sent host own maxQp .second)
              ([] ++ sent host own maxQp .first ++ piece) log :=
          fun piece hpiece log => ⟨(List.prefix_append_right_inj _).mpr hpiece, fun _ => rfl⟩
        have hall : (sent host own maxQp .second).length / msgSize = maxQp := by
          rw [sent_length, Nat.mul_div_cancel _ (by decide)]
        exact ⟨fun piece hpiece => ⟨hlate piece hpiece _,
            client_connects (hlate piece hpiece) hall fun _ => rfl⟩,
          client_connects (hlate _ List.prefix_rfl) hall fun _ => rfl⟩

theorem server_failed {heard told : List UInt8} {log : List (Call × Bool)}
    (h : (serverContract host own maxQp numQp reads).keeps heard told log) :
    (Prog.done .failed : Talk).Meets (serverContract host own maxQp numQp reads) heard told log :=
  ⟨h, by simp, by simp⟩

/-- From a stored table on: connect, tell the own records, wait for "done". -/
theorem server_replies {log : List (Call × Bool)} :
    (Prog.calls (fun ok =>
      if ok then
        sendAll (host .second).endian maxQp (mine own .second) fun ok =>
          if ok then .read msgSize doneMsg.length fun r =>
            if r.isSome then .done (.ready (table host own .second maxQp)) else .done .failed
          else .done .failed
      else .done .failed)
      (srqConnectCtx numQp (mine own .second) (table host own .second maxQp)) : Talk).Meets
        (serverContract host own maxQp numQp reads) (sent host own maxQp .first) [] log := by
  have hsilent : ∀ log, (serverContract host own maxQp numQp reads).keeps
      (sent host own maxQp .first) [] log := fun _ => ⟨List.nil_prefix, fun h => absurd rfl h⟩
  refine Prog.Meets.calls (fun more => hsilent _) (fun more => server_failed (hsilent _)) ?_
  have hmade := made_append log (connectCalls host own numQp .second maxQp)
  have htold : ∀ heard piece, piece <+: sent host own maxQp .second →
      (serverContract host own maxQp numQp reads).keeps heard ([] ++ piece) _ :=
    fun _ piece hpiece => ⟨hpiece, fun _ => hmade⟩
  refine Prog.Meets.writes (fun piece hpiece => ?_) ?_
  · rw [sent_eq] at hpiece
    exact ⟨htold _ _ hpiece, server_failed (htold _ _ hpiece)⟩
  · rw [sent_eq]
    refine ⟨htold _ _ List.prefix_rfl, server_failed (htold _ _ List.prefix_rfl), ?_⟩
    intro reply _ hheard
    by_cases hreply : reply.length = doneMsg.length
    · simp only [wanted, if_pos hreply, Option.isSome_some, if_true]
      obtain rfl : reply = doneMsg := by
        refine piece_eq (sent host own maxQp .first) [] hreply ?_
        rw [List.append_nil]
        exact hheard
      refine ⟨htold _ _ List.prefix_rfl, by simp, fun rem hrem => ?_⟩
      cases hrem
      rw [done_records]
      exact ⟨rfl, .inr ⟨rfl, hmade⟩⟩
    · simp only [wanted, if_neg hreply, Option.isSome_none, Bool.false_eq_true, if_false]
      exact server_failed (htold _ _ List.prefix_rfl)

theorem serverMain_meets :
    (srqMain host own maxQp numQp .second).Meets (serverContract host own maxQp numQp reads)
      [] [] [] := by
  have hsilent : ∀ heard log, (serverContract host own maxQp numQp reads).keeps heard [] log :=
    fun _ _ => ⟨List.nil_prefix, fun h => absurd rfl h⟩
  refine ⟨hsilent _ _, fun ok => ?_⟩
  cases ok with
  | false => exact server_failed (hsilent _ _)
  | true =>
    simp only [if_true]
    rw [List.range_eq_range', ← table_zero host own]
    refine receiveAll_meets (host .first).endian doneMsg rfl (fun piece _ _ => hsilent _ _)
      (fun hfail j piece hj hle hlt _ => ?_) ?_
    · -- a failed read leaves by the way of success
      refine ⟨hsilent _ _, by simp, fun rem hrem => ?_⟩
      cases hrem
      have hj' : ([] ++ piece).length / msgSize = j := heard_records hle hlt
      rw [hj', Nat.zero_add]
      exact ⟨rfl, .inl ⟨hj, hfail, rfl⟩⟩
    · rw [Nat.zero_add]
      exact server_replies

variable (host own maxQp numQp) in
def srqContract (reads : Player → Prop) : Player → Contract UInt8 Call (Exit (ℕ → Dest))
  | .first => clientContract host own maxQp numQp (reads .first)
  | .second => serverContract host own maxQp numQp (reads .second)

theorem srq_fits {reads : Player → Prop} : Fits (srqContract host own maxQp numQp reads) := by
  intro p heard told log h
  cases p with
  | first => exact h.1
  | second => exact h.1

theorem srqMain_meets {reads : Player → Prop} (p : Player) :
    (srqMain host own maxQp numQp p).Meets (srqContract host own maxQp numQp reads p) [] [] [] := by
  cases p with
  | first => exact clientMain_meets
  | second => exact serverMain_meets

variable {room : ℕ} {es : List Event} {N : Network UInt8 Call (Exit (ℕ → Dest))}

/-- In every run, whoever goes on has stored exactly the records that the bytes
it has heard amount to. They are all of them unless one of its reads failed;
then its own calls to connect are made, and the server's, and the client has
heard the server's table. A server that goes on after a failed read has
connected none. -/
theorem tables_agree (hnum : numQp ≤ maxQp)
    (h : run (step room) (start (srqMain host own maxQp numQp)) es = some N) (p : Player) :
    (N p).prog ≠ .done .overrun ∧ ∀ rem, (N p).prog = .done (.ready rem) →
      rem = table host own p ((N p).heard.length / msgSize) ∧
        (.fail p ∉ es → (N p).heard.length / msgSize = maxQp) ∧
        ((N p).heard.length / msgSize = maxQp →
          Made (N p).log (srqConnectCtx numQp (mine own p) (mine own p.peer)) ∧
            Made (N .second).log (srqConnectCtx numQp (mine own .second) (mine own .first)) ∧
            (N .first).heard = sent host own maxQp .second) ∧
        ((N p).heard.length / msgSize < maxQp → p = .second → (N p).log = [(.malloc, true)]) := by
  have hkept := kept_of_run (S := srqContract host own maxQp numQp fun p => .fail p ∈ es) srq_fits
    (fun p hp => by cases p <;> exact hp) srqMain_meets h
  have hpos : 0 < msgSize := by decide
  have hclient := hkept.keeps .first
  have hserver := hkept.keeps .second
  have hheard := (hkept.heard .first).length_le
  have hheard' := (hkept.heard .second).length_le
  cases p with
  | first =>
    refine ⟨fun hdone => (hkept.ends hdone).1 rfl, fun rem hdone => ?_⟩
    obtain ⟨hrem, hmade, hreads⟩ := (hkept.ends hdone).2 rem rfl
    refine ⟨hrem, hreads, fun hk => ?_, by simp⟩
    have hall : (N .first).heard = sent host own maxQp .second := by
      refine (hkept.hears .first).eq_of_length_le ?_
      change (sent host own maxQp .second).length ≤ _
      rw [sent_length, ← hk]
      exact Nat.div_mul_le_self _ _
    rw [hk, connectCalls_whole hnum] at hmade
    refine ⟨hmade, ?_, hall⟩
    rcases Nat.eq_zero_or_pos maxQp with hzero | hmax
    · obtain rfl : numQp = 0 := by omega
      simp [Made, srqConnectCtx]
    · have htold : (N .second).told ≠ [] := by
        rw [hall, sent_length] at hheard
        exact List.ne_nil_of_length_pos ((Nat.mul_pos hmax hpos).trans_le hheard)
      have hmade' := hserver.2 htold
      rwa [connectCalls_whole hnum] at hmade'
  | second =>
    refine ⟨fun hdone => (hkept.ends hdone).1 rfl, fun rem hdone => ?_⟩
    obtain ⟨hrem, hcase⟩ := (hkept.ends hdone).2 rem rfl
    rcases hcase with ⟨hlt, hfail, hlog⟩ | ⟨hall, hmade⟩
    · exact ⟨hrem, fun hno => absurd hfail hno, fun hk => by omega, fun _ _ => hlog⟩
    · have hk : (N .second).heard.length / msgSize = maxQp := by rw [hall, done_records]
      rw [connectCalls_whole hnum] at hmade
      refine ⟨hrem, fun _ => hk, fun _ => ⟨hmade, hmade, hclient.2 ?_⟩, fun hlt => by omega⟩
      rw [hall, List.length_append, sent_length] at hheard'
      have hdone : 0 < doneMsg.length := by decide
      change maxQp*msgSize < (N .first).told.length
      change _ ≤ (N .first).told.length at hheard'
      omega

end Both

/-- Two queue pairs on each side, numbered apart. -/
def twoOwn (p : Player) (i : ℕ) : Own :=
  { pairOwn p with qpNum := (pairOwn p).qpNum + BitVec.ofNat 24 i }

/-- The server's second read fails. -/
theorem tables_agree_failedRead :
    ∃ N rem, run (step 100) (start (srqMain pairHost twoOwn 2 2))
        [.put .first 52, .call .second true, .get .second 20, .get .second 32, .fail .second] =
          some N ∧
      (N .second).prog = .done (.ready rem) ∧ rem 0 = (twoOwn .first 0).dest ∧
        rem 1 = (pairHost .second).before 1 ∧ (N .second).log = [(.malloc, true)] := by
  have hrun : ((run (step 100) (start (srqMain pairHost twoOwn 2 2))
      [.put .first 52, .call .second true, .get .second 20, .get .second 32, .fail .second]).map
        fun N => ((N .second).heard.length, (readyOf (N .second).prog).isSome)) =
          some (52, true) := by decide +kernel
  obtain ⟨N, hN, hready⟩ := Option.map_eq_some_iff.mp hrun
  rw [Prod.mk.injEq] at hready
  obtain ⟨rem, hrem⟩ := Option.isSome_iff_exists.mp hready.2
  have hdone := readyOf_eq_some hrem
  obtain ⟨htable, _, _, hlog⟩ := (tables_agree le_rfl hN .second).2 _ hdone
  rw [hready.1] at htable hlog
  refine ⟨N, rem, hN, hdone, ?_, ?_, hlog (by decide) rfl⟩
  · rw [htable]
    rfl
  · rw [htable]
    rfl

end CppPlayground.DestExchange.Srq
