import CppPlayground.SockSync

/-!
# When records are exchanged exactly

With reads that return all they were asked for, every call gets its peer's
record and consumes just that, and so the connection data arrive as they were
put in. A read that returns less makes the next read of the loop store over
its bytes and ask for more than the record still has, so that it may swallow
what the peer wrote for a later call.
-/
namespace CppPlayground.SockSync
open HostBytes Framing Runs

/-- `counts` are the reads by which the loop goes from `total` bytes to its end. -/
def Fragments (xferSize : ℕ) : ℕ → List ℕ → Prop
  | total, [] => xferSize ≤ total
  | total, c::counts =>
      total < xferSize ∧ 1 ≤ c ∧ c ≤ xferSize ∧ Fragments xferSize (total + c) counts

/-- The reads cut `incoming` into pieces. -/
def pieces (incoming : List UInt8) : List ℕ → List ReadResult
  | [] => []
  | c::counts => .data (incoming.take c)::pieces (incoming.drop c) counts

/-- Whole reads: a call of the loop ends after one of them. -/
theorem loop_whole {xferSize : ℕ} (hn : 0 < xferSize) (remoteData : Memory)
    {incoming : List UInt8} (h : xferSize ≤ incoming.length) :
    sockSyncData xferSize xferSize remoteData (pieces incoming [xferSize]) =
      some ⟨0, xferSize, HostBytes.store remoteData 0 (incoming.take xferSize)⟩ := by
  have hlen : (incoming.take xferSize).length = xferSize := by simp [h]
  simp [sockSyncData, SyncCall.begin, pieces, SyncCall.loop, SyncCall.Looping, SyncCall.read,
    hlen, hn]

theorem store_zeros {m : Memory} {n : ℕ} (h : m 0 = 0 ∨ 0 < n) :
    HostBytes.store m 0 (List.replicate n 0) 0 = 0 := by
  cases n with
  | zero => simpa [HostBytes.store] using h
  | succ n => simp [HostBytes.store, List.replicate_succ]

/-- Zeros read into a zero leave a zero. -/
theorem loop_zeros {xferSize total k : ℕ} {counts : List ℕ} (hf : Fragments xferSize total counts)
    (hk : counts.sum ≤ k) {remoteData : Memory} (h : remoteData 0 = 0) :
    ∃ s, SyncCall.loop xferSize ⟨0, total, remoteData⟩ (pieces (List.replicate k 0) counts) =
      some s ∧ s.remoteData 0 = 0 := by
  induction counts generalizing total k remoteData with
  | nil =>
      refine ⟨⟨0, total, remoteData⟩, ?_, h⟩
      simp [pieces, SyncCall.loop, SyncCall.Looping, Nat.not_lt.mpr hf]
  | cons c counts ih =>
      obtain ⟨hlt, hc, _, hrest⟩ := hf
      simp only [List.sum_cons] at hk
      have hck : min c k = c := by omega
      have hstored : HostBytes.store remoteData 0 (List.replicate c 0) 0 = 0 :=
        store_zeros (.inl h)
      obtain ⟨s, hs, hzero⟩ := ih (k := k - c) hrest (by omega) hstored
      refine ⟨s, ?_, hzero⟩
      rw [← hs]
      simp [pieces, SyncCall.loop, SyncCall.Looping, hlt, SyncCall.read, hck]

/-- On a stream of zeros after its first byte, a second read loses that byte. -/
theorem first_byte_lost {xferSize b d : ℕ} {counts : List ℕ} (hb : b + 1 < xferSize) (hd : 1 ≤ d)
    (hf : Fragments xferSize (b + 1 + d) counts) :
    ∃ s, sockSyncData xferSize xferSize (fun _ => 0)
        (pieces (1::List.replicate (b + d + counts.sum) 0) ((b + 1)::d::counts)) = some s ∧
      s.remoteData 0 = 0 := by
  have hstored : HostBytes.store (HostBytes.store (fun _ => 0) 0 (1::List.replicate b 0)) 0
      (List.replicate d 0) 0 = 0 := store_zeros (.inr hd)
  obtain ⟨s, hs, hzero⟩ := loop_zeros hf (k := counts.sum) le_rfl hstored
  refine ⟨s, ?_, hzero⟩
  have hpos : 0 < xferSize := by omega
  have hmin : min b (b + d + counts.sum) = b := by omega
  have hrest : b + d + counts.sum - b = d + counts.sum := by omega
  rw [← hs]
  simp [sockSyncData, SyncCall.begin, pieces, SyncCall.loop, SyncCall.Looping, SyncCall.read, hpos,
    hmin, hrest, hb]

/-- A call gets the first `xferSize` bytes whatever they are, and no more, just
when its first read returns all of them. -/
theorem exact_iff_one_read {xferSize : ℕ} (hn : 0 < xferSize) {counts : List ℕ}
    (hf : Fragments xferSize 0 counts) :
    (∀ incoming remoteData, counts.sum ≤ incoming.length →
      ∃ s, sockSyncData xferSize xferSize remoteData (pieces incoming counts) = some s ∧
        load s.remoteData 0 xferSize = incoming.take xferSize ∧ counts.sum = xferSize) ↔
      counts = [xferSize] := by
  constructor
  · intro h
    cases counts with
    | nil => exact absurd hf (Nat.not_le.mpr hn)
    | cons c counts =>
        obtain ⟨_, hc, hcn, hrest⟩ := hf
        cases counts with
        | nil =>
            have hle : xferSize ≤ 0 + c := hrest
            rw [show c = xferSize by omega]
        | cons d counts =>
            obtain ⟨hlt, hd, _, hlast⟩ := hrest
            obtain ⟨b, rfl⟩ : ∃ b, c = b + 1 := ⟨c - 1, by omega⟩
            rw [Nat.zero_add] at hlt hlast
            obtain ⟨s, hs, hzero⟩ := first_byte_lost hlt hd hlast
            obtain ⟨s', hs', hload, _⟩ := h (1::List.replicate (b + d + counts.sum) 0) (fun _ => 0)
              (by simp only [List.sum_cons, List.length_cons, List.length_replicate]; omega)
            obtain rfl := Option.some.inj (hs.symm.trans hs')
            have hhead := congrArg List.head? hload
            obtain ⟨n, rfl⟩ : ∃ n, xferSize = n + 1 := ⟨xferSize - 1, by omega⟩
            simp [load, hzero, List.range_succ_eq_map] at hhead
  · rintro rfl incoming remoteData hlen
    have hle : xferSize ≤ incoming.length := by simpa using hlen
    refine ⟨_, loop_whole hn remoteData hle, ?_, by simp⟩
    have htake : (incoming.take xferSize).length = xferSize := by simp [hle]
    rw [load_store_take (Nat.le_of_eq htake.symm), List.take_take, min_self]

/-- Every read returns as many bytes as it was asked for. -/
def wholeReads (session : Session) (st : State) : Event → Bool
  | .read p count => decide (count = session.size (st p).returns.length)
  | _ => true

/-- What the `k`-th call of `p` should leave behind. -/
structure Exact (session : Session) (p : Side) (k : ℕ) (ret : Return) : Prop where
  remote : load ret.remoteData 0 (session.size k) = session.record p.peer k
  start : ret.start = offset session.size k
  stop : ret.stop = offset session.size (k + 1)

/-- The state of a call after no or one whole read. -/
inductive CallAligned (session : Session) (p : Side) (k : ℕ) (s : SyncCall) (consumed : ℕ) : Prop
  | begun (hrc : s.rc = 0) (ht : s.totalReadBytes = 0) (hc : consumed = offset session.size k)
  | filled (hrc : s.rc = 0) (ht : s.totalReadBytes = session.size k)
      (hc : consumed = offset session.size (k + 1))
      (hr : load s.remoteData 0 (session.size k) = session.record p.peer k)

structure Aligned (session : Session) (p : Side) (party : Party) : Prop where
  returned : ∀ k ret, party.returns[k]? = some ret → Exact session p k ret
  between : party.call = none → party.consumed = offset session.size party.returns.length
  inCall : ∀ s, party.call = some s → party.start = offset session.size party.returns.length ∧
    CallAligned session p party.returns.length s party.consumed

theorem Aligned.start (session : Session) (p : Side) :
    Aligned session p (State.start p) where
  returned k ret h := by simp [State.start] at h
  between _ := rfl
  inCall s h := by simp [State.start] at h

section Aligned
variable {session : Session} {st : State} {p : Side}

theorem Aligned.begin (h : Aligned session p (st p)) (hc : (st p).call = none) :
    Aligned session p ((st p).begin session p) where
  returned := h.returned
  between hn := by simp [Party.begin] at hn
  inCall s hs := by
    obtain rfl := Option.some.inj hs
    refine ⟨h.between hc, .begun ?_ rfl (h.between hc)⟩
    simp [SyncCall.begin]

/-- A whole read from the record's offset reads the record. -/
theorem Aligned.read (h : Aligned session p (st p)) {s : SyncCall} (hs : (st p).call = some s)
    (hl : s.Looping (session.size (st p).returns.length))
    (hcount : 1 ≤ session.size (st p).returns.length)
    (havail : (st p).consumed + session.size (st p).returns.length ≤
      (session.incoming st p).length) :
    Aligned session p
      ((st p).read s (session.incoming st p) (session.size (st p).returns.length)) := by
  obtain ⟨hstart, hcall⟩ := h.inCall s hs
  have hsize := session.record_length p.peer
  refine ⟨h.returned, fun hn => by simp [Party.read] at hn, fun s' hs' => ⟨hstart, ?_⟩⟩
  obtain rfl := Option.some.inj hs'
  cases hcall with
  | begun hrc ht hc =>
      rw [Session.incoming, stream_length hsize] at havail
      have hpast : offset session.size (st p).returns.length <
          offset session.size (st p.peer).written := by omega
      have hlaid : (st p).returns.length < (st p.peer).written := lt_of_offset_lt hpast
      have hslice : ((session.incoming st p).drop (st p).consumed).take
          (session.size (st p).returns.length) = session.record p.peer (st p).returns.length := by
        rw [hc]
        exact stream_slice hsize hlaid
      change CallAligned session p (st p).returns.length _ _
      refine .filled hrc ?_ ?_ ?_
      · simp only [SyncCall.read, hslice, hsize, ht, Nat.zero_add]
      · simp only [Party.read, hc, offset_succ]
      · simp only [SyncCall.read, hslice]
        rw [load_store_take (Nat.le_of_eq (hsize _).symm), ← hsize, List.take_length]
  | filled hrc ht hc hr => exact absurd hl.2 (by omega)

theorem Aligned.finish (h : Aligned session p (st p)) {s : SyncCall} (hs : (st p).call = some s)
    (hl : ¬ s.Looping (session.size (st p).returns.length)) :
    Aligned session p ((st p).finish s) := by
  obtain ⟨hstart, hcall⟩ := h.inCall s hs
  have hsize := session.record_length p.peer (st p).returns.length
  -- a call that ends after no read was one of size 0
  have hdone : load s.remoteData 0 (session.size (st p).returns.length) =
      session.record p.peer (st p).returns.length ∧
        (st p).consumed = offset session.size ((st p).returns.length + 1) := by
    cases hcall with
    | begun hrc ht hc =>
        have hzero : session.size (st p).returns.length = 0 := by
          by_contra hne
          exact hl ⟨hrc, by omega⟩
        rw [hzero, List.length_eq_zero_iff] at hsize
        exact ⟨by rw [hsize, hzero]; rfl, by rw [hc, offset_succ, hzero, Nat.add_zero]⟩
    | filled hrc ht hc hr => exact ⟨hr, hc⟩
  refine ⟨?_, ?_, fun s' hs' => by simp [Party.finish] at hs'⟩
  · intro k ret hk
    rw [Party.finish, List.getElem?_append] at hk
    split_ifs at hk with hlt
    · exact h.returned k ret hk
    · rw [List.getElem?_singleton] at hk
      split_ifs at hk with hzero
      obtain rfl := Option.some.inj hk
      obtain rfl : k = (st p).returns.length := by omega
      exact ⟨hdone.1, hstart, hdone.2⟩
  · intro _
    simpa [Party.finish] using hdone.2

def BothAligned (session : Session) (st : State) : Prop := ∀ p, Aligned session p (st p)

theorem BothAligned.update {party : Party} (h : BothAligned session st)
    (hp : Aligned session p party) : BothAligned session (Function.update st p party) :=
  (Function.forall_update_iff st (Aligned session)).mpr ⟨hp, fun q _ => h q⟩

/-- A step with whole reads keeps both parties aligned. -/
theorem BothAligned.preserved {st' : State} {e : Event} (h : BothAligned session st)
    (hs : guarded (wholeReads session) (step session) st e = some st') :
    BothAligned session st' := by
  obtain ⟨hwhole, hstep⟩ := guarded_eq_some.mp hs
  cases e with
  | call p =>
      obtain ⟨hc, rfl⟩ := step_call hstep
      exact h.update ((h p).begin hc)
  | read p count =>
      obtain ⟨s, hsome, hl, hpos, _, havail, rfl⟩ := step_read hstep
      obtain rfl := of_decide_eq_true hwhole
      exact h.update ((h p).read hsome hl hpos havail)
  | ret p =>
      obtain ⟨s, hsome, hl, rfl⟩ := step_ret hstep
      exact h.update ((h p).finish hsome hl)

end Aligned

/-- A field in network order is read back on every host. -/
theorem field_round_trip (e e' : Endian) {w n : ℕ} (hn : n < 256 ^ w) {bs : List UInt8}
    (h : bs = toBytes e w (hostToBig e w n)) : hostToBig e' w (ofBytes e' bs) = n := by
  have hlen : bs.length = w := by rw [h, toBytes_length]
  have hbig := hostToBig_ofBytes e' bs
  rw [hlen] at hbig
  rw [hbig, h, toBytes_hostToBig, ofBytes_toBytes, Nat.mod_eq_of_lt hn]

theorem remoteConData_localConData (e e' : Endian) (d : CmConData) {tmp : Memory}
    (h : load tmp 0 cmConDataSize = localConData e d) : remoteConData e' tmp = d := by
  obtain ⟨haddr, h⟩ := load_eq_append (n := 26) h (toBytes_length ..)
  obtain ⟨hrkey, h⟩ := load_eq_append (n := 22) h (toBytes_length ..)
  obtain ⟨hqp, h⟩ := load_eq_append (n := 18) h (toBytes_length ..)
  obtain ⟨hlid, hgid⟩ := load_eq_append (n := 16) h (toBytes_length ..)
  ext1
  · simp only [remoteConData, field_round_trip e e' d.addr.toNat_lt haddr, UInt64.ofNat_toNat]
  · simp only [remoteConData, field_round_trip e e' d.rkey.toNat_lt hrkey, UInt32.ofNat_toNat]
  · simp only [remoteConData, field_round_trip e e' d.qpNum.toNat_lt hqp, UInt32.ofNat_toNat]
  · simp only [remoteConData, field_round_trip e e' d.lid.toNat_lt hlid, UInt16.ofNat_toNat]
  · exact hgid

/-- With whole reads each call of a run that returns 0 has the peer's record of
its own number and has consumed that record, no more and no less; where the
record is connection data, they come out as they were put in. -/
theorem records_exact_of_whole_reads {session : Session} {es : List Event} {st : State}
    (hrun : run (guarded (wholeReads session) (step session)) .start es = some st) {p : Side}
    {k : ℕ} {ret : Return} (hret : (st p).returns[k]? = some ret) :
    ret.rc = 0 →
      load ret.remoteData 0 (session.size k) = session.record p.peer k ∧
        ret.start = offset session.size k ∧ ret.stop = offset session.size (k + 1) ∧
        ∀ e e' d, session.record p.peer k = localConData e d →
          remoteConData e' ret.remoteData = d := by
  intro _
  have haligned : BothAligned session st :=
    invariant (fun h hs => h.preserved hs) (Aligned.start session) hrun
  obtain ⟨hremote, hstart, hstop⟩ := (haligned p).returned k ret hret
  refine ⟨hremote, hstart, hstop, fun e e' d hd => ?_⟩
  have hsize : session.size k = cmConDataSize := by
    rw [← session.record_length p.peer k, hd, localConData_length]
  exact remoteConData_localConData e e' d (by rw [← hsize, hremote, hd])

def sampleData (p : Side) : CmConData :=
  ⟨0x1122334455667788, 0x99aabbcc, if p = .client then 7 else 8, 0x0102,
    List.replicate 16 0xfe, by decide⟩

def sampleSession : Session :=
  programSession (fun _ => .little) sampleData fun _ _ _ => 0

/-- Each side reads the other's data at once. -/
def wholeRun : List Event :=
  [.call .client, .call .server, .read .client 34, .ret .client, .call .client,
    .read .server 34, .ret .server]

theorem records_exact_of_whole_reads_both_sides :
    ∃ st ret, run (guarded (wholeReads sampleSession) (step sampleSession)) .start wholeRun =
        some st ∧
      (st .server).returns[0]? = some ret ∧
      remoteConData .big ret.remoteData = sampleData .client := by
  have hend : ((run (guarded (wholeReads sampleSession) (step sampleSession)) .start
      wholeRun).bind fun st => (st .server).returns[0]?).map Return.rc = some 0 := by
    decide +kernel
  obtain ⟨ret, hret, hrc⟩ := Option.map_eq_some_iff.mp hend
  obtain ⟨st, hrun, hret⟩ := Option.bind_eq_some_iff.mp hret
  exact ⟨st, ret, hrun, hret,
    (records_exact_of_whole_reads hrun hret hrc).2.2.2 .little .big _ rfl⟩

/-- The client gets the server's data in two pieces; by the second read the
server has gone on and written its Q. -/
def fragmentedRun : List Event :=
  [.call .client, .call .server, .read .client 17, .read .server 34, .ret .server,
    .call .server, .read .client 18, .ret .client]

theorem records_inexact_in_fragments :
    ∃ st ret, run (step sampleSession) .start fragmentedRun = some st ∧
      (st .client).returns[0]? = some ret ∧ ret.rc = 0 ∧
      load ret.remoteData 0 34 ≠ sampleSession.record .server 0 ∧
      ret.stop ≠ offset sampleSession.size 1 ∧
      (remoteConData .little ret.remoteData).qpNum ≠ (sampleData .server).qpNum := by
  have hend : ((run (step sampleSession) .start fragmentedRun).bind
      fun st => (st .client).returns[0]?).map (fun ret => decide (ret.rc = 0 ∧
        load ret.remoteData 0 34 ≠ sampleSession.record .server 0 ∧
        ret.stop ≠ offset sampleSession.size 1 ∧
        (remoteConData .little ret.remoteData).qpNum ≠ (sampleData .server).qpNum)) =
      some true := by
    decide +kernel
  obtain ⟨ret, hret, hbad⟩ := Option.map_eq_some_iff.mp hend
  obtain ⟨st, hrun, hret⟩ := Option.bind_eq_some_iff.mp hret
  exact ⟨st, ret, hrun, hret, of_decide_eq_true hbad⟩

end CppPlayground.SockSync
