import CppPlayground.DestCompletion

/-!
# Connecting the clients of the shared receive queue

In `xsrq_pingpong.c` each side has two queue pairs for a client, one to receive
on and one to send on. A record tells both numbers, one packet sequence number
for the pair and the number of the receive queue; both sides read it with a
loop. `connect_qps` then joins each queue pair to the peer's queue pair of the
other kind. Unlike the other programs the server tells its record before it
connects. One client's connection is modelled; the server takes its clients one
after the other.
-/
namespace CppPlayground.XsrqConnect
open HostBytes HelloText DestRecord DestExchange Dialogue Runs Volley

/-- `struct pingpong_dest` as far as a record fills it. Of a side's own record
`psn` is `recv_psn`, of the remote one `send_psn`. -/
@[ext] structure Dest where
  lid : UInt32
  recvQpn : UInt32
  sendQpn : UInt32
  psn : UInt32
  srqn : UInt32
  gid : Gid
  deriving DecidableEq

/-- What a side's record is made of: numbers of queues have 24 bits. -/
structure Own where
  lid : UInt16
  recvQpNum : BitVec 24
  sendQpNum : BitVec 24
  random : UInt32
  srqNum : BitVec 24
  gid : Gid
  deriving DecidableEq

def Own.dest (own : Own) : Dest :=
  ⟨own.lid.toUInt32, UInt32.ofNat own.recvQpNum.toNat, UInt32.ofNat own.sendQpNum.toNat,
    own.random &&& 0xffffff, UInt32.ofNat own.srqNum.toNat, own.gid⟩

/-- `MSG_SIZE`. -/
def msgSize : ℕ := 66

/-- `MSG_FORMAT`; the gid is as wide as its field. -/
def Dest.fields (d : Dest) : List (ℕ × UInt32) :=
  [(4, d.lid), (6, d.recvQpn), (6, d.sendQpn), (6, d.psn), (6, d.srqn)]

def Dest.msg (e : Endian) (d : Dest) : List UInt8 := (printRecord e d.fields d.gid).take msgSize

/-- `MSG_SSCAN` and `wire_gid_to_gid`. -/
def Dest.scan (e : Endian) (before : Dest) (scratch : GidScratch) (msg : List UInt8) :
    Option Dest :=
  (scanRecord e 5 scratch msg).map fun row =>
    ⟨row.1.getD 0 before.lid, row.1.getD 1 before.recvQpn, row.1.getD 2 before.sendQpn,
      row.1.getD 3 before.psn, row.1.getD 4 before.srqn, row.2⟩

inductive Qp where
  | recv
  | send
  deriving DecidableEq

inductive Call where
  | queryGid
  | getSrqNum
  | rtr (qp : Qp) (destQpNum rqPsn : UInt32) (ah : PathAttr)
  | rts (qp : Qp) (sqPsn : UInt32)
  deriving DecidableEq

abbrev Talk := Prog UInt8 Call (Exit Dest)

/-- A side: its byte order, what memory held, whether a gid was asked for. -/
structure Side where
  endian : Endian
  before : Dest
  scratch : GidScratch
  useGid : Bool
  own : Own

def sendLocalDest (side : Side) (next : Bool → Talk) : Talk :=
  Prog.calls (fun ok => if ok then .write (side.own.dest.msg side.endian) next else next false)
    ((if side.useGid then [.queryGid] else []) ++ [.getSrqNum])

def recvRemoteDest (side : Side) (next : Option Dest → Talk) : Talk :=
  .fill msgSize fun r =>
    match r with
    | none => next none
    | some msg =>
      match Dest.scan side.endian side.before side.scratch msg with
      | none => .done .overrun
      | some d => next (some d)

def connectQps (myPsn : UInt32) (dest : Dest) : List Call :=
  [.rtr .recv dest.sendQpn dest.psn (pathAttr dest.lid dest.gid), .rts .recv myPsn,
    .rtr .send dest.recvQpn dest.psn (pathAttr dest.lid dest.gid), .rts .send myPsn]

def ppClientConnect (side : Side) : Talk :=
  sendLocalDest side fun ok =>
    if ok then recvRemoteDest side fun dest =>
      match dest with
      | none => .done .failed
      | some dest =>
        Prog.calls (fun ok => .done (if ok then .ready dest else .failed))
          (connectQps side.own.dest.psn dest)
    else .done .failed

/-- One round of the loop of `pp_server_connect`, from `accept` on. -/
def ppServerConnect (side : Side) : Talk :=
  recvRemoteDest side fun dest =>
    match dest with
    | none => .done .failed
    | some dest =>
      sendLocalDest side fun ok =>
        if ok then
          Prog.calls (fun ok => .done (if ok then .ready dest else .failed))
            (connectQps side.own.dest.psn dest)
        else .done .failed

theorem Own.dest_fit (own : Own) : Fit own.dest.fields := by
  have hlid : own.dest.lid.toNat < 16 ^ 4 := by simpa [Own.dest] using own.lid.toNat_lt
  have hnum : ∀ n : BitVec 24, (UInt32.ofNat n.toNat).toNat < 16 ^ 6 := by
    intro n
    have := n.isLt
    simp only [UInt32.toNat_ofNat']
    omega
  have hpsn : own.dest.psn.toNat < 16 ^ 6 := by
    simp only [Own.dest, UInt32.toNat_and]
    exact Nat.lt_of_le_of_lt Nat.and_le_right (by decide)
  simp only [Fit, Dest.fields, List.mem_cons, List.not_mem_nil, or_false, forall_eq_or_imp,
    forall_eq]
  exact ⟨⟨by omega, hlid⟩, ⟨by omega, hnum _⟩, ⟨by omega, hnum _⟩, ⟨by omega, hpsn⟩, by omega,
    hnum _⟩

theorem Own.record_length (own : Own) (e : Endian) :
    (printRecord e own.dest.fields own.dest.gid).length = msgSize := by
  rw [printRecord_length own.dest_fit]
  rfl

theorem Own.msg_eq (own : Own) (e : Endian) :
    own.dest.msg e = printRecord e own.dest.fields own.dest.gid :=
  List.take_of_length_le (own.record_length e).le

@[simp] theorem Own.msg_length (own : Own) (e : Endian) : (own.dest.msg e).length = msgSize := by
  rw [own.msg_eq, own.record_length]

theorem Own.scan_msg (own : Own) (e e' : Endian) (before : Dest) (scratch : GidScratch) :
    Dest.scan e' before scratch (own.dest.msg e) = some own.dest := by
  have hscan := scanRecord_printRecord own.dest_fit e e' own.dest.gid scratch
  change scanRecord e' 5 scratch _ = _ at hscan
  rw [own.msg_eq, Dest.scan, hscan]
  rfl

section Both
variable (side : Player → Side)

def sent (p : Player) : List UInt8 := (side p).own.dest.msg (side p).endian

/-- The first party is the client. -/
def connectMain : Player → Talk
  | .first => ppClientConnect (side .first)
  | .second => ppServerConnect (side .second)

def connectContract (p : Player) : Contract UInt8 Call (Exit Dest) where
  hears := sent side p.peer
  readsFail := True
  keeps _ told _ := told <+: sent side p
  ends _ _ log r := r ≠ .overrun ∧ ∀ d, r = .ready d →
    d = (side p.peer).own.dest ∧ Made log (connectQps (side p).own.dest.psn d)

variable {side} {p : Player} {heard told : List UInt8} {log : List (Call × Bool)}

theorem failed_meets (htold : told <+: sent side p) :
    (Prog.done .failed : Talk).Meets (connectContract side p) heard told log :=
  ⟨htold, by simp, by simp⟩

theorem sendLocalDest_meets {next : Bool → Talk}
    (hno : ∀ piece log, piece <+: sent side p →
      (next false).Meets (connectContract side p) heard piece log)
    (hyes : ∀ log, (next true).Meets (connectContract side p) heard (sent side p) log) :
    (sendLocalDest (side p) next).Meets (connectContract side p) heard [] log :=
  Prog.Meets.calls (fun _ => List.nil_prefix) (fun _ => hno [] _ List.nil_prefix)
    ⟨fun piece hpiece => ⟨hpiece, hno piece _ hpiece⟩, hyes _⟩

theorem recvRemoteDest_meets {next : Option Dest → Talk} (htold : told <+: sent side p)
    (hno : ∀ heard, (next none).Meets (connectContract side p) heard told log)
    (hyes : (next (some (side p.peer).own.dest)).Meets (connectContract side p)
      (sent side p.peer) told log) :
    (recvRemoteDest (side p) next).Meets (connectContract side p) [] told log := by
  refine ⟨by decide, fun piece _ _ => ⟨htold, fun _ => hno _⟩, fun piece hlen hpre => ?_⟩
  obtain rfl : piece = sent side p.peer :=
    piece_eq [] [] (hlen.trans (Own.msg_length ..).symm) (by rwa [List.append_nil])
  simp only [sent, Own.scan_msg]
  exact hyes

theorem connectQps_meets (htold : told <+: sent side p) :
    (Prog.calls (fun ok => .done (if ok then .ready (side p.peer).own.dest else .failed))
      (connectQps (side p).own.dest.psn (side p.peer).own.dest) : Talk).Meets
        (connectContract side p) heard told log := by
  refine Prog.Meets.calls (fun _ => htold) (fun _ => failed_meets htold) ⟨htold, by simp, ?_⟩
  intro d hd
  cases hd
  exact ⟨rfl, made_append _ _⟩

theorem connectMain_meets (p : Player) :
    (connectMain side p).Meets (connectContract side p) [] [] [] := by
  cases p with
  | first =>
    refine sendLocalDest_meets (fun piece log hpiece => ?_) fun log => ?_
    · exact failed_meets hpiece
    · rw [if_pos rfl]
      refine recvRemoteDest_meets List.prefix_rfl (fun heard => ?_) ?_
      · exact failed_meets List.prefix_rfl
      · exact connectQps_meets List.prefix_rfl
  | second =>
    rw [connectMain, ppServerConnect]
    refine recvRemoteDest_meets List.nil_prefix (fun heard => ?_) ?_
    · exact failed_meets List.nil_prefix
    · refine sendLocalDest_meets (fun piece log hpiece => ?_) fun log => ?_
      · exact failed_meets hpiece
      · exact connectQps_meets List.prefix_rfl

theorem connect_fits : Fits (connectContract side) := by
  intro p heard told log h
  simpa [connectContract] using h

/-- One queue pair of a side is set to a queue pair of its peer and expects the
packet sequence number that one starts from. -/
def Joined (N : Network UInt8 Call (Exit Dest)) (p : Player) (mine theirs : Qp) (num psn : UInt32) :
    Prop :=
  (∃ ah, (.rtr mine num psn ah, true) ∈ (N p).log) ∧ (.rts theirs psn, true) ∈ (N p.peer).log

variable {room : ℕ} {es : List Event} {N : Network UInt8 Call (Exit Dest)}

/-- In every run, a side that is through has its peer's record, and when both
are, the queue pairs to send on of each are joined to those to receive on of
the other. -/
theorem sides_joined (h : run (step room) (start (connectMain side)) es = some N) :
    (∀ p, (N p).prog ≠ .done .overrun) ∧
      (∀ p d, (N p).prog = .done (.ready d) → d = (side p.peer).own.dest) ∧
      ((∀ p, ∃ d, (N p).prog = .done (.ready d)) → ∀ p,
        Joined N p .send .recv (side p.peer).own.dest.recvQpn (side p.peer).own.dest.psn ∧
          Joined N p .recv .send (side p.peer).own.dest.sendQpn (side p.peer).own.dest.psn) := by
  have hkept := kept_of_run connect_fits (fun _ _ => True.intro) connectMain_meets h
  refine ⟨fun p hdone => (hkept.ends hdone).1 rfl, fun p d hdone => ((hkept.ends hdone).2 d rfl).1,
    fun hready p => ?_⟩
  have hmade : ∀ q, Made (N q).log
      (connectQps (side q).own.dest.psn (side q.peer).own.dest) := by
    intro q
    obtain ⟨d, hdone⟩ := hready q
    obtain ⟨rfl, hmade⟩ := (hkept.ends hdone).2 d rfl
    exact hmade
  have hp := hmade p
  have hq := hmade p.peer
  simp only [Made, connectQps, List.mem_cons, List.not_mem_nil, or_false, forall_eq_or_imp,
    forall_eq] at hp hq
  exact ⟨⟨⟨_, hp.2.2.1⟩, hq.2.1⟩, ⟨_, hp.1⟩, hq.2.2.2⟩

def connectOrder : List Player :=
  List.replicate msgSize .first ++ (List.replicate msgSize .second ++ [])

/-- The calls that a side makes before it tells its record. -/
def localCalls (side : Side) : ℕ := (if side.useGid then 1 else 0) + 1

theorem sendLocalDest_follows {room m : ℕ} {hears : List UInt8} {good : Exit Dest → Prop}
    {order : List Player} {next : Bool → Talk}
    (h : (next true).Follows room p hears good heard order m) :
    (sendLocalDest (side p) next).Follows room p hears good heard
      (List.replicate msgSize p ++ order) (localCalls (side p) + m) := by
  have hcalls : localCalls (side p) =
      ((if (side p).useGid then [Call.queryGid] else []) ++ [Call.getSrqNum]).length := by
    rw [localCalls]
    split_ifs <;> rfl
  rw [hcalls, sendLocalDest]
  refine Prog.Follows.calls ?_
  rw [if_pos rfl]
  refine ⟨?_, order, by rw [Own.msg_length], h⟩
  exact List.ne_nil_of_length_pos (by rw [Own.msg_length]; decide)

theorem recvRemoteDest_follows {room m : ℕ} {good : Exit Dest → Prop} {order : List Player}
    {next : Option Dest → Talk}
    (h : (next (some (side p.peer).own.dest)).Follows room p (sent side p.peer) good
      (sent side p.peer) order m) :
    (recvRemoteDest (side p) next).Follows room p (sent side p.peer) good []
      (List.replicate msgSize p.peer ++ order) m := by
  refine ⟨by decide, order, rfl, fun piece hlen hpre => ?_⟩
  obtain rfl : piece = sent side p.peer :=
    piece_eq [] [] (hlen.trans (Own.msg_length ..).symm) (by rwa [List.append_nil])
  simp only [sent, Own.scan_msg]
  exact h

theorem connectMain_follows {room : ℕ} (p : Player) :
    (connectMain side p).Follows room p (sent side p.peer)
      (fun r => r = .ready (side p.peer).own.dest) [] connectOrder (localCalls (side p) + 4) := by
  cases p with
  | first =>
    rw [connectMain, ppClientConnect]
    refine sendLocalDest_follows ?_
    rw [if_pos rfl]
    exact recvRemoteDest_follows (Prog.Follows.calls (m := 0) ⟨rfl, rfl⟩)
  | second =>
    rw [connectMain, ppServerConnect]
    refine recvRemoteDest_follows (sendLocalDest_follows ?_)
    exact Prog.Follows.calls (m := 0) ⟨rfl, rfl⟩

/-- Without a fault the connection is bounded, and it goes on until both sides
have the other's record, if the streams hold a byte at all. -/
theorem connection_completes (hroom : 0 < room)
    (h : run (guarded smooth (step room)) (start (connectMain side)) es = some N) :
    es.length ≤ 4*msgSize + 12 ∧
      ((∀ p, (N p).prog = .done (.ready (side p.peer).own.dest)) ∨
        ∃ e N', smooth N e = true ∧ step room N e = some N') := by
  obtain ⟨hlen, hends⟩ := smooth_run hroom connect_fits connectMain_meets connectMain_follows h
  have hcalls : ∀ s, localCalls s ≤ 2 := by
    intro s
    rw [localCalls]
    split_ifs <;> omega
  refine ⟨?_, hends.imp_left fun hdone p => ?_⟩
  · refine hlen.trans ?_
    have h₁ := hcalls (side .first)
    have h₂ := hcalls (side .second)
    simp only [connectOrder, List.length_append, List.length_replicate, List.length_nil]
    omega
  · obtain ⟨r, hr, rfl⟩ := hdone p
    exact hr

end Both

def pairSide (p : Player) : Side where
  endian := if p = .first then .little else .big
  before := ⟨0, 0, 0, 0, 0, uniformGid 0⟩
  scratch := ⟨fun _ => 0xcc, 0xcccccccc⟩
  useGid := p = .first
  own := match p with
    | .first => ⟨3, 100#24, 101#24, 0x5eed5eed, 7#24, uniformGid 0xfe⟩
    | .second => ⟨4, 200#24, 201#24, 0x5eed5, 8#24, uniformGid 0⟩

/-- All of a connection, with the streams holding at most forty bytes. -/
def pairEvents : List Event :=
  List.flatten [List.replicate 2 (.call .first true), [.put .first 40, .get .second 40,
    .put .first 26, .get .second 26, .call .second true, .put .second 33, .get .first 33,
    .put .second 33, .get .first 33], List.replicate 4 (.call .first true),
    List.replicate 4 (.call .second true)]

theorem sides_joined_pair :
    ∃ N, run (step 40) (start (connectMain pairSide)) pairEvents = some N ∧
      ∀ p,
        Joined N p .send .recv (pairSide p.peer).own.dest.recvQpn (pairSide p.peer).own.dest.psn ∧
          Joined N p .recv .send (pairSide p.peer).own.dest.sendQpn
            (pairSide p.peer).own.dest.psn := by
  have hrun : ((run (step 40) (start (connectMain pairSide)) pairEvents).map fun N =>
      ((readyOf (N .first).prog).isSome, (readyOf (N .second).prog).isSome)) =
        some (true, true) := by decide +kernel
  obtain ⟨N, hN, hready⟩ := Option.map_eq_some_iff.mp hrun
  rw [Prod.mk.injEq] at hready
  obtain ⟨d, hd⟩ := Option.isSome_iff_exists.mp hready.1
  obtain ⟨d', hd'⟩ := Option.isSome_iff_exists.mp hready.2
  refine ⟨N, hN, (sides_joined hN).2.2 fun p => ?_⟩
  cases p with
  | first => exact ⟨d, readyOf_eq_some hd⟩
  | second => exact ⟨d', readyOf_eq_some hd'⟩

theorem connection_completes_pair :
    ∃ N, run (guarded smooth (step 40)) (start (connectMain pairSide)) (pairEvents.take 11) =
        some N ∧
      ((∀ p, (N p).prog = .done (.ready (pairSide p.peer).own.dest)) ∨
        ∃ e N', smooth N e = true ∧ step 40 N e = some N') := by
  have hrun : ((run (guarded smooth (step 40)) (start (connectMain pairSide))
      (pairEvents.take 11)).map fun _ => ()) = some () := by decide +kernel
  obtain ⟨N, hN, _⟩ := Option.map_eq_some_iff.mp hrun
  exact ⟨N, hN, (connection_completes (by decide) hN).2⟩

end CppPlayground.XsrqConnect
