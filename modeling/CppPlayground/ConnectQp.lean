import CppPlayground.RdmaDemo
import CppPlayground.SyncTermination

/-!
# Connecting a queue pair

`connect_qp` of rdma1.cpp exchanges connection data with `sock_sync_data`,
keeps what it received as `remote_props` and moves the queue pair to RTS. It
takes a negative result of the exchange for a failure and any other for
success, but `sock_sync_data` returns the count of a short write, and zero for
a write of nothing. So the call goes on after a short write, and it waits for
ever on a peer that closes too early.
-/
namespace CppPlayground.ConnectQp
open HostBytes SockSync RdmaDemo

/-- The fields of `config` that the calls depend on. -/
structure Config where
  devName : Option (List UInt8)
  serverName : Option (List UInt8)
  ibPort : ℤ
  gidIdx : ℤ

/-- A union `ibv_gid`. -/
structure Gid where
  raw : List UInt8
  raw_length : raw.length = 16

/-- `memset(&my_gid, 0, sizeof my_gid)` -/
def Gid.zero : Gid := ⟨List.replicate 16 0, List.length_replicate⟩

/-- The side's own attributes: `buf`, `mr->rkey`, `qp->qp_num`, `port_attr.lid`. -/
structure Local where
  addr : UInt64
  rkey : UInt32
  qpNum : UInt32
  lid : UInt16

/-- The varying part of the attributes given to `ibv_modify_qp`; `grh` has the
gid of the destination and the index of the own one. -/
inductive QpAttr where
  | init (portNum : UInt8)
  | rtr (destQpNum : UInt32) (dlid : UInt16) (portNum : UInt8) (grh : Option (List UInt8 × UInt8))
  | rts

def QpAttr.qpState : QpAttr → QpState
  | .init _ => .init
  | .rtr _ _ _ _ => .rtr
  | .rts => .rts

/-- What the functions called by `connect_qp` return. -/
structure Calls where
  queryGid : ℤ
  myGid : Gid
  write : List UInt8 → ℤ
  postRecv : ℤ
  modifyQp : QpAttr → ℤ

/-- The part of the resources that `connect_qp` changes, with the calls of
`ibv_modify_qp` made so far. -/
structure Link where
  remoteProps : CmConData
  qpState : QpState
  modified : List QpAttr

/-- `ibv_modify_qp` -/
def Link.modify (link : Link) (calls : Calls) (attr : QpAttr) : Link :=
  { link with
    qpState := if calls.modifyQp attr = 0 then attr.qpState else link.qpState
    modified := link.modified ++ [attr] }

structure Outcome where
  rc : ℤ
  link : Link

def myGid (config : Config) (calls : Calls) : Gid :=
  if 0 ≤ config.gidIdx then calls.myGid else .zero

/-- `local_con_data`, in host order. -/
def localCon (config : Config) (own : Local) (calls : Calls) : CmConData where
  addr := own.addr
  rkey := own.rkey
  qpNum := own.qpNum
  lid := own.lid
  gid := (myGid config calls).raw
  gid_length := (myGid config calls).raw_length

/-- The attributes of `modify_qp_to_rtr`. -/
def rtrAttr (config : Config) (remote : CmConData) : QpAttr :=
  if 0 ≤ config.gidIdx then
    .rtr remote.qpNum remote.lid 1 (some (remote.gid, .ofInt config.gidIdx))
  else .rtr remote.qpNum remote.lid (.ofInt config.ibPort) none

/-- The last call of `sock_sync_data`, with the reads it makes. -/
def syncQ (calls : Calls) (link : Link) (reads : List ReadResult) : Option Outcome :=
  (sockSyncData 1 (calls.write ['Q'.toUInt8]) (fun _ => 0) reads).map fun s =>
    ⟨if s.rc ≠ 0 then 1 else 0, link⟩

/-- From `modify_qp_to_rtr` on. -/
def toRts (config : Config) (calls : Calls) (link : Link) (reads : List ReadResult) :
    Option Outcome :=
  let rtr := rtrAttr config link.remoteProps
  let ready := link.modify calls rtr
  if calls.modifyQp rtr ≠ 0 then some ⟨calls.modifyQp rtr, ready⟩
  else if calls.modifyQp .rts ≠ 0 then some ⟨calls.modifyQp .rts, ready.modify calls .rts⟩
  else syncQ calls (ready.modify calls .rts) reads

/-- From `modify_qp_to_init` on; only the client posts a receive. -/
def moveQp (config : Config) (calls : Calls) (link : Link) (reads : List ReadResult) :
    Option Outcome :=
  let init := QpAttr.init (.ofInt config.ibPort)
  if calls.modifyQp init ≠ 0 then some ⟨calls.modifyQp init, link.modify calls init⟩
  else if config.serverName.isSome ∧ calls.postRecv ≠ 0 then
    some ⟨calls.postRecv, link.modify calls init⟩
  else toRts config calls (link.modify calls init) reads

/-- The gid is asked for and not got. -/
def NoGid (config : Config) (calls : Calls) : Prop := 0 ≤ config.gidIdx ∧ calls.queryGid ≠ 0

instance (config : Config) (calls : Calls) : Decidable (NoGid config calls) :=
  inferInstanceAs (Decidable (_ ∧ _))

section Connect
variable (host : Endian) (config : Config) (own : Local) (calls : Calls) (tmp : Memory)
  (link : Link)

/-- The bytes of the connection data this side writes. -/
def ownData : List UInt8 := localConData host (localCon config own calls)

/-- `reads` are the results of the reads of the first `sock_sync_data`, which
stores them at `tmp`, `readsQ` those of the second. -/
def connectQp (reads readsQ : List ReadResult) : Option Outcome :=
  if NoGid config calls then some ⟨calls.queryGid, link⟩
  else
    match sockSyncData cmConDataSize (calls.write (ownData host config own calls)) tmp reads with
    | none => none
    | some s =>
        if s.rc < 0 then some ⟨1, link⟩
        else moveQp config calls { link with remoteProps := remoteConData host s.remoteData } readsQ

end Connect

/-- The reads bring all the connection data before one of them fails. -/
def Supplied (reads : ℕ → ReadResult) : Prop :=
  ∃ k, cmConDataSize ≤ received reads k ∧ ∀ j < k, reads j ≠ .error

/-- A read fails before they have brought all of it. -/
def ReadFails (reads : ℕ → ReadResult) : Prop :=
  ∃ k, reads k = .error ∧ received reads k < cmConDataSize

/-- The whole connection data was written, and the whole was received. -/
def Exchanged (written : ℤ) (reads : ℕ → ReadResult) : Prop :=
  (cmConDataSize : ℤ) ≤ written ∧ Supplied reads

/-- The loop fails exactly if a read fails early. -/
theorem rc_neg_iff {s t : SyncCall} {n : ℕ} {reads : ℕ → ReadResult} (hrc : s.rc = 0)
    (htotal : s.totalReadBytes = 0) (h : s.loop cmConDataSize (firstReads reads n) = some t) :
    t.rc < 0 ↔ ReadFails reads := by
  obtain ⟨m, hbefore, hstop, rfl⟩ := SyncCall.loop_ended h
  have hless : ∀ j < m, received reads j < cmConDataSize := by
    intro j hj
    have hj := (hbefore j hj).2
    rwa [SyncCall.after_total, htotal, Nat.zero_add] at hj
  constructor
  · intro hneg
    by_contra hnone
    have hok : ∀ j < m, reads j ≠ .error := fun j hj herror => hnone ⟨j, herror, hless j hj⟩
    have hzero := SyncCall.after_rc hrc hok
    omega
  · rintro ⟨k, herror, hshort⟩
    by_cases hfails : ∃ j < m, reads j = .error
    · obtain ⟨j, hj, herrorj⟩ := hfails
      have hlast : m = j + 1 := by
        by_contra hne
        have hzero := (hbefore (j + 1) (by omega)).1
        rw [SyncCall.after_error herrorj] at hzero
        omega
      rw [hlast, SyncCall.after_error herrorj]
      decide
    · -- the loop would have read enough before the failing read
      have hok : ∀ j < m, reads j ≠ .error := fun j hj herrorj => hfails ⟨j, hj, herrorj⟩
      have hmk : m ≤ k := by
        by_contra hlt
        exact hok k (by omega) herror
      have hmono := received_mono reads hmk
      refine absurd ⟨SyncCall.after_rc hrc hok, ?_⟩ hstop
      rw [SyncCall.after_total, htotal]
      omega

theorem loop_ends {s : SyncCall} {reads : ℕ → ReadResult} (h : ReadFails reads) :
    ∃ n t, s.loop cmConDataSize (firstReads reads n) = some t := by
  obtain ⟨k, herror, _⟩ := h
  apply SyncCall.exists_loop_eq
  refine ⟨k + 1, fun hlooping => ?_⟩
  have hzero := hlooping.1
  rw [SyncCall.after_error herror] at hzero
  omega

/-- The result of the exchange is negative exactly if the write failed, or the
reads were begun and one of them failed. -/
theorem sync_neg_iff {written : ℤ} {tmp : Memory} {reads : ℕ → ReadResult} {n : ℕ} {s : SyncCall}
    (h : sockSyncData cmConDataSize written tmp (firstReads reads n) = some s) :
    s.rc < 0 ↔ written < 0 ∨
      ((written = 0 ∨ (cmConDataSize : ℤ) ≤ written) ∧ ReadFails reads) := by
  have hsize : (0 : ℤ) < cmConDataSize := by decide
  unfold sockSyncData at h
  by_cases hcounted : written < cmConDataSize ∧ written ≠ 0
  · have hrc := SyncCall.begin_rc_short hcounted.1 tmp
    have hstop : ¬ (SyncCall.begin cmConDataSize written tmp).Looping cmConDataSize := by
      intro hlooping
      exact hcounted.2 (hrc ▸ hlooping.1)
    obtain ⟨m, hbefore, _, rfl⟩ := SyncCall.loop_ended h
    have hm : m = 0 := by
      by_contra hne
      exact hstop (hbefore 0 (by omega))
    subst hm
    change (SyncCall.begin cmConDataSize written tmp).rc < 0 ↔ _
    rw [hrc]
    constructor
    · exact .inl
    · rintro (hneg | ⟨hbegun, _⟩)
      · exact hneg
      · omega
  · have hrc := SyncCall.begin_rc_zero hcounted tmp
    rw [rc_neg_iff hrc rfl h]
    constructor
    · exact fun hfails => .inr ⟨by omega, hfails⟩
    · rintro (hneg | ⟨_, hfails⟩)
      · omega
      · exact hfails

theorem sync_returns {written : ℤ} {tmp : Memory} {reads : ℕ → ReadResult}
    (h : written < 0 ∨ ((written = 0 ∨ (cmConDataSize : ℤ) ≤ written) ∧ ReadFails reads)) :
    ∃ n s, sockSyncData cmConDataSize written tmp (firstReads reads n) = some s := by
  rcases h with hneg | ⟨_, hfails⟩
  · refine ⟨0, .begin cmConDataSize written tmp, if_neg fun hlooping => ?_⟩
    have hsize : (0 : ℤ) < cmConDataSize := by decide
    have hshort : written < cmConDataSize := by omega
    have hzero := hlooping.1
    rw [SyncCall.begin_rc_short hshort] at hzero
    omega
  · exact loop_ends hfails

/-- The states that `ibv_modify_qp` has been asked for. -/
def Link.states (link : Link) : List QpState := link.modified.map QpAttr.qpState

theorem modify_states (link : Link) (calls : Calls) (attr : QpAttr) :
    (link.modify calls attr).states = link.states ++ [attr.qpState] := by
  simp [Link.modify, Link.states]

theorem rtrAttr_qpState (config : Config) (remote : CmConData) :
    (rtrAttr config remote).qpState = .rtr := by
  unfold rtrAttr
  split_ifs <;> rfl

theorem syncQ_link {calls : Calls} {link : Link} {reads : List ReadResult} {o : Outcome}
    (h : syncQ calls link reads = some o) : o.link = link := by
  obtain ⟨s, _, rfl⟩ := Option.map_eq_some_iff.mp h
  rfl

/-- RTR is asked for, then RTS, and both if nothing fails. -/
theorem toRts_states {config : Config} {calls : Calls} {link : Link} {reads : List ReadResult}
    {o : Outcome} (h : toRts config calls link reads = some o) :
    ∃ l, l <+: [.rtr, .rts] ∧ o.link.states = link.states ++ l ∧
      (o.rc = 0 → l = [.rtr, .rts]) := by
  simp only [toRts] at h
  split_ifs at h with hrtr hrts
  · cases h
    refine ⟨[.rtr], by simp, ?_, fun hzero => absurd hzero hrtr⟩
    rw [modify_states, rtrAttr_qpState]
  · cases h
    refine ⟨[.rtr, .rts], List.prefix_refl _, ?_, fun _ => rfl⟩
    rw [modify_states, modify_states, rtrAttr_qpState, List.append_assoc]
    rfl
  · refine ⟨[.rtr, .rts], List.prefix_refl _, ?_, fun _ => rfl⟩
    rw [syncQ_link h, modify_states, modify_states, rtrAttr_qpState, List.append_assoc]
    rfl

/-- Whatever fails after the exchange, INIT has been asked for. -/
theorem moveQp_states {config : Config} {calls : Calls} {link : Link} {reads : List ReadResult}
    {o : Outcome} (h : moveQp config calls link reads = some o) :
    ∃ l, l <+: [.rtr, .rts] ∧ o.link.states = link.states ++ .init::l ∧
      (o.rc = 0 → l = [.rtr, .rts]) := by
  simp only [moveQp] at h
  split_ifs at h with hinit hpost
  · cases h
    exact ⟨[], List.nil_prefix, modify_states _ _ _, fun hzero => absurd hzero hinit⟩
  · cases h
    exact ⟨[], List.nil_prefix, modify_states _ _ _, fun hzero => absurd hzero hpost.2⟩
  · obtain ⟨l, hl, hstates, hall⟩ := toRts_states h
    refine ⟨l, hl, ?_, hall⟩
    rw [hstates, modify_states, List.append_assoc]
    rfl

theorem moveQp_changes {config : Config} {calls : Calls} {link link' : Link}
    {reads : List ReadResult} {o : Outcome} (h : moveQp config calls link reads = some o)
    (hsame : link.modified = link'.modified) : o.link ≠ link' := by
  obtain ⟨l, _, hstates, _⟩ := moveQp_states h
  rintro rfl
  have hlength := congrArg List.length hstates
  rw [Link.states, Link.states, hsame, List.length_append, List.length_cons] at hlength
  omega

section Proceeding
variable {host : Endian} {config : Config} {own : Local} {calls : Calls} {tmp : Memory}
  {link : Link} {reads : ℕ → ReadResult} {readsQ : List ReadResult}

/-- The exchange fails and says so by a negative result. -/
def ReportsFailure (written : ℤ) (reads : ℕ → ReadResult) : Prop :=
  written < 0 ∨ ((written = 0 ∨ (cmConDataSize : ℤ) ≤ written) ∧ ReadFails reads)

/-- Without the exchange the call returns a failure and changes nothing. -/
structure StopsIncomplete (host : Endian) (config : Config) (own : Local) (calls : Calls)
    (tmp : Memory) (link : Link) (reads : ℕ → ReadResult) (readsQ : List ReadResult) : Prop where
  only_exchanged : ∀ n o,
    connectQp host config own calls tmp link (firstReads reads n) readsQ = some o →
      o.link ≠ link → Exchanged (calls.write (ownData host config own calls)) reads
  otherwise : ¬ Exchanged (calls.write (ownData host config own calls)) reads →
    ∃ n o, connectQp host config own calls tmp link (firstReads reads n) readsQ = some o ∧
      o.rc ≠ 0 ∧ o.link = link

theorem connectQp_noGid {reads : List ReadResult} (h : NoGid config calls) :
    connectQp host config own calls tmp link reads readsQ = some ⟨calls.queryGid, link⟩ :=
  if_pos h

/-- What the call does depends on the sign of the exchange's result. -/
theorem connectQp_exchange {reads : List ReadResult} {s : SyncCall} (h : ¬ NoGid config calls)
    (hs : sockSyncData cmConDataSize (calls.write (ownData host config own calls)) tmp reads =
      some s) :
    connectQp host config own calls tmp link reads readsQ =
      if s.rc < 0 then some ⟨1, link⟩
      else moveQp config calls { link with remoteProps := remoteConData host s.remoteData }
        readsQ := by
  unfold connectQp
  rw [if_neg h, hs]

theorem exchange_of_connectQp {reads : List ReadResult} {o : Outcome} (h : ¬ NoGid config calls)
    (ho : connectQp host config own calls tmp link reads readsQ = some o) :
    ∃ s, sockSyncData cmConDataSize (calls.write (ownData host config own calls)) tmp reads =
      some s := by
  unfold connectQp at ho
  rw [if_neg h] at ho
  split at ho
  · cases ho
  · exact ⟨_, ‹_›⟩

/-- The side of the demo that has this configuration. -/
def Config.side (config : Config) : Side := if config.serverName.isSome then .client else .server

/-- The state that a statement of the demo asks for. -/
def asksFor : Stmt → Option QpState
  | .modifyQp state => some state
  | _ => none

/-- The queue pair is asked for the states that the demo's statements name, in
their order, and for all of them if the result is 0. -/
theorem connectQp_states {reads : List ReadResult} {o : Outcome}
    (h : connectQp host config own calls tmp link reads readsQ = some o) :
    ∃ l, l <+: (RdmaDemo.connectQp config.side).filterMap asksFor ∧
      o.link.states = link.states ++ l ∧
      (o.rc = 0 → l = (RdmaDemo.connectQp config.side).filterMap asksFor) := by
  have hasks : (RdmaDemo.connectQp config.side).filterMap asksFor = [.init, .rtr, .rts] := by
    cases config.side <;> rfl
  rw [hasks]
  by_cases hgid : NoGid config calls
  · rw [connectQp_noGid hgid] at h
    cases h
    exact ⟨[], List.nil_prefix, (List.append_nil _).symm, fun hzero => absurd hzero hgid.2⟩
  · obtain ⟨s, hs⟩ := exchange_of_connectQp hgid h
    rw [connectQp_exchange hgid hs] at h
    split_ifs at h with hneg
    · cases h
      exact ⟨[], List.nil_prefix, (List.append_nil _).symm, fun hzero => absurd hzero one_ne_zero⟩
    · obtain ⟨l, hl, hstates, hall⟩ := moveQp_states h
      exact ⟨.init::l, by simpa using hl, hstates, fun hzero => by rw [hall hzero]⟩

/-- The call leaves everything unchanged exactly if the exchange's result is
negative. -/
theorem link_unchanged_iff {n : ℕ} {o : Outcome} (h : ¬ NoGid config calls)
    (ho : connectQp host config own calls tmp link (firstReads reads n) readsQ = some o) :
    o.link = link ↔ ReportsFailure (calls.write (ownData host config own calls)) reads := by
  obtain ⟨s, hs⟩ := exchange_of_connectQp h ho
  rw [connectQp_exchange h hs] at ho
  rw [ReportsFailure, ← sync_neg_iff hs]
  split_ifs at ho with hneg
  · cases ho
    exact ⟨fun _ => hneg, fun _ => rfl⟩
  · exact ⟨fun hlink => absurd hlink (moveQp_changes ho rfl), fun hlt => absurd hlt hneg⟩

/-- `connect_qp` stops on every incomplete exchange exactly if it gets no gid,
or the exchange is complete, or it reports its failure by a negative result. -/
theorem stops_incomplete_iff :
    StopsIncomplete host config own calls tmp link reads readsQ ↔
      NoGid config calls ∨ Exchanged (calls.write (ownData host config own calls)) reads ∨
        ReportsFailure (calls.write (ownData host config own calls)) reads := by
  by_cases hgid : NoGid config calls
  · refine ⟨fun _ => .inl hgid, fun _ => ⟨fun n o ho hlink => ?_, fun _ => ?_⟩⟩
    · rw [connectQp_noGid hgid] at ho
      cases ho
      exact absurd rfl hlink
    · exact ⟨0, _, connectQp_noGid hgid, hgid.2, rfl⟩
  · constructor
    · intro hstops
      by_contra! hnone
      obtain ⟨n, o, ho, _, hlink⟩ := hstops.otherwise hnone.2.1
      exact hnone.2.2 ((link_unchanged_iff hgid ho).mp hlink)
    · rintro (hno | hexchanged | hreports)
      · exact absurd hno hgid
      · exact ⟨fun _ _ _ _ => hexchanged, fun hnot => absurd hexchanged hnot⟩
      · refine ⟨fun n o ho hlink => ?_, fun _ => ?_⟩
        · exact absurd ((link_unchanged_iff hgid ho).mpr hreports) hlink
        · obtain ⟨n, s, hs⟩ := @sync_returns _ tmp _ hreports
          have hneg := (sync_neg_iff hs).mpr hreports
          refine ⟨n, ⟨1, link⟩, ?_, one_ne_zero, rfl⟩
          rw [connectQp_exchange hgid hs, if_pos hneg]

end Proceeding

def serverConfig : Config := ⟨none, none, 1, -1⟩

def resetLink : Link := ⟨⟨0, 0, 0, 0, Gid.zero.raw, Gid.zero.raw_length⟩, .reset, []⟩

/-- Everything succeeds, but no write takes more than ten bytes. -/
def shortWrite : Calls := ⟨0, .zero, fun bytes => (min bytes.length 10 : ℕ), 0, fun _ => 0⟩

/-- The peer has sent nothing, the write has put 10 of the 34 bytes on the way,
and the queue pair reaches RTS with connection data from an unset buffer. -/
theorem proceeds_on_short_write :
    ¬ Exchanged (shortWrite.write (ownData .little serverConfig ⟨4096, 1, 17, 3⟩ shortWrite))
        (fun _ => .eof) ∧
      ∃ o, connectQp .little serverConfig ⟨4096, 1, 17, 3⟩ shortWrite (fun _ => 0) resetLink
          (firstReads (fun _ => .eof) 0) [.data ['Q'.toUInt8]] = some o ∧
        o.rc = 0 ∧ o.link.qpState = .rts := by
  refine ⟨fun h => absurd h.1 (by decide), _, rfl, rfl, rfl⟩

end CppPlayground.ConnectQp
