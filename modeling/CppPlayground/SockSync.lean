import CppPlayground.Framing
import CppPlayground.HostBytes
import CppPlayground.Runs

/-!
# Exchanging records over a TCP connection

`sock_sync_data` of rdma1.cpp writes a record and reads the peer's record of
the same size. Its loop counts the bytes it has read, but each of its reads
asks for the whole size and stores at the start of `remote_data`.

Two parties make the same sequence of such calls. A call begins with its
write, which is complete; its reads take whatever number of bytes the stream
gives; it returns when the loop ends. Between these the parties interleave
freely.
-/
namespace CppPlayground.SockSync
open HostBytes Framing Runs

/-- The result of `read`; `data` holds at least one byte. -/
inductive ReadResult where
  | data (bytes : List UInt8)
  | eof
  | error

/-- The variables of `sock_sync_data`, with the memory at `remote_data`. -/
structure SyncCall where
  rc : ℤ
  totalReadBytes : ℕ
  remoteData : Memory

/-- The state after the write, which returned `written`. -/
def SyncCall.begin (xferSize : ℕ) (written : ℤ) (remoteData : Memory) : SyncCall :=
  ⟨if written < xferSize then written else 0, 0, remoteData⟩

def SyncCall.Looping (s : SyncCall) (xferSize : ℕ) : Prop :=
  s.rc = 0 ∧ s.totalReadBytes < xferSize

instance (s : SyncCall) (xferSize : ℕ) : Decidable (s.Looping xferSize) :=
  inferInstanceAs (Decidable (_ ∧ _))

/-- One pass of the loop. -/
def SyncCall.read (s : SyncCall) : ReadResult → SyncCall
  | .data bytes =>
      ⟨s.rc, s.totalReadBytes + bytes.length, HostBytes.store s.remoteData 0 bytes⟩
  | .eof => { s with rc := 0 }
  | .error => { s with rc := -1 }

/-- The loop with the results of its reads; with too few of them it waits. -/
def SyncCall.loop (xferSize : ℕ) (s : SyncCall) : List ReadResult → Option SyncCall
  | [] => if s.Looping xferSize then none else some s
  | r::reads => if s.Looping xferSize then (s.read r).loop xferSize reads else some s

def sockSyncData (xferSize : ℕ) (written : ℤ) (remoteData : Memory) (reads : List ReadResult) :
    Option SyncCall := (SyncCall.begin xferSize written remoteData).loop xferSize reads

inductive Side where
  | client
  | server
  deriving DecidableEq

def Side.peer : Side → Side
  | .client => .server
  | .server => .client

/-- What the parties exchange: the `k`-th calls have the same size on both
sides, and each side has a record of that size and a `remote_data` for them.
The count of a call may come close to twice its size, and is an `int`. -/
structure Session where
  size : ℕ → ℕ
  record : Side → ℕ → List UInt8
  remoteData : Side → ℕ → Memory
  size_le : ∀ k, size k ≤ 2 ^ 30
  record_length : ∀ p k, (record p k).length = size k

/-- A finished call: its result and the stretch of the stream it consumed. -/
structure Return where
  rc : ℤ
  remoteData : Memory
  start : ℕ
  stop : ℕ

structure Party where
  call : Option SyncCall
  start : ℕ
  written : ℕ
  consumed : ℕ
  returns : List Return

inductive Event where
  | call (p : Side)
  | read (p : Side) (count : ℕ)
  | ret (p : Side)

abbrev State := Side → Party

def State.start : State := fun _ => ⟨none, 0, 0, 0, []⟩

/-- What the peer has written so far. -/
def Session.incoming (session : Session) (st : State) (p : Side) : List UInt8 :=
  stream (session.record p.peer) (st p.peer).written

/-- The write of a call puts the whole record into the stream. -/
def Party.begin (party : Party) (session : Session) (p : Side) : Party :=
  { party with
    call := some (.begin (session.size party.returns.length) (session.size party.returns.length)
      (session.remoteData p party.returns.length))
    start := party.consumed
    written := party.written + 1 }

def Party.read (party : Party) (s : SyncCall) (incoming : List UInt8) (count : ℕ) : Party :=
  { party with
    call := some (s.read (.data ((incoming.drop party.consumed).take count)))
    consumed := party.consumed + count }

def Party.finish (party : Party) (s : SyncCall) : Party :=
  { party with
    call := none
    returns := party.returns ++ [⟨s.rc, s.remoteData, party.start, party.consumed⟩] }

def step (session : Session) (st : State) : Event → Option State
  | .call p =>
      match (st p).call with
      | none => some (Function.update st p ((st p).begin session p))
      | some _ => none
  | .read p count =>
      match (st p).call with
      | some s =>
          if s.Looping (session.size (st p).returns.length) ∧ 1 ≤ count ∧
              count ≤ session.size (st p).returns.length ∧
              (st p).consumed + count ≤ (session.incoming st p).length then
            some (Function.update st p ((st p).read s (session.incoming st p) count))
          else none
      | none => none
  | .ret p =>
      match (st p).call with
      | some s =>
          if s.Looping (session.size (st p).returns.length) then none
          else some (Function.update st p ((st p).finish s))
      | none => none

section StepForms
variable {session : Session} {st st' : State} {p : Side}

theorem step_call (h : step session st (.call p) = some st') :
    (st p).call = none ∧ st' = Function.update st p ((st p).begin session p) := by
  simp only [step] at h
  split at h
  next hc => exact ⟨hc, (Option.some.inj h).symm⟩
  next => cases h

theorem step_read {count : ℕ} (h : step session st (.read p count) = some st') :
    ∃ s, (st p).call = some s ∧ s.Looping (session.size (st p).returns.length) ∧ 1 ≤ count ∧
      count ≤ session.size (st p).returns.length ∧
      (st p).consumed + count ≤ (session.incoming st p).length ∧
      st' = Function.update st p ((st p).read s (session.incoming st p) count) := by
  simp only [step] at h
  split at h
  next s hs =>
    split_ifs at h with hc
    exact ⟨s, hs, hc.1, hc.2.1, hc.2.2.1, hc.2.2.2, (Option.some.inj h).symm⟩
  next => cases h

theorem step_ret (h : step session st (.ret p) = some st') :
    ∃ s, (st p).call = some s ∧ ¬ s.Looping (session.size (st p).returns.length) ∧
      st' = Function.update st p ((st p).finish s) := by
  simp only [step] at h
  split at h
  next s hs =>
    split_ifs at h with hc
    exact ⟨s, hs, hc, (Option.some.inj h).symm⟩
  next => cases h

/-- The count of every call in progress is in the range of `int`. -/
def CountsFit (st : State) : Prop :=
  ∀ p s, (st p).call = some s → s.totalReadBytes < 2 ^ 31

theorem CountsFit.update (h : CountsFit st) {party : Party}
    (hp : ∀ s, party.call = some s → s.totalReadBytes < 2 ^ 31) :
    CountsFit (Function.update st p party) :=
  (Function.forall_update_iff st fun _ party => ∀ s, party.call = some s →
    s.totalReadBytes < 2 ^ 31).mpr ⟨hp, fun q _ => h q⟩

theorem CountsFit.preserved {e : Event} (h : CountsFit st) (hs : step session st e = some st') :
    CountsFit st' := by
  cases e with
  | call p =>
      obtain ⟨_, rfl⟩ := step_call hs
      refine h.update fun s hcall => ?_
      obtain rfl := Option.some.inj hcall
      exact Nat.two_pow_pos 31
  | read p count =>
      obtain ⟨s, _, hlooping, _, hcount, _, rfl⟩ := step_read hs
      refine h.update fun t hcall => ?_
      obtain rfl := Option.some.inj hcall
      have hlen := List.length_take_le count ((session.incoming st p).drop (st p).consumed)
      have hsize := session.size_le (st p).returns.length
      have hbelow := hlooping.2
      simp only [SyncCall.read]
      omega
  | ret p =>
      obtain ⟨s, _, _, rfl⟩ := step_ret hs
      exact h.update fun t hcall => by cases hcall

/-- In no run does a count overflow. -/
theorem counts_fit {es : List Event} (hrun : run (step session) .start es = some st) :
    CountsFit st :=
  invariant (fun h hs => h.preserved hs) (fun _ _ hs => by cases hs) hrun

end StepForms

/-- The fields of `cm_con_data_t`, in host order. -/
@[ext] structure CmConData where
  addr : UInt64
  rkey : UInt32
  qpNum : UInt32
  lid : UInt16
  gid : List UInt8
  gid_length : gid.length = 16

/-- The bytes of `local_con_data` in `connect_qp`; the struct is packed. -/
def localConData (e : Endian) (d : CmConData) : List UInt8 :=
  toBytes e 8 (hostToBig e 8 d.addr.toNat) ++ (toBytes e 4 (hostToBig e 4 d.rkey.toNat) ++
    (toBytes e 4 (hostToBig e 4 d.qpNum.toNat) ++
      (toBytes e 2 (hostToBig e 2 d.lid.toNat) ++ d.gid)))

/-- `remote_con_data` in `connect_qp`, from `tmp_con_data`. -/
def remoteConData (e : Endian) (tmp : Memory) : CmConData where
  addr := UInt64.ofNat (hostToBig e 8 (ofBytes e (load tmp 0 8)))
  rkey := UInt32.ofNat (hostToBig e 4 (ofBytes e (load tmp 8 4)))
  qpNum := UInt32.ofNat (hostToBig e 4 (ofBytes e (load tmp 12 4)))
  lid := UInt16.ofNat (hostToBig e 2 (ofBytes e (load tmp 16 2)))
  gid := load tmp 18 16
  gid_length := load_length _ _ _

/-- `sizeof(struct cm_con_data_t)` -/
def cmConDataSize : ℕ := 34

theorem localConData_length (e : Endian) (d : CmConData) :
    (localConData e d).length = cmConDataSize := by
  simp [localConData, d.gid_length, cmConDataSize]

/-- The program's calls: the connection data, then the bytes Q, R and W. -/
def programSession (host : Side → Endian) (data : Side → CmConData)
    (remoteData : Side → ℕ → Memory) : Session where
  size k := if k = 0 then cmConDataSize else 1
  record p k :=
    if k = 0 then localConData (host p) (data p)
    else [if k = 1 then 'Q'.toUInt8 else if k = 2 then 'R'.toUInt8 else 'W'.toUInt8]
  remoteData := remoteData
  size_le k := by
    unfold cmConDataSize
    split_ifs <;> norm_num
  record_length p k := by
    by_cases hk : k = 0
    · rw [if_pos hk, if_pos hk]
      exact localConData_length _ _
    · rw [if_neg hk, if_neg hk]
      rfl

end CppPlayground.SockSync
