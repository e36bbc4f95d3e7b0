import CppPlayground.ConnectionServer
import CppPlayground.Runs
import Mathlib.Data.Finset.Max

/-!
# The application's main loop

`main` of app.cpp greets the peer named on the command line and then loops:
one look at the socket, one poll of the adapter, and a counter that lets the
send happen once, in the eleventh iteration. The destination of the send comes
from `get_app_dest`, which looks up no address: it takes the first entry of
`neighbor_map`, in the order of its keys, and the end of the map when there
is none.
-/
namespace CppPlayground.App
open HostBytes HelloText Runs ConnectionServer

variable {Ah : Type}

abbrev NeighborMap (Ah : Type) := Finmap fun _ : Addr => Neighbor Ah

/-- The key at `neighbor_map.begin()`; a `std::map` keeps its keys in order. -/
def firstKey (m : NeighborMap Ah) : Option Addr :=
  match (m.keys.image UInt32.toNat).min with
  | none => none
  | some n => some (UInt32.ofNat n)

/-- The entry `get_app_dest` points to, under its key; none at the end of the map. -/
def getAppDest (m : NeighborMap Ah) : Option (Addr × Neighbor Ah) :=
  (firstKey m).bind fun a => (m.lookup a).map fun n => (a, n)

/-- A datagram that `recvfrom` takes from the socket. -/
structure Datagram (Ah : Type) where
  env : ReceiveEnv Ah
  client : Addr
  payload : List UInt8

/-- One call of `create_send_request`, with the table at that moment. -/
structure SendCall (Ah : Type) where
  neighborMap : NeighborMap Ah
  entry : Option (Addr × Neighbor Ah)

structure AppState (Ah : Type) where
  conn : ConnectionServer Ah
  initiator : Bool
  sent : Bool
  cycles : ℕ
  calls : List (SendCall Ah)

/-- `main` before its loop; the argument is the peer to greet. -/
def start (host : Endian) (localDest : Dest) : Option Addr → AppState Ah
  | none => ⟨ConnectionServer.start host localDest, false, false, 0, []⟩
  | some peer => ⟨((ConnectionServer.start host localDest).sendHello peer).1, true, false, 0, []⟩

/-- With no datagram `epoll_wait` times out. -/
def handleEvents (conn : ConnectionServer Ah) :
    Option (Datagram Ah) → Option (ConnectionServer Ah)
  | none => some conn
  | some d => (conn.serverReceiveEvent d.env d.client d.payload).map Prod.fst

/-- One iteration of the loop after `handle_events`. -/
def AppState.advance (s : AppState Ah) (conn : ConnectionServer Ah) : AppState Ah :=
  let cycles := if s.initiator ∧ s.cycles < 11 then s.cycles + 1 else s.cycles
  if s.initiator ∧ ¬ s.sent ∧ cycles > 10 then
    { s with
      conn := conn
      cycles := cycles
      sent := true
      calls := s.calls ++ [⟨conn.neighborMap, getAppDest conn.neighborMap⟩] }
  else { s with conn := conn, cycles := cycles }

def iteration (s : AppState Ah) (datagram : Option (Datagram Ah)) : Option (AppState Ah) :=
  (handleEvents s.conn datagram).map s.advance

theorem firstKey_eq_some {m : NeighborMap Ah} {a : Addr} :
    firstKey m = some a ↔ a ∈ m ∧ ∀ x ∈ m, a.toNat ≤ x.toNat := by
  unfold firstKey
  split
  next h =>
    have hempty : m.keys = ∅ := by simpa using Finset.min_eq_top.mp h
    simp only [false_iff, not_and, reduceCtorEq]
    intro ha
    simp [← Finmap.mem_keys, hempty] at ha
  next n h =>
    have hmem := Finset.mem_of_min h
    have hle := fun x hx => Finset.min_le_of_eq (b := x) hx h
    simp only [Finset.mem_image, Finmap.mem_keys] at hmem hle
    obtain ⟨b, hb, rfl⟩ := hmem
    have hleast : ∀ x ∈ m, b.toNat ≤ x.toNat := fun x hx => hle x.toNat ⟨x, hx, rfl⟩
    simp only [UInt32.ofNat_toNat, Option.some.injEq]
    constructor
    · rintro rfl
      exact ⟨hb, hleast⟩
    · rintro ⟨ha, hmin⟩
      exact UInt32.toNat_inj.mp (le_antisymm (hleast a ha) (hmin b hb))

/-- The entry taken is the peer's exactly when the peer has the least key. -/
theorem getAppDest_eq_iff {m : NeighborMap Ah} {p : Addr} :
    (∃ n, m.lookup p = some n ∧ getAppDest m = some (p, n)) ↔
      p ∈ m ∧ ∀ x ∈ m, p.toNat ≤ x.toNat := by
  rw [← firstKey_eq_some]
  constructor
  · rintro ⟨n, _, hdest⟩
    simp only [getAppDest, Option.bind_eq_some_iff, Option.map_eq_some_iff, Prod.mk.injEq] at hdest
    obtain ⟨a, ha, _, _, rfl, _⟩ := hdest
    exact ha
  · intro h
    obtain ⟨n, hn⟩ := Finmap.mem_iff.mp (firstKey_eq_some.mp h).1
    refine ⟨n, hn, ?_⟩
    simp only [getAppDest, h, Option.bind_some, hn, Option.map_some]

/-- The senders of the datagrams that were not empty. -/
def heard (ds : List (Option (Datagram Ah))) : List Addr :=
  ds.filterMap fun
    | none => none
    | some d => if d.payload = [] then none else some d.client

theorem mem_handleEvents {conn conn' : ConnectionServer Ah} {datagram : Option (Datagram Ah)}
    (h : handleEvents conn datagram = some conn') (x : Addr) :
    x ∈ conn'.neighborMap ↔ x ∈ conn.neighborMap ∨ x ∈ heard [datagram] := by
  cases datagram with
  | none =>
      simp only [handleEvents, Option.some.injEq] at h
      simp [heard, h]
  | some d =>
      simp only [handleEvents, Option.map_eq_some_iff, Prod.exists, exists_and_right,
        exists_eq_right] at h
      obtain ⟨out, hout⟩ := h
      by_cases hne : d.payload = []
      · simp only [serverReceiveEvent, hne, List.length_nil, lt_irrefl, if_false,
          Option.some.injEq, Prod.mk.injEq] at hout
        simp [heard, hne, hout.1]
      · obtain ⟨remDest, _, hadd⟩ := serverReceiveEvent_eq_some hne hout
        have hmem := mem_addNeighbor conn d.env d.client remDest (x := x)
        rw [hadd] at hmem
        rw [hmem]
        simp only [heard, List.filterMap_cons, if_neg hne, List.filterMap_nil,
          List.mem_singleton]
        exact or_comm

/-- Where the loop stands after the given iterations. -/
structure Progress (ds : List (Option (Datagram Ah))) (s : AppState Ah) : Prop where
  initiator : s.initiator = true
  cycles : s.cycles = min ds.length 11
  known : ∀ x, x ∈ s.conn.neighborMap ↔ x ∈ heard ds
  sent : s.sent = decide (11 ≤ ds.length)
  waiting : ds.length < 11 → s.calls = []
  called : 11 ≤ ds.length → ∃ m, s.calls = [⟨m, getAppDest m⟩] ∧
    ∀ x, x ∈ m ↔ x ∈ heard (ds.take 11)

theorem progress_start (host : Endian) (localDest : Dest) (peer : Addr) :
    Progress [] (start host localDest (some peer) : AppState Ah) where
  initiator := rfl
  cycles := rfl
  known x := by
    simp only [start, sendHello, ConnectionServer.start, heard, List.filterMap_nil,
      List.not_mem_nil, iff_false]
    exact Finmap.notMem_empty
  sent := rfl
  waiting _ := rfl
  called h := by simp at h

theorem heard_append (ds es : List (Option (Datagram Ah))) :
    heard (ds ++ es) = heard ds ++ heard es := List.filterMap_append

-- One pass after `handle_events` counts, sends, or does nothing more.
theorem advance_counting {s : AppState Ah} (conn : ConnectionServer Ah)
    (hinitiator : s.initiator = true) (h : s.cycles < 10) :
    s.advance conn = { s with conn := conn, cycles := s.cycles + 1 } := by
  have hcount : (if s.initiator = true ∧ s.cycles < 11 then s.cycles + 1 else s.cycles) =
      s.cycles + 1 := if_pos ⟨hinitiator, by omega⟩
  simp only [AppState.advance, hcount]
  exact if_neg (by omega)

theorem advance_sending {s : AppState Ah} (conn : ConnectionServer Ah)
    (hinitiator : s.initiator = true) (hcycles : s.cycles = 10) (hsent : s.sent = false) :
    s.advance conn = { s with
      conn := conn
      cycles := 11
      sent := true
      calls := s.calls ++ [⟨conn.neighborMap, getAppDest conn.neighborMap⟩] } := by
  simp [AppState.advance, hinitiator, hcycles, hsent]

theorem advance_sent {s : AppState Ah} (conn : ConnectionServer Ah) (hcycles : s.cycles = 11)
    (hsent : s.sent = true) : s.advance conn = { s with conn := conn } := by
  simp [AppState.advance, hcycles, hsent]

theorem progress_iteration {ds : List (Option (Datagram Ah))} {s t : AppState Ah}
    {datagram : Option (Datagram Ah)} (hs : Progress ds s) (h : iteration s datagram = some t) :
    Progress (ds ++ [datagram]) t := by
  obtain ⟨conn, hconn, rfl⟩ := Option.map_eq_some_iff.mp h
  have hknown : ∀ x, x ∈ conn.neighborMap ↔ x ∈ heard (ds ++ [datagram]) := fun x => by
    rw [mem_handleEvents hconn x, hs.known x, heard_append, List.mem_append]
  have hlen : (ds ++ [datagram]).length = ds.length + 1 := by simp
  rcases lt_trichotomy ds.length 10 with hlt | heq | hgt
  · -- counting
    have hcycles : s.cycles = ds.length := by rw [hs.cycles]; omega
    rw [advance_counting conn hs.initiator (by omega)]
    refine ⟨hs.initiator, ?_, hknown, ?_, fun _ => hs.waiting (by omega), fun h => by omega⟩
    · change s.cycles + 1 = _
      rw [hs.cycles, hlen]
      omega
    · change s.sent = _
      rw [hs.sent, hlen, decide_eq_decide]
      omega
  · -- the iteration that sends
    have hsent : s.sent = false := by rw [hs.sent, heq]; rfl
    have hcycles : s.cycles = 10 := by rw [hs.cycles]; omega
    rw [advance_sending conn hs.initiator hcycles hsent]
    refine ⟨hs.initiator, ?_, hknown, ?_, fun h => by omega, fun _ => ⟨conn.neighborMap, ?_, ?_⟩⟩
    · change 11 = _
      rw [hlen]
      omega
    · change true = _
      rw [eq_comm, decide_eq_true_eq]
      omega
    · change s.calls ++ _ = _
      rw [hs.waiting (by omega), List.nil_append]
    · rw [List.take_of_length_le (by omega)]
      exact hknown
  · -- after it nothing is sent again
    have hsent : s.sent = true := by rw [hs.sent, decide_eq_true_eq]; omega
    have hcycles : s.cycles = 11 := by rw [hs.cycles]; omega
    rw [advance_sent conn hcycles hsent]
    refine ⟨hs.initiator, ?_, hknown, ?_, fun h => by omega, fun _ => ?_⟩
    · change s.cycles = _
      rw [hcycles, hlen]
      omega
    · change s.sent = _
      rw [hsent, eq_comm, decide_eq_true_eq]
      omega
    · rw [List.take_append_of_le_length (by omega)]
      exact hs.called (by omega)

/-- Hellos keep the loop going, in any number and order. -/
theorem run_hellos {ds : List (Option (Datagram Ah))}
    (h : ∀ d, some d ∈ ds → ∃ e dest, d.payload = helloPayload e dest) (s : AppState Ah) :
    ∃ t, run iteration s ds = some t := by
  induction ds generalizing s with
  | nil => exact ⟨s, rfl⟩
  | cons datagram ds ih =>
      have hnext : ∃ t, iteration s datagram = some t := by
        cases datagram with
        | none => exact ⟨_, rfl⟩
        | some d =>
            obtain ⟨e, dest, hpayload⟩ := h d (by simp)
            obtain ⟨remDest, hreceive⟩ := serverReceiveEvent_hello s.conn d.env d.client e dest
            refine ⟨s.advance (s.conn.addNeighbor d.env d.client remDest).1, ?_⟩
            simp only [iteration, handleEvents, hpayload, hreceive, Option.map_some]
      obtain ⟨t, ht⟩ := hnext
      obtain ⟨u, hu⟩ := ih (fun d hd => h d (by simp [hd])) t
      exact ⟨u, run_cons ht hu⟩

/-- There is at most one send. It goes to the greeted peer's entry exactly when
that peer was heard in the first eleven iterations and no smaller address was. -/
theorem sends_to_greeted_iff {host : Endian} {localDest : Dest} {peer : Addr}
    {ds : List (Option (Datagram Ah))} {s : AppState Ah}
    (h : run iteration (start host localDest (some peer)) ds = some s) :
    s.calls.length ≤ 1 ∧
      ((∀ c ∈ s.calls, ∃ n, c.neighborMap.lookup peer = some n ∧ c.entry = some (peer, n)) ↔
        (11 ≤ ds.length → peer ∈ heard (ds.take 11) ∧
          ∀ x ∈ heard (ds.take 11), peer.toNat ≤ x.toNat)) := by
  have hs : Progress ds s := history_invariant (progress_start host localDest peer)
    (fun _ hI hstep => progress_iteration hI hstep) h
  rcases lt_or_ge ds.length 11 with hlt | hge
  · rw [hs.waiting hlt]
    simp [Nat.not_le.mpr hlt]
  · obtain ⟨m, hcalls, hm⟩ := hs.called hge
    rw [hcalls]
    simp only [List.length_singleton, le_refl, true_and, List.mem_singleton, forall_eq, hge,
      true_implies, getAppDest_eq_iff, hm]

/-- A hello from an address, for the runs below. -/
def greeting (client : Addr) : Option (Datagram Unit) :=
  some ⟨⟨⟨fun _ => 0, fun _ => 0, 0⟩, 0, fun _ => some ()⟩, client,
    helloPayload .little ⟨1, 2, 3, ⟨List.replicate 16 0, rfl⟩⟩⟩

theorem heard_greeting (client : Addr) : heard [greeting client] = [client] := by
  simp [heard, greeting, helloPayload_ne_nil]

theorem run_greetings (s : AppState Unit) (clients : List Addr) (idle : ℕ) :
    ∃ t, run iteration s (clients.map greeting ++ List.replicate idle none) = some t := by
  apply run_hellos
  intro d hd
  simp only [List.mem_append, List.mem_map, List.mem_replicate, reduceCtorEq, and_false,
    or_false] at hd
  obtain ⟨client, _, hgreeting⟩ := hd
  simp only [greeting, Option.some.injEq] at hgreeting
  subst hgreeting
  exact ⟨_, _, rfl⟩

theorem heard_greetings (clients : List Addr) (idle : ℕ) :
    heard (clients.map greeting ++ List.replicate idle none) = clients := by
  have hidle : heard (List.replicate idle (none : Option (Datagram Unit))) = [] := by
    induction idle with
    | zero => rfl
    | succ n ih => exact ih
  rw [heard_append, hidle, List.append_nil]
  induction clients with
  | nil => rfl
  | cons c cs ih =>
      have hcons := heard_append [greeting c] (cs.map greeting)
      rw [List.map_cons, ← List.singleton_append, hcons, heard_greeting, ih, List.singleton_append]

theorem sends_to_greeted_after_hello :
    ∃ s, run iteration (start .little ⟨9, 9, 9, ⟨List.replicate 16 0, rfl⟩⟩ (some 5))
        ([5, 7].map greeting ++ List.replicate 9 none) = some s ∧
      ∀ c ∈ s.calls, ∃ n, c.neighborMap.lookup 5 = some n ∧ c.entry = some (5, n) := by
  obtain ⟨s, hs⟩ := run_greetings
    (start .little ⟨9, 9, 9, ⟨List.replicate 16 0, rfl⟩⟩ (some 5)) [5, 7] 9
  refine ⟨s, hs, (sends_to_greeted_iff hs).2.mpr fun _ => ?_⟩
  rw [List.take_of_length_le (by simp), heard_greetings]
  constructor
  · simp
  · intro x hx
    simp only [List.mem_cons, List.not_mem_nil, or_false] at hx
    rcases hx with rfl | rfl <;> decide

/-- When a hello of a smaller address has arrived, that address gets the message. -/
theorem sends_to_stranger :
    ∃ s, run iteration (start .little ⟨9, 9, 9, ⟨List.replicate 16 0, rfl⟩⟩ (some 5))
        ([5, 3].map greeting ++ List.replicate 9 none) = some s ∧
      ∃ c ∈ s.calls, ∃ n, c.entry = some (3, n) := by
  obtain ⟨s, hs⟩ := run_greetings
    (start .little ⟨9, 9, 9, ⟨List.replicate 16 0, rfl⟩⟩ (some 5)) [5, 3] 9
  have hprogress := history_invariant (progress_start .little _ 5)
    (fun _ hI hstep => progress_iteration hI hstep) hs
  obtain ⟨m, hcalls, hm⟩ := hprogress.called (by simp)
  rw [List.take_of_length_le (by simp), heard_greetings] at hm
  have hleast : (3 : Addr) ∈ m ∧ ∀ x ∈ m, (3 : Addr).toNat ≤ x.toNat := by
    constructor
    · simp [hm]
    · intro x hx
      simp only [hm, List.mem_cons, List.not_mem_nil, or_false] at hx
      rcases hx with rfl | rfl <;> decide
  obtain ⟨n, _, hentry⟩ := getAppDest_eq_iff.mpr hleast
  refine ⟨s, hs, ⟨m, getAppDest m⟩, ?_, n, hentry⟩
  rw [hcalls]
  exact List.mem_singleton_self _

end CppPlayground.App
