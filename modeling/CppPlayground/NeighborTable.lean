import CppPlayground.ConnectionServer
import CppPlayground.HelloForm
import CppPlayground.Runs

/-!
# What one server keeps of the datagrams it receives

`server_receive_event` checks the length of a datagram and nothing else: every
datagram that is not empty goes through the decoder into `add_neighbor`, which
keeps the destination of the first one and the time of the last one for each
address. The table is compared with an account of the hellos received since
the start, address by address.
-/
namespace CppPlayground.ConnectionServer
open HostBytes HelloText ScanText Runs

variable {Ah : Type}

/-- The entry after a datagram, given the one before it. -/
def recorded (env : ReceiveEnv Ah) (remDest : Dest) : Option (Neighbor Ah) → Neighbor Ah
  | none => ⟨remDest, env.createAh (ahAttr remDest), env.now⟩
  | some n => { n with lastHello := env.now }

theorem addNeighbor_lookup (s : ConnectionServer Ah) (env : ReceiveEnv Ah) (client : Addr)
    (remDest : Dest) : (s.addNeighbor env client remDest).1.neighborMap.lookup client =
      some (recorded env remDest (s.neighborMap.lookup client)) := by
  unfold addNeighbor
  split
  next h => simp only [checkSendingHello_neighborMap, Finmap.lookup_insert, h, recorded]
  next n h => simp only [checkSendingHello_neighborMap, Finmap.lookup_insert, h, recorded]

theorem getDest_recvbuf (e : Endian) (scratch : Scratch) (payload : List UInt8) :
    getDest e scratch (recvbuf payload) = getDest e scratch payload := by
  simp only [getDest, cString_recvbuf]

/-- An empty datagram changes nothing. Any other one that the decoder survives
is accepted, and what it showed is kept exactly where it has the form. -/
theorem datagram_accepted {s t : ConnectionServer Ah} {env : ReceiveEnv Ah} {client : Addr}
    {payload : List UInt8} {out : List Sendto}
    (h : s.serverReceiveEvent env client payload = some (t, out)) :
    (payload = [] → t = s ∧ out = []) ∧
      (payload ≠ [] → ∃ remDest,
        getDest s.host (clearDest env.scratch) (recvbuf payload) = some remDest ∧
        (∀ d, HelloForm (cString payload) d → remDest.qpn = d.qpn ∧ remDest.psn = d.psn ∧
          remDest.gid = d.gid ∧ (s.host = .little → remDest.lid = d.lid)) ∧
        t.neighborMap.lookup client =
          some (recorded env remDest (s.neighborMap.lookup client)) ∧
        (∀ x ≠ client, t.neighborMap.lookup x = s.neighborMap.lookup x) ∧
        t.pendingHello = (if client ∈ s.pendingHello then s.pendingHello.erase client
          else insert client s.pendingHello) ∧
        out = if client ∈ s.pendingHello then [] else [s.sendHelloAddr client]) := by
  constructor
  · rintro rfl
    simp only [serverReceiveEvent, List.length_nil, lt_irrefl, if_false, Option.some.injEq,
      Prod.mk.injEq] at h
    exact ⟨h.1.symm, h.2.symm⟩
  · intro hne
    obtain ⟨remDest, hdest, hadd⟩ := serverReceiveEvent_eq_some hne h
    have ht : t = (s.addNeighbor env client remDest).1 := by rw [hadd]
    have hout : out = (s.addNeighbor env client remDest).2 := by rw [hadd]
    refine ⟨remDest, hdest, ?_, ?_, ?_, ?_, ?_⟩
    · intro d hd
      rw [getDest_recvbuf, hd.getDest_eq, Option.some.injEq] at hdest
      subst hdest
      cases hs : s.host <;> simp [Dest.storedOn]
    · rw [ht, addNeighbor_lookup]
    · intro x hx
      rw [ht, addNeighbor_lookup_ne s env client remDest hx]
    · rw [ht, addNeighbor_pendingHello]
    · rw [hout, addNeighbor_sent]

/-- An environment for the examples. -/
def quietEnv (now : ℤ) : ReceiveEnv Unit := ⟨⟨fun _ => 0, fun _ => 0, 0⟩, now, fun _ => some ()⟩

theorem zeroGid_length : (List.replicate 16 (0 : UInt8)).length = 16 := List.length_replicate

def zeroGid : Gid := ⟨List.replicate 16 0, zeroGid_length⟩

/-- The lid field is one digit too long for `lid`. -/
def wideLid : List UInt8 := textBytes "10001:000002:000003:00000000000000000000000000000000"

theorem wideLid_decoded :
    getDest .little (clearDest (quietEnv 5).scratch) wideLid = some ⟨1, 2, 3, zeroGid⟩ := by
  decide +kernel

theorem wideLid_received : (start .little ⟨9, 9, 9, zeroGid⟩).serverReceiveEvent (quietEnv 5) 7 wideLid =
    some ((start .little ⟨9, 9, 9, zeroGid⟩).addNeighbor (quietEnv 5) 7 ⟨1, 2, 3, zeroGid⟩) := by
  have hpos : wideLid.length > 0 := by decide
  rw [serverReceiveEvent, if_pos hpos, getDest_recvbuf]
  change (getDest .little (clearDest (quietEnv 5).scratch) wideLid).map _ = _
  rw [wideLid_decoded, Option.map_some]

theorem wideLid_no_form (d : Dest) : ¬ HelloForm (cString wideLid) d := by
  intro h
  obtain ⟨word, _, _, _, hscan⟩ := h.scanHello_eq
  have hlid : (scanHello (cString wideLid)).lid = some 65537 := by decide +kernel
  rw [hscan, Option.some.injEq] at hlid
  have hval := congrArg UInt32.toNat hlid
  have hlt : d.lid.toNat < 65536 := d.lid.toNat_lt
  simp at hval
  omega

theorem datagram_accepted_wide_lid :
    ∃ remDest, ((start .little ⟨9, 9, 9, zeroGid⟩).addNeighbor (quietEnv 5) 7
      ⟨1, 2, 3, zeroGid⟩).1.neighborMap.lookup 7 = some (recorded (quietEnv 5) remDest none) := by
  have hne : wideLid ≠ [] := by decide
  obtain ⟨remDest, _, _, hlookup, _⟩ := (datagram_accepted wideLid_received).2 hne
  exact ⟨remDest, hlookup⟩

/-- A text without the form makes an entry and a mark, and is answered. -/
theorem wide_lid_is_accepted : (∀ d, ¬ HelloForm (cString wideLid) d) ∧
    ∃ t, (start .little ⟨9, 9, 9, zeroGid⟩).serverReceiveEvent (quietEnv 5) 7 wideLid =
        some (t, [⟨7, helloPayload .little ⟨9, 9, 9, zeroGid⟩⟩]) ∧
      7 ∈ t.neighborMap ∧ 7 ∈ t.pendingHello := by
  refine ⟨wideLid_no_form, ((start .little ⟨9, 9, 9, zeroGid⟩).addNeighbor (quietEnv 5) 7
    ⟨1, 2, 3, zeroGid⟩).1, wideLid_received.trans ?_, ?_, ?_⟩
  · exact congrArg some (Prod.ext rfl (addNeighbor_sent _ _ _ _))
  · exact (mem_addNeighbor _ _ _ _).mpr (.inl rfl)
  · rw [addNeighbor_pendingHello]
    exact Finset.mem_insert_self 7 ∅

/-- A well-formed hello, with what the receiving step finds around it. -/
structure Hello (Ah : Type) where
  env : ReceiveEnv Ah
  payload : List UInt8
  dest : Dest
  form : HelloForm (cString payload) dest

inductive Event (Ah : Type) where
  | receive (client : Addr) (hello : Hello Ah)
  | sendHello (dest : Addr)

def step (s : ConnectionServer Ah) : Event Ah → Option (ConnectionServer Ah)
  | .receive client hello => (s.serverReceiveEvent hello.env client hello.payload).map Prod.fst
  | .sendHello dest => some (s.sendHello dest).1

/-- The hellos of one address, first one first. -/
def hellosFrom (x : Addr) (es : List (Event Ah)) : List (Hello Ah) :=
  es.filterMap fun
    | .receive client hello => if client = x then some hello else none
    | .sendHello _ => none

/-- The entry these hellos leave: destination and handle of the first, time of the last. -/
def entryOf (host : Endian) : List (Hello Ah) → Option (Neighbor Ah)
  | [] => none
  | hello::hellos => some ⟨hello.dest.storedOn host,
      hello.env.createAh (ahAttr (hello.dest.storedOn host)), (hellos.getLastD hello).env.now⟩

theorem entryOf_snoc (host : Endian) (hellos : List (Hello Ah)) (hello : Hello Ah) :
    entryOf host (hellos ++ [hello]) =
      some (recorded hello.env (hello.dest.storedOn host) (entryOf host hellos)) := by
  cases hellos with
  | nil => rfl
  | cons h hs => simp [entryOf, recorded]

theorem Hello.payload_ne_nil (hello : Hello Ah) : hello.payload ≠ [] := by
  intro hnil
  have hform := hello.form
  obtain ⟨f₁, f₂, f₃, word, htext, _⟩ := hform.parts
  simp [hnil, cString] at htext

/-- A well-formed hello is always decoded, whatever the memory held. -/
theorem step_receive (s : ConnectionServer Ah) (client : Addr) (hello : Hello Ah) :
    s.step (.receive client hello) =
      some (s.addNeighbor hello.env client (hello.dest.storedOn s.host)).1 := by
  have hpos := List.length_pos_of_ne_nil hello.payload_ne_nil
  simp only [step, serverReceiveEvent, if_pos hpos, getDest_recvbuf, hello.form.getDest_eq,
    Option.map_some]

/-- In every reachable state the table holds, for each address, the
destination and handle of its first hello and the time of its last. -/
theorem neighbor_first_hello {host : Endian} {localDest : Dest} {s : ConnectionServer Ah}
    {es : List (Event Ah)} (h : run step (start host localDest) es = some s) (x : Addr) :
    s.neighborMap.lookup x = entryOf host (hellosFrom x es) := by
  have hinv : s.host = host ∧ ∀ x, s.neighborMap.lookup x = entryOf host (hellosFrom x es) := by
    refine history_invariant
      (I := fun es s => s.host = host ∧ ∀ x, s.neighborMap.lookup x = entryOf host (hellosFrom x es))
      ⟨rfl, fun x => Finmap.lookup_empty x⟩ ?_ h
    intro es t e u _ hI hstep
    cases e with
    | receive client hello =>
        rw [step_receive, hI.1, Option.some.injEq] at hstep
        subst hstep
        refine ⟨by rw [addNeighbor_host, hI.1], ?_⟩
        intro x
        by_cases hx : x = client
        · subst hx
          have hfrom : hellosFrom x (es ++ [.receive x hello]) = hellosFrom x es ++ [hello] := by
            simp [hellosFrom]
          rw [addNeighbor_lookup, hI.2 x, hfrom, entryOf_snoc]
        · have hfrom : hellosFrom x (es ++ [.receive client hello]) = hellosFrom x es := by
            simp [hellosFrom, Ne.symm hx]
          rw [addNeighbor_lookup_ne _ _ _ _ hx, hI.2 x, hfrom]
    | sendHello dest =>
        simp only [step, Option.some.injEq] at hstep
        subst hstep
        refine ⟨hI.1, fun x => ?_⟩
        have hfrom : hellosFrom x (es ++ [.sendHello dest]) = hellosFrom x es := by
          simp [hellosFrom]
        rw [hfrom]
        exact hI.2 x
  exact hinv.2 x

def helloOf (now : ℤ) (dest : Dest) : Hello Unit where
  env := quietEnv now
  payload := getHelloMsg .little dest ++ [0]
  dest := dest
  form := by
    rw [cString_msg]
    exact helloForm_getHelloMsg .little dest

/-- Two hellos of one peer, which restarts between them with a new queue pair. -/
def restartedPeer : List (Event Unit) :=
  [.receive 7 (helloOf 1 ⟨1, 2, 3, zeroGid⟩), .receive 7 (helloOf 2 ⟨1, 8, 9, zeroGid⟩)]

theorem restartedPeer_run : ∃ s, run step (start .little ⟨9, 9, 9, zeroGid⟩) restartedPeer = some s ∧
    s.neighborMap.lookup 7 = some ⟨⟨1, 2, 3, zeroGid⟩, some (), 2⟩ := by
  refine ⟨_, run_cons (step_receive _ _ _) (run_cons (step_receive _ _ _) rfl), ?_⟩
  rw [addNeighbor_lookup, addNeighbor_lookup]
  rfl

theorem neighbor_first_hello_restarted :
    ∃ s, run step (start .little ⟨9, 9, 9, zeroGid⟩) restartedPeer = some s ∧
      s.neighborMap.lookup 7 = entryOf .little (hellosFrom 7 restartedPeer) := by
  obtain ⟨s, hs, _⟩ := restartedPeer_run
  exact ⟨s, hs, neighbor_first_hello hs 7⟩

/-- After them the stored destination is not the one the last hello carried. -/
theorem restarted_peer_is_stale :
    ∃ s n, run step (start .little ⟨9, 9, 9, zeroGid⟩) restartedPeer = some s ∧
      s.neighborMap.lookup 7 = some n ∧
      ((hellosFrom 7 restartedPeer).getLast?.map Hello.dest) ≠ some n.dest := by
  obtain ⟨s, hs, hn⟩ := restartedPeer_run
  refine ⟨s, _, hs, hn, ?_⟩
  decide

end CppPlayground.ConnectionServer
