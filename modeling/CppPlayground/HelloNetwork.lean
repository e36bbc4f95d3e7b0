import CppPlayground.ConnectionServer
import CppPlayground.Handshake

/-!
# Connection servers exchanging hellos

The servers of a finite set of addresses and the datagrams on their way
between them. A user may call `send_hello` at a node, a datagram in flight may
be delivered or lost, and a node may restart with a destination of its own
choosing. Delivery runs `server_receive_event` of the addressed node; what that
call sends is put in flight at once.

Seen without the contents of datagrams and entries, the network is the toggled
handshake: the refinement below carries its results over.
-/
namespace CppPlayground.HelloNetwork
open HostBytes HelloText Runs

structure Datagram where
  src : Addr
  dst : Addr
  payload : List UInt8
  deriving DecidableEq

structure Network (Ah : Type) where
  server : Addr → ConnectionServer Ah
  inFlight : Multiset Datagram

inductive Event (Ah : Type) where
  | sendHello (node peer : Addr)
  | deliver (d : Datagram) (env : ReceiveEnv Ah)
  | lose (d : Datagram)
  | restart (node : Addr) (localDest : Dest)

variable {Ah : Type}

/-- The datagrams of a node's `sendto` calls. -/
def sentFrom (node : Addr) (out : List Sendto) : List Datagram :=
  out.map fun o => ⟨node, o.dest, o.payload⟩

/-- A call at a node returned; its datagrams join those in flight. -/
def Network.act (net : Network Ah) (node : Addr) (r : ConnectionServer Ah × List Sendto) :
    Network Ah :=
  ⟨Function.update net.server node r.1, (sentFrom node r.2 : Multiset Datagram) + net.inFlight⟩

def Network.take (net : Network Ah) (d : Datagram) : Network Ah :=
  { net with inFlight := net.inFlight.erase d }

/-- The node comes back without entries and marks; the others keep theirs. -/
def Network.restart (net : Network Ah) (node : Addr) (localDest : Dest) : Network Ah :=
  ⟨Function.update net.server node (.start (net.server node).host localDest), net.inFlight⟩

def step (nodes : Finset Addr) (net : Network Ah) : Event Ah → Option (Network Ah)
  | .sendHello node peer =>
      if node ∈ nodes ∧ peer ∈ nodes then some (net.act node ((net.server node).sendHello peer))
      else none
  | .deliver d env =>
      if d ∈ net.inFlight then
        ((net.server d.dst).serverReceiveEvent env d.src d.payload).map ((net.take d).act d.dst)
      else none
  | .lose d => if d ∈ net.inFlight then some (net.take d) else none
  | .restart node localDest => some (net.restart node localDest)

/-- Freshly started nodes and no datagram. -/
def fresh (host : Addr → Endian) (localDest : Addr → Dest) : Network Ah :=
  ⟨fun a => .start (host a) (localDest a), 0⟩

section StepForms
variable {nodes : Finset Addr} {net net' : Network Ah}

theorem step_sendHello {node peer : Addr} (h : step nodes net (.sendHello node peer) = some net') :
    node ∈ nodes ∧ peer ∈ nodes ∧ net' = net.act node ((net.server node).sendHello peer) := by
  simp only [step] at h
  split_ifs at h with hn
  exact ⟨hn.1, hn.2, (Option.some.inj h).symm⟩

theorem mem_of_deliver {d : Datagram} {env : ReceiveEnv Ah}
    (h : step nodes net (.deliver d env) = some net') : d ∈ net.inFlight := by
  simp only [step] at h
  split_ifs at h with hd
  exact hd

theorem step_deliver {d : Datagram} {env : ReceiveEnv Ah} (hne : d.payload ≠ [])
    (h : step nodes net (.deliver d env) = some net') :
    d ∈ net.inFlight ∧ ∃ remDest,
      getDest (net.server d.dst).host (ConnectionServer.clearDest env.scratch) (recvbuf d.payload) =
        some remDest ∧
      net' = (net.take d).act d.dst ((net.server d.dst).addNeighbor env d.src remDest) := by
  simp only [step] at h
  split_ifs at h with hd
  obtain ⟨⟨t, out⟩, hr, hnet⟩ := Option.map_eq_some_iff.mp h
  obtain ⟨remDest, hdec, hadd⟩ := ConnectionServer.serverReceiveEvent_eq_some hne hr
  exact ⟨hd, remDest, hdec, by rw [hadd, hnet]⟩

theorem step_lose {d : Datagram} (h : step nodes net (.lose d) = some net') :
    d ∈ net.inFlight ∧ net' = net.take d := by
  simp only [step] at h
  split_ifs at h with hd
  exact ⟨hd, (Option.some.inj h).symm⟩

theorem step_restart {node : Addr} {localDest : Dest}
    (h : step nodes net (.restart node localDest) = some net') :
    net' = net.restart node localDest := (Option.some.inj h).symm

end StepForms

def Datagram.ends (d : Datagram) : Addr × Addr := (d.src, d.dst)

/-- Entries, pending marks and the end points of what is in flight. -/
def handshake (net : Network Ah) : Handshake.State Addr where
  knows := {p | p.2 ∈ (net.server p.1).neighborMap}
  marked := {p | p.2 ∈ (net.server p.1).pendingHello}
  flight := net.inFlight.map Datagram.ends

def Event.act : Event Ah → Handshake.Act Addr
  | .sendHello node peer => .greet node peer
  | .deliver d _ => .arrive d.src d.dst
  | .lose d => .lose d.src d.dst
  | .restart node _ => .restart node

/-- Everything in flight is a hello of some destination, between nodes. -/
def HellosAmong (nodes : Finset Addr) (net : Network Ah) : Prop :=
  ∀ d ∈ net.inFlight, d.src ∈ nodes ∧ d.dst ∈ nodes ∧ ∃ e dest, d.payload = helloPayload e dest

theorem HellosAmong.ne_nil {nodes : Finset Addr} {net : Network Ah} (h : HellosAmong nodes net)
    {d : Datagram} (hd : d ∈ net.inFlight) : d.payload ≠ [] := by
  obtain ⟨_, _, e, dest, hp⟩ := h d hd
  exact hp ▸ helloPayload_ne_nil e dest

theorem HellosAmong.within {nodes : Finset Addr} {net : Network Ah} (h : HellosAmong nodes net) :
    Handshake.Within nodes (handshake net) := by
  intro p hp
  obtain ⟨d, hd, rfl⟩ := Multiset.mem_map.mp hp
  exact ⟨(h d hd).1, (h d hd).2.1⟩

theorem HellosAmong.take {nodes : Finset Addr} {net : Network Ah} (h : HellosAmong nodes net)
    (d : Datagram) : HellosAmong nodes (net.take d) :=
  fun x hx => h x (Multiset.mem_of_mem_erase hx)

/-- A call that sends only the node's own hello to nodes keeps the datagrams hellos. -/
theorem HellosAmong.act {nodes : Finset Addr} {net : Network Ah} (h : HellosAmong nodes net)
    {node : Addr} (hnode : node ∈ nodes) {r : ConnectionServer Ah × List Sendto}
    (hr : ∀ o ∈ r.2, o.dest ∈ nodes ∧ ∃ e dest, o.payload = helloPayload e dest) :
    HellosAmong nodes (net.act node r) := by
  intro d hd
  rcases Multiset.mem_add.mp hd with hd | hd
  · obtain ⟨o, ho, rfl⟩ := List.mem_map.mp (Multiset.mem_coe.mp hd)
    exact ⟨hnode, hr o ho⟩
  · exact h d hd

theorem addNeighbor_sends (s : ConnectionServer Ah) (env : ReceiveEnv Ah) (client : Addr)
    (remDest : Dest) {o : Sendto} (ho : o ∈ (s.addNeighbor env client remDest).2) :
    o = s.sendHelloAddr client := by
  rw [ConnectionServer.addNeighbor_sent] at ho
  split_ifs at ho
  · simp at ho
  · simpa using ho

theorem HellosAmong.preserved {nodes : Finset Addr} {net net' : Network Ah} {e : Event Ah}
    (h : HellosAmong nodes net) (hs : step nodes net e = some net') : HellosAmong nodes net' := by
  cases e with
  | sendHello node peer =>
      obtain ⟨hn, hp, rfl⟩ := step_sendHello hs
      apply h.act hn
      intro o ho
      simp only [ConnectionServer.sendHello, List.mem_singleton] at ho
      subst ho
      exact ⟨hp, _, _, rfl⟩
  | deliver d env =>
      have hd : d ∈ net.inFlight := mem_of_deliver hs
      obtain ⟨_, remDest, _, rfl⟩ := step_deliver (h.ne_nil hd) hs
      apply (h.take d).act (h d hd).2.1
      intro o ho
      rw [addNeighbor_sends _ _ _ _ ho]
      exact ⟨(h d hd).1, _, _, rfl⟩
  | lose d =>
      obtain ⟨_, rfl⟩ := step_lose hs
      exact h.take d
  | restart node localDest =>
      rw [step_restart hs]
      exact h

/-- A hello in flight can always be delivered. -/
theorem HellosAmong.deliverable {nodes : Finset Addr} {net : Network Ah} (h : HellosAmong nodes net)
    {d : Datagram} (hd : d ∈ net.inFlight) (env : ReceiveEnv Ah) :
    ∃ net', step nodes net (.deliver d env) = some net' := by
  obtain ⟨_, _, e, dest, hp⟩ := h d hd
  obtain ⟨remDest, hr⟩ := (net.server d.dst).serverReceiveEvent_hello env d.src e dest
  rw [← hp] at hr
  exact ⟨_, by rw [HelloNetwork.step, if_pos hd, hr, Option.map_some]⟩

theorem handshake_fresh (host : Addr → Endian) (localDest : Addr → Dest) :
    handshake (fresh host localDest : Network Ah) = Handshake.State.start Addr := by
  apply Handshake.State.ext
  · ext p
    simp [handshake, fresh, ConnectionServer.start, Handshake.State.start]
    exact Finmap.notMem_empty
  · ext p
    simp [handshake, fresh, ConnectionServer.start, Handshake.State.start]
  · rfl

theorem handshake_act_flight (net : Network Ah) (node : Addr)
    (r : ConnectionServer Ah × List Sendto) :
    (handshake (net.act node r)).flight =
      ((r.2.map fun o => (node, o.dest) : List (Addr × Addr)) : Multiset (Addr × Addr)) +
        (handshake net).flight := by
  simp only [handshake, Network.act, sentFrom, Multiset.map_add, Multiset.map_coe, List.map_map]
  rfl

theorem handshake_sendHello (net : Network Ah) (node peer : Addr) :
    handshake (net.act node ((net.server node).sendHello peer)) =
      (handshake net).greet node peer := by
  apply Handshake.State.ext
  · ext ⟨x, y⟩
    by_cases hx : x = node
    · subst hx
      simp [handshake, Network.act, ConnectionServer.sendHello, Handshake.State.greet]
    · simp [handshake, Network.act, Handshake.State.greet, hx]
  · ext ⟨x, y⟩
    by_cases hx : x = node
    · subst hx
      simp [handshake, Network.act, ConnectionServer.sendHello, Handshake.State.greet]
    · simp [handshake, Network.act, Handshake.State.greet, hx]
  · rw [handshake_act_flight]
    simp [ConnectionServer.sendHello, ConnectionServer.sendHelloAddr, Handshake.State.greet]

theorem handshake_take (net : Network Ah) {d : Datagram} (hd : d ∈ net.inFlight) :
    handshake (net.take d) = (handshake net).lose d.src d.dst := by
  apply Handshake.State.ext
  · rfl
  · rfl
  · exact Multiset.map_erase_of_mem Datagram.ends net.inFlight hd

theorem handshake_deliver (net : Network Ah) {d : Datagram} (hd : d ∈ net.inFlight)
    (env : ReceiveEnv Ah) (remDest : Dest) :
    handshake ((net.take d).act d.dst ((net.server d.dst).addNeighbor env d.src remDest)) =
      (handshake net).arrive d.src d.dst := by
  apply Handshake.State.ext
  · ext ⟨x, y⟩
    rw [Handshake.State.mem_arrive_knows]
    by_cases hx : x = d.dst
    · subst hx
      simp [handshake, Network.act, ConnectionServer.mem_addNeighbor]
    · simp [handshake, Network.act, Network.take, hx]
  · ext ⟨x, y⟩
    rw [Handshake.State.mem_arrive_marked]
    by_cases hx : x = d.dst
    · subst hx
      by_cases hy : y = d.src
      · subst hy
        by_cases hm : d.src ∈ (net.server d.dst).pendingHello <;>
          simp [handshake, Network.act, ConnectionServer.addNeighbor_pendingHello, hm]
      · by_cases hm : d.src ∈ (net.server d.dst).pendingHello <;>
          simp [handshake, Network.act, ConnectionServer.addNeighbor_pendingHello, hm, hy]
    · simp [handshake, Network.act, Network.take, hx]
  · rw [handshake_act_flight, handshake_take net hd, ConnectionServer.addNeighbor_sent]
    by_cases hm : d.src ∈ (net.server d.dst).pendingHello
    · have hmark : (d.dst, d.src) ∈ (handshake net).marked := hm
      rw [Handshake.State.arrive_flight_of_marked hmark, if_pos hm]
      simp [Handshake.State.lose]
    · have hmark : (d.dst, d.src) ∉ (handshake net).marked := hm
      rw [Handshake.State.arrive_flight_of_unmarked hmark, if_neg hm]
      simp [Handshake.State.lose, ConnectionServer.sendHelloAddr]

theorem handshake_restart (net : Network Ah) (node : Addr) (localDest : Dest) :
    handshake (net.restart node localDest) = (handshake net).restart node := by
  apply Handshake.State.ext
  · ext ⟨x, y⟩
    by_cases hx : x = node
    · subst hx
      simp [handshake, Network.restart, ConnectionServer.start, Handshake.State.restart]
      exact Finmap.notMem_empty
    · simp [handshake, Network.restart, Handshake.State.restart, hx]
  · ext ⟨x, y⟩
    by_cases hx : x = node
    · subst hx
      simp [handshake, Network.restart, ConnectionServer.start, Handshake.State.restart]
    · simp [handshake, Network.restart, Handshake.State.restart, hx]
  · rfl

theorem ends_mem_flight {net : Network Ah} {d : Datagram} (hd : d ∈ net.inFlight) :
    (d.src, d.dst) ∈ (handshake net).flight := Multiset.mem_map.mpr ⟨d, hd, rfl⟩

/-- Each step of the network is a step of the handshake. -/
theorem step_refines {nodes : Finset Addr} {net net' : Network Ah} {e : Event Ah}
    (h : HellosAmong nodes net) (hs : step nodes net e = some net') :
    Handshake.step (handshake net) e.act = some (handshake net') := by
  cases e with
  | sendHello node peer =>
      obtain ⟨_, _, rfl⟩ := step_sendHello hs
      rw [handshake_sendHello]
      rfl
  | deliver d env =>
      have hd : d ∈ net.inFlight := mem_of_deliver hs
      obtain ⟨_, remDest, _, rfl⟩ := step_deliver (h.ne_nil hd) hs
      rw [handshake_deliver net hd]
      exact if_pos (ends_mem_flight hd)
  | lose d =>
      obtain ⟨hd, rfl⟩ := step_lose hs
      rw [handshake_take net hd]
      exact if_pos (ends_mem_flight hd)
  | restart node localDest =>
      rw [step_restart hs, handshake_restart]
      rfl

theorem run_refines {nodes : Finset Addr} {net net' : Network Ah} {es : List (Event Ah)}
    (h : HellosAmong nodes net) (hr : run (step nodes) net es = some net') :
    HellosAmong nodes net' ∧
      run Handshake.step (handshake net) (es.map Event.act) = some (handshake net') :=
  simulation handshake Event.act (fun h hs => ⟨h.preserved hs, step_refines h hs⟩) h hr

def pairDest (a : Addr) : Dest := ⟨0x12, if a = 1 then 0x11 else 0x22, 1, ⟨List.replicate 16 0x0a, rfl⟩⟩

def pairHello (a b : Addr) : Datagram := ⟨a, b, helloPayload .little (pairDest a)⟩

def pairEnv : ReceiveEnv Unit := ⟨⟨fun _ => 0xcc, fun _ => 0xcc, 0⟩, 0, fun _ => some ()⟩

def pairFresh : Network Unit := fresh (fun _ => .little) pairDest

end CppPlayground.HelloNetwork
