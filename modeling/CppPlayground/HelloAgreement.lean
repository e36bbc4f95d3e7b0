import CppPlayground.HelloNetwork

/-!
# What freshly started nodes learn from hellos

Runs from fresh nodes in which hellos are only sent and delivered. Who ends up
in whose `neighbor_map` follows from the handshake; what the entries hold
follows from the datagrams, each of which is still the hello of its sender.
That a hello decodes to the destination it advertises is an assumption here;
it holds for every destination between little-endian nodes.
-/
namespace CppPlayground.HelloNetwork
open HostBytes HelloText Runs

variable {Ah : Type}

def Event.IsExchange : Event Ah → Prop
  | .sendHello _ _ | .deliver _ _ => True
  | .lose _ | .restart _ _ => False

theorem Event.IsExchange.act {e : Event Ah} (h : e.IsExchange) : e.act.IsExchange := by
  cases e <;> trivial

/-- A node's hello means to every node what its sender advertises. -/
def DecodesHellos (nodes : Finset Addr) (host : Addr → Endian) (localDest : Addr → Dest) : Prop :=
  ∀ a ∈ nodes, ∀ b ∈ nodes, ∀ scratch,
    getDest (host b) scratch (recvbuf (helloPayload (host a) (localDest a))) = some (localDest a)

/-- Nodes keep their host and destination, datagrams are hellos of their
senders, and entries hold what the neighbour advertises. -/
structure Honest (nodes : Finset Addr) (host : Addr → Endian) (localDest : Addr → Dest)
    (net : Network Ah) : Prop where
  keepsHost : ∀ a, (net.server a).host = host a
  keepsDest : ∀ a, (net.server a).localDest = localDest a
  flight : ∀ d ∈ net.inFlight, d.src ∈ nodes ∧ d.dst ∈ nodes ∧
    d.payload = helloPayload (host d.src) (localDest d.src)
  entries : ∀ a x n, (net.server a).neighborMap.lookup x = some n → n.dest = localDest x

section Honest
variable {nodes : Finset Addr} {host : Addr → Endian} {localDest : Addr → Dest}
  {net net' : Network Ah}

theorem Honest.fresh : Honest nodes host localDest (fresh host localDest : Network Ah) where
  keepsHost _ := rfl
  keepsDest _ := rfl
  flight d hd := by simp [HelloNetwork.fresh] at hd
  entries a x n h := by
    have hnone : (∅ : Finmap fun _ : Addr => Neighbor Ah).lookup x = none := Finmap.lookup_empty x
    exact absurd (hnone.symm.trans h) (by simp)

theorem Honest.hellosAmong (h : Honest nodes host localDest net) : HellosAmong nodes net :=
  fun d hd => ⟨(h.flight d hd).1, (h.flight d hd).2.1, _, _, (h.flight d hd).2.2⟩

theorem Honest.take (h : Honest nodes host localDest net) (d : Datagram) :
    Honest nodes host localDest (net.take d) :=
  ⟨h.keepsHost, h.keepsDest, fun x hx => h.flight x (Multiset.mem_of_mem_erase hx), h.entries⟩

/-- A call that keeps the node what it is, sends its own hello to nodes and
leaves good entries. -/
theorem Honest.act (h : Honest nodes host localDest net) {node : Addr} (hnode : node ∈ nodes)
    {r : ConnectionServer Ah × List Sendto} (hh : r.1.host = (net.server node).host)
    (hd : r.1.localDest = (net.server node).localDest)
    (ho : ∀ o ∈ r.2, o.dest ∈ nodes ∧ o = (net.server node).sendHelloAddr o.dest)
    (he : ∀ x n, r.1.neighborMap.lookup x = some n → n.dest = localDest x) :
    Honest nodes host localDest (net.act node r) := by
  refine ⟨?_, ?_, ?_, ?_⟩
  · intro a
    by_cases ha : a = node
    · subst ha
      simp [Network.act, hh, h.keepsHost]
    · simp [Network.act, ha, h.keepsHost]
  · intro a
    by_cases ha : a = node
    · subst ha
      simp [Network.act, hd, h.keepsDest]
    · simp [Network.act, ha, h.keepsDest]
  · intro d hd
    rcases Multiset.mem_add.mp hd with hd | hd
    · obtain ⟨o, hmem, rfl⟩ := List.mem_map.mp (Multiset.mem_coe.mp hd)
      refine ⟨hnode, (ho o hmem).1, ?_⟩
      have hpay := congrArg Sendto.payload (ho o hmem).2
      simpa [ConnectionServer.sendHelloAddr, h.keepsHost, h.keepsDest] using hpay
    · exact h.flight d hd
  · intro a x n hx
    by_cases ha : a = node
    · subst ha
      exact he x n (by simpa [Network.act] using hx)
    · exact h.entries a x n (by simpa [Network.act, ha] using hx)

theorem Honest.preserved (hcodec : DecodesHellos nodes host localDest)
    (h : Honest nodes host localDest net) {e : Event Ah} (hx : e.IsExchange)
    (hs : step nodes net e = some net') : Honest nodes host localDest net' := by
  cases e with
  | sendHello node peer =>
      obtain ⟨hn, hp, rfl⟩ := step_sendHello hs
      refine h.act hn rfl rfl ?_ (h.entries node)
      intro o ho
      simp only [ConnectionServer.sendHello, List.mem_singleton] at ho
      subst ho
      exact ⟨hp, rfl⟩
  | deliver d env =>
      have hd : d ∈ net.inFlight := mem_of_deliver hs
      obtain ⟨hsrc, hdst, hpay⟩ := h.flight d hd
      obtain ⟨_, remDest, hdec, rfl⟩ := step_deliver (h.hellosAmong.ne_nil hd) hs
      have hrem : remDest = localDest d.src := by
        rw [h.keepsHost, hpay, hcodec d.src hsrc d.dst hdst] at hdec
        exact (Option.some.inj hdec).symm
      refine (h.take d).act hdst (by simp [Network.take]) (by simp [Network.take]) ?_ ?_
      · intro o ho
        rw [addNeighbor_sends _ _ _ _ ho]
        exact ⟨hsrc, rfl⟩
      · intro x n hn
        by_cases hxs : x = d.src
        · subst hxs
          rcases ConnectionServer.addNeighbor_lookup_self _ _ _ _ hn with hn | ⟨n₀, hn₀, hn⟩
          · rw [hn, hrem]
          · rw [hn, h.entries d.dst d.src n₀ hn₀]
        · rw [ConnectionServer.addNeighbor_lookup_ne _ _ _ _ hxs] at hn
          exact h.entries d.dst x n hn
  | lose d => exact hx.elim
  | restart node dest => exact hx.elim

theorem Honest.of_run (hcodec : DecodesHellos nodes host localDest) {es : List (Event Ah)}
    (hrun : run (step nodes) (HelloNetwork.fresh host localDest) es = some net)
    (hx : ∀ e ∈ es, e.IsExchange) : Honest nodes host localDest net := by
  refine history_invariant (I := fun es net => (∀ e ∈ es, e.IsExchange) →
    Honest nodes host localDest net) (fun _ => Honest.fresh) ?_ hrun hx
  intro es net e net' _ ih hs hall
  exact (ih fun e he => hall e (List.mem_append_left _ he)).preserved hcodec
    (hall e (by simp)) hs

end Honest

/-- `a` has an entry for `b`, and it holds what `b` advertises. -/
def HasEntry (localDest : Addr → Dest) (net : Network Ah) (a b : Addr) : Prop :=
  ∃ n, (net.server a).neighborMap.lookup b = some n ∧ n.dest = localDest b

/-- With nothing in flight, a node that greeted and the node it greeted have
each other's advertised destination, whatever the order of calls and deliveries. -/
theorem hello_agreement {nodes : Finset Addr} {host : Addr → Endian} {localDest : Addr → Dest}
    (hcodec : DecodesHellos nodes host localDest) {es : List (Event Ah)} {net : Network Ah}
    (hrun : run (step nodes) (fresh host localDest) es = some net)
    (hx : ∀ e ∈ es, e.IsExchange) (hquiet : net.inFlight = 0) {a b : Addr}
    (hcall : Event.sendHello a b ∈ es) :
    HasEntry localDest net a b ∧ HasEntry localDest net b a := by
  have honest := Honest.of_run hcodec hrun hx
  have hshake := (run_refines Honest.fresh.hellosAmong hrun).2
  rw [handshake_fresh] at hshake
  have hflight : (handshake net).flight = 0 := by simp [handshake, hquiet]
  have hacts : ∀ a ∈ es.map Event.act, a.IsExchange := by
    intro a ha
    obtain ⟨e, he, rfl⟩ := List.mem_map.mp ha
    exact (hx e he).act
  obtain ⟨hab, hba⟩ := Handshake.agreement hshake hacts hflight
    (List.mem_map.mpr ⟨_, hcall, rfl⟩)
  have entry : ∀ x y, (x, y) ∈ (handshake net).knows → HasEntry localDest net x y := by
    intro x y hxy
    obtain ⟨n, hn⟩ := Finmap.mem_iff.mp (show y ∈ (net.server x).neighborMap from hxy)
    exact ⟨n, hn, honest.entries x y n hn⟩
  exact ⟨entry a b hab, entry b a hba⟩

/-- Between little-endian nodes the decoding needs no assumption. -/
theorem decodesHellos_little (nodes : Finset Addr) {localDest : Addr → Dest}
    (h24 : ∀ a, (localDest a).qpn.toNat < 2 ^ 24 ∧ (localDest a).psn.toNat < 2 ^ 24) :
    DecodesHellos nodes (fun _ => .little) localDest := by
  intro a _ b _ scratch
  have hlen := getHelloMsg_length (e := .little) (h24 a).1 (h24 a).2
  have hsize : (getHelloMsg .little (localDest a) ++ [0]).length ≤ msgSize := by
    rw [List.length_append, hlen]
    exact le_rfl
  apply getDest_text (e := .little)
  rw [recvbuf, helloPayload, List.take_of_length_le hsize, List.append_assoc]
  apply cString_append_zeros (getHelloMsg_ne_zero .little (localDest a))
  intro c hc
  rcases List.mem_append.mp hc with hc | hc
  · simpa using hc
  · exact List.eq_of_mem_replicate hc

/-- Both nodes greet before either hello is delivered. -/
def crossing : List (Event Unit) :=
  [.sendHello 1 2, .sendHello 2 1, .deliver (pairHello 1 2) pairEnv, .deliver (pairHello 2 1) pairEnv]

theorem hello_agreement_crossing :
    ∃ net, run (step {1, 2}) pairFresh crossing = some net ∧ net.inFlight = 0 ∧
      HasEntry pairDest net 1 2 ∧ HasEntry pairDest net 2 1 := by
  have hquiet : (run (step {1, 2}) pairFresh crossing).map (·.inFlight) = some 0 := by
    decide +kernel
  obtain ⟨net, hrun, hq⟩ := Option.map_eq_some_iff.mp hquiet
  have h24 : ∀ a, (pairDest a).qpn.toNat < 2 ^ 24 ∧ (pairDest a).psn.toNat < 2 ^ 24 := by
    intro a
    simp only [pairDest]
    split_ifs <;> decide
  exact ⟨net, hrun, hq, hello_agreement (decodesHellos_little {1, 2} h24) hrun
    (by simp [crossing, Event.IsExchange]) hq (by simp [crossing])⟩

end CppPlayground.HelloNetwork
