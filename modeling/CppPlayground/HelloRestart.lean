import CppPlayground.HelloNetwork

/-!
# Nodes that restart

A node that answers a hello marks the sender in `pending_hello`, and the mark
stays when the exchange is over: nothing is sent back to an answer. The next
hello of that sender only takes the mark away. If the sender has restarted in
between, it has no entry for the node and gets none.

In runs without losses this is the only way to be left unanswered: the
delivery of a hello that meets a mark, from a sender that still waits, knows
nothing of the receiver and has nothing else under way with it.
-/
namespace CppPlayground.HelloNetwork
open HostBytes HelloText Runs

variable {Ah : Type}

/-- Whether `a` has called `send_hello(b)` since it was last started. -/
def trackCalled (a b : Addr) (c : Bool) : Event Ah → Bool
  | .sendHello x y => c || (x = a && y = b)
  | .restart x _ => c && x ≠ a
  | _ => c

def calledSinceStart (a b : Addr) (es : List (Event Ah)) : Bool := es.foldl (trackCalled a b) false

theorem calledSinceStart_eq (a b : Addr) (es : List (Event Ah)) :
    calledSinceStart a b es = Handshake.greetedSinceStart a b (es.map Event.act) := by
  unfold calledSinceStart Handshake.greetedSinceStart
  rw [List.foldl_map]
  congr 1
  funext c e
  cases e <;> rfl

def Event.IsLossless : Event Ah → Prop
  | .lose _ => False
  | _ => True

/-- The delivery of `d` will not be answered because of a mark, while its
sender still waits for the receiver and no other hello is between the two. -/
structure Strands (es : List (Event Ah)) (net : Network Ah) (d : Datagram) : Prop where
  ne : d.src ≠ d.dst
  pending : d.src ∈ (net.server d.dst).pendingHello
  waiting : calledSinceStart d.src d.dst es = true
  unknown : d.dst ∉ (net.server d.src).neighborMap
  alone : ∀ x ∈ net.inFlight.erase d, x.ends ≠ (d.src, d.dst) ∧ x.ends ≠ (d.dst, d.src)

/-- No delivery of the run strands the sender of the hello. -/
def StrandsNobody (nodes : Finset Addr) (start : Network Ah) (es : List (Event Ah)) : Prop :=
  ∀ pre d env post net, es = pre ++ Event.deliver d env::post →
    run (step nodes) start pre = some net → ¬ Strands pre net d

theorem strands_spelled {es : List (Event Ah)} {net : Network Ah} {d : Datagram} :
    Strands es net d ↔ (d.src ≠ d.dst ∧ d.src ∈ (net.server d.dst).pendingHello) ∧
      (calledSinceStart d.src d.dst es = true ∧ d.dst ∉ (net.server d.src).neighborMap) ∧
      ∀ x ∈ net.inFlight.erase d, x.ends ≠ (d.src, d.dst) ∧ x.ends ≠ (d.dst, d.src) :=
  ⟨fun h => ⟨⟨h.ne, h.pending⟩, ⟨h.waiting, h.unknown⟩, h.alone⟩,
    fun ⟨⟨h₁, h₂⟩, ⟨h₃, h₄⟩, h₅⟩ => ⟨h₁, h₂, h₃, h₄, h₅⟩⟩

instance (es : List (Event Ah)) (net : Network Ah) (d : Datagram) : Decidable (Strands es net d) :=
  decidable_of_iff' _ strands_spelled

/-- Whether the event at place `k` strands its sender, for concrete runs. -/
def strandsAt (nodes : Finset Addr) (start : Network Ah) (es : List (Event Ah)) (k : ℕ) : Bool :=
  match es[k]?, run (step nodes) start (es.take k) with
  | some (.deliver d _), some net => decide (Strands (es.take k) net d)
  | _, _ => false

theorem strandsNobody_of_places {nodes : Finset Addr} {start : Network Ah} {es : List (Event Ah)}
    (h : ∀ k < es.length, strandsAt nodes start es k = false) : StrandsNobody nodes start es := by
  intro pre d env post net hes hpre hs
  have hk := h pre.length (by simp [hes])
  simp [strandsAt, hes, hpre, hs] at hk

/-- The mark that swallows a hello is the handshake's. -/
theorem strands_iff {es : List (Event Ah)} {net : Network Ah} {d : Datagram}
    (hd : d ∈ net.inFlight) :
    Handshake.Strands (es.map Event.act) (handshake net) d.src d.dst ↔ Strands es net d := by
  have herase : (handshake net).flight.erase (d.src, d.dst) =
      (net.inFlight.erase d).map Datagram.ends :=
    (Multiset.map_erase_of_mem Datagram.ends net.inFlight hd).symm
  constructor
  · intro h
    refine ⟨h.ne, h.marked, by rw [calledSinceStart_eq]; exact h.waiting, h.unknown, ?_⟩
    intro x hx
    have hmem : x.ends ∈ (handshake net).flight.erase (d.src, d.dst) :=
      herase ▸ Multiset.mem_map_of_mem _ hx
    refine ⟨fun he => h.last (he ▸ hmem), fun he => ?_⟩
    exact h.none_back (he ▸ Multiset.mem_of_mem_erase hmem)
  · intro h
    have none : ∀ p, (p = (d.src, d.dst) ∨ p = (d.dst, d.src)) →
        p ∉ (handshake net).flight.erase (d.src, d.dst) := by
      intro p hp hmem
      rw [herase] at hmem
      obtain ⟨x, hx, hxp⟩ := Multiset.mem_map.mp hmem
      rcases hp with rfl | rfl
      · exact (h.alone x hx).1 hxp
      · exact (h.alone x hx).2 hxp
    have hback : (d.dst, d.src) ≠ (d.src, d.dst) := fun he => h.ne (Prod.mk.inj he).2
    refine ⟨h.ne, h.pending, by rw [← calledSinceStart_eq]; exact h.waiting, h.unknown,
      none _ (.inl rfl), fun hmem => none _ (.inr rfl) ?_⟩
    exact (Multiset.mem_erase_of_ne hback).mpr hmem

theorem HellosAmong.fresh (nodes : Finset Addr) (host : Addr → Endian) (localDest : Addr → Dest) :
    HellosAmong nodes (fresh host localDest : Network Ah) := fun d hd => by
  simp [HelloNetwork.fresh] at hd

section Fresh
variable {nodes : Finset Addr} {host : Addr → Endian} {localDest : Addr → Dest}
  {es : List (Event Ah)} {net : Network Ah}

/-- A run that strands nobody is a handshake run that strands nobody. -/
theorem StrandsNobody.handshake
    (hrun : run (step nodes) (HelloNetwork.fresh host localDest) es = some net)
    (h : StrandsNobody nodes (HelloNetwork.fresh host localDest) es) :
    Handshake.StrandsNobody (Handshake.State.start Addr) (es.map Event.act) := by
  intro pre x y post t hacts ht hs
  obtain ⟨pre', rest, rfl, rfl, hrest⟩ := List.map_eq_append_iff.mp hacts
  obtain ⟨e, post', rfl, he, rfl⟩ := List.map_eq_cons_iff.mp hrest
  obtain ⟨mid, hmid, hnext⟩ := run_append_eq hrun
  obtain ⟨hamong, hshake⟩ := run_refines (HellosAmong.fresh nodes host localDest) hmid
  rw [handshake_fresh, ht] at hshake
  cases e with
  | deliver d env =>
      obtain ⟨rfl, rfl⟩ : d.src = x ∧ d.dst = y := by simpa [Event.act] using he
      obtain ⟨next, hstep, _⟩ := run_cons_eq hnext
      have hd : d ∈ mid.inFlight := mem_of_deliver hstep
      rw [Option.some.inj hshake] at hs
      exact h pre' d env post' mid rfl hmid ((strands_iff hd).mp hs)
  | sendHello node peer => simp [Event.act] at he
  | lose d => simp [Event.act] at he
  | restart node dest => simp [Event.act] at he

/-- While hellos are in flight that leave `x` without prospect of `y`, some
delivery is possible and leaves it so. -/
theorem forsaken_next {x y : Addr} {net : Network Ah}
    (h : HellosAmong nodes net ∧ Handshake.Forsaken (HelloNetwork.handshake net) x y)
    (hne : net.inFlight ≠ 0) :
    ∃ e net', (∃ d env, e = Event.deliver d env) ∧ step nodes net e = some net' ∧
      (HellosAmong nodes net' ∧ Handshake.Forsaken (HelloNetwork.handshake net') x y) ∧
      Handshake.energy nodes (HelloNetwork.handshake net') <
        Handshake.energy nodes (HelloNetwork.handshake net) := by
  obtain ⟨d, hd⟩ := Multiset.exists_mem_of_ne_zero hne
  obtain ⟨net', hstep⟩ := h.1.deliverable hd
    ⟨⟨fun _ => 0, fun _ => 0, 0⟩, 0, fun _ => none⟩
  have hshake := (Handshake.step_arrive (step_refines h.1 hstep)).2
  have henergy := Handshake.energy_arrive h.1.within (ends_mem_flight hd)
  refine ⟨_, net', ⟨d, _, rfl⟩, hstep, ⟨h.1.preserved hstep, ?_⟩, ?_⟩
  · rw [hshake]
    exact h.2.arrive (ends_mem_flight hd)
  · rw [hshake]
    omega

theorem calledSinceStart_deliveries {a b : Addr} (ds : List (Event Ah))
    (hds : ∀ e ∈ ds, ∃ d env, e = Event.deliver d env) (es : List (Event Ah)) :
    calledSinceStart a b (es ++ ds) = calledSinceStart a b es := by
  induction ds generalizing es with
  | nil => simp
  | cons e ds ih =>
      obtain ⟨d, env, rfl⟩ := hds e (by simp)
      rw [List.append_cons, ih (fun e he => hds e (by simp [he]))]
      simp [calledSinceStart, trackCalled]

theorem lossless_acts (hl : ∀ e ∈ es, e.IsLossless) :
    ∀ x y, Handshake.Act.lose x y ∉ es.map Event.act := by
  intro x y hmem
  obtain ⟨e, he, hact⟩ := List.mem_map.mp hmem
  cases e with
  | lose d => exact hl _ he
  | sendHello node peer => simp [Event.act] at hact
  | deliver d env => simp [Event.act] at hact
  | restart node dest => simp [Event.act] at hact

/-- In a lossless run that strands nobody, whoever has called is attended, and
in a quiet state that means answered. -/
theorem answered_of_strandsNobody
    (hrun : run (step nodes) (HelloNetwork.fresh host localDest) es = some net)
    (hl : ∀ e ∈ es, e.IsLossless)
    (hn : StrandsNobody nodes (HelloNetwork.fresh host localDest) es) (hquiet : net.inFlight = 0)
    {a b : Addr} (hcalled : calledSinceStart a b es = true) :
    b ∈ (net.server a).neighborMap := by
  have hshake := (run_refines (HellosAmong.fresh nodes host localDest) hrun).2
  rw [handshake_fresh] at hshake
  have hattended := Handshake.Attended.of_run hshake (lossless_acts hl) (hn.handshake hrun)
  rw [calledSinceStart_eq] at hcalled
  have hflight : (HelloNetwork.handshake net).flight = 0 := by
    simp [HelloNetwork.handshake, hquiet]
  rcases hattended a b hcalled with hk | hf | hf
  · exact hk
  · simp [hflight] at hf
  · simp [hflight] at hf

/-- From the delivery that strands its sender on, deliveries lead to a quiet
state that is no better for the sender. -/
theorem unanswered_of_strands
    (hrun : run (step nodes) (HelloNetwork.fresh host localDest) es = some net) {d : Datagram}
    {env : ReceiveEnv Ah} {net' : Network Ah} (hs : Strands es net d)
    (hstep : step nodes net (.deliver d env) = some net') :
    ∃ ds last, (∀ e ∈ ds, ∃ d env, e = Event.deliver d env) ∧
      run (step nodes) net' ds = some last ∧ last.inFlight = 0 ∧
      calledSinceStart d.src d.dst (es ++ Event.deliver d env::ds) = true ∧
      d.dst ∉ (last.server d.src).neighborMap := by
  have hamong := (run_refines (HellosAmong.fresh nodes host localDest) hrun).1
  have hd : d ∈ net.inFlight := mem_of_deliver hstep
  have hnext := (Handshake.step_arrive (step_refines hamong hstep)).2
  have hforsaken : Handshake.Forsaken (HelloNetwork.handshake net') d.src d.dst := by
    rw [hnext]
    exact ((strands_iff hd).mpr hs).forsaken
  obtain ⟨ds, last, hds, hlast, ⟨_, hlf⟩, hquiet⟩ :=
    completion (G := fun net => net.inFlight = 0)
      (fun net => Handshake.energy nodes (HelloNetwork.handshake net))
      (fun h hg => forsaken_next h hg) ⟨hamong.preserved hstep, hforsaken⟩
  refine ⟨ds, last, hds, hlast, hquiet, ?_, fun hk => hlf.unknown hk⟩
  rw [calledSinceStart_deliveries (Event.deliver d env::ds) ?_ es]
  · exact hs.waiting
  · intro e he
    rcases List.mem_cons.mp he with rfl | he
    · exact ⟨d, env, rfl⟩
    · exact hds e he

/-- Restarts included: in a lossless run that strands nobody, every node that
has called since its start has its peer's entry whenever nothing is in flight.
And a delivery that strands its sender leads, by deliveries alone, to a state
with nothing in flight and the caller without the entry. -/
theorem restarted_initiator_answered
    (hrun : run (step nodes) (HelloNetwork.fresh host localDest) es = some net)
    (hl : ∀ e ∈ es, e.IsLossless) :
    (StrandsNobody nodes (HelloNetwork.fresh host localDest) es → net.inFlight = 0 →
        ∀ a b, calledSinceStart a b es = true → b ∈ (net.server a).neighborMap) ∧
      ∀ d env net', Strands es net d → step nodes net (.deliver d env) = some net' →
        ∃ ds last, (∀ e ∈ ds, ∃ d env, e = Event.deliver d env) ∧
          run (step nodes) net' ds = some last ∧ last.inFlight = 0 ∧
          calledSinceStart d.src d.dst (es ++ Event.deliver d env::ds) = true ∧
          d.dst ∉ (last.server d.src).neighborMap :=
  ⟨fun hn hquiet _ _ hcalled => answered_of_strandsNobody hrun hl hn hquiet hcalled,
    fun _ _ _ hs hstep => unanswered_of_strands hrun hs hstep⟩

end Fresh

/-- Node 1 greets, is answered, restarts and greets again; the mark it left at
node 2 swallows the second hello. -/
def leftover : List (Event Unit) :=
  [.sendHello 1 2, .deliver (pairHello 1 2) pairEnv, .deliver (pairHello 2 1) pairEnv,
    .restart 1 (pairDest 1), .sendHello 1 2, .deliver (pairHello 1 2) pairEnv]

theorem restarted_initiator_unanswered :
    ∃ net, run (step {1, 2}) pairFresh leftover = some net ∧ (∀ e ∈ leftover, e.IsLossless) ∧
      net.inFlight = 0 ∧ calledSinceStart 1 2 leftover = true ∧
      2 ∉ (net.server 1).neighborMap := by
  have hend : (run (step {1, 2}) pairFresh leftover).map
      (fun net => decide (net.inFlight = 0 ∧ 2 ∉ (net.server 1).neighborMap)) = some true := by
    decide +kernel
  obtain ⟨net, hrun, hnet⟩ := Option.map_eq_some_iff.mp hend
  obtain ⟨hquiet, hnone⟩ := of_decide_eq_true hnet
  exact ⟨net, hrun, by simp [leftover, Event.IsLossless], hquiet, by decide, hnone⟩

/-- Here the node that was greeted restarts, and greets back. -/
def greetedBack : List (Event Unit) :=
  [.sendHello 1 2, .deliver (pairHello 1 2) pairEnv, .deliver (pairHello 2 1) pairEnv,
    .restart 2 (pairDest 2), .sendHello 2 1, .deliver (pairHello 2 1) pairEnv,
    .deliver (pairHello 1 2) pairEnv]

theorem greetedBack_strands_nobody : StrandsNobody {1, 2} pairFresh greetedBack :=
  strandsNobody_of_places (by decide +kernel)

theorem restarted_initiator_answered_greeted_back :
    ∃ net, run (step {1, 2}) pairFresh greetedBack = some net ∧ 1 ∈ (net.server 2).neighborMap := by
  have hend : (run (step {1, 2}) pairFresh greetedBack).map (·.inFlight) = some 0 := by
    decide +kernel
  obtain ⟨net, hrun, hquiet⟩ := Option.map_eq_some_iff.mp hend
  have hl : ∀ e ∈ greetedBack, e.IsLossless := by simp [greetedBack, Event.IsLossless]
  exact ⟨net, hrun, (restarted_initiator_answered hrun hl).1 greetedBack_strands_nobody hquiet 2 1
    (by decide)⟩

end CppPlayground.HelloNetwork
