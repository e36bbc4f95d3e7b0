import CppPlayground.HelloNetwork

/-!
# Hellos die out

From any entries and pending marks, with any hellos in flight, deliveries and
losses alone are finitely many. The bound is the energy of the handshake: two
for each hello in flight and one for each ordered pair of nodes whose mark is
not set.
-/
namespace CppPlayground.HelloNetwork
open Runs

variable {Ah : Type}

/-- Deliveries and losses: the user calls nothing and nobody restarts. -/
def Event.IsPassage : Event Ah → Prop
  | .deliver _ _ | .lose _ => True
  | .sendHello _ _ | .restart _ _ => False

def Event.isDelivery : Event Ah → Bool
  | .deliver _ _ => true
  | _ => false

theorem Event.IsPassage.act {e : Event Ah} (h : e.IsPassage) : e.act.IsPassage := by
  cases e <;> trivial

/-- The ordered pairs `(x, y)` of nodes with `y` not in the `pending_hello` of `x`. -/
def unpending (nodes : Finset Addr) (net : Network Ah) : Finset (Addr × Addr) :=
  (nodes ×ˢ nodes).filter fun p => p.2 ∉ (net.server p.1).pendingHello

theorem energy_handshake (nodes : Finset Addr) (net : Network Ah) :
    Handshake.energy nodes (handshake net) =
      2*Multiset.card net.inFlight + (unpending nodes net).card := by
  have hset : Handshake.unmarked nodes (handshake net) = unpending nodes net := by
    ext p
    rw [Handshake.mem_unmarked, unpending, Finset.mem_filter]
    rfl
  rw [Handshake.energy, hset]
  simp [handshake]

/-- However they are ordered, deliveries and losses number at most twice the
hellos in flight plus the unset marks; and as long as something is in flight it
can be delivered, so a run that cannot go on has nothing in flight. -/
theorem no_hello_storm {nodes : Finset Addr} {net net' : Network Ah} (h : HellosAmong nodes net)
    {es : List (Event Ah)} (hp : ∀ e ∈ es, e.IsPassage)
    (hrun : run (step nodes) net es = some net') :
    es.countP Event.isDelivery ≤ 2*Multiset.card net.inFlight + (unpending nodes net).card ∧
      es.length ≤ 2*Multiset.card net.inFlight + (unpending nodes net).card ∧
      ∀ d ∈ net'.inFlight, ∀ env, ∃ next, step nodes net' (.deliver d env) = some next := by
  obtain ⟨hamong, hshake⟩ := run_refines h hrun
  have hacts : ∀ a ∈ es.map Event.act, a.IsPassage := by
    intro a ha
    obtain ⟨e, he, rfl⟩ := List.mem_map.mp ha
    exact (hp e he).act
  have hlen := Handshake.exhaustion h.within hacts hshake
  rw [List.length_map, energy_handshake, energy_handshake] at hlen
  have hcount := List.countP_le_length (p := Event.isDelivery) (l := es)
  exact ⟨by omega, by omega, fun d hd env => hamong.deliverable hd env⟩

/-- Fresh nodes with a duplicated hello and a hello of a node to itself under way. -/
def flooded : Network Unit :=
  { pairFresh with inFlight := {pairHello 1 2, pairHello 1 2, pairHello 1 1} }

theorem no_hello_storm_flooded :
    ∃ net', run (step {1, 2}) flooded
        [.deliver (pairHello 1 2) pairEnv, .deliver (pairHello 1 1) pairEnv] = some net' ∧
      ∀ d ∈ net'.inFlight, ∀ env, ∃ next, step {1, 2} net' (.deliver d env) = some next := by
  have hsome : (run (step {1, 2}) flooded
      [.deliver (pairHello 1 2) pairEnv, .deliver (pairHello 1 1) pairEnv]).isSome := by
    decide +kernel
  obtain ⟨net', hrun⟩ := Option.isSome_iff_exists.mp hsome
  have hamong : HellosAmong {1, 2} flooded := by
    intro d hd
    have hd' : d = pairHello 1 2 ∨ d = pairHello 1 2 ∨ d = pairHello 1 1 := by
      simpa [flooded] using hd
    rcases hd' with rfl | rfl | rfl <;> exact ⟨by decide, by decide, _, _, rfl⟩
  exact ⟨net', hrun, (no_hello_storm hamong (by simp [Event.IsPassage]) hrun).2.2⟩

end CppPlayground.HelloNetwork
