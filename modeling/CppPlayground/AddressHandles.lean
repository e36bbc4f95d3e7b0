import CppPlayground.NeighborTable

/-!
# When `ibv_create_ah` fails

`add_neighbor` puts the entry of a new address into the table before it asks
for the address handle, prints a message when it gets none, and goes on: the
entry stays, without a handle, and the hello is answered. A known address never
gets another handle. So the table is intact exactly as long as no call of
`ibv_create_ah` has failed.

The events are arbitrary datagrams from arbitrary addresses, and the greetings
of the application.
-/
namespace CppPlayground.ConnectionServer
open HostBytes HelloText Runs

variable {Ah : Type}

inductive Occurrence (Ah : Type) where
  | datagram (env : ReceiveEnv Ah) (client : Addr) (payload : List UInt8)
  | sendHello (dest : Addr)

def occur (s : ConnectionServer Ah) : Occurrence Ah → Option (ConnectionServer Ah)
  | .datagram env client payload => (s.serverReceiveEvent env client payload).map Prod.fst
  | .sendHello dest => some (s.sendHello dest).1

/-- The call of `add_neighbor` asks for a handle, and gets none. -/
def ahFails (s : ConnectionServer Ah) (env : ReceiveEnv Ah) (client : Addr) (remDest : Dest) :
    Bool := (s.neighborMap.lookup client).isNone && (env.createAh (ahAttr remDest)).isNone

/-- So does the call that the event leads to, if it leads to one. -/
def Occurrence.ahFails (s : ConnectionServer Ah) : Occurrence Ah → Bool
  | .datagram env client payload =>
      match getDest s.host (clearDest env.scratch) (recvbuf payload) with
      | none => false
      | some remDest => decide (payload.length > 0) && s.ahFails env client remDest
  | .sendHello _ => false

def HandlesSet (s : ConnectionServer Ah) : Prop :=
  ∀ x n, s.neighborMap.lookup x = some n → n.ah ≠ none

/-- Nothing has changed and nothing was sent. -/
def Intact (s : ConnectionServer Ah) (r : ConnectionServer Ah × List Sendto) : Prop :=
  r.1.neighborMap = s.neighborMap ∧ r.1.pendingHello = s.pendingHello ∧ r.2 = []

section AddNeighbor
variable (s : ConnectionServer Ah) (env : ReceiveEnv Ah) (client : Addr) (remDest : Dest)

theorem recorded_ah (h : s.ahFails env client remDest = false) (hs : s.HandlesSet) :
    (recorded env remDest (s.neighborMap.lookup client)).ah ≠ none := by
  cases hn : s.neighborMap.lookup client with
  | none =>
      simpa [ahFails, hn, recorded, Option.isSome_iff_ne_none] using h
  | some n => exact hs client n hn

/-- Entries with a null handle come from failed calls, and stay. -/
theorem handlesSet_addNeighbor :
    (s.addNeighbor env client remDest).1.HandlesSet ↔
      s.HandlesSet ∧ s.ahFails env client remDest = false := by
  have hself := addNeighbor_lookup s env client remDest
  constructor
  · intro h
    have hclient := h client _ hself
    refine ⟨fun x n hn => ?_, ?_⟩
    · by_cases hx : x = client
      · subst hx
        rw [hn] at hclient
        exact hclient
      · exact h x n ((addNeighbor_lookup_ne s env client remDest hx).trans hn)
    · cases hn : s.neighborMap.lookup client with
      | none =>
          rw [hn] at hclient
          simpa [ahFails, hn, recorded, Option.isSome_iff_ne_none] using hclient
      | some n => simp [ahFails, hn]
  · rintro ⟨hs, hok⟩ x n hn
    by_cases hx : x = client
    · subst hx
      rw [hself, Option.some.injEq] at hn
      exact hn ▸ recorded_ah s env x remDest hok hs
    · rw [addNeighbor_lookup_ne s env client remDest hx] at hn
      exact hs x n hn

/-- A failed call has put its entry into the table already. -/
theorem not_intact (h : s.ahFails env client remDest = true) :
    ¬ Intact s (s.addNeighbor env client remDest) := by
  intro hintact
  have hself := addNeighbor_lookup s env client remDest
  simp only [ahFails, Bool.and_eq_true, Option.isNone_iff_eq_none] at h
  rw [hintact.1, h.1] at hself
  cases hself

end AddNeighbor

theorem handlesSet_occur {s t : ConnectionServer Ah} {o : Occurrence Ah}
    (h : s.occur o = some t) : t.HandlesSet ↔ s.HandlesSet ∧ (!o.ahFails s) = true := by
  cases o with
  | datagram env client payload =>
      obtain ⟨⟨u, out⟩, hu, rfl⟩ := Option.map_eq_some_iff.mp h
      by_cases hne : payload = []
      · subst hne
        simp only [serverReceiveEvent, List.length_nil, lt_irrefl, if_false, Option.some.injEq,
          Prod.mk.injEq] at hu
        rw [← hu.1]
        simp only [Occurrence.ahFails]
        split <;> simp
      · obtain ⟨remDest, hdest, hadd⟩ := serverReceiveEvent_eq_some hne hu
        have hpos := List.length_pos_of_ne_nil hne
        have hstep := handlesSet_addNeighbor s env client remDest
        rw [hadd] at hstep
        simpa only [Occurrence.ahFails, hdest, decide_eq_true hpos, Bool.true_and,
          Bool.not_eq_true'] using hstep
  | sendHello dest =>
      cases h
      simp [Occurrence.ahFails, HandlesSet, sendHello]

/-- In every reachable state and for every hello, the call of `add_neighbor`
leaves only handles that are set, and changes nothing if it gets none, exactly
when neither it nor a call before it has failed to get one. -/
theorem handles_intact_iff {host : Endian} {localDest : Dest} {os : List (Occurrence Ah)}
    {s : ConnectionServer Ah} (h : run occur (start host localDest) os = some s)
    (env : ReceiveEnv Ah) (client : Addr) (remDest : Dest) :
    ((s.addNeighbor env client remDest).1.HandlesSet ∧
        (s.ahFails env client remDest = true → Intact s (s.addNeighbor env client remDest))) ↔
      run (guarded (fun s o => !o.ahFails s) occur) (start host localDest) os = some s ∧
        s.ahFails env client remDest = false := by
  have hstart : (start host localDest : ConnectionServer Ah).HandlesSet := by
    intro x n hn
    simp [start] at hn
  rw [handlesSet_addNeighbor, guarded_iff (J := fun _ => True) (fun _ _ => trivial)
    (fun _ => handlesSet_occur) trivial hstart h]
  constructor
  · rintro ⟨hok, _⟩
    exact hok
  · intro hok
    refine ⟨hok, fun hfails => ?_⟩
    rw [hok.2] at hfails
    cases hfails

/-- Node 8 is greeted, greets back and greets once more. -/
def earlierHellos : List (Occurrence Unit) :=
  [.sendHello 8, .datagram (quietEnv 5) 8 (helloPayload .little ⟨4, 5, 6, zeroGid⟩),
    .datagram (quietEnv 6) 8 (helloPayload .little ⟨4, 5, 6, zeroGid⟩)]

theorem handles_intact_after_hellos :
    ∃ s, run occur (start .little ⟨9, 9, 9, zeroGid⟩) earlierHellos = some s ∧
      (s.neighborMap.lookup 8).map Neighbor.lastHello = some 6 ∧
      (s.addNeighbor (quietEnv 7) 7 ⟨1, 2, 3, zeroGid⟩).1.HandlesSet := by
  have hend : (run (guarded (fun s o => !o.ahFails s) occur) (start .little ⟨9, 9, 9, zeroGid⟩)
      earlierHellos).map (fun s => decide ((s.neighborMap.lookup 8).map Neighbor.lastHello =
        some 6 ∧ s.ahFails (quietEnv 7) 7 ⟨1, 2, 3, zeroGid⟩ = false)) = some true := by
    decide +kernel
  obtain ⟨s, hrun, hs⟩ := Option.map_eq_some_iff.mp hend
  obtain ⟨hknown, hgot⟩ := of_decide_eq_true hs
  have hoccur := run_of_guarded hrun
  exact ⟨s, hoccur, hknown,
    ((handles_intact_iff hoccur (quietEnv 7) 7 ⟨1, 2, 3, zeroGid⟩).mpr ⟨hrun, hgot⟩).1⟩

/-- An environment in which the adapter has no handles left. -/
def exhaustedEnv (now : ℤ) : ReceiveEnv Unit := ⟨⟨fun _ => 0, fun _ => 0, 0⟩, now, fun _ => none⟩

/-- A failed call leaves an entry without a handle and answers the hello; the
second hello, for which there is a handle again, does not ask for it. -/
theorem null_handle_stays :
    let first :=
      (start .little ⟨9, 9, 9, zeroGid⟩).addNeighbor (exhaustedEnv 5) 7 ⟨1, 2, 3, zeroGid⟩
    let second := first.1.addNeighbor (quietEnv 6) 7 ⟨1, 2, 3, zeroGid⟩
    (start .little ⟨9, 9, 9, zeroGid⟩).ahFails (exhaustedEnv 5) 7 ⟨1, 2, 3, zeroGid⟩ = true ∧
      ¬ Intact (start .little ⟨9, 9, 9, zeroGid⟩) first ∧
      first.2 = [⟨7, helloPayload .little ⟨9, 9, 9, zeroGid⟩⟩] ∧
      second.1.neighborMap.lookup 7 = some ⟨⟨1, 2, 3, zeroGid⟩, none, 6⟩ := by
  have hfails : (start .little ⟨9, 9, 9, zeroGid⟩).ahFails (exhaustedEnv 5) 7
      ⟨1, 2, 3, zeroGid⟩ = true := rfl
  refine ⟨hfails, not_intact _ _ _ _ hfails, addNeighbor_sent _ _ _ _, ?_⟩
  rw [addNeighbor_lookup, addNeighbor_lookup]
  rfl

end CppPlayground.ConnectionServer
