import CppPlayground.DestExchange

/-!
# Both programs end with each other's destinations

Whatever the streams hold, however they cut the records and whatever fails, a
program that goes on to its messages has the destination its peer started from
and has connected its queue pair to it. The server connects before it tells its
own record, and the client tells `"done"` only when it has that record whole:
so when the client goes on the server's queue pair is connected already, and
when the server goes on the client has what it needs to connect its own.
-/
namespace CppPlayground.DestExchange
open HostBytes HelloText DestRecord Dialogue Runs Volley

theorem Own.dest_fit (own : Own) : Fit own.dest.fields := by
  have hlid : own.dest.lid.toNat < 16 ^ 4 := by simpa [Own.dest] using own.lid.toNat_lt
  have hqpn : own.dest.qpn.toNat < 16 ^ 6 := by
    have := own.qpNum.isLt
    simp only [Own.dest, UInt32.toNat_ofNat']
    omega
  have hpsn : own.dest.psn.toNat < 16 ^ 6 := by
    simp only [Own.dest, UInt32.toNat_and]
    exact Nat.lt_of_le_of_lt Nat.and_le_right (by decide)
  simp only [Fit, Dest.fields, List.mem_cons, List.not_mem_nil, or_false, forall_eq_or_imp,
    forall_eq]
  exact ⟨⟨by omega, hlid⟩, ⟨by omega, hqpn⟩, by omega, hpsn⟩

theorem Dest.record_size (d : Dest) : (d.fields.map fun f => f.1 + 1).sum + 33 = msgSize := by
  simp only [Dest.fields, List.map_cons, List.map_nil, List.sum_cons, List.sum_nil]
  decide

theorem Own.msg_eq (own : Own) (e : Endian) :
    own.dest.msg e = printRecord e own.dest.fields own.dest.gid := by
  refine List.take_of_length_le ?_
  rw [printRecord_length own.dest_fit, Dest.record_size]

@[simp] theorem Own.msg_length (own : Own) (e : Endian) : (own.dest.msg e).length = msgSize := by
  rw [own.msg_eq, printRecord_length own.dest_fit, Dest.record_size]

/-- The peer reads back what `main` started from. -/
theorem Own.scan_msg (own : Own) (e e' : Endian) (before : Dest) (scratch : GidScratch) :
    Dest.scan e' before scratch (own.dest.msg e) = some own.dest := by
  rw [own.msg_eq, Dest.scan]
  have hscan := scanRecord_printRecord own.dest_fit e e' own.dest.gid scratch
  change scanRecord e' 3 scratch _ = _ at hscan
  rw [hscan]
  rfl

/-- The next bytes of a known stream. -/
theorem piece_eq (heard rest : List UInt8) {piece w : List UInt8} (hlen : piece.length = w.length)
    (h : heard ++ piece <+: heard ++ (w ++ rest)) : piece = w := by
  have hpiece := (List.prefix_append_right_inj heard).mp h
  have hw : w <+: w ++ rest := List.prefix_append _ _
  exact (List.prefix_of_prefix_length_le hpiece hw hlen.le).eq_of_length hlen

section Single
variable (host : Player → Host) (own : Player → Own) (connectCtx : Player → Dest → List Call)

/-- What a party has to tell of itself. -/
def sent (p : Player) : List UInt8 := (own p).dest.msg (host p).endian

/-- The first party is the client. -/
def singleMain : Player → Talk (Exit Dest)
  | .first => clientMain (host .first) (own .first).dest (connectCtx .first)
  | .second => serverMain (host .second) (own .second).dest (connectCtx .second)

def clientContract : Contract UInt8 Call (Exit Dest) where
  hears := sent host own .second
  readsFail := True
  keeps heard told _ := told <+: sent host own .first ++ doneMsg ∧
    (msgSize < told.length → heard = sent host own .second)
  ends heard _ log r := r ≠ .overrun ∧ ∀ d, r = .ready d →
    d = (own .second).dest ∧ heard = sent host own .second ∧ Made log (connectCtx .first d)

def serverContract : Contract UInt8 Call (Exit Dest) where
  hears := sent host own .first ++ doneMsg
  readsFail := True
  keeps _ told log := told <+: sent host own .second ∧
    (told ≠ [] → Made log (connectCtx .second (own .first).dest))
  ends heard _ log r := r ≠ .overrun ∧ ∀ d, r = .ready d →
    d = (own .first).dest ∧ heard = sent host own .first ++ doneMsg ∧
      Made log (connectCtx .second d)

def singleContract : Player → Contract UInt8 Call (Exit Dest)
  | .first => clientContract host own connectCtx
  | .second => serverContract host own connectCtx

variable {host own connectCtx}

theorem client_failed {heard told : List UInt8} {log : List (Call × Bool)}
    (h : (clientContract host own connectCtx).keeps heard told log) :
    (Prog.done (Exit.failed (δ := Dest)) : Talk (Exit Dest)).Meets
      (clientContract host own connectCtx) heard told log :=
  ⟨h, by simp, by simp⟩

theorem clientMain_meets :
    (singleMain host own connectCtx .first).Meets (clientContract host own connectCtx)
      [] [] [] := by
  have hsent : (sent host own .first).length = msgSize := Own.msg_length ..
  -- nothing is heard yet while the record is written
  have hearly : ∀ heard piece log, piece <+: sent host own .first →
      (clientContract host own connectCtx).keeps heard ([] ++ piece) log := by
    intro heard piece log hpiece
    have hle := hpiece.length_le
    exact ⟨hpiece.trans (List.prefix_append _ _), fun h => by simp at h; omega⟩
  refine ⟨fun piece hpiece => ⟨hearly _ _ _ hpiece, client_failed (hearly _ _ _ hpiece)⟩, ?_⟩
  refine ⟨hearly _ _ _ List.prefix_rfl, client_failed (hearly _ _ _ List.prefix_rfl), ?_⟩
  intro piece _ hheard
  simp only [wanted]
  split_ifs with hlen
  · -- the server's record
    obtain rfl : piece = sent host own .second :=
      piece_eq [] [] (hlen.trans (Own.msg_length ..).symm) (by rwa [List.append_nil])
    have hlate : ∀ more log, more <+: doneMsg → (clientContract host own connectCtx).keeps
        ([] ++ sent host own .second) ([] ++ sent host own .first ++ more) log :=
      fun more log hmore => ⟨(List.prefix_append_right_inj _).mpr hmore, fun _ => rfl⟩
    refine ⟨fun more hmore => ⟨hlate _ _ hmore, client_failed (hlate _ _ hmore)⟩, ?_⟩
    refine ⟨hlate _ _ List.prefix_rfl, fun ok => ?_⟩
    cases ok with
    | false => exact client_failed (hlate _ _ List.prefix_rfl)
    | true =>
      simp only [sent, if_true, Own.scan_msg]
      refine Prog.Meets.calls (fun more => hlate _ _ List.prefix_rfl)
        (fun more => client_failed (hlate _ _ List.prefix_rfl))
        ⟨hlate _ _ List.prefix_rfl, by simp, ?_⟩
      intro d hd
      cases hd
      exact ⟨rfl, rfl, made_append _ _⟩
  · exact client_failed (hearly _ _ _ List.prefix_rfl)

theorem server_failed {heard told : List UInt8} {log : List (Call × Bool)}
    (h : (serverContract host own connectCtx).keeps heard told log) :
    (Prog.done (Exit.failed (δ := Dest)) : Talk (Exit Dest)).Meets
      (serverContract host own connectCtx) heard told log :=
  ⟨h, by simp, by simp⟩

theorem serverMain_meets :
    (singleMain host own connectCtx .second).Meets (serverContract host own connectCtx)
      [] [] [] := by
  have hsilent : ∀ heard log, (serverContract host own connectCtx).keeps heard [] log :=
    fun _ _ => ⟨List.nil_prefix, fun h => absurd rfl h⟩
  refine ⟨hsilent _ _, server_failed (hsilent _ _), fun piece _ hheard => ?_⟩
  simp only [wanted]
  split_ifs with hlen
  · -- the client's record
    obtain rfl : piece = sent host own .first :=
      piece_eq [] doneMsg (hlen.trans (Own.msg_length ..).symm) hheard
    refine ⟨hsilent _ _, fun ok => ?_⟩
    cases ok with
    | false => exact server_failed (hsilent _ _)
    | true =>
      simp only [sent, if_true, Own.scan_msg]
      refine Prog.Meets.calls (fun more => hsilent _ _) (fun more => server_failed (hsilent _ _)) ?_
      have hmade := made_append ([] ++ [(Call.malloc, true)])
        (connectCtx .second (own .first).dest)
      have htold : ∀ heard piece, piece <+: sent host own .second →
          (serverContract host own connectCtx).keeps heard ([] ++ piece) _ :=
        fun _ piece hpiece => ⟨hpiece, fun _ => hmade⟩
      refine ⟨fun piece hpiece => ⟨htold _ _ hpiece, server_failed (htold _ _ hpiece)⟩, ?_⟩
      refine ⟨htold _ _ List.prefix_rfl, server_failed (htold _ _ List.prefix_rfl), ?_⟩
      intro reply _ hheard
      by_cases hreply : reply.length = doneMsg.length
      · simp only [wanted, if_pos hreply, Option.isSome_some, if_true]
        obtain rfl : reply = doneMsg := by
          refine piece_eq (sent host own .first) [] hreply ?_
          rw [List.append_nil]
          exact hheard
        refine ⟨htold _ _ List.prefix_rfl, by simp, fun d hd => ?_⟩
        cases hd
        exact ⟨rfl, rfl, hmade⟩
      · simp only [wanted, if_neg hreply, Option.isSome_none, Bool.false_eq_true, if_false]
        exact server_failed (htold _ _ List.prefix_rfl)
  · exact server_failed (hsilent _ _)

theorem single_fits : Fits (singleContract host own connectCtx) := by
  intro p heard told log h
  cases p with
  | first => exact h.1
  | second => exact h.1

theorem singleMain_meets (p : Player) :
    (singleMain host own connectCtx p).Meets (singleContract host own connectCtx p) [] [] [] := by
  cases p with
  | first => exact clientMain_meets
  | second => exact serverMain_meets

variable {room : ℕ} {es : List Event} {N : Network UInt8 Call (Exit Dest)}

/-- In every run, whoever goes on has the destination that its peer started
from and has made its own calls on it; by then the server's calls are made, on
the client's destination, and the client has heard the server's record whole. -/
theorem destinations_agree
    (h : run (step room) (start (singleMain host own connectCtx)) es = some N) (p : Player) :
    (N p).prog ≠ .done .overrun ∧ ∀ d, (N p).prog = .done (.ready d) →
      d = (own p.peer).dest ∧ Made (N p).log (connectCtx p d) ∧
        Made (N .second).log (connectCtx .second (own .first).dest) ∧
        (N .first).heard = sent host own .second := by
  have hkept := kept_of_run (S := singleContract host own connectCtx) single_fits
    (fun p _ => by cases p <;> exact True.intro) singleMain_meets h
  have hsize : ∀ p, (sent host own p).length = msgSize := fun p => Own.msg_length ..
  have hpos : 0 < msgSize := by decide
  have hclient := hkept.keeps .first
  have hserver := hkept.keeps .second
  have hheard := (hkept.heard .first).length_le
  have hheard' := (hkept.heard .second).length_le
  cases p with
  | first =>
    refine ⟨fun hdone => (hkept.ends hdone).1 rfl, fun d hdone => ?_⟩
    obtain ⟨hd, hall, hmade⟩ := (hkept.ends hdone).2 d rfl
    refine ⟨hd, hmade, hserver.2 ?_, hall⟩
    rw [hall, hsize] at hheard
    exact List.ne_nil_of_length_pos (hpos.trans_le hheard)
  | second =>
    refine ⟨fun hdone => (hkept.ends hdone).1 rfl, fun d hdone => ?_⟩
    obtain ⟨hd, hall, hmade⟩ := (hkept.ends hdone).2 d rfl
    refine ⟨hd, hmade, hd ▸ hmade, hclient.2 ?_⟩
    rw [hall, List.length_append, hsize] at hheard'
    have hdone : 0 < doneMsg.length := by decide
    change msgSize < (N .first).told.length
    change _ ≤ (N .first).told.length at hheard'
    omega

end Single

/-- The destination that a program goes on with. -/
def readyOf {κ δ : Type} : Prog UInt8 κ (Exit δ) → Option δ
  | .done (.ready d) => some d
  | _ => none

theorem readyOf_eq_some {κ δ : Type} {prog : Prog UInt8 κ (Exit δ)} {d : δ}
    (h : readyOf prog = some d) : prog = .done (.ready d) := by
  unfold readyOf at h
  split at h
  · cases h
    rfl
  · cases h

def uniformGid (b : UInt8) : Gid := ⟨List.replicate 16 b, List.length_replicate⟩

/-- A little-endian client and a big-endian server, neither with clean memory. -/
def pairHost (p : Player) : Host where
  endian := if p = .first then .little else .big
  before _ := ⟨0xcccccccc, 0xcccccccc, 0xcccccccc, uniformGid 0xcc⟩
  scratch _ := ⟨fun _ => 0xcc, 0xcccccccc⟩

def pairOwn : Player → Own
  | .first => ⟨0x12, 77#24, 0xabcdef01, uniformGid 7⟩
  | .second => ⟨0xffff, 12345#24, 0x12345678, uniformGid 0⟩

def pairConnect (p : Player) : Dest → List Call := rcConnectCtx (pairOwn p).dest.psn

def pairEvents : List Event :=
  [.put .first 20, .put .first 32, .get .second 52, .call .second true, .call .second true,
    .call .second true, .put .second 52, .get .first 52, .put .first 5, .call .first true,
    .get .second 5, .call .first true, .call .first true]

theorem destinations_agree_pair :
    ∃ N, run (step 52) (start (singleMain pairHost pairOwn pairConnect)) pairEvents = some N ∧
      Made (N .first).log (rcConnectCtx (pairOwn .first).dest.psn (pairOwn .second).dest) ∧
      Made (N .second).log (rcConnectCtx (pairOwn .second).dest.psn (pairOwn .first).dest) := by
  have hrun : ((run (step 52) (start (singleMain pairHost pairOwn pairConnect)) pairEvents).map
      fun N => readyOf (N .first).prog) = some (some (pairOwn .second).dest) := by decide +kernel
  obtain ⟨N, hN, hready⟩ := Option.map_eq_some_iff.mp hrun
  have hagree := (destinations_agree hN .first).2 _ (readyOf_eq_some hready)
  exact ⟨N, hN, hagree.2.1, hagree.2.2.1⟩

end CppPlayground.DestExchange
