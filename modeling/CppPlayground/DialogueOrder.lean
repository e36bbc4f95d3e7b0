import CppPlayground.Dialogue

/-!
# Programs that follow one order of bytes

A program may follow an order of bytes, each named by who tells it: it tells and
hears its own in turn, makes its calls, and ends well if nothing fails. When
both programs follow one order they cannot wait for each other, as long as the
streams hold what the longest single read wants: the party that is behind can
move, or waits only for what the other can do at once, and every move is one
off a fixed amount. A single read that returns less than it wants is a fault; a
loop of reads does not care.
-/
namespace CppPlayground.Dialogue
open Runs Volley

variable {α κ ρ : Type}

/-- Without faults the program tells and hears its bytes in this order, named
by who tells them, makes at most so many calls and ends well. No single read
wants more than there is room for. -/
def Prog.Follows (room : ℕ) (p : Player) (hears : List α) (good : ρ → Prop) :
    Prog α κ ρ → List α → List Player → ℕ → Prop
  | .done r, _, order, _ => order = [] ∧ good r
  | .write bytes next, heard, order, calls => bytes ≠ [] ∧ ∃ rest,
      order = List.replicate bytes.length p ++ rest ∧
        (next true).Follows room p hears good heard rest calls
  | .read size want next, heard, order, calls => 0 < want ∧ want ≤ size ∧ want ≤ room ∧ ∃ rest,
      order = List.replicate want p.peer ++ rest ∧
        ∀ piece, piece.length = want → heard ++ piece <+: hears →
          (next (some piece)).Follows room p hears good (heard ++ piece) rest calls
  | .fill size next, heard, order, calls => 0 < size ∧ ∃ rest,
      order = List.replicate size p.peer ++ rest ∧
        ∀ piece, piece.length = size → heard ++ piece <+: hears →
          (next (some piece)).Follows room p hears good (heard ++ piece) rest calls
  | .call _ next, heard, order, calls => ∃ m, calls = m + 1 ∧
      (next true).Follows room p hears good heard order m

/-- What is ahead of a party in the middle of an operation. -/
def Party.Ahead (room : ℕ) (p : Player) (hears : List α) (good : ρ → Prop) (P : Party α κ ρ)
    (order : List Player) (calls : ℕ) : Prop :=
  match P.prog with
  | .write bytes next => P.moved.length < bytes.length ∧ ∃ rest,
      order = List.replicate (bytes.length - P.moved.length) p ++ rest ∧
        (next true).Follows room p hears good P.heard rest calls
  | .fill size next => P.moved.length < size ∧ ∃ heard rest, P.heard = heard ++ P.moved ∧
      order = List.replicate (size - P.moved.length) p.peer ++ rest ∧
        ∀ piece, piece.length = size → heard ++ piece <+: hears →
          (next (some piece)).Follows room p hears good (heard ++ piece) rest calls
  | prog => prog.Follows room p hears good P.heard order calls

section Order
variable {room : ℕ} {p : Player} {hears : List α} {good : ρ → Prop} {P Q : Party α κ ρ}
  {order : List Player} {calls : ℕ}

theorem Prog.Follows.ahead {prog : Prog α κ ρ} {heard told : List α} {log : List (κ × Bool)}
    (h : prog.Follows room p hears good heard order calls) :
    Party.Ahead room p hears good ⟨prog, [], heard, told, log⟩ order calls := by
  cases prog with
  | write bytes next =>
    obtain ⟨hne, rest, hrest, hnext⟩ := h
    exact ⟨List.length_pos_iff.mpr hne, rest, hrest, hnext⟩
  | fill size next =>
    obtain ⟨hpos, rest, hrest, hnext⟩ := h
    exact ⟨hpos, heard, rest, by simp, hrest, hnext⟩
  | _ => exact h

theorem Party.Ahead.put {space k : ℕ} (h : P.Ahead room p hears good order calls)
    (hput : P.put space k = some Q) :
    0 < k ∧ ∃ rest, order = List.replicate k p ++ rest ∧ Q.Ahead room p hears good rest calls := by
  obtain ⟨prog, moved, heard, told, log⟩ := P
  cases prog with
  | write bytes next =>
    obtain ⟨hmoved, rest, rfl, hnext⟩ := h
    simp only [Party.put] at hput
    split_ifs at hput with hk hall
    · cases hput
      refine ⟨hk.1, rest, ?_, hnext.ahead⟩
      simp only [← hall, Nat.add_sub_cancel_left]
    · cases hput
      have hle : moved.length + k ≤ bytes.length := hk.2.1
      change ¬ moved.length + k = bytes.length at hall
      refine ⟨hk.1, List.replicate (bytes.length - (moved.length + k)) p ++ rest, ?_, ?_⟩
      · rw [← List.append_assoc, ← List.replicate_add]
        congr 2
        simp only
        omega
      · have hlen : (moved ++ (bytes.drop moved.length).take k).length = moved.length + k := by
          simp only [List.length_append, List.length_take, List.length_drop]
          omega
        refine ⟨?_, rest, ?_, hnext⟩
        · simp only [hlen]
          omega
        · simp only [hlen]
  | _ => cases hput

/-- Not a single read that returns less than it wants. -/
def Party.Whole (P : Party α κ ρ) (k : ℕ) : Prop :=
  match P.prog with
  | .read _ want _ => k = want
  | _ => True

instance (P : Party α κ ρ) (k : ℕ) : Decidable (P.Whole k) := by
  unfold Party.Whole
  split <;> infer_instance

theorem Party.Ahead.get {waiting : List α} {k : ℕ} (h : P.Ahead room p hears good order calls)
    (hwhole : P.Whole k) (hpiece : P.heard ++ waiting.take k <+: hears)
    (hget : P.get waiting k = some Q) :
    0 < k ∧ ∃ rest, order = List.replicate k p.peer ++ rest ∧
      Q.Ahead room p hears good rest calls := by
  obtain ⟨prog, moved, heard, told, log⟩ := P
  simp only [Party.get] at hget
  split_ifs at hget with hk
  have hlen : (waiting.take k).length = k := by simp [hk.2]
  cases prog with
  | fill size next =>
    obtain ⟨hmoved, before, rest, hbefore, rfl, hnext⟩ := h
    change heard = before ++ moved at hbefore
    subst hbefore
    simp only at hget
    split_ifs at hget with hpart hall
    · cases hget
      refine ⟨hk.1, List.replicate (size - (moved.length + k)) p.peer ++ rest, ?_, ?_⟩
      · rw [← List.append_assoc, ← List.replicate_add]
        congr 2
        simp only
        omega
      · refine ⟨?_, before, rest, ?_, ?_, hnext⟩
        · simp only [List.length_append, hlen]
          exact hpart
        · simp only [List.append_assoc]
        · simp only [List.length_append, hlen]
    · cases hget
      refine ⟨hk.1, rest, ?_, ?_⟩
      · simp only [← hall, Nat.add_sub_cancel_left]
      · simp only [Party.goOn, List.append_assoc] at hpiece ⊢
        exact (hnext _ (by simpa only [List.length_append, hlen] using hall) hpiece).ahead
  | read size want next =>
    obtain ⟨hwant, hsize, _, rest, rfl, hnext⟩ := h
    obtain rfl : k = want := hwhole
    simp only at hget
    split_ifs at hget
    cases hget
    refine ⟨hwant, rest, rfl, ?_⟩
    simp only [wanted, hlen, if_true]
    exact (hnext _ hlen hpiece).ahead
  | _ => cases hget

theorem Party.Ahead.call (h : P.Ahead room p hears good order calls)
    (hcall : P.call true = some Q) :
    ∃ m, calls = m + 1 ∧ Q.Ahead room p hears good order m := by
  obtain ⟨prog, moved, heard, told, log⟩ := P
  cases prog with
  | call c next =>
    cases hcall
    obtain ⟨m, rfl, hnext⟩ := h
    exact ⟨m, rfl, hnext.ahead⟩
  | _ => cases hcall

/-- An end of the stream is met only by a party that still has to hear. -/
theorem Party.Ahead.eof (h : P.Ahead room p hears good order calls) (heof : P.eof = some Q) :
    ∃ rest, order = p.peer::rest := by
  obtain ⟨prog, moved, heard, told, log⟩ := P
  cases prog with
  | fill size next =>
    obtain ⟨hmoved, before, rest, _, rfl, _⟩ := h
    obtain ⟨n, hn⟩ := Nat.exists_eq_add_of_lt hmoved
    simp only at hn
    refine ⟨List.replicate n p.peer ++ rest, ?_⟩
    rw [show size - moved.length = n + 1 by omega, List.replicate_succ, List.cons_append]
  | read size want next =>
    obtain ⟨hwant, _, _, rest, rfl, _⟩ := h
    obtain ⟨n, hn⟩ := Nat.exists_eq_add_of_lt hwant
    refine ⟨List.replicate n p.peer ++ rest, ?_⟩
    rw [show want = n + 1 by omega, List.replicate_succ, List.cons_append]
  | _ => cases heof

theorem Party.Ahead.through (h : P.Ahead room p hears good order calls)
    (hthrough : P.prog.through = true) : order = [] := by
  obtain ⟨prog, moved, heard, told, log⟩ := P
  cases prog with
  | done r => exact h.1
  | _ => cases hthrough

/-- A party is through, or can make a call, or has to tell or to hear and will
when there is space or enough is waiting. -/
theorem Party.Ahead.cases (hroom : 0 < room) (h : P.Ahead room p hears good order calls) :
    (order = [] ∧ ∃ r, P.prog = .done r ∧ good r) ∨ (∃ Q, P.call true = some Q) ∨
      (∃ rest, order = p::rest ∧ ∀ space, 0 < space → ∃ Q, P.put space 1 = some Q) ∨
      ∃ want rest, 0 < want ∧ want ≤ room ∧ order = List.replicate want p.peer ++ rest ∧
        ∀ waiting : List α, want ≤ waiting.length →
          P.Whole want ∧ ∃ Q, P.get waiting want = some Q := by
  obtain ⟨prog, moved, heard, told, log⟩ := P
  cases prog with
  | done r => exact .inl ⟨h.1, r, rfl, h.2⟩
  | write bytes next =>
    obtain ⟨hmoved, rest, rfl, _⟩ := h
    obtain ⟨n, hn⟩ := Nat.exists_eq_add_of_lt hmoved
    simp only at hmoved hn
    refine .inr (.inr (.inl ⟨List.replicate n p ++ rest, ?_, fun space hspace => ?_⟩))
    · rw [show bytes.length - moved.length = n + 1 by omega, List.replicate_succ, List.cons_append]
    · simp only [Party.put]
      rw [if_pos ⟨by omega, by omega, hspace⟩]
      exact ⟨_, rfl⟩
  | read size want next =>
    obtain ⟨hwant, hsize, hfits, rest, rfl, _⟩ := h
    refine .inr (.inr (.inr ⟨want, rest, hwant, hfits, rfl, fun waiting hwaiting => ⟨rfl, ?_⟩⟩))
    simp only [Party.get]
    rw [if_pos ⟨hwant, hwaiting⟩, if_pos hsize]
    exact ⟨_, rfl⟩
  | fill size next =>
    obtain ⟨hmoved, before, rest, _, rfl, _⟩ := h
    obtain ⟨n, hn⟩ := Nat.exists_eq_add_of_lt hmoved
    simp only at hmoved hn
    refine .inr (.inr (.inr ⟨1, List.replicate n p.peer ++ rest, Nat.one_pos, hroom, ?_,
      fun waiting hwaiting => ⟨True.intro, ?_⟩⟩))
    · rw [show size - moved.length = n + 1 by omega, List.replicate_succ, List.cons_append]
      rfl
    · simp only [Party.get]
      rw [if_pos ⟨by omega, hwaiting⟩]
      split_ifs
      · exact ⟨_, rfl⟩
      · exact ⟨_, rfl⟩
      · omega
  | call c next => exact .inr (.inl ⟨_, rfl⟩)

end Order

section Loops
variable {room : ℕ} {p : Player} {hears heard : List α} {good : ρ → Prop} {order : List Player}
  {next : Bool → Prog α κ ρ}

theorem Prog.Follows.calls {cs : List κ} {m : ℕ}
    (h : (next true).Follows room p hears good heard order m) :
    (Prog.calls next cs).Follows room p hears good heard order (cs.length + m) := by
  induction cs with
  | nil => simpa [Prog.calls] using h
  | cons c cs ih => exact ⟨cs.length + m, by rw [List.length_cons]; omega, ih⟩

theorem Prog.Follows.writes {ws : List (List α)} {m : ℕ} (hws : ∀ w ∈ ws, w ≠ [])
    (h : (next true).Follows room p hears good heard order m) :
    (Prog.writes next ws).Follows room p hears good heard
      (List.replicate ws.flatten.length p ++ order) m := by
  induction ws with
  | nil => simpa [Prog.writes] using h
  | cons w ws ih =>
    refine ⟨hws w (by simp), _, ?_, ih fun v hv => hws v (by simp [hv])⟩
    rw [List.flatten_cons, List.length_append, List.replicate_add, List.append_assoc]

end Loops

/-- Nothing fails and no single read is short; a loop that goes round at the end
of a stream counts as smooth. -/
def smooth (N : Network α κ ρ) : Event → Bool
  | .put _ _ | .eof _ => true
  | .get p k => decide ((N p).Whole k)
  | .call _ ok => ok
  | .refuse _ | .fail _ => false

/-- For each party the bytes and the calls still ahead. -/
abbrev Track := Player → List Player × ℕ

def Track.left (T : Track) : ℕ :=
  (T .first).1.length + (T .first).2 + ((T .second).1.length + (T .second).2)

theorem Track.left_update {T : Track} {p : Player} {rest : List Player} {calls : ℕ}
    (h : rest.length + calls + 1 ≤ (T p).1.length + (T p).2) :
    Track.left (Function.update T p (rest, calls)) + 1 ≤ T.left := by
  cases p <;> simp only [Track.left, Function.update_self, ne_eq, reduceCtorEq, not_false_eq_true,
    Function.update_of_ne] <;> omega

/-- `taken` is the part of the order that a party has behind it. -/
def Behind (order taken rest : List Player) (p : Player) (P : Party α κ ρ) : Prop :=
  order = taken ++ rest ∧ taken.count p = P.told.length ∧ taken.count p.peer = P.heard.length

structure OnTrack (room : ℕ) (S : Player → Contract α κ ρ) (good : Player → ρ → Prop)
    (order : List Player) (N : Network α κ ρ) (T : Track) : Prop where
  kept : Kept S N
  ahead : ∀ p, (N p).Ahead room p (S p).hears (good p) (T p).1 (T p).2
  behind : ∀ p, ∃ taken, Behind order taken (T p).1 p (N p)

section Both
variable {S : Player → Contract α κ ρ} {good : Player → ρ → Prop} {order : List Player}
  {N N' : Network α κ ρ} {T : Track} {room : ℕ}

theorem OnTrack.update {p : Player} {Q : Party α κ ρ} {rest : List Player} {calls : ℕ}
    (h : OnTrack room S good order N T) (hkept : Kept S (Function.update N p Q))
    (hahead : Q.Ahead room p (S p).hears (good p) rest calls)
    (hbehind : ∃ taken, Behind order taken rest p Q) :
    OnTrack room S good order (Function.update N p Q) (Function.update T p (rest, calls)) := by
  refine ⟨hkept, fun q => ?_, fun q => ?_⟩ <;> rcases Player.eq_or_peer p q with rfl | rfl
  · simpa using hahead
  · simpa using h.ahead p.peer
  · simpa using hbehind
  · simpa using h.behind p.peer

theorem OnTrack.step {e : Event} (hfits : Fits S) (h : OnTrack room S good order N T)
    (hsmooth : smooth N e = true) (hstep : Dialogue.step room N e = some N') :
    ∃ T', OnTrack room S good order N' T' ∧ T'.left + 1 ≤ T.left := by
  have hkept := h.kept.step hfits (fun p he => by rw [he] at hsmooth; cases hsmooth) hstep
  cases e with
  | put p k =>
    obtain ⟨Q, hQ, rfl⟩ := Option.map_eq_some_iff.mp hstep
    obtain ⟨hheard, _, piece, hpiece, htold⟩ := Party.put_frame hQ
    obtain ⟨hk, rest, hrest, hahead⟩ := (h.ahead p).put hQ
    obtain ⟨taken, horder, hp, hpeer⟩ := h.behind p
    refine ⟨_, h.update hkept hahead ⟨taken ++ List.replicate k p, ?_, ?_, ?_⟩,
      Track.left_update ?_⟩
    · rw [horder, hrest, List.append_assoc]
    · rw [List.count_append, List.count_replicate_self, hp, htold, List.length_append, hpiece]
    · rw [List.count_append, hpeer, hheard, List.count_replicate]
      simp
    · rw [hrest, List.length_append, List.length_replicate]
      omega
  | get p k =>
    obtain ⟨Q, hQ, rfl⟩ := Option.map_eq_some_iff.mp hstep
    obtain ⟨htold, _, hle, hheard⟩ := Party.get_frame hQ
    have hhears := hkept.hears p
    rw [Function.update_self, hheard] at hhears
    obtain ⟨hk, rest, hrest, hahead⟩ := (h.ahead p).get (of_decide_eq_true hsmooth) hhears hQ
    obtain ⟨taken, horder, hp, hpeer⟩ := h.behind p
    refine ⟨_, h.update hkept hahead ⟨taken ++ List.replicate k p.peer, ?_, ?_, ?_⟩,
      Track.left_update ?_⟩
    · rw [horder, hrest, List.append_assoc]
    · rw [List.count_append, hp, htold, List.count_replicate]
      simp
    · rw [List.count_append, List.count_replicate_self, hpeer, hheard, List.length_append,
        List.length_take, min_eq_left hle]
    · rw [hrest, List.length_append, List.length_replicate]
      omega
  | eof p =>
    -- the peer is through, so all it had to tell is waiting
    simp only [Dialogue.step] at hstep
    split_ifs at hstep with hend
    obtain ⟨Q, hQ, rfl⟩ := Option.map_eq_some_iff.mp hstep
    obtain ⟨rest, hrest⟩ := (h.ahead p).eof hQ
    obtain ⟨taken, horder, _, hpeer⟩ := h.behind p
    obtain ⟨taken', horder', htold, _⟩ := h.behind p.peer
    rw [(h.ahead p.peer).through hend.1, List.append_nil] at horder'
    have hwaiting := congrArg List.length (h.kept.waiting p)
    rw [hend.2, List.append_nil, ← htold, ← hpeer, ← horder', horder, hrest, List.count_append,
      List.count_cons_self] at hwaiting
    omega
  | call p ok =>
    obtain ⟨Q, hQ, rfl⟩ := Option.map_eq_some_iff.mp hstep
    cases ok with
    | false => cases hsmooth
    | true =>
      obtain ⟨m, hm, hahead⟩ := (h.ahead p).call hQ
      obtain ⟨hheard, htold⟩ := Party.call_frame hQ
      obtain ⟨taken, horder, hp, hpeer⟩ := h.behind p
      refine ⟨_, h.update hkept hahead ⟨taken, horder, by rw [hp, htold], by rw [hpeer, hheard]⟩,
        Track.left_update ?_⟩
      omega
  | refuse p => cases hsmooth
  | fail p => cases hsmooth

/-- What lies between two parties on the order is behind one and ahead of the other. -/
theorem Behind.between {taken taken' rest rest' : List Player} {p q : Player}
    {P Q : Party α κ ρ} (h : Behind order taken rest p P) (h' : Behind order taken' rest' q Q)
    (hle : taken.length ≤ taken'.length) : ∃ mid, taken' = taken ++ mid ∧ rest = mid ++ rest' := by
  obtain ⟨mid, hmid⟩ := List.prefix_of_prefix_length_le ⟨rest, h.1.symm⟩ ⟨rest', h'.1.symm⟩ hle
  refine ⟨mid, hmid.symm, ?_⟩
  have hsame := h.1.symm.trans h'.1
  rw [← hmid, List.append_assoc] at hsame
  exact List.append_cancel_left hsame

/-- Part of what one party waits for has been told; the rest is next. -/
theorem next_of_part {q : Player} {want : ℕ} {mid rest rest' : List Player}
    (hsame : List.replicate want q ++ rest = mid ++ rest') (hpart : mid.count q < want) :
    ∃ tail, rest' = q::tail := by
  induction mid generalizing want with
  | nil =>
    obtain ⟨n, rfl⟩ := Nat.exists_eq_add_of_lt hpart
    exact ⟨_, by simpa [List.replicate_succ] using hsame.symm⟩
  | cons b mid ih =>
    obtain ⟨n, rfl⟩ : ∃ n, want = n + 1 := ⟨want - 1, by omega⟩
    rw [List.replicate_succ, List.cons_append, List.cons_append, List.cons.injEq] at hsame
    rw [← hsame.1, List.count_cons_self] at hpart
    exact ih hsame.2 (by omega)

/-- A party with a byte to tell, and space for it, tells it or makes a call first. -/
theorem OnTrack.moves_to_tell {q : Player} {tail : List Player} (hroom : 0 < room)
    (h : OnTrack room S good order N T) (hnext : (T q).1 = q::tail)
    (hspace : (unread N q.peer).length < room) :
    ∃ e N', smooth N e = true ∧ Dialogue.step room N e = some N' := by
  rcases (h.ahead q).cases hroom with ⟨hnil, _⟩ | ⟨Q, hQ⟩ | ⟨_, _, hput⟩ |
    ⟨want, _, hwant, _, hcons, _⟩
  · exact absurd (hnil.symm.trans hnext) (by simp)
  · exact ⟨.call q true, _, rfl, Option.map_eq_some_iff.mpr ⟨Q, hQ, rfl⟩⟩
  · obtain ⟨Q, hQ⟩ := hput (room - (unread N q.peer).length) (by omega)
    exact ⟨.put q 1, _, rfl, Option.map_eq_some_iff.mpr ⟨Q, hQ, rfl⟩⟩
  · obtain ⟨n, rfl⟩ : ∃ n, want = n + 1 := ⟨want - 1, by omega⟩
    rw [hnext, List.replicate_succ, List.cons_append, List.cons.injEq] at hcons
    exact absurd hcons.1 q.ne_peer

/-- The party that is not ahead of its peer can move, or waits only for what
the peer can do at once. -/
theorem OnTrack.moves_of_behind {p : Player} {taken taken' : List Player} (hroom : 0 < room)
    (h : OnTrack room S good order N T) (hp : Behind order taken (T p).1 p (N p))
    (hq : Behind order taken' (T p.peer).1 p.peer (N p.peer)) (hle : taken.length ≤ taken'.length) :
    (∀ q, ∃ r, (N q).prog = .done r ∧ good q r) ∨
      ∃ e N', smooth N e = true ∧ Dialogue.step room N e = some N' := by
  obtain ⟨mid, hmid, hrest⟩ := hp.between hq hle
  have hwaiting := congrArg List.length (h.kept.waiting p)
  have hwaiting' := congrArg List.length (h.kept.waiting p.peer)
  rw [List.length_append] at hwaiting hwaiting'
  rw [Player.peer_peer] at hwaiting'
  obtain ⟨_, htold, hheard⟩ := hp
  obtain ⟨_, htold', hheard'⟩ := hq
  rw [Player.peer_peer] at hheard'
  have hcall : ∀ {q Q}, (N q).call true = some Q →
      ∃ e N', smooth N e = true ∧ Dialogue.step room N e = some N' := by
    intro q Q hQ
    exact ⟨.call q true, _, rfl, Option.map_eq_some_iff.mpr ⟨Q, hQ, rfl⟩⟩
  rcases (h.ahead p).cases hroom with
    ⟨hnil, hdone⟩ | ⟨Q, hQ⟩ | ⟨rest, hrest', _⟩ | ⟨want, rest, _, hfits, hrest', hget⟩
  · -- through itself; so has the peer nothing to tell or to hear
    rw [hnil] at hrest
    obtain ⟨rfl, hnil'⟩ := List.append_eq_nil_iff.mp hrest.symm
    rcases (h.ahead p.peer).cases hroom with ⟨_, hdone'⟩ | ⟨Q, hQ⟩ | ⟨_, hcons, _⟩ |
      ⟨want, _, hwant, _, hcons, _⟩
    · left
      intro q
      rcases Player.eq_or_peer p q with rfl | rfl
      · exact hdone
      · exact hdone'
    · exact .inr (hcall hQ)
    · exact absurd (hnil'.symm.trans hcons) (by simp)
    · have hlen := congrArg List.length (hnil'.symm.trans hcons)
      simp only [List.length_nil, List.length_append, List.length_replicate] at hlen
      omega
  · exact .inr (hcall hQ)
  · -- a byte to tell: the peer cannot have it yet, so it has all that came before
    right
    refine h.moves_to_tell hroom hrest' ?_
    cases mid with
    | nil =>
      rw [List.append_nil] at hmid
      rw [hmid] at hheard'
      omega
    | cons b mid =>
      rw [hrest', List.cons_append, List.cons.injEq] at hrest
      rw [hmid, ← hrest.1, List.count_append, List.count_cons_self] at hheard'
      omega
  · right
    by_cases hall : want ≤ (unread N p).length
    · obtain ⟨hwhole, Q, hQ⟩ := hget _ hall
      exact ⟨.get p want, _, decide_eq_true hwhole, Option.map_eq_some_iff.mpr ⟨Q, hQ, rfl⟩⟩
    · -- not all that it wants has been told, and the peer comes to that next
      rw [hmid, List.count_append] at htold'
      obtain ⟨tail, htail⟩ := next_of_part (hrest'.symm.trans hrest) (by omega)
      exact h.moves_to_tell hroom htail (by rw [Player.peer_peer]; omega)

/-- Two programs on one order are through, both well, or one of them can move. -/
theorem OnTrack.moves (hroom : 0 < room) (h : OnTrack room S good order N T) :
    (∀ q, ∃ r, (N q).prog = .done r ∧ good q r) ∨
      ∃ e N', smooth N e = true ∧ Dialogue.step room N e = some N' := by
  obtain ⟨taken, hp⟩ := h.behind .first
  obtain ⟨taken', hq⟩ := h.behind .second
  rcases Nat.le_total taken.length taken'.length with hle | hle
  · exact h.moves_of_behind hroom hp hq hle
  · exact h.moves_of_behind (p := .second) hroom hq hp hle

/-- Runs without a fault stay on the order, are bounded, and where nothing can
move both programs are through and well. -/
theorem smooth_run {prog : Player → Prog α κ ρ} {calls : Player → ℕ} {es : List Event}
    (hroom : 0 < room) (hfits : Fits S) (hprog : ∀ p, (prog p).Meets (S p) [] [] [])
    (hfollows : ∀ p, (prog p).Follows room p (S p).hears (good p) [] order (calls p))
    (h : run (guarded smooth (Dialogue.step room)) (start prog) es = some N) :
    es.length ≤ 2*order.length + calls .first + calls .second ∧
      ((∀ q, ∃ r, (N q).prog = .done r ∧ good q r) ∨
        ∃ e N', smooth N e = true ∧ Dialogue.step room N e = some N') := by
  have hstart : OnTrack room S good order (start prog) fun p => (order, calls p) :=
    ⟨⟨fun p => (hprog p).holds, fun _ => List.nil_prefix, fun _ => List.nil_prefix⟩,
      fun p => (hfollows p).ahead, fun p => ⟨[], rfl, rfl, rfl⟩⟩
  obtain ⟨T, hT, hlen⟩ := Runs.stuttering_potential (R := OnTrack room S good order)
    (fun _ T => Track.left T) (fun hR hstep => by
      obtain ⟨hsmooth, hstep⟩ := guarded_eq_some.mp hstep
      exact hR.step hfits hsmooth hstep) hstart h
  refine ⟨?_, hT.moves hroom⟩
  simp only [Track.left] at hlen
  omega

end Both

end CppPlayground.Dialogue
