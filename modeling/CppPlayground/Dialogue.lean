import CppPlayground.Volley
import Mathlib.Data.List.Infix

/-!
# Programs that talk over a byte stream

Two programs are joined by a stream in each direction. A program writes, takes
what one read returns, loops until it has a whole record, or makes a call of
its own that may fail; how it goes on is a function of the result. The streams
may hold any bounded amount, deliver in pieces of any size, end when the peer
is through, and fail at any operation.

A contract of one program is checked on the program alone, against all that the
peer could ever say; two programs that keep their contracts keep them together.
-/
namespace CppPlayground.Dialogue
open Runs Volley

variable {α κ ρ : Type}

/-- `read` is one read of at most so many bytes that has to return just what is
wanted, `fill` a loop of reads until it has so many; `none` is the result of a
read that failed or returned something else. -/
inductive Prog (α κ ρ : Type) where
  | done (r : ρ)
  | write (bytes : List α) (next : Bool → Prog α κ ρ)
  | read (size want : ℕ) (next : Option (List α) → Prog α κ ρ)
  | fill (size : ℕ) (next : Option (List α) → Prog α κ ρ)
  | call (c : κ) (next : Bool → Prog α κ ρ)

/-- What a read that has to return so many bytes makes of those it got. -/
def wanted (want : ℕ) (piece : List α) : Option (List α) :=
  if piece.length = want then some piece else none

/-- The calls in order until one fails. -/
def Prog.calls (next : Bool → Prog α κ ρ) : List κ → Prog α κ ρ
  | [] => next true
  | c::cs => .call c fun ok => if ok then calls next cs else next false

/-- The writes in order until one fails. -/
def Prog.writes (next : Bool → Prog α κ ρ) : List (List α) → Prog α κ ρ
  | [] => next true
  | w::ws => .write w fun ok => if ok then writes next ws else next false

/-- `moved` is the part of the current write or fill that is behind. -/
structure Party (α κ ρ : Type) where
  prog : Prog α κ ρ
  moved : List α
  heard : List α
  told : List α
  log : List (κ × Bool)

abbrev Network (α κ ρ : Type) := Player → Party α κ ρ

def start (prog : Player → Prog α κ ρ) : Network α κ ρ := fun p => ⟨prog p, [], [], [], []⟩

/-- The party goes on after an operation. -/
def Party.goOn (P : Party α κ ρ) (prog : Prog α κ ρ) : Party α κ ρ :=
  { P with prog := prog, moved := [] }

inductive Event where
  | put (p : Player) (k : ℕ)
  | refuse (p : Player)
  | get (p : Player) (k : ℕ)
  | eof (p : Player)
  | fail (p : Player)
  | call (p : Player) (ok : Bool)
  deriving DecidableEq

def unread (N : Network α κ ρ) (p : Player) : List α := (N p.peer).told.drop (N p).heard.length

def Prog.through : Prog α κ ρ → Bool
  | .done _ => true
  | _ => false

def Party.put (P : Party α κ ρ) (space k : ℕ) : Option (Party α κ ρ) :=
  match P.prog with
  | .write bytes next =>
    if 0 < k ∧ P.moved.length + k ≤ bytes.length ∧ k ≤ space then
      let piece := (bytes.drop P.moved.length).take k
      let Q := { P with told := P.told ++ piece, moved := P.moved ++ piece }
      some (if P.moved.length + k = bytes.length then Q.goOn (next true) else Q)
    else none
  | _ => none

/-- A write that fails may have passed on a part of its bytes. -/
def Party.refuse (P : Party α κ ρ) : Option (Party α κ ρ) :=
  match P.prog with
  | .write _ next => some (P.goOn (next false))
  | _ => none

def Party.get (P : Party α κ ρ) (waiting : List α) (k : ℕ) : Option (Party α κ ρ) :=
  if 0 < k ∧ k ≤ waiting.length then
    let piece := waiting.take k
    let Q := { P with heard := P.heard ++ piece, moved := P.moved ++ piece }
    match P.prog with
    | .read size want next =>
      if k ≤ size then some (Q.goOn (next (wanted want piece))) else none
    | .fill size next =>
      if P.moved.length + k < size then some Q
      else if P.moved.length + k = size then some (Q.goOn (next (some Q.moved)))
      else none
    | _ => none
  else none

/-- At the end of the stream a read returns nothing, and a loop goes round. -/
def Party.eof (P : Party α κ ρ) : Option (Party α κ ρ) :=
  match P.prog with
  | .read _ want next => some (P.goOn (next (wanted want [])))
  | .fill _ _ => some P
  | _ => none

def Party.fail (P : Party α κ ρ) : Option (Party α κ ρ) :=
  match P.prog with
  | .read _ _ next => some (P.goOn (next none))
  | .fill _ next => some (P.goOn (next none))
  | _ => none

def Party.call (P : Party α κ ρ) (ok : Bool) : Option (Party α κ ρ) :=
  match P.prog with
  | .call c next => some { P.goOn (next ok) with log := P.log ++ [(c, ok)] }
  | _ => none

/-- `room` bounds what a stream holds unread. -/
def step (room : ℕ) (N : Network α κ ρ) : Event → Option (Network α κ ρ)
  | .put p k => ((N p).put (room - (unread N p.peer).length) k).map (Function.update N p)
  | .refuse p => (N p).refuse.map (Function.update N p)
  | .get p k => ((N p).get (unread N p) k).map (Function.update N p)
  | .eof p =>
    if (N p.peer).prog.through ∧ unread N p = [] then (N p).eof.map (Function.update N p) else none
  | .fail p => (N p).fail.map (Function.update N p)
  | .call p ok => ((N p).call ok).map (Function.update N p)

/-- `hears` is all the peer can ever say; what is kept speaks of the bytes
heard and told and of the calls so far, and holds at every byte. Where the reads
of loops do not fail, nothing is promised for the case that one does. -/
structure Contract (α κ ρ : Type) where
  hears : List α
  readsFail : Prop
  keeps : List α → List α → List (κ × Bool) → Prop
  ends : List α → List α → List (κ × Bool) → ρ → Prop

/-- All of the calls have been made, and succeeded. -/
def Made (log : List (κ × Bool)) (cs : List κ) : Prop := ∀ c ∈ cs, (c, true) ∈ log

theorem made_append (log : List (κ × Bool)) (cs : List κ) :
    Made (log ++ cs.map fun c => (c, true)) cs := by
  intro c hc
  exact List.mem_append_right _ (List.mem_map_of_mem hc)

/-- The contract is kept from here on, whatever the results are. -/
def Prog.Meets (S : Contract α κ ρ) : Prog α κ ρ → List α → List α → List (κ × Bool) → Prop
  | .done r, heard, told, log => S.keeps heard told log ∧ S.ends heard told log r
  | .write bytes next, heard, told, log =>
    (∀ piece, piece <+: bytes →
      S.keeps heard (told ++ piece) log ∧ (next false).Meets S heard (told ++ piece) log) ∧
    (next true).Meets S heard (told ++ bytes) log
  | .read size want next, heard, told, log =>
    S.keeps heard told log ∧ (next none).Meets S heard told log ∧
    ∀ piece, piece.length ≤ size → heard ++ piece <+: S.hears →
      (next (wanted want piece)).Meets S (heard ++ piece) told log
  | .fill size next, heard, told, log =>
    0 < size ∧
    (∀ piece, piece.length < size → heard ++ piece <+: S.hears →
      S.keeps (heard ++ piece) told log ∧
        (S.readsFail → (next none).Meets S (heard ++ piece) told log)) ∧
    ∀ piece, piece.length = size → heard ++ piece <+: S.hears →
      (next (some piece)).Meets S (heard ++ piece) told log
  | .call c next, heard, told, log =>
    S.keeps heard told log ∧ ∀ ok, (next ok).Meets S heard told (log ++ [(c, ok)])

/-- The contract as it stands in the middle of an operation. -/
def Party.Holds (S : Contract α κ ρ) (P : Party α κ ρ) : Prop :=
  match P.prog with
  | .write bytes next => ∃ told, P.told = told ++ P.moved ∧ P.moved <+: bytes ∧
      (Prog.write bytes next).Meets S P.heard told P.log
  | .fill size next => ∃ heard, P.heard = heard ++ P.moved ∧ P.moved.length < size ∧
      (Prog.fill size next).Meets S heard P.told P.log
  | prog => P.moved = [] ∧ prog.Meets S P.heard P.told P.log

section Rules
variable {S : Contract α κ ρ} {P Q : Party α κ ρ}

theorem Prog.Meets.holds {prog : Prog α κ ρ} {heard told : List α} {log : List (κ × Bool)}
    (h : prog.Meets S heard told log) : Party.Holds S ⟨prog, [], heard, told, log⟩ := by
  cases prog with
  | done r => exact ⟨rfl, h⟩
  | write bytes next => exact ⟨told, by simp, List.nil_prefix, h⟩
  | read size want next => exact ⟨rfl, h⟩
  | fill size next => exact ⟨heard, by simp, h.1, h⟩
  | call c next => exact ⟨rfl, h⟩

theorem Party.Holds.keeps (h : P.Holds S) (hheard : P.heard <+: S.hears) :
    S.keeps P.heard P.told P.log := by
  obtain ⟨prog, moved, heard, told, log⟩ := P
  cases prog with
  | done r => exact h.2.1
  | write bytes next =>
    obtain ⟨before, htold, hmoved, hmeets⟩ := h
    rw [htold]
    exact (hmeets.1 moved hmoved).1
  | read size want next => exact h.2.1
  | fill size next =>
    obtain ⟨before, hbefore, hmoved, hmeets⟩ := h
    change heard <+: S.hears at hheard
    change heard = before ++ moved at hbefore
    subst hbefore
    exact (hmeets.2.1 moved hmoved hheard).1
  | call c next => exact h.2.1

theorem Party.Holds.put {space k : ℕ} (h : P.Holds S) (hput : P.put space k = some Q) :
    Q.Holds S := by
  obtain ⟨prog, moved, heard, told, log⟩ := P
  cases prog with
  | write bytes next =>
    obtain ⟨before, htold, ⟨rest, hrest⟩, hmeets⟩ := h
    change told = before ++ moved at htold
    change moved ++ rest = bytes at hrest
    subst htold hrest
    simp only [Party.put] at hput
    split_ifs at hput with hk hall
    · cases hput
      have hpiece : ((moved ++ rest).drop moved.length).take k = rest := by
        rw [List.drop_left]
        exact List.take_of_length_le (by simp only [List.length_append] at hall; omega)
      simp only [hpiece, Party.goOn, List.append_assoc]
      exact hmeets.2.holds
    · cases hput
      refine ⟨before, by simp, ?_, hmeets⟩
      simp only [List.drop_left]
      exact (List.prefix_append_right_inj moved).mpr (List.take_prefix k rest)
  | _ => cases hput

theorem Party.Holds.refuse (h : P.Holds S) (hrefuse : P.refuse = some Q) : Q.Holds S := by
  obtain ⟨prog, moved, heard, told, log⟩ := P
  cases prog with
  | write bytes next =>
    obtain ⟨before, htold, hmoved, hmeets⟩ := h
    cases hrefuse
    change told = before ++ moved at htold
    subst htold
    exact (hmeets.1 moved hmoved).2.holds
  | _ => cases hrefuse

theorem Party.Holds.get {waiting : List α} {k : ℕ} (h : P.Holds S)
    (hpiece : P.heard ++ waiting.take k <+: S.hears) (hget : P.get waiting k = some Q) :
    Q.Holds S := by
  obtain ⟨prog, moved, heard, told, log⟩ := P
  simp only [Party.get] at hget
  split_ifs at hget with hk
  have hlen : (waiting.take k).length = k := by simp [hk.2]
  cases prog with
  | read size want next =>
    simp only at hget
    split_ifs at hget with hsize
    cases hget
    exact (h.2.2.2 _ (hlen.trans_le hsize) hpiece).holds
  | fill size next =>
    obtain ⟨before, hbefore, hmoved, hmeets⟩ := h
    change heard = before ++ moved at hbefore
    subst hbefore
    simp only at hget
    split_ifs at hget with hpart hall
    · cases hget
      exact ⟨before, by simp, by simpa [hk.2] using hpart, hmeets⟩
    · cases hget
      simp only [Party.goOn, List.append_assoc] at hpiece ⊢
      exact (hmeets.2.2 _ (by simpa [hk.2] using hall) hpiece).holds
  | _ => cases hget

theorem Party.Holds.eof (h : P.Holds S) (hheard : P.heard <+: S.hears) (heof : P.eof = some Q) :
    Q.Holds S := by
  obtain ⟨prog, moved, heard, told, log⟩ := P
  cases prog with
  | read size want next =>
    cases heof
    have hnext := h.2.2.2 [] (Nat.zero_le size) (by simpa using hheard)
    simpa [Party.goOn] using hnext.holds
  | fill size next =>
    cases heof
    exact h
  | _ => cases heof

theorem Party.Holds.fail (h : P.Holds S) (hheard : P.heard <+: S.hears) (hreads : S.readsFail)
    (hfail : P.fail = some Q) : Q.Holds S := by
  obtain ⟨prog, moved, heard, told, log⟩ := P
  cases prog with
  | read size want next =>
    cases hfail
    exact h.2.2.1.holds
  | fill size next =>
    obtain ⟨before, hbefore, hmoved, hmeets⟩ := h
    cases hfail
    change heard = before ++ moved at hbefore
    subst hbefore
    exact ((hmeets.2.1 moved hmoved hheard).2 hreads).holds
  | _ => cases hfail

theorem Party.Holds.call {ok : Bool} (h : P.Holds S) (hcall : P.call ok = some Q) :
    Q.Holds S := by
  obtain ⟨prog, moved, heard, told, log⟩ := P
  cases prog with
  | call c next =>
    cases hcall
    exact (h.2.2 ok).holds
  | _ => cases hcall

section Loops
variable {heard told : List α} {log : List (κ × Bool)} {next : Bool → Prog α κ ρ}

theorem Prog.Meets.keeps {prog : Prog α κ ρ} (h : prog.Meets S heard told log)
    (hheard : heard <+: S.hears) : S.keeps heard told log :=
  h.holds.keeps hheard

/-- `log` may grow by calls that succeeded, and by one that did not. -/
theorem Prog.Meets.calls {cs : List κ} (hkeeps : ∀ more, S.keeps heard told (log ++ more))
    (hno : ∀ more, (next false).Meets S heard told (log ++ more))
    (hyes : (next true).Meets S heard told (log ++ cs.map fun c => (c, true))) :
    (Prog.calls next cs).Meets S heard told log := by
  induction cs generalizing log with
  | nil => simpa [Prog.calls] using hyes
  | cons c cs ih =>
    refine ⟨by simpa using hkeeps [], fun ok => ?_⟩
    cases ok with
    | false => exact hno _
    | true =>
      refine ih (fun more => ?_) (fun more => ?_) ?_
      · simpa using hkeeps ((c, true)::more)
      · simpa using hno ((c, true)::more)
      · simpa using hyes

theorem Prog.Meets.writes {ws : List (List α)}
    (hpiece : ∀ piece, piece <+: ws.flatten →
      S.keeps heard (told ++ piece) log ∧ (next false).Meets S heard (told ++ piece) log)
    (hyes : (next true).Meets S heard (told ++ ws.flatten) log) :
    (Prog.writes next ws).Meets S heard told log := by
  induction ws generalizing told with
  | nil => simpa [Prog.writes] using hyes
  | cons w ws ih =>
    refine ⟨fun piece hpre => hpiece piece (hpre.trans (List.prefix_append _ _)), ?_⟩
    refine ih (fun piece hpre => ?_) ?_
    · rw [List.append_assoc]
      exact hpiece _ ((List.prefix_append_right_inj w).mpr hpre)
    · simpa using hyes

end Loops

end Rules

section Frames
variable {P Q : Party α κ ρ}

theorem Party.put_frame {space k : ℕ} (h : P.put space k = some Q) :
    Q.heard = P.heard ∧ k ≤ space ∧ ∃ piece, piece.length = k ∧ Q.told = P.told ++ piece := by
  obtain ⟨prog, moved, heard, told, log⟩ := P
  cases prog with
  | write bytes next =>
    simp only [Party.put] at h
    split_ifs at h with hk hall
    · cases h
      exact ⟨rfl, hk.2.2, _, by simp only [List.length_take, List.length_drop]; omega, rfl⟩
    · cases h
      exact ⟨rfl, hk.2.2, _, by simp only [List.length_take, List.length_drop]; omega, rfl⟩
  | _ => cases h

theorem Party.get_frame {waiting : List α} {k : ℕ} (h : P.get waiting k = some Q) :
    Q.told = P.told ∧ 0 < k ∧ k ≤ waiting.length ∧ Q.heard = P.heard ++ waiting.take k := by
  obtain ⟨prog, moved, heard, told, log⟩ := P
  simp only [Party.get] at h
  split_ifs at h with hk
  cases prog with
  | read size want next =>
    simp only at h
    split_ifs at h
    cases h
    exact ⟨rfl, hk.1, hk.2, rfl⟩
  | fill size next =>
    simp only at h
    split_ifs at h <;> (cases h; exact ⟨rfl, hk.1, hk.2, rfl⟩)
  | _ => cases h

theorem Party.refuse_frame (h : P.refuse = some Q) : Q.heard = P.heard ∧ Q.told = P.told := by
  obtain ⟨prog, moved, heard, told, log⟩ := P
  cases prog <;> cases h
  exact ⟨rfl, rfl⟩

theorem Party.eof_frame (h : P.eof = some Q) : Q.heard = P.heard ∧ Q.told = P.told := by
  obtain ⟨prog, moved, heard, told, log⟩ := P
  cases prog <;> cases h <;> exact ⟨rfl, rfl⟩

theorem Party.fail_frame (h : P.fail = some Q) : Q.heard = P.heard ∧ Q.told = P.told := by
  obtain ⟨prog, moved, heard, told, log⟩ := P
  cases prog <;> cases h <;> exact ⟨rfl, rfl⟩

theorem Party.call_frame {ok : Bool} (h : P.call ok = some Q) :
    Q.heard = P.heard ∧ Q.told = P.told := by
  obtain ⟨prog, moved, heard, told, log⟩ := P
  cases prog <;> cases h
  exact ⟨rfl, rfl⟩

end Frames

/-- All that a party can say under its contract is what the peer's expects. -/
def Fits (S : Player → Contract α κ ρ) : Prop :=
  ∀ p heard told log, (S p).keeps heard told log → told <+: (S p.peer).hears

structure Kept (S : Player → Contract α κ ρ) (N : Network α κ ρ) : Prop where
  holds : ∀ p, (N p).Holds (S p)
  heard : ∀ p, (N p).heard <+: (N p.peer).told
  hears : ∀ p, (N p).heard <+: (S p).hears

section Together
variable {S : Player → Contract α κ ρ} {N N' : Network α κ ρ} {room : ℕ}

theorem Kept.keeps (h : Kept S N) (p : Player) : (S p).keeps (N p).heard (N p).told (N p).log :=
  (h.holds p).keeps (h.hears p)

theorem Kept.update {p : Player} {Q : Party α κ ρ} (h : Kept S N) (hQ : Q.Holds (S p))
    (htold : (N p).told <+: Q.told) (hheard : Q.heard <+: (N p.peer).told)
    (hhears : Q.heard <+: (S p).hears) : Kept S (Function.update N p Q) := by
  refine ⟨fun q => ?_, fun q => ?_, fun q => ?_⟩ <;> rcases Player.eq_or_peer p q with rfl | rfl
  · simpa using hQ
  · simpa using h.holds p.peer
  · simpa using hheard
  · simpa using (by simpa using h.heard p.peer : (N p.peer).heard <+: (N p).told).trans htold
  · simpa using hhears
  · simpa using h.hears p.peer

/-- A party that only goes on, with nothing heard or told. -/
theorem Kept.goesOn {p : Player} {Q : Party α κ ρ} (h : Kept S N) (hQ : Q.Holds (S p))
    (hsame : Q.heard = (N p).heard ∧ Q.told = (N p).told) : Kept S (Function.update N p Q) :=
  h.update hQ (by rw [hsame.2]) (by rw [hsame.1]; exact h.heard p)
    (by rw [hsame.1]; exact h.hears p)

/-- What is waiting for a party continues what it has heard. -/
theorem Kept.waiting (h : Kept S N) (p : Player) :
    (N p).heard ++ unread N p = (N p.peer).told := by
  obtain ⟨rest, hrest⟩ := h.heard p
  rw [unread, ← hrest, List.drop_left]

theorem Kept.step {e : Event} (hfits : Fits S) (hreads : ∀ p, e = .fail p → (S p).readsFail)
    (h : Kept S N) (hstep : Dialogue.step room N e = some N') : Kept S N' := by
  cases e with
  | put p k =>
    obtain ⟨Q, hQ, rfl⟩ := Option.map_eq_some_iff.mp hstep
    obtain ⟨hheard, _, piece, _, htold⟩ := Party.put_frame hQ
    refine h.update ((h.holds p).put hQ) ?_ ?_ ?_
    · rw [htold]
      exact List.prefix_append _ _
    · rw [hheard]
      exact h.heard p
    · rw [hheard]
      exact h.hears p
  | refuse p =>
    obtain ⟨Q, hQ, rfl⟩ := Option.map_eq_some_iff.mp hstep
    exact h.goesOn ((h.holds p).refuse hQ) (Party.refuse_frame hQ)
  | get p k =>
    obtain ⟨Q, hQ, rfl⟩ := Option.map_eq_some_iff.mp hstep
    obtain ⟨htold, _, _, hheard⟩ := Party.get_frame hQ
    have hsaid : (N p).heard ++ (unread N p).take k <+: (N p.peer).told := by
      rw [← h.waiting p]
      exact (List.prefix_append_right_inj _).mpr (List.take_prefix _ _)
    have hears : (N p).heard ++ (unread N p).take k <+: (S p).hears :=
      hsaid.trans (by simpa using hfits p.peer _ _ _ (h.keeps p.peer))
    refine h.update ((h.holds p).get hears hQ) (by rw [htold]) ?_ ?_
    · rwa [hheard]
    · rwa [hheard]
  | eof p =>
    simp only [Dialogue.step] at hstep
    split_ifs at hstep
    obtain ⟨Q, hQ, rfl⟩ := Option.map_eq_some_iff.mp hstep
    exact h.goesOn ((h.holds p).eof (h.hears p) hQ) (Party.eof_frame hQ)
  | fail p =>
    obtain ⟨Q, hQ, rfl⟩ := Option.map_eq_some_iff.mp hstep
    exact h.goesOn ((h.holds p).fail (h.hears p) (hreads p rfl) hQ) (Party.fail_frame hQ)
  | call p ok =>
    obtain ⟨Q, hQ, rfl⟩ := Option.map_eq_some_iff.mp hstep
    exact h.goesOn ((h.holds p).call hQ) (Party.call_frame hQ)

/-- Programs that keep their contracts each on its own keep them in every run. -/
theorem kept_of_run {prog : Player → Prog α κ ρ} {es : List Event} (hfits : Fits S)
    (hreads : ∀ p, .fail p ∈ es → (S p).readsFail) (hprog : ∀ p, (prog p).Meets (S p) [] [] [])
    (h : run (Dialogue.step room) (start prog) es = some N) : Kept S N := by
  have hown : run (guarded (fun _ e => decide (e ∈ es)) (Dialogue.step room)) (start prog) es =
      some N := run_guarded (by simp) h
  refine Runs.invariant (fun hN hstep => ?_)
    ⟨fun p => (hprog p).holds, fun _ => List.nil_prefix, fun _ => List.nil_prefix⟩ hown
  obtain ⟨hmem, hstep⟩ := guarded_eq_some.mp hstep
  exact hN.step hfits (fun p he => hreads p (he ▸ of_decide_eq_true hmem)) hstep

/-- What a program that is through has promised. -/
theorem Kept.ends {p : Player} {r : ρ} (h : Kept S N) (hdone : (N p).prog = .done r) :
    (S p).ends (N p).heard (N p).told (N p).log r := by
  have hp := h.holds p
  simp only [Party.Holds, hdone] at hp
  exact hp.2.2

end Together

end CppPlayground.Dialogue
