import Mathlib.Logic.Function.Basic
import Mathlib.Order.Nat
import Mathlib.Tactic.Common

/-!
# Straight-line programs that meet

Each party runs a straight-line program, some of whose statements are meetings
with its peer. A meeting is entered first and left later; it can be left only
when the peer has entered as many meetings. How far a party has come then
bounds how far its peer has come, which is all that an order between their
other statements can rest on. Within one program, what the statements so far
have done is a fold over them.
-/
namespace CppPlayground.Rendezvous

variable {P : Type*}

/-- The statement a party is at, and how many meetings it has entered. -/
structure Place where
  pc : ℕ
  entered : ℕ

/-- The meetings among the first statements of a program. -/
def meetings (isMeeting : ℕ → Bool) : ℕ → ℕ
  | 0 => 0
  | n + 1 => meetings isMeeting n + (isMeeting n).toNat

theorem meetings_mono (isMeeting : ℕ → Bool) {m n : ℕ} (h : m ≤ n) :
    meetings isMeeting m ≤ meetings isMeeting n := by
  induction h with
  | refl => exact le_refl _
  | step _ ih => exact ih.trans (Nat.le_add_right _ _)

/-- The count tells places apart. -/
theorem lt_of_meetings_lt {isMeeting : ℕ → Bool} {m n : ℕ}
    (h : meetings isMeeting m < meetings isMeeting n) : m < n := by
  by_contra hle
  have hmono := meetings_mono isMeeting (not_lt.mp hle)
  omega

/-- Fold a value through the statements before the program counter. -/
def after {S A : Type*} (program : List S) (f : S → A → A) (a : A) (pc : ℕ) : A :=
  (program.take pc).foldl (fun x stmt => f stmt x) a

theorem after_next {S A : Type*} {program : List S} {f : S → A → A} {a : A} {pc : ℕ} {stmt : S}
    (h : program[pc]? = some stmt) :
    after program f a (pc + 1) = f stmt (after program f a pc) := by
  simp [after, List.take_add_one, h]

/-- Past the end nothing changes. -/
theorem after_min {S A : Type*} (program : List S) (f : S → A → A) (a : A) (pc : ℕ) :
    after program f a pc = after program f a (min pc program.length) := by
  unfold after
  rw [List.take_eq_take_min]

/-- What a party can do to its place. -/
inductive Move [DecidableEq P] (isMeeting : P → ℕ → Bool) (peer : P → P) (st : P → Place) : (P → Place) → Prop
  | advance (p : P) : isMeeting p (st p).pc = false →
      Move isMeeting peer st (Function.update st p ⟨(st p).pc + 1, (st p).entered⟩)
  | enter (p : P) : isMeeting p (st p).pc = true →
      (st p).entered = meetings (isMeeting p) (st p).pc →
      Move isMeeting peer st (Function.update st p ⟨(st p).pc, (st p).entered + 1⟩)
  | leave (p : P) : isMeeting p (st p).pc = true →
      (st p).entered = meetings (isMeeting p) (st p).pc + 1 →
      meetings (isMeeting p) (st p).pc + 1 ≤ (st (peer p)).entered →
      Move isMeeting peer st (Function.update st p ⟨(st p).pc + 1, (st p).entered⟩)

/-- A party has entered every meeting before its place and at most the one at
it; its peer has entered every meeting that the party has left. -/
structure Met (isMeeting : P → ℕ → Bool) (peer : P → P) (st : P → Place) : Prop where
  lower : ∀ p, meetings (isMeeting p) (st p).pc ≤ (st p).entered
  upper : ∀ p, (st p).entered ≤ meetings (isMeeting p) ((st p).pc + 1)
  peer_entered : ∀ p, meetings (isMeeting p) (st p).pc ≤ (st (peer p)).entered

section
variable {isMeeting : P → ℕ → Bool} {peer : P → P} {st st' : P → Place}

theorem met_start (h : ∀ p, st p = ⟨0, 0⟩) : Met isMeeting peer st := by
  constructor <;> intro p <;> simp [h, meetings]

/-- A party that has left some meetings finds its peer at the last of them or
beyond it. -/
theorem Met.peer_reached (hs : Met isMeeting peer st) (p : P) :
    meetings (isMeeting p) (st p).pc ≤ meetings (isMeeting (peer p)) ((st (peer p)).pc + 1) :=
  (hs.peer_entered p).trans (hs.upper (peer p))

/-- A party past the last of some meetings has a peer that has come to it. -/
theorem Met.peer_at_least (hs : Met isMeeting peer st) {p : P} {m n : ℕ} (hpc : m ≤ (st p).pc)
    (hcount : meetings (isMeeting (peer p)) n < meetings (isMeeting p) m) :
    n ≤ (st (peer p)).pc := by
  have hmono := meetings_mono (isMeeting p) hpc
  have hlt : n < (st (peer p)).pc + 1 :=
    lt_of_meetings_lt (hcount.trans_le (hmono.trans (hs.peer_reached p)))
  omega

variable [DecidableEq P]

/-- A change of one place keeps the invariant when it does so for this place
and takes back no entrance. -/
theorem Met.update {p : P} {pl : Place} (hs : Met isMeeting peer st)
    (hlower : meetings (isMeeting p) pl.pc ≤ pl.entered)
    (hupper : pl.entered ≤ meetings (isMeeting p) (pl.pc + 1))
    (hmono : (st p).entered ≤ pl.entered)
    (hpeer : meetings (isMeeting p) pl.pc ≤ (st (peer p)).entered) :
    Met isMeeting peer (Function.update st p pl) := by
  have hentered : ∀ q, (st q).entered ≤ (Function.update st p pl q).entered := by
    intro q
    by_cases hq : q = p
    · subst hq
      rwa [Function.update_self]
    · rw [Function.update_of_ne hq]
  constructor
  · intro q
    by_cases hq : q = p
    · subst hq
      rwa [Function.update_self]
    · rw [Function.update_of_ne hq]
      exact hs.lower q
  · intro q
    by_cases hq : q = p
    · subst hq
      rwa [Function.update_self]
    · rw [Function.update_of_ne hq]
      exact hs.upper q
  · intro q
    by_cases hq : q = p
    · subst hq
      rw [Function.update_self]
      exact hpeer.trans (hentered _)
    · rw [Function.update_of_ne hq]
      exact (hs.peer_entered q).trans (hentered _)

theorem Met.move (hs : Met isMeeting peer st) (h : Move isMeeting peer st st') :
    Met isMeeting peer st' := by
  cases h with
  | advance p hno =>
      have hstay : meetings (isMeeting p) ((st p).pc + 1) = meetings (isMeeting p) (st p).pc := by
        simp [meetings, hno]
      have hnext := meetings_mono (isMeeting p) (Nat.le_succ ((st p).pc + 1))
      apply hs.update
      · change meetings _ ((st p).pc + 1) ≤ _
        rw [hstay]
        exact hs.lower p
      · exact (hs.upper p).trans hnext
      · exact le_refl _
      · change meetings _ ((st p).pc + 1) ≤ _
        rw [hstay]
        exact hs.peer_entered p
  | enter p hyes hentered =>
      have hgrow : meetings (isMeeting p) ((st p).pc + 1) = meetings (isMeeting p) (st p).pc + 1 := by
        simp [meetings, hyes]
      apply hs.update
      · exact (hs.lower p).trans (Nat.le_succ _)
      · change (st p).entered + 1 ≤ meetings _ ((st p).pc + 1)
        omega
      · exact Nat.le_succ _
      · exact hs.peer_entered p
  | leave p hyes hentered hpeer =>
      have hgrow : meetings (isMeeting p) ((st p).pc + 1) = meetings (isMeeting p) (st p).pc + 1 := by
        simp [meetings, hyes]
      have hnext := meetings_mono (isMeeting p) (Nat.le_succ ((st p).pc + 1))
      apply hs.update
      · change meetings _ ((st p).pc + 1) ≤ (st p).entered
        omega
      · exact (hs.upper p).trans hnext
      · exact le_refl _
      · change meetings _ ((st p).pc + 1) ≤ _
        omega

end

end CppPlayground.Rendezvous
