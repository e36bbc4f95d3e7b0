import Mathlib.Data.List.Basic
import Mathlib.Tactic.NormNum
import Mathlib.Tactic.Common

/-!
# Polling with a time-out

`poll_completion` of rdma1.cpp asks the completion queue until it gets an
answer or `MAX_POLL_CQ_TIMEOUT` milliseconds have passed on the wall clock.
Readings are cut to milliseconds and subtracted as `unsigned long`, so a clock
that was set back seems far ahead, and up to a millisecond of the time-out can
be lost to the cutting. A time-out is honest unless one of these two ended the
wait.
-/
namespace CppPlayground.PollCompletion

/-- `MAX_POLL_CQ_TIMEOUT`, in milliseconds. -/
def maxPollCqTimeout : ℤ := 2000

/-- A reading of `gettimeofday` on which the arithmetic in `long` is defined. -/
structure Timeval where
  tvSec : ℤ
  tvUsec : ℕ
  usec_lt : tvUsec < 1000000
  fits : -2 ^ 63 ≤ tvSec*1000 ∧ tvSec*1000 + (tvUsec / 1000 : ℕ) < 2 ^ 63

def Timeval.usec (t : Timeval) : ℤ := t.tvSec*1000000 + t.tvUsec

/-- `(cur_time.tv_sec * 1000) + (cur_time.tv_usec / 1000)` -/
def Timeval.msec (t : Timeval) : ℤ := t.tvSec*1000 + (t.tvUsec / 1000 : ℕ)

/-- The value of a `long` as an `unsigned long`. -/
def unsignedLong (x : ℤ) : ℤ := x % 2 ^ 64

/-- `cur_time_msec - start_time_msec` -/
def elapsedMsec (start cur : Timeval) : ℤ :=
  unsignedLong (unsignedLong cur.msec - unsignedLong start.msec)

/-- A work completion; status 0 is `IBV_WC_SUCCESS`. -/
structure Wc where
  status : ℕ
  vendorErr : ℕ
  deriving DecidableEq

/-- What `ibv_poll_cq` returns: a negative number, zero, or one completion. -/
inductive PollResult where
  | failed
  | empty
  | found (wc : Wc)
  deriving DecidableEq

/-- One pass of the loop: a poll, then a reading of the clock. -/
structure Pass where
  poll : PollResult
  time : Timeval

/-- The loop goes on after the pass. -/
def Pass.Again (start : Timeval) (p : Pass) : Prop :=
  p.poll = .empty ∧ elapsedMsec start p.time < maxPollCqTimeout

instance (start : Timeval) (p : Pass) : Decidable (p.Again start) :=
  inferInstanceAs (Decidable (_ ∧ _))

/-- The passes of a loop that has ended. -/
structure Polls where
  before : List Pass
  last : Pass

def Polls.made (p : Polls) : List Pass := p.before ++ [p.last]

/-- The `do`-`while` loop; with too few passes it has not ended. -/
def pollLoop (start : Timeval) : List Pass → Option Polls
  | [] => none
  | p::passes =>
      if p.Again start then
        (pollLoop start passes).map fun polls => { polls with before := p::polls.before }
      else some ⟨[], p⟩

/-- What `poll_completion` has to say, each a line of its own. -/
inductive Message where
  | pollFailed
  | queueEmpty
  | completionFound (status : ℕ)
  | badCompletion (status vendorErr : ℕ)
  deriving DecidableEq

def hexText (n : ℕ) : String := String.ofList (Nat.toDigits 16 n)

def Message.text : Message → String
  | .pollFailed => "poll CQ failed\n"
  | .queueEmpty => "completion wasn't found in the CQ after timeout\n"
  | .completionFound status =>
      "completion was found in CQ with status 0x" ++ hexText status ++ "\n"
  | .badCompletion status vendorErr =>
      "got bad completion with status: 0x" ++ hexText status ++ ", vendor syndrome: 0x" ++
        hexText vendorErr ++ "\n"

/-- No other line reads like that of the empty queue. -/
@[simp] theorem queueEmpty_text_iff {m : Message} :
    Message.text .queueEmpty = m.text ↔ m = .queueEmpty := by
  refine ⟨fun h => ?_, fun h => by rw [h]⟩
  have hchars := String.toList_inj.mpr h
  -- the lines are put in by `change`: unfolding `Message.text` would compare them all
  cases m with
  | queueEmpty => rfl
  | pollFailed =>
      change "completion wasn't found in the CQ after timeout\n".toList =
        "poll CQ failed\n".toList at hchars
      simp at hchars
  | completionFound status =>
      change "completion wasn't found in the CQ after timeout\n".toList =
        ("completion was found in CQ with status 0x" ++ hexText status ++ "\n").toList at hchars
      simp at hchars
  | badCompletion status vendorErr =>
      change "completion wasn't found in the CQ after timeout\n".toList =
        ("got bad completion with status: 0x" ++ hexText status ++ ", vendor syndrome: 0x" ++
          hexText vendorErr ++ "\n").toList at hchars
      simp at hchars

structure Outcome where
  rc : ℤ
  printed : List String
  polls : Polls

/-- `poll_completion` after its loop. -/
def report (polls : Polls) : Outcome :=
  match polls.last.poll with
  | .failed => ⟨1, [Message.text .pollFailed], polls⟩
  | .empty => ⟨1, [Message.text .queueEmpty], polls⟩
  | .found wc =>
      if wc.status ≠ 0 then
        ⟨1, [Message.text (.completionFound wc.status),
          Message.text (.badCompletion wc.status wc.vendorErr)], polls⟩
      else ⟨0, [Message.text (.completionFound wc.status)], polls⟩

/-- `start` is the reading before the loop. -/
def pollCompletion (start : Timeval) (passes : List Pass) : Option Outcome :=
  (pollLoop start passes).map report

theorem pollLoop_made {start : Timeval} {passes : List Pass} {polls : Polls}
    (h : pollLoop start passes = some polls) :
    ∃ rest, passes = polls.before ++ polls.last::rest ∧
      (∀ p ∈ polls.before, p.Again start) ∧ ¬ polls.last.Again start := by
  induction passes generalizing polls with
  | nil => cases h
  | cons p passes ih =>
      simp only [pollLoop] at h
      split_ifs at h with hagain
      · obtain ⟨inner, hinner, rfl⟩ := Option.map_eq_some_iff.mp h
        obtain ⟨rest, hpasses, hbefore, hlast⟩ := ih hinner
        refine ⟨rest, by rw [hpasses, List.cons_append], ?_, hlast⟩
        intro q hq
        rcases List.mem_cons.mp hq with rfl | hq
        · exact hagain
        · exact hbefore q hq
      · cases h
        exact ⟨passes, rfl, by simp, hagain⟩

/-- The loop ends at the first pass after which it does not go on. -/
theorem pollLoop_unique {start : Timeval} {before : List Pass} {p : Pass} (rest : List Pass)
    (hbefore : ∀ q ∈ before, q.Again start) (hp : ¬ p.Again start) :
    pollLoop start (before ++ p::rest) = some ⟨before, p⟩ := by
  induction before with
  | nil => exact if_neg hp
  | cons q before ih =>
      have hrest := ih fun x hx => hbefore x (by simp [hx])
      rw [List.cons_append, pollLoop, if_pos (hbefore q (by simp)), hrest, Option.map_some]

/-- Among the polls that were made the first one that was not empty is a
completion with a good status. -/
def Polls.Good (polls : Polls) : Prop :=
  ∃ wc, (polls.made.map Pass.poll).find? (· ≠ .empty) = some (.found wc) ∧ wc.status = 0

theorem find_made {start : Timeval} {polls : Polls} (h : ∀ p ∈ polls.before, p.Again start) :
    (polls.made.map Pass.poll).find? (· ≠ .empty) =
      if polls.last.poll = .empty then none else some polls.last.poll := by
  have hnone : (polls.before.map Pass.poll).find? (· ≠ .empty) = none := by
    rw [List.find?_eq_none]
    intro r hr
    obtain ⟨p, hp, rfl⟩ := List.mem_map.mp hr
    simp [(h p hp).1]
  rw [Polls.made, List.map_append, List.find?_append, hnone, Option.none_or]
  split_ifs with hlast <;> simp [hlast]

theorem rc_zero_iff {start : Timeval} {polls : Polls} (h : ∀ p ∈ polls.before, p.Again start) :
    (report polls).rc = 0 ↔ polls.Good := by
  rw [Polls.Good, find_made h, report]
  cases hlast : polls.last.poll with
  | failed => simp
  | empty => simp
  | found wc =>
      by_cases hstatus : wc.status = 0
      · simp [hstatus]
      · simp [hstatus]

theorem reports_empty_iff (polls : Polls) :
    Message.text .queueEmpty ∈ (report polls).printed ↔ polls.last.poll = .empty := by
  rw [report]
  cases hlast : polls.last.poll with
  | failed => simp
  | empty => simp
  | found wc => by_cases hstatus : wc.status = 0 <;> simp [hstatus]

@[simp] theorem report_polls (polls : Polls) : (report polls).polls = polls := by
  unfold report
  split
  · rfl
  · rfl
  · split_ifs <;> rfl

/-- The reading ends the wait too early: it lies in an earlier millisecond than
the first one, and the difference wraps; or it lies in the millisecond exactly
the time-out after it, and the time-out is reached by cutting only. -/
def EndsEarly (start cur : Timeval) : Prop :=
  (cur.msec < start.msec ∧ start.msec - cur.msec ≤ 2 ^ 64 - maxPollCqTimeout) ∨
    (cur.msec = start.msec + maxPollCqTimeout ∧ cur.tvUsec % 1000 < start.tvUsec % 1000)

instance (start cur : Timeval) : Decidable (EndsEarly start cur) :=
  inferInstanceAs (Decidable (_ ∨ _))

theorem elapsedMsec_eq (start cur : Timeval) :
    elapsedMsec start cur =
      if start.msec ≤ cur.msec then cur.msec - start.msec else cur.msec - start.msec + 2 ^ 64 := by
  have hstart := start.fits
  have hcur := cur.fits
  simp only [elapsedMsec, unsignedLong, Timeval.msec]
  split_ifs <;> omega

theorem usec_eq (t : Timeval) : t.usec = t.msec*1000 + (t.tvUsec % 1000 : ℕ) := by
  simp only [Timeval.usec, Timeval.msec]
  omega

/-- Ending early is being past the time-out in the code's arithmetic and not
past it in truth. -/
theorem endsEarly_iff (start cur : Timeval) :
    EndsEarly start cur ↔ maxPollCqTimeout ≤ elapsedMsec start cur ∧
      cur.usec < start.usec + maxPollCqTimeout*1000 := by
  have hstart := start.fits
  have hcur := cur.fits
  rw [elapsedMsec_eq, usec_eq, usec_eq, EndsEarly, maxPollCqTimeout]
  split_ifs <;> omega

/-- What is asked of a call that has returned. -/
structure PollsRight (start : Timeval) (o : Outcome) : Prop where
  zero_iff : o.rc = 0 ↔ o.polls.Good
  empty_late : Message.text .queueEmpty ∈ o.printed → (∀ p ∈ o.polls.made, p.poll = .empty) ∧
    start.usec + maxPollCqTimeout*1000 ≤ o.polls.last.time.usec

/-- The result is always right; a call that returns does not report an empty
queue too early exactly if no reading that follows nothing but empty polls
ends the wait early. -/
theorem polls_right_iff {start : Timeval} {passes : List Pass} {o : Outcome}
    (h : pollCompletion start passes = some o) :
    PollsRight start o ↔
      ∀ before p after, passes = before ++ p::after → (∀ q ∈ before, q.Again start) →
        p.poll = .empty → ¬ EndsEarly start p.time := by
  obtain ⟨polls, hloop, rfl⟩ := Option.map_eq_some_iff.mp h
  obtain ⟨rest, hpasses, hbefore, hlast⟩ := pollLoop_made hloop
  constructor
  · intro hright before p after hsplit hagain hempty hearly
    obtain ⟨hover, hshort⟩ := (endsEarly_iff start p.time).mp hearly
    have hstop : ¬ p.Again start := fun hp => by
      have hbelow := hp.2
      omega
    -- the call has returned after this pass
    rw [hsplit, pollLoop_unique after hagain hstop, Option.some.injEq] at hloop
    subst hloop
    have hlate : start.usec + maxPollCqTimeout*1000 ≤ p.time.usec := by
      have hlast := (hright.empty_late ((reports_empty_iff _).mpr hempty)).2
      rwa [report_polls] at hlast
    omega
  · intro hhonest
    refine ⟨by rw [report_polls]; exact rc_zero_iff hbefore, fun hreport => ?_⟩
    have hempty := (reports_empty_iff polls).mp hreport
    have hearly := hhonest polls.before polls.last rest hpasses hbefore hempty
    rw [report_polls]
    constructor
    · intro p hp
      rcases List.mem_append.mp hp with hp | hp
      · exact (hbefore p hp).1
      · rw [List.mem_singleton.mp hp]
        exact hempty
    · by_contra hshort
      have hover : maxPollCqTimeout ≤ elapsedMsec start polls.last.time := by
        by_contra hbelow
        exact hlast ⟨hempty, by omega⟩
      exact hearly ((endsEarly_iff _ _).mpr ⟨hover, by omega⟩)

/-- A reading of a clock that shows so many seconds and microseconds. -/
def clockAt (sec usec : ℕ) (h : usec < 1000000 ∧ sec < 2 ^ 53) : Timeval where
  tvSec := sec
  tvUsec := usec
  usec_lt := h.1
  fits := by omega

/-- Two empty polls, then a completion, with a clock that runs. -/
def runningClock : List Pass :=
  [⟨.empty, clockAt 100 950 (by decide)⟩, ⟨.empty, clockAt 101 0 (by decide)⟩,
    ⟨.found ⟨0, 0⟩, clockAt 101 50 (by decide)⟩]

theorem polls_right_running_clock :
    ∃ o, pollCompletion (clockAt 100 900 (by decide)) runningClock = some o ∧ o.rc = 0 ∧
      PollsRight (clockAt 100 900 (by decide)) o := by
  obtain ⟨o, ho, hrc⟩ : ∃ o, pollCompletion (clockAt 100 900 (by decide)) runningClock = some o ∧
      o.rc = 0 := ⟨_, rfl, rfl⟩
  refine ⟨o, ho, hrc, (polls_right_iff ho).mpr ?_⟩
  intro before p after hsplit _ _
  have hmem : p ∈ runningClock := by simp [hsplit]
  simp only [runningClock, List.mem_cons, List.not_mem_nil, or_false] at hmem
  rcases hmem with rfl | rfl | rfl <;> decide

/-- The clock is set back by a second while the queue is polled for the first
time: the call gives up at once. -/
theorem times_out_when_set_back :
    ∃ o, pollCompletion (clockAt 100 0 (by decide))
        [⟨.empty, clockAt 99 0 (by decide)⟩] = some o ∧
      Message.text .queueEmpty ∈ o.printed ∧
      o.polls.last.time.usec < (clockAt 100 0 (by decide)).usec := by
  refine ⟨_, rfl, ?_, ?_⟩ <;> decide

end CppPlayground.PollCompletion
