import CppPlayground.Rot13Isolation
import Mathlib.Data.Finset.Basic

/-!
# The descriptors of the rot13 server

All connections of the server at once. `do_accept` is given any descriptor
that is not open, refuses it above `FD_SETSIZE` and otherwise makes a state
for it; `do_read` and `do_write` run on connections that have a state, and free
it when the connection ends. One event is a whole call of a handler, so the
states of a run are the points between handlers.
-/
namespace CppPlayground.Rot13Descriptors
open Rot13Server Runs

/-- `FD_SETSIZE` -/
def fdSetsize : ℕ := 1024

/-- `openFds` are the descriptors that `accept` returned and that are open.
`closes` and `ended` write down, in order, the descriptors given to `close` and
those whose state was freed or that were refused. -/
structure Server where
  openFds : Finset ℕ
  live : ℕ → Option FdState
  closes : List ℕ
  ended : List ℕ

def start : Server := ⟨∅, fun _ => none, [], []⟩

namespace Server

def close (s : Server) (fd : ℕ) : Server :=
  { s with openFds := s.openFds.erase fd, closes := s.closes ++ [fd] }

/-- The state and its two events are gone; the descriptor is not closed. -/
def freeFdState (s : Server) (fd : ℕ) : Server :=
  { s with live := Function.update s.live fd none, ended := s.ended ++ [fd] }

/-- `do_accept` after `accept` has returned the descriptor. -/
def doAccept (s : Server) (fd : ℕ) (m : PriorMemory) : Server :=
  let s := { s with openFds := insert fd s.openFds }
  if fd > fdSetsize then { s.close fd with ended := s.ended ++ [fd] }
  else { s with live := Function.update s.live fd (some (allocFdState m)) }

/-- What a handler leaves of a connection's state. -/
def keep (s : Server) (fd : ℕ) : Option FdState → Server
  | none => s.freeFdState fd
  | some state => { s with live := Function.update s.live fd (some state) }

end Server

/-- A call of a handler, with the results of the calls it makes. -/
inductive Event where
  | accept (fd : ℕ) (m : PriorMemory)
  | read (fd : ℕ) (chunks : List Chunk) (finish : RecvEnd)
  | write (fd : ℕ) (outcomes : List SendOutcome)

/-- `do_read` may run on any connection, `do_write` while its event is added;
each `send` it makes has one outcome. -/
def step (s : Server) : Event → Option Server
  | .accept fd m => if fd ∈ s.openFds then none else some (s.doAccept fd m)
  | .read fd chunks finish => (s.live fd).map fun state => s.keep fd (doRead state chunks finish)
  | .write fd outcomes => (s.live fd).bind fun state =>
      if state.writePending ∧ (doWrite state outcomes).2.length = outcomes.length then
        some (s.keep fd (doWrite state outcomes).1)
      else none

/-- Open is what has a state, what has ended was closed once, and no
descriptor with a state is out of `FD_SETSIZE`. -/
structure LifeCycle (s : Server) : Prop where
  open_iff_live : ∀ fd, fd ∈ s.openFds ↔ s.live fd ≠ none
  closed_once : ∀ fd, s.closes.count fd = s.ended.count fd
  below_setsize : ∀ fd, s.live fd ≠ none → fd < fdSetsize

/-- The call ends its connection: `recv` meets the end of the stream or
fails, or a `send` fails. -/
def Event.Ends : Event → Prop
  | .accept .. => False
  | .read _ _ finish => finish ≠ .again
  | .write _ outcomes => .error ∈ outcomes

/-- The one descriptor that is neither refused nor below `FD_SETSIZE`. -/
def Event.AtBoundary : Event → Prop
  | .accept fd _ => fd = fdSetsize
  | .read .. => False
  | .write .. => False

@[simp] theorem keep_openFds (s : Server) (fd : ℕ) (left : Option FdState) :
    (s.keep fd left).openFds = s.openFds := by
  cases left <;> rfl

@[simp] theorem keep_live (s : Server) (fd : ℕ) (left : Option FdState) :
    (s.keep fd left).live = Function.update s.live fd left := by
  cases left <;> rfl

theorem doRead_eq_none {state : FdState} {chunks : List Chunk} {finish : RecvEnd} :
    doRead state chunks finish = none ↔ finish ≠ .again := by
  unfold doRead
  split_ifs with h <;> simp [h]

/-- A write frees the state exactly when one of its `send` calls failed. -/
theorem doWrite_eq_none {state : FdState} {outcomes : List SendOutcome}
    (hcalls : (doWrite state outcomes).2.length = outcomes.length) :
    (doWrite state outcomes).1 = none ↔ .error ∈ outcomes := by
  induction outcomes generalizing state with
  | nil =>
      simp only [doWrite] at hcalls ⊢
      split_ifs at hcalls ⊢ with h
      simp
  | cons outcome rest ih =>
      simp only [doWrite] at hcalls ⊢
      split_ifs at hcalls ⊢ with h
      · cases outcome with
        | room k =>
            simp only [List.length_cons, Nat.add_right_cancel_iff] at hcalls
            simp only [ih hcalls, List.mem_cons, reduceCtorEq, false_or]
        | again =>
            simp only [List.length_cons, List.length_nil, Nat.add_right_cancel_iff] at hcalls
            simp [List.eq_nil_of_length_eq_zero hcalls.symm]
        | error => simp

/-- A refused descriptor leaves only its entries in the record. -/
theorem doAccept_refused {s : Server} {fd : ℕ} (m : PriorMemory) (h : fd > fdSetsize)
    (hnew : fd ∉ s.openFds) : s.doAccept fd m =
      { s with closes := s.closes ++ [fd], ended := s.ended ++ [fd] } := by
  simp only [Server.doAccept, if_pos h, Server.close, Finset.erase_insert hnew]

theorem doAccept_taken {s : Server} {fd : ℕ} (m : PriorMemory) (h : ¬ fd > fdSetsize) :
    s.doAccept fd m = { s with
      openFds := insert fd s.openFds
      live := Function.update s.live fd (some (allocFdState m)) } := by
  simp only [Server.doAccept, if_neg h]

/-- All that a step can be: a connection is refused, or taken, or one of its
handlers is called. -/
inductive Effect (s : Server) : Event → Server → Prop where
  | refused (fd : ℕ) (m : PriorMemory) (hfd : fd > fdSetsize) :
      Effect s (.accept fd m) { s with closes := s.closes ++ [fd], ended := s.ended ++ [fd] }
  | taken (fd : ℕ) (m : PriorMemory) (hfd : ¬ fd > fdSetsize) (hnew : fd ∉ s.openFds) :
      Effect s (.accept fd m) { s with
        openFds := insert fd s.openFds
        live := Function.update s.live fd (some (allocFdState m)) }
  | handled (e : Event) (fd : ℕ) (state : FdState) (left : Option FdState)
      (hstate : s.live fd = some state) (hends : left = none ↔ e.Ends)
      (hbound : ¬ e.AtBoundary) : Effect s e (s.keep fd left)

theorem step_effect {s t : Server} {e : Event} (h : step s e = some t) : Effect s e t := by
  cases e with
  | accept fd m =>
      simp only [step] at h
      split_ifs at h with hnew
      rw [Option.some.injEq] at h
      subst h
      by_cases hfd : fd > fdSetsize
      · rw [doAccept_refused m hfd hnew]
        exact .refused fd m hfd
      · rw [doAccept_taken m hfd]
        exact .taken fd m hfd hnew
  | read fd chunks finish =>
      simp only [step, Option.map_eq_some_iff] at h
      obtain ⟨state, hstate, rfl⟩ := h
      exact .handled _ fd state _ hstate doRead_eq_none id
  | write fd outcomes =>
      simp only [step, Option.bind_eq_some_iff] at h
      obtain ⟨state, hstate, h⟩ := h
      split_ifs at h with hcalls
      exact Option.some.inj h ▸ .handled _ fd state _ hstate (doWrite_eq_none hcalls.2) id

/-- Every state belongs to an open descriptor. -/
def LiveOpen (s : Server) : Prop := ∀ fd, s.live fd ≠ none → fd ∈ s.openFds

/-- A descriptor is open without a state, or the one at the boundary has a state. -/
def Damaged (s : Server) : Prop :=
  (∃ fd ∈ s.openFds, s.live fd = none) ∨ s.live fdSetsize ≠ none

theorem LifeCycle.not_damaged {s : Server} (h : LifeCycle s) : ¬ Damaged s := by
  rintro (⟨fd, hopen, hnone⟩ | hlive)
  · exact (h.open_iff_live fd).mp hopen hnone
  · exact lt_irrefl _ (h.below_setsize fdSetsize hlive)

theorem LiveOpen.step {s t : Server} {e : Event} (hs : LiveOpen s) (h : step s e = some t) :
    LiveOpen t := by
  intro x hx
  cases step_effect h with
  | refused fd m hfd => exact hs x hx
  | taken fd m hfd hnew =>
      rw [Finset.mem_insert]
      by_cases hxfd : x = fd
      · exact .inl hxfd
      · simp only [Function.update_of_ne hxfd] at hx
        exact .inr (hs x hx)
  | handled _ fd state left hstate hends hbound =>
      rw [keep_openFds]
      by_cases hxfd : x = fd
      · rw [hxfd]
        exact hs fd (by simp [hstate])
      · rw [keep_live, Function.update_of_ne hxfd] at hx
        exact hs x hx

/-- Damage stays: no handler closes a descriptor that `accept` can return again. -/
theorem Damaged.step {s t : Server} {e : Event} (hs : LiveOpen s) (hd : Damaged s)
    (h : step s e = some t) : Damaged t := by
  cases step_effect h with
  | refused fd m hfd => exact hd
  | taken fd m hfd hnew =>
      rcases hd with ⟨x, hopen, hnone⟩ | hlive
      · have hne : x ≠ fd := fun heq => hnew (heq ▸ hopen)
        exact .inl ⟨x, Finset.mem_insert_of_mem hopen,
          (Function.update_of_ne hne _ _).trans hnone⟩
      · have hne : fdSetsize ≠ fd := fun heq => hnew (heq ▸ hs _ hlive)
        refine .inr ?_
        change Function.update s.live fd _ fdSetsize ≠ none
        rw [Function.update_of_ne hne]
        exact hlive
  | handled _ fd state left hstate hends hbound =>
      have hopen : fd ∈ s.openFds := hs fd (by simp [hstate])
      cases left with
      | none => exact .inl ⟨fd, hopen, by rw [keep_live, Function.update_self]⟩
      | some state' =>
          rcases hd with ⟨x, hx, hnone⟩ | hlive
          · have hne : x ≠ fd := fun heq => by simp [← heq, hnone] at hstate
            exact .inl ⟨x, hx, by rw [keep_live, Function.update_of_ne hne, hnone]⟩
          · refine .inr ?_
            rw [keep_live]
            by_cases hfd : fdSetsize = fd
            · simp [hfd]
            · rwa [Function.update_of_ne hfd]

/-- A call that ends a connection, or an accept at the boundary, does damage. -/
theorem damaged_of_leak {s t : Server} {e : Event} (hs : LiveOpen s)
    (hleak : e.Ends ∨ e.AtBoundary) (h : step s e = some t) : Damaged t := by
  cases step_effect h with
  | refused fd m hfd =>
      have hboundary : fd = fdSetsize := by simpa [Event.Ends, Event.AtBoundary] using hleak
      omega
  | taken fd m hfd hnew =>
      have hboundary : fd = fdSetsize := by simpa [Event.Ends, Event.AtBoundary] using hleak
      refine .inr ?_
      simp [hboundary]
  | handled _ fd state left hstate hends hbound =>
      have hnone : left = none := hends.mpr (hleak.resolve_right hbound)
      rw [hnone]
      exact .inl ⟨fd, hs fd (by simp [hstate]), by rw [keep_live, Function.update_self]⟩

/-- Every other call keeps the life cycle. -/
theorem LifeCycle.step {s t : Server} {e : Event} (hs : LifeCycle s)
    (hquiet : ¬ e.Ends ∧ ¬ e.AtBoundary) (h : step s e = some t) : LifeCycle t := by
  cases step_effect h with
  | refused fd m hfd =>
      refine ⟨hs.open_iff_live, fun x => ?_, hs.below_setsize⟩
      simp only [List.count_append, hs.closed_once x]
  | taken fd m hfd hnew =>
      have hne : fd ≠ fdSetsize := hquiet.2
      have hlt : fd < fdSetsize := by omega
      refine ⟨fun x => ?_, hs.closed_once, fun x hx => ?_⟩
      · by_cases hx : x = fd
        · simp [hx]
        · simp only [Finset.mem_insert, hx, false_or, Function.update_of_ne hx]
          exact hs.open_iff_live x
      · by_cases hxfd : x = fd
        · rw [hxfd]
          exact hlt
        · exact hs.below_setsize x (by simpa [Function.update_of_ne hxfd] using hx)
  | handled _ fd state left hstate hends hbound =>
      cases left with
      | none => exact absurd (hends.mp rfl) hquiet.1
      | some state' =>
          have hlive : ∀ x, (s.keep fd (some state')).live x ≠ none ↔ s.live x ≠ none := by
            intro x
            by_cases hx : x = fd
            · simp [hx, hstate]
            · rw [keep_live, Function.update_of_ne hx]
          refine ⟨fun x => ?_, hs.closed_once, fun x hx => hs.below_setsize x ((hlive x).mp hx)⟩
          rw [hlive]
          exact hs.open_iff_live x

theorem lifeCycle_start : LifeCycle start where
  open_iff_live fd := by simp [start]
  closed_once fd := rfl
  below_setsize fd h := by simp [start] at h

/-- The life cycle holds after exactly the runs in which no handler ended a
connection and `accept` never returned `FD_SETSIZE` itself. -/
theorem descriptors_iff {es : List Event} {s : Server} (h : run step start es = some s) :
    LifeCycle s ↔ ∀ e ∈ es, ¬ e.Ends ∧ ¬ e.AtBoundary := by
  have hrun : LiveOpen s ∧ ((∀ e ∈ es, ¬ e.Ends ∧ ¬ e.AtBoundary) → LifeCycle s) ∧
      ((∃ e ∈ es, e.Ends ∨ e.AtBoundary) → Damaged s) := by
    refine history_invariant (I := fun es s => LiveOpen s ∧
      ((∀ e ∈ es, ¬ e.Ends ∧ ¬ e.AtBoundary) → LifeCycle s) ∧
      ((∃ e ∈ es, e.Ends ∨ e.AtBoundary) → Damaged s)) ?_ ?_ h
    · exact ⟨fun fd hfd => by simp [start] at hfd, fun _ => lifeCycle_start, by simp⟩
    · intro es t e u _ hI hstep
      obtain ⟨hopen, hgood, hbad⟩ := hI
      refine ⟨hopen.step hstep, fun hquiet => ?_, ?_⟩
      · exact (hgood fun x hx => hquiet x (by simp [hx])).step (hquiet e (by simp)) hstep
      · rintro ⟨x, hx, hleak⟩
        rcases List.mem_append.mp hx with hx | hx
        · exact (hbad ⟨x, hx, hleak⟩).step hopen hstep
        · rw [List.mem_singleton.mp hx] at hleak
          exact damaged_of_leak hopen hleak hstep
  constructor
  · intro hcycle e he
    rw [← not_or]
    exact fun hleak => hcycle.not_damaged (hrun.2.2 ⟨e, he, hleak⟩)
  · exact hrun.2.1

def zeroMemory : PriorMemory := ⟨fun _ => 0, 0, 0, 0⟩

theorem descriptors_idle_connection :
    ∃ s, run step start [.accept 7 zeroMemory, .read 7 [] .again] = some s ∧ LifeCycle s := by
  obtain ⟨s, hs⟩ : ∃ s, run step start [.accept 7 zeroMemory, .read 7 [] .again] = some s :=
    ⟨_, rfl⟩
  refine ⟨s, hs, (descriptors_iff hs).mpr fun e he => ?_⟩
  simp only [List.mem_cons, List.not_mem_nil, or_false] at he
  rcases he with rfl | rfl
  · exact ⟨id, show ¬ 7 = fdSetsize by decide⟩
  · exact ⟨fun h => h rfl, id⟩

/-- A client that closes leaves its descriptor open for ever, and descriptor
1024 gets a state. -/
theorem descriptors_leak :
    (∃ s, run step start [.accept 7 zeroMemory, .read 7 [] .eof] = some s ∧
        7 ∈ s.openFds ∧ s.closes = [] ∧ s.ended = [7] ∧ ¬ LifeCycle s) ∧
      ∃ s, run step start [.accept 1024 zeroMemory] = some s ∧ s.live 1024 ≠ none ∧
        ¬ LifeCycle s := by
  constructor
  · refine ⟨_, rfl, by decide, rfl, rfl, fun h => h.not_damaged (.inl ⟨7, by decide, rfl⟩)⟩
  · have hlive : (start.doAccept 1024 zeroMemory).live 1024 ≠ none := by simp [Server.doAccept, fdSetsize]
    exact ⟨_, rfl, hlive, fun h => h.not_damaged (.inr hlive)⟩

end CppPlayground.Rot13Descriptors
