import CppPlayground.Runs
import Mathlib.Data.Finset.Prod
import Mathlib.Data.Multiset.AddSub
import Mathlib.Data.Set.SymmDiff
import Mathlib.Tactic.Linarith

/-!
# Introduction by greetings with a toggled memory

Parties of any kind introduce themselves to one another. A party may greet
another at any time, and marks that it has. A party that is greeted learns the
greeter; if it carried no mark for the greeter it greets back and marks it,
and otherwise it only takes the mark away. Greetings travel independently and
in any order.

Marks are pairs `(x, y)`, `x` marking `y`; likewise `x` knowing `y`, and a
greeting on its way from `x` to `y`. Three facts are proved about this scheme
alone: without losses and restarts everybody who was greeted and everybody who
greeted end up knowing each other; from any state the greetings die out within
an explicit number of arrivals; and with restarts a party stays unanswered
exactly when its last greeting meets a mark left from before its restart.
-/
namespace CppPlayground.Handshake
open Runs

variable {V : Type*}

@[ext] structure State (V : Type*) where
  knows : Set (V × V)
  marked : Set (V × V)
  flight : Multiset (V × V)

inductive Act (V : Type*) where
  | greet (x y : V)
  | arrive (x y : V)
  | lose (x y : V)
  | restart (x : V)

def Act.IsExchange : Act V → Prop
  | .greet _ _ | .arrive _ _ => True
  | .lose _ _ | .restart _ => False

def Act.IsPassage : Act V → Prop
  | .arrive _ _ | .lose _ _ => True
  | .greet _ _ | .restart _ => False

namespace State

def start (V : Type*) : State V := ⟨∅, ∅, 0⟩

def greet (s : State V) (x y : V) : State V :=
  ⟨s.knows, insert (x, y) s.marked, (x, y) ::ₘ s.flight⟩

variable [DecidableEq V]

open Classical in
/-- The mark is toggled; an arrival that finds no mark is answered. -/
noncomputable def arrive (s : State V) (x y : V) : State V :=
  ⟨insert (y, x) s.knows, symmDiff s.marked {(y, x)},
    if (y, x) ∈ s.marked then s.flight.erase (x, y) else (y, x) ::ₘ s.flight.erase (x, y)⟩

def lose (s : State V) (x y : V) : State V := { s with flight := s.flight.erase (x, y) }

/-- A party forgets whom it knows and whom it marked. -/
def restart (s : State V) (x : V) : State V :=
  ⟨{p ∈ s.knows | p.1 ≠ x}, {p ∈ s.marked | p.1 ≠ x}, s.flight⟩

end State

variable [DecidableEq V]

noncomputable def step (s : State V) : Act V → Option (State V)
  | .greet x y => some (s.greet x y)
  | .arrive x y => if (x, y) ∈ s.flight then some (s.arrive x y) else none
  | .lose x y => if (x, y) ∈ s.flight then some (s.lose x y) else none
  | .restart x => some (s.restart x)

section StepForms
variable {s t : State V} {x y : V}

theorem step_greet (h : step s (.greet x y) = some t) : t = s.greet x y := by
  simpa [step, eq_comm] using h

theorem step_arrive (h : step s (.arrive x y) = some t) : (x, y) ∈ s.flight ∧ t = s.arrive x y := by
  simpa [step, eq_comm] using h

theorem step_lose (h : step s (.lose x y) = some t) : (x, y) ∈ s.flight ∧ t = s.lose x y := by
  simpa [step, eq_comm] using h

theorem step_restart (h : step s (.restart x) = some t) : t = s.restart x := by
  simpa [step, eq_comm] using h

end StepForms

namespace State
variable {s : State V} {x y : V} {p : V × V}

theorem mem_arrive_knows : p ∈ (s.arrive x y).knows ↔ p = (y, x) ∨ p ∈ s.knows := Set.mem_insert_iff

theorem mem_arrive_marked :
    p ∈ (s.arrive x y).marked ↔ (p = (y, x) ∧ p ∉ s.marked) ∨ (p ≠ (y, x) ∧ p ∈ s.marked) := by
  simp only [arrive, Set.mem_symmDiff, Set.mem_singleton_iff]
  tauto

theorem arrive_flight_of_marked (h : (y, x) ∈ s.marked) :
    (s.arrive x y).flight = s.flight.erase (x, y) := if_pos h

theorem arrive_flight_of_unmarked (h : (y, x) ∉ s.marked) :
    (s.arrive x y).flight = (y, x) ::ₘ s.flight.erase (x, y) := if_neg h

theorem mem_arrive_flight (h : p ∈ s.flight.erase (x, y)) : p ∈ (s.arrive x y).flight := by
  unfold arrive
  split_ifs
  · exact h
  · exact Multiset.mem_cons_of_mem h

theorem mem_arrive_flight_of_ne (h : p ∈ s.flight) (hne : p ≠ (x, y)) :
    p ∈ (s.arrive x y).flight := mem_arrive_flight ((Multiset.mem_erase_of_ne hne).mpr h)

theorem mem_arrive_flight_answer (h : (y, x) ∉ s.marked) : (y, x) ∈ (s.arrive x y).flight := by
  rw [arrive_flight_of_unmarked h]
  exact Multiset.mem_cons_self _ _

theorem mem_arrive_flight_eq (h : p ∈ (s.arrive x y).flight) :
    p ∈ s.flight.erase (x, y) ∨ (p = (y, x) ∧ (y, x) ∉ s.marked) := by
  unfold arrive at h
  split_ifs at h with hm
  · exact .inl h
  · rcases Multiset.mem_cons.mp h with rfl | h
    · exact .inr ⟨rfl, hm⟩
    · exact .inl h

end State

/-- A greeting of `x` to `y` is on its way or has arrived. -/
def Announced (s : State V) (x y : V) : Prop := (x, y) ∈ s.flight ∨ (y, x) ∈ s.knows

omit [DecidableEq V] in
theorem Announced.greet {s : State V} {x y u v : V} (h : Announced s x y) :
    Announced (s.greet u v) x y := h.imp (Multiset.mem_cons_of_mem) id

theorem Announced.arrive {s : State V} {x y u v : V} (h : Announced s x y) :
    Announced (s.arrive u v) x y := by
  rcases h with h | h
  · by_cases he : (x, y) = (u, v)
    · simp only [Prod.mk.injEq] at he
      exact .inr (State.mem_arrive_knows.mpr (.inl (by rw [he.1, he.2])))
    · exact .inl (State.mem_arrive_flight_of_ne h he)
  · exact .inr (State.mem_arrive_knows.mpr (.inr h))

/-- Marks and knowledge are never without an announcement behind them. -/
structure Sound (acts : List (Act V)) (s : State V) : Prop where
  greeted : ∀ x y, Act.greet x y ∈ acts → Announced s x y
  marked : ∀ x y, (x, y) ∈ s.marked → Announced s x y
  known : ∀ x y, (y, x) ∈ s.knows → Announced s y x

omit [DecidableEq V] in
theorem Sound.start : Sound [] (State.start V) :=
  ⟨by simp, by simp [State.start], by simp [State.start]⟩

omit [DecidableEq V] in
theorem Sound.greet {acts : List (Act V)} {s : State V} (h : Sound acts s) (x y : V) :
    Sound (acts ++ [.greet x y]) (s.greet x y) := by
  have new : Announced (s.greet x y) x y := .inl (Multiset.mem_cons_self _ _)
  refine ⟨?_, ?_, ?_⟩
  · intro u v huv
    simp only [List.mem_append, List.mem_singleton, Act.greet.injEq] at huv
    rcases huv with huv | ⟨rfl, rfl⟩
    · exact (h.greeted u v huv).greet
    · exact new
  · intro u v huv
    rcases Set.mem_insert_iff.mp huv with huv | huv
    · simp only [Prod.mk.injEq] at huv
      rw [huv.1, huv.2]
      exact new
    · exact (h.marked u v huv).greet
  · intro u v huv
    exact (h.known u v huv).greet

/-- A mark found by an arrival proves that an answer was announced before. -/
theorem Sound.arrive {acts : List (Act V)} {s : State V} (h : Sound acts s) (x y : V) :
    Sound (acts ++ [.arrive x y]) (s.arrive x y) := by
  have answered : Announced (s.arrive x y) y x := by
    by_cases hm : (y, x) ∈ s.marked
    · exact (h.marked y x hm).arrive
    · exact .inl (State.mem_arrive_flight_answer hm)
  refine ⟨?_, ?_, ?_⟩
  · intro u v huv
    simp only [List.mem_append, List.mem_singleton, reduceCtorEq, or_false] at huv
    exact (h.greeted u v huv).arrive
  · intro u v huv
    rcases State.mem_arrive_marked.mp huv with ⟨he, _⟩ | ⟨_, huv⟩
    · simp only [Prod.mk.injEq] at he
      rw [he.1, he.2]
      exact answered
    · exact (h.marked u v huv).arrive
  · intro u v huv
    rcases State.mem_arrive_knows.mp huv with he | huv
    · simp only [Prod.mk.injEq] at he
      rw [he.1, he.2]
      exact answered
    · exact (h.known u v huv).arrive

theorem Sound.of_run {acts : List (Act V)} {s : State V}
    (h : run step (State.start V) acts = some s) (hx : ∀ a ∈ acts, a.IsExchange) : Sound acts s := by
  refine history_invariant (I := fun acts s => (∀ a ∈ acts, a.IsExchange) → Sound acts s)
    (fun _ => Sound.start) ?_ h hx
  intro acts s a t _ ih hstep hall
  have hs := ih fun a ha => hall a (List.mem_append_left _ ha)
  have ha : a.IsExchange := hall a (by simp)
  cases a with
  | greet x y =>
      rw [step_greet hstep]
      exact hs.greet x y
  | arrive x y =>
      rw [(step_arrive hstep).2]
      exact hs.arrive x y
  | lose x y => exact ha.elim
  | restart x => exact ha.elim

/-- Once nothing is on its way, whoever greeted and whoever was greeted know each other. -/
theorem agreement {acts : List (Act V)} {s : State V}
    (h : run step (State.start V) acts = some s) (hx : ∀ a ∈ acts, a.IsExchange)
    (hquiet : s.flight = 0) {x y : V} (hg : Act.greet x y ∈ acts) :
    (x, y) ∈ s.knows ∧ (y, x) ∈ s.knows := by
  have hs := Sound.of_run h hx
  have settled : ∀ u v, Announced s u v → (v, u) ∈ s.knows := by
    intro u v huv
    rcases huv with huv | huv
    · simp [hquiet] at huv
    · exact huv
  have hyx := settled x y (hs.greeted x y hg)
  exact ⟨settled y x (hs.known x y hyx), hyx⟩

/-- Everything on its way stays among the given parties. -/
def Within (nodes : Finset V) (s : State V) : Prop := ∀ p ∈ s.flight, p.1 ∈ nodes ∧ p.2 ∈ nodes

open Classical in
/-- The ordered pairs of parties whose mark is not set. -/
noncomputable def unmarked (nodes : Finset V) (s : State V) : Finset (V × V) :=
  (nodes ×ˢ nodes).filter (· ∉ s.marked)

omit [DecidableEq V] in
theorem mem_unmarked {nodes : Finset V} {s : State V} {p : V × V} :
    p ∈ unmarked nodes s ↔ p ∈ nodes ×ˢ nodes ∧ p ∉ s.marked := by
  classical
  exact Finset.mem_filter

/-- A greeting may still be answered once, and a missing mark pays for it. -/
noncomputable def energy (nodes : Finset V) (s : State V) : ℕ :=
  2*Multiset.card s.flight + (unmarked nodes s).card

theorem Within.arrive {nodes : Finset V} {s : State V} (h : Within nodes s) {x y : V}
    (hxy : (x, y) ∈ s.flight) : Within nodes (s.arrive x y) := by
  intro p hp
  rcases State.mem_arrive_flight_eq hp with hp | ⟨rfl, _⟩
  · exact h p (Multiset.mem_of_mem_erase hp)
  · exact (h (x, y) hxy).symm

theorem Within.lose {nodes : Finset V} {s : State V} (h : Within nodes s) (x y : V) :
    Within nodes (s.lose x y) := fun p hp => h p (Multiset.mem_of_mem_erase hp)

/-- One arrival costs exactly one unit: either the greeting is gone and a mark
with it, or it became an answer and a mark was set. -/
theorem energy_arrive {nodes : Finset V} {s : State V} (h : Within nodes s) {x y : V}
    (hxy : (x, y) ∈ s.flight) : 1 + energy nodes (s.arrive x y) = energy nodes s := by
  classical
  have hmem : (y, x) ∈ nodes ×ˢ nodes := Finset.mem_product.mpr (h (x, y) hxy).symm
  have hcard := Multiset.card_erase_add_one hxy
  by_cases hm : (y, x) ∈ s.marked
  · have hset : unmarked nodes (s.arrive x y) = insert (y, x) (unmarked nodes s) := by
      ext p
      simp only [mem_unmarked, Finset.mem_insert, State.mem_arrive_marked]
      by_cases hp : p = (y, x)
      · subst hp
        simp [hm, hmem]
      · simp [hp]
    have hnew : (y, x) ∉ unmarked nodes s := by simp [mem_unmarked, hm]
    simp only [energy, hset, Finset.card_insert_of_notMem hnew, State.arrive_flight_of_marked hm]
    omega
  · have hset : unmarked nodes (s.arrive x y) = (unmarked nodes s).erase (y, x) := by
      ext p
      simp only [mem_unmarked, Finset.mem_erase, State.mem_arrive_marked]
      by_cases hp : p = (y, x)
      · subst hp
        simp [hm]
      · simp [hp]
    have hold : (y, x) ∈ unmarked nodes s := by simp [mem_unmarked, hm, hmem]
    have hpos := Finset.card_erase_add_one hold
    simp only [energy, hset, State.arrive_flight_of_unmarked hm, Multiset.card_cons]
    omega

theorem energy_lose {nodes : Finset V} {s : State V} {x y : V} (hxy : (x, y) ∈ s.flight) :
    2 + energy nodes (s.lose x y) = energy nodes s := by
  have hcard := Multiset.card_erase_add_one hxy
  change 2 + (2*Multiset.card (s.flight.erase (x, y)) + (unmarked nodes s).card) =
    2*Multiset.card s.flight + (unmarked nodes s).card
  omega

/-- With nobody greeting on its own, arrivals and losses together are no more
than the energy, from any state. -/
theorem exhaustion {nodes : Finset V} {s t : State V} (hs : Within nodes s) {acts : List (Act V)}
    (hp : ∀ a ∈ acts, a.IsPassage) (h : run step s acts = some t) :
    acts.length + energy nodes t ≤ energy nodes s := by
  have hstep : ∀ {s a t}, Within nodes s → a.IsPassage → step s a = some t →
      Within nodes t ∧ 1 + energy nodes t ≤ energy nodes s := by
    intro s a t hs ha hst
    cases a with
    | greet x y => exact ha.elim
    | arrive x y =>
        obtain ⟨hxy, rfl⟩ := step_arrive hst
        exact ⟨hs.arrive hxy, (energy_arrive hs hxy).le⟩
    | lose x y =>
        obtain ⟨hxy, rfl⟩ := step_lose hst
        have hpaid : 2 + energy nodes (s.lose x y) = energy nodes s := energy_lose hxy
        exact ⟨hs.lose x y, by omega⟩
    | restart x => exact ha.elim
  have hlen : acts.countP (fun _ => true) = acts.length := by simp
  rw [← hlen]
  exact potential (fun _ => true) (energy nodes) (fun hs ha hst => (hstep hs ha hst).1)
    (fun hs ha hst => (hstep hs ha hst).2) hs hp h

/-- Whether `x` has greeted `y` after the last restart of `x` so far. -/
def trackGreeted (x y : V) (c : Bool) : Act V → Bool
  | .greet u v => c || (u = x && v = y)
  | .restart u => c && u ≠ x
  | _ => c

def greetedSinceStart (x y : V) (acts : List (Act V)) : Bool := acts.foldl (trackGreeted x y) false

theorem greetedSinceStart_snoc (x y : V) (acts : List (Act V)) (a : Act V) :
    greetedSinceStart x y (acts ++ [a]) = trackGreeted x y (greetedSinceStart x y acts) a := by
  simp [greetedSinceStart]

/-- The greeting about to arrive meets a mark, so it will not be answered,
although `x` still waits for `y` and nothing else is on its way between them. -/
structure Strands (acts : List (Act V)) (s : State V) (x y : V) : Prop where
  ne : x ≠ y
  marked : (y, x) ∈ s.marked
  waiting : greetedSinceStart x y acts = true
  unknown : (x, y) ∉ s.knows
  last : (x, y) ∉ s.flight.erase (x, y)
  none_back : (y, x) ∉ s.flight

/-- No arrival of the run strands its sender. -/
def StrandsNobody (s : State V) (acts : List (Act V)) : Prop :=
  ∀ pre x y post t, acts = pre ++ Act.arrive x y::post → run step s pre = some t → ¬ Strands pre t x y

theorem StrandsNobody.left {s : State V} {acts : List (Act V)} {a : Act V}
    (h : StrandsNobody s (acts ++ [a])) : StrandsNobody s acts := by
  intro pre x y post t hacts
  exact h pre x y (post ++ [a]) t (by simp [hacts])

theorem StrandsNobody.last {s t : State V} {acts : List (Act V)} {x y : V}
    (h : StrandsNobody s (acts ++ [.arrive x y])) (hrun : run step s acts = some t) :
    ¬ Strands acts t x y := h acts x y [] t rfl hrun

/-- `x` knows `y`, or a greeting between them is on its way. -/
def Underway (s : State V) (x y : V) : Prop :=
  (x, y) ∈ s.knows ∨ (x, y) ∈ s.flight ∨ (y, x) ∈ s.flight

/-- Nobody is left without a prospect of knowing whom it greeted. -/
def Attended (acts : List (Act V)) (s : State V) : Prop :=
  ∀ x y, greetedSinceStart x y acts = true → Underway s x y

theorem Underway.arrive {s : State V} {x y u v : V} (h : Underway s x y)
    (hs : (u, v) = (x, y) → x ≠ y → (y, x) ∈ s.marked → (x, y) ∈ s.knows ∨
      (x, y) ∈ s.flight.erase (x, y) ∨ (y, x) ∈ s.flight) : Underway (s.arrive u v) x y := by
  by_cases hback : (u, v) = (y, x)
  · simp only [Prod.mk.injEq] at hback
    exact .inl (State.mem_arrive_knows.mpr (.inl (by rw [hback.1, hback.2])))
  have keep : (y, x) ∈ s.flight → Underway (s.arrive u v) x y := fun hf =>
    .inr (.inr (State.mem_arrive_flight_of_ne hf (Ne.symm hback)))
  have know : (x, y) ∈ s.knows → Underway (s.arrive u v) x y := fun hk =>
    .inl (State.mem_arrive_knows.mpr (.inr hk))
  by_cases hforth : (u, v) = (x, y)
  · have hne : x ≠ y := fun he => hback (by rw [hforth, he])
    obtain ⟨rfl, rfl⟩ : u = x ∧ v = y := by simpa using hforth
    by_cases hm : (v, u) ∈ s.marked
    · rcases hs rfl hne hm with hk | hf | hf
      · exact know hk
      · exact .inr (.inl (State.mem_arrive_flight hf))
      · exact keep hf
    · exact .inr (.inr (State.mem_arrive_flight_answer hm))
  · rcases h with hk | hf | hf
    · exact know hk
    · exact .inr (.inl (State.mem_arrive_flight_of_ne hf (Ne.symm hforth)))
    · exact keep hf

/-- In a run without losses in which no arrival strands its sender, everybody
is attended to. -/
theorem Attended.of_run {acts : List (Act V)} {s : State V}
    (h : run step (State.start V) acts = some s) (hl : ∀ x y, Act.lose x y ∉ acts)
    (hn : StrandsNobody (State.start V) acts) : Attended acts s := by
  refine history_invariant (I := fun acts s => (∀ x y, Act.lose x y ∉ acts) →
    StrandsNobody (State.start V) acts → Attended acts s) ?_ ?_ h hl hn
  · intro _ _ x y hxy
    simp [greetedSinceStart] at hxy
  · intro acts s a t hrun ih hstep hl hn x y hxy
    have hs := ih (fun u v huv => hl u v (List.mem_append_left _ huv)) hn.left
    rw [greetedSinceStart_snoc] at hxy
    cases a with
    | greet u v =>
        rw [step_greet hstep]
        simp only [trackGreeted, Bool.or_eq_true, Bool.and_eq_true, decide_eq_true_eq] at hxy
        rcases hxy with hxy | ⟨rfl, rfl⟩
        · exact (hs x y hxy).imp id (Or.imp Multiset.mem_cons_of_mem Multiset.mem_cons_of_mem)
        · exact .inr (.inl (Multiset.mem_cons_self _ _))
    | arrive u v =>
        have hxy' : greetedSinceStart x y acts = true := hxy
        rw [(step_arrive hstep).2]
        refine (hs x y hxy').arrive ?_
        intro he hne hm
        by_contra hcon
        simp only [not_or] at hcon
        obtain ⟨rfl, rfl⟩ : u = x ∧ v = y := by simpa using he
        exact hn.last hrun ⟨hne, hm, hxy', hcon.1, hcon.2.1, hcon.2.2⟩
    | lose u v => exact absurd (by simp) (hl u v)
    | restart u =>
        simp only [trackGreeted, Bool.and_eq_true, decide_eq_true_eq] at hxy
        rw [step_restart hstep]
        refine (hs x y hxy.1).imp (fun hk => ?_) id
        exact ⟨hk, fun he => hxy.2 he.symm⟩

/-- What a stranding arrival leaves behind: `x` does not know `y` and nothing
is on its way between them. Arrivals alone never change that. -/
structure Forsaken (s : State V) (x y : V) : Prop where
  unknown : (x, y) ∉ s.knows
  none_forth : (x, y) ∉ s.flight
  none_back : (y, x) ∉ s.flight

theorem Strands.forsaken {acts : List (Act V)} {s : State V} {x y : V} (h : Strands acts s x y) :
    Forsaken (s.arrive x y) x y := by
  have hne : (x, y) ≠ (y, x) := fun he => h.ne (Prod.mk.inj he).1
  refine ⟨?_, ?_, ?_⟩
  · intro hk
    rcases State.mem_arrive_knows.mp hk with he | hk
    · exact hne he
    · exact h.unknown hk
  · intro hf
    rcases State.mem_arrive_flight_eq hf with hf | ⟨_, hm⟩
    · exact h.last hf
    · exact hm h.marked
  · intro hf
    rcases State.mem_arrive_flight_eq hf with hf | ⟨_, hm⟩
    · exact h.none_back (Multiset.mem_of_mem_erase hf)
    · exact hm h.marked

theorem Forsaken.arrive {s : State V} {x y u v : V} (h : Forsaken s x y) (huv : (u, v) ∈ s.flight) :
    Forsaken (s.arrive u v) x y := by
  have hforth : (u, v) ≠ (x, y) := fun he => h.none_forth (he ▸ huv)
  have hback : (u, v) ≠ (y, x) := fun he => h.none_back (he ▸ huv)
  refine ⟨?_, ?_, ?_⟩
  · intro hk
    rcases State.mem_arrive_knows.mp hk with he | hk
    · simp only [Prod.mk.injEq] at he
      exact hback (by rw [he.1, he.2])
    · exact h.unknown hk
  · intro hf
    rcases State.mem_arrive_flight_eq hf with hf | ⟨he, _⟩
    · exact h.none_forth (Multiset.mem_of_mem_erase hf)
    · simp only [Prod.mk.injEq] at he
      exact hback (by rw [he.1, he.2])
  · intro hf
    rcases State.mem_arrive_flight_eq hf with hf | ⟨he, _⟩
    · exact h.none_back (Multiset.mem_of_mem_erase hf)
    · simp only [Prod.mk.injEq] at he
      exact hforth (by rw [he.1, he.2])

end CppPlayground.Handshake
