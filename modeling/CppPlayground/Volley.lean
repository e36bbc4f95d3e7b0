import CppPlayground.Runs
import CppPlayground.Tally

/-!
# Two players returning balls on several lanes

On each lane the first player opens, and from then on a player who holds the
ball may throw it back once its own last throw has been confirmed, as long as
it has confirmed fewer than its quota of throws over all lanes. A player may
leave when it has confirmed and caught its quota, and a quitter at any time.

Between the players the balls fly. A reliable air confirms a throw only after
it has landed and loses only what a player who left had in the air; a throw at
a player who left is cut off. An unreliable air confirms throws at any time
and loses any ball. What holds in every run is counting: on a lane the throws
are the catches at the other end and at most one ball in between, and the two
players take turns.
-/
namespace CppPlayground.Volley
open Runs

inductive Player where
  | first
  | second
  deriving DecidableEq

def Player.peer : Player → Player
  | .first => .second
  | .second => .first

@[simp] theorem Player.peer_peer (p : Player) : p.peer.peer = p := by
  cases p <;> rfl

@[simp] theorem Player.peer_ne (p : Player) : p.peer ≠ p := by
  cases p <;> decide

@[simp] theorem Player.ne_peer (p : Player) : p ≠ p.peer := by
  cases p <;> decide

theorem Player.eq_or_peer (p q : Player) : q = p ∨ q = p.peer := by
  cases p <;> cases q <;> decide

/-- A ball in the air, or lost from it, keeps the name of its thrower; on the
ground or in a hand it is at the player named. -/
inductive Ball where
  | unopened
  | flying (p : Player)
  | landed (p : Player)
  | held (p : Player)
  | lost (p : Player)
  deriving DecidableEq

/-- How far a player's last throw on a lane has been confirmed. -/
inductive Throw where
  | idle
  | under
  | done
  | cut
  deriving DecidableEq

structure Hand where
  throw : Throw
  thrown : ℕ
  caught : ℕ
  cleared : ℕ

structure Lane where
  ball : Ball
  hand : Player → Hand

def Lane.fresh : Lane := ⟨.unopened, fun _ => ⟨.idle, 0, 0, 0⟩⟩

/-- What can happen on a lane, in the name of the player who threw, caught or
has its throw confirmed. -/
inductive Move where
  | serve
  | toss
  | land
  | lose
  | finish
  | cut
  | take
  | clear
  deriving DecidableEq

def Ball.play (b : Ball) (p : Player) : Move → Ball
  | .serve | .toss => .flying p
  | .land => .landed p.peer
  | .lose | .cut => .lost p
  | .take => .held p
  | .finish | .clear => b

def Hand.play (h : Hand) : Move → Hand
  | .serve | .toss => { h with throw := .under, thrown := h.thrown + 1 }
  | .land | .lose => h
  | .finish => { h with throw := .done }
  | .cut => { h with throw := .cut }
  | .take => { h with caught := h.caught + 1 }
  | .clear => { h with throw := .idle, cleared := h.cleared + 1 }

/-- The lane after a move of a player. -/
def Lane.play (l : Lane) (p : Player) (m : Move) : Lane :=
  ⟨l.ball.play p m, Function.update l.hand p ((l.hand p).play m)⟩

@[simp] theorem Lane.play_ball (l : Lane) (p : Player) (m : Move) :
    (l.play p m).ball = l.ball.play p m := rfl

@[simp] theorem Lane.play_hand (l : Lane) (p : Player) (m : Move) :
    (l.play p m).hand p = (l.hand p).play m := Function.update_self ..

@[simp] theorem Lane.play_hand_peer (l : Lane) (p : Player) (m : Move) :
    (l.play p m).hand p.peer = l.hand p.peer := Function.update_of_ne p.peer_ne ..

variable {ι : Type*}

structure State (ι : Type*) where
  lane : ι → Lane
  left : Player → Bool

def State.fresh : State ι := ⟨fun _ => .fresh, fun _ => false⟩

section Totals
variable [Fintype ι]

/-- A sum over all lanes. -/
def State.total (s : State ι) (f : Lane → ℕ) : ℕ := ∑ i, f (s.lane i)

def State.sent (s : State ι) (p : Player) : ℕ := s.total fun l => (l.hand p).cleared

def State.received (s : State ι) (p : Player) : ℕ := s.total fun l => (l.hand p).caught

def State.thrown (s : State ι) (p : Player) : ℕ := s.total fun l => (l.hand p).thrown

structure Rules where
  quota : ℕ
  reliable : Bool
  quits : Player → Bool

inductive Event (ι : Type*) where
  | move (m : Move) (p : Player) (i : ι)
  | leave (p : Player)

/-- When a move may be made; only the air acts for a player who left. -/
def State.allows (R : Rules) (s : State ι) (p : Player) (i : ι) : Move → Prop
  | .serve => (s.lane i).ball = .unopened ∧ p = .first
  | .toss => (s.lane i).ball = .held p ∧ ((s.lane i).hand p).throw = .idle ∧
      s.sent p < R.quota ∧ s.left p = false
  | .land => (s.lane i).ball = .flying p ∧ s.left p.peer = false
  | .lose => (s.lane i).ball = .flying p ∧ (R.reliable = false ∨ s.left p = true)
  | .finish => ((s.lane i).hand p).throw = .under ∧ s.left p = false ∧
      (R.reliable = true → (s.lane i).ball ≠ .flying p ∧ (s.lane i).ball ≠ .lost p)
  | .cut => R.reliable = true ∧ ((s.lane i).hand p).throw = .under ∧
      (s.lane i).ball = .flying p ∧ s.left p.peer = true ∧ s.left p = false
  | .take => (s.lane i).ball = .landed p ∧ s.left p = false
  | .clear => ((s.lane i).hand p).throw = .done ∧ s.left p = false

/-- The player has done its part. -/
def State.mayLeave (R : Rules) (s : State ι) (p : Player) : Prop :=
  s.left p = false ∧ R.quota ≤ s.sent p ∧ R.quota ≤ s.received p

instance (R : Rules) (s : State ι) (p : Player) (i : ι) (m : Move) :
    Decidable (s.allows R p i m) := by
  cases m <;> exact inferInstanceAs (Decidable (_ ∧ _))

instance (R : Rules) (s : State ι) (p : Player) : Decidable (s.mayLeave R p) :=
  inferInstanceAs (Decidable (_ ∧ _))

end Totals

variable [DecidableEq ι]

def State.play (s : State ι) (p : Player) (i : ι) (m : Move) : State ι :=
  { s with lane := Function.update s.lane i ((s.lane i).play p m) }

section Steps
variable [Fintype ι]

def step (R : Rules) (s : State ι) : Event ι → Option (State ι)
  | .move m p i => if s.allows R p i m then some (s.play p i m) else none
  | .leave p =>
      if s.mayLeave R p ∨ s.left p = false ∧ R.quits p = true then
        some { s with left := Function.update s.left p true }
      else none

theorem step_move {R : Rules} {s t : State ι} {m : Move} {p : Player} {i : ι} :
    step R s (.move m p i) = some t ↔ s.allows R p i m ∧ t = s.play p i m := by
  simp only [step]
  split <;> simp_all [eq_comm]

theorem step_leave {R : Rules} {s t : State ι} {p : Player} :
    step R s (.leave p) = some t ↔
      (s.mayLeave R p ∨ s.left p = false ∧ R.quits p = true) ∧
        t = { s with left := Function.update s.left p true } := by
  simp only [step]
  split_ifs with hmay
  · rw [Option.some.injEq, and_iff_right hmay, eq_comm]
  · exact iff_of_false not_false fun h => hmay h.1

end Steps

/-- The throw that is not yet confirmed. -/
def Lane.busy (l : Lane) (p : Player) : ℕ := if (l.hand p).throw = .idle then 0 else 1

/-- The ball a player threw that has not been caught. -/
def Lane.aloft (l : Lane) (p : Player) : ℕ :=
  if l.ball = .flying p ∨ l.ball = .landed p.peer ∨ l.ball = .lost p then 1 else 0

/-- The first player threw last. -/
def Lane.away (l : Lane) : ℕ :=
  if l.ball = .held .second then 1 else l.aloft .first

/-- The two ends of a lane agree on what has been thrown and caught. -/
structure Lane.Counted (reliable : Bool) (l : Lane) : Prop where
  confirmed : ∀ p, (l.hand p).thrown = (l.hand p).cleared + l.busy p
  caught : ∀ p, (l.hand p).thrown = (l.hand p.peer).caught + l.aloft p
  turns : (l.hand .first).thrown = (l.hand .second).thrown + l.away
  unopened : l.ball = .unopened → ∀ p, (l.hand p).throw = .idle ∧ (l.hand p).thrown = 0
  under : reliable = true → ∀ p, l.ball = .flying p → (l.hand p).throw = .under
  lost : reliable = true → ∀ p, l.ball = .lost p →
    (l.hand p).throw = .under ∨ (l.hand p).throw = .cut

theorem Lane.counted_fresh (reliable : Bool) : Lane.fresh.Counted reliable := by
  constructor <;> simp [Lane.fresh, Lane.busy, Lane.aloft, Lane.away]

/-- What the rules ask of the lane itself. -/
def Lane.Admits (reliable : Bool) (l : Lane) (p : Player) : Move → Prop
  | .serve => l.ball = .unopened ∧ p = .first
  | .toss => l.ball = .held p ∧ (l.hand p).throw = .idle
  | .land | .lose => l.ball = .flying p
  | .finish => (l.hand p).throw = .under ∧
      (reliable = true → l.ball ≠ .flying p ∧ l.ball ≠ .lost p)
  | .cut => (l.hand p).throw = .under ∧ l.ball = .flying p
  | .take => l.ball = .landed p
  | .clear => (l.hand p).throw = .done

omit [DecidableEq ι] in
theorem State.allows.admits [Fintype ι] {R : Rules} {s : State ι} {p : Player} {i : ι} {m : Move}
    (h : s.allows R p i m) : (s.lane i).Admits R.reliable p m := by
  cases m <;> simp only [State.allows] at h <;> simp only [Lane.Admits] <;> tauto

theorem Lane.Counted.play_confirmed {reliable : Bool} {l : Lane} {p : Player} {m : Move}
    (h : l.Counted reliable) (ha : l.Admits reliable p m) (q : Player) :
    ((l.play p m).hand q).thrown = ((l.play p m).hand q).cleared + (l.play p m).busy q := by
  have hconf := h.confirmed q
  unfold Lane.busy at *
  rcases p.eq_or_peer q with rfl | rfl
  · rw [Lane.play_hand]
    cases m with
    | serve =>
        -- nothing is under way on a lane that nobody has opened
        rw [(h.unopened ha.1 q).1] at hconf
        simpa [Hand.play] using hconf
    | toss =>
        rw [ha.2] at hconf
        simpa [Hand.play] using hconf
    | land => exact hconf
    | lose => exact hconf
    | finish =>
        rw [ha.1] at hconf
        exact hconf
    | cut =>
        rw [ha.1] at hconf
        exact hconf
    | take => exact hconf
    | clear =>
        have hdone : (l.hand q).throw = .done := ha
        rw [hdone] at hconf
        exact hconf
  · rw [Lane.play_hand_peer]
    exact hconf

/-- A throw puts a ball of the player into the air, and only a catch takes one
of the peer's out of it. -/
theorem Lane.aloft_play {reliable : Bool} {l : Lane} {p : Player} {m : Move}
    (ha : l.Admits reliable p m) :
    (l.play p m).aloft p + (l.hand p).thrown = l.aloft p + ((l.hand p).play m).thrown ∧
      (l.play p m).aloft p.peer + ((l.hand p).play m).caught =
        l.aloft p.peer + (l.hand p).caught := by
  have hne := p.ne_peer
  unfold Lane.aloft
  rw [Lane.play_ball]
  cases m with
  | serve => simp [ha.1, Ball.play, Hand.play, Nat.add_comm]
  | toss => simp [ha.1, Ball.play, Hand.play, Nat.add_comm]
  | land =>
      have hball : l.ball = .flying p := ha
      simp [hball, Ball.play, Hand.play]
  | lose =>
      have hball : l.ball = .flying p := ha
      simp [hball, Ball.play, Hand.play]
  | finish => exact ⟨rfl, rfl⟩
  | cut => simp [ha.2, Ball.play, Hand.play]
  | take =>
      have hball : l.ball = .landed p := ha
      simp [hball, Ball.play, Hand.play, Nat.add_comm]
  | clear => exact ⟨rfl, rfl⟩

theorem Lane.Counted.play_caught {reliable : Bool} {l : Lane} {p : Player} {m : Move}
    (h : l.Counted reliable) (ha : l.Admits reliable p m) (q : Player) :
    ((l.play p m).hand q).thrown =
      ((l.play p m).hand q.peer).caught + (l.play p m).aloft q := by
  have hcaught := h.caught q
  obtain ⟨hthrow, hcatch⟩ := Lane.aloft_play ha
  rcases p.eq_or_peer q with rfl | rfl
  · rw [Lane.play_hand, Lane.play_hand_peer]
    omega
  · rw [Player.peer_peer] at hcaught ⊢
    rw [Lane.play_hand, Lane.play_hand_peer]
    omega

/-- The throws of the first player take the ball away and those of the second
bring it back. -/
theorem Lane.away_play {reliable : Bool} {l : Lane} {p : Player} {m : Move}
    (ha : l.Admits reliable p m) :
    if p = .first then (l.play p m).away + (l.hand p).thrown = l.away + ((l.hand p).play m).thrown
    else (l.play p m).away + ((l.hand p).play m).thrown = l.away + (l.hand p).thrown := by
  unfold Lane.away Lane.aloft
  rw [Lane.play_ball]
  cases m with
  | serve =>
      obtain ⟨hball, rfl⟩ := ha
      simp [hball, Ball.play, Hand.play, Nat.add_comm]
  | toss => cases p <;> simp [ha.1, Ball.play, Hand.play, Player.peer, Nat.add_comm]
  | land =>
      have hball : l.ball = .flying p := ha
      cases p <;> simp [hball, Ball.play, Hand.play, Player.peer]
  | lose =>
      have hball : l.ball = .flying p := ha
      cases p <;> simp [hball, Ball.play, Hand.play, Player.peer]
  | finish => cases p <;> rfl
  | cut => cases p <;> simp [ha.2, Ball.play, Hand.play, Player.peer]
  | take =>
      have hball : l.ball = .landed p := ha
      cases p <;> simp [hball, Ball.play, Hand.play, Player.peer]
  | clear => cases p <;> rfl

theorem Lane.Counted.play_turns {reliable : Bool} {l : Lane} {p : Player} {m : Move}
    (h : l.Counted reliable) (ha : l.Admits reliable p m) :
    ((l.play p m).hand .first).thrown = ((l.play p m).hand .second).thrown + (l.play p m).away := by
  have hturns := h.turns
  have haway := Lane.away_play ha
  have hself := l.play_hand p m
  have hpeer := l.play_hand_peer p m
  cases p with
  | first =>
      rw [if_pos rfl] at haway
      rw [Player.peer] at hpeer
      rw [hself, hpeer]
      omega
  | second =>
      rw [if_neg (by decide)] at haway
      rw [Player.peer] at hpeer
      rw [hself, hpeer]
      omega

/-- On a lane that is still not opened nothing has been confirmed. -/
theorem Lane.Counted.play_unopened {reliable : Bool} {l : Lane} {p : Player} {m : Move}
    (h : l.Counted reliable) (ha : l.Admits reliable p m)
    (hb : (l.play p m).ball = .unopened) (q : Player) :
    ((l.play p m).hand q).throw = .idle ∧ ((l.play p m).hand q).thrown = 0 := by
  rw [Lane.play_ball] at hb
  cases m with
  | serve => cases hb
  | toss => cases hb
  | land => cases hb
  | lose => cases hb
  | cut => cases hb
  | take => cases hb
  | finish =>
      have hidle := (h.unopened hb p).1
      rw [ha.1] at hidle
      cases hidle
  | clear =>
      have hidle := (h.unopened hb p).1
      rw [show (l.hand p).throw = .done from ha] at hidle
      cases hidle

/-- Over a reliable air a ball that flies has its throw unconfirmed. -/
theorem Lane.Counted.play_under {l : Lane} {p : Player} {m : Move} (h : l.Counted true)
    (ha : l.Admits true p m) (q : Player) (hb : (l.play p m).ball = .flying q) :
    ((l.play p m).hand q).throw = .under := by
  have hunder := h.under rfl
  rw [Lane.play_ball] at hb
  cases m with
  | serve =>
      cases hb
      rw [Lane.play_hand]
      rfl
  | toss =>
      cases hb
      rw [Lane.play_hand]
      rfl
  | land => cases hb
  | lose => cases hb
  | cut => cases hb
  | take => cases hb
  | finish =>
      -- the throw that is confirmed is not the one in the air
      rcases p.eq_or_peer q with rfl | rfl
      · exact absurd hb (ha.2 rfl).1
      · rw [Lane.play_hand_peer]
        exact hunder _ hb
  | clear =>
      rcases p.eq_or_peer q with rfl | rfl
      · have hthrow := hunder _ hb
        rw [show (l.hand q).throw = .done from ha] at hthrow
        cases hthrow
      · rw [Lane.play_hand_peer]
        exact hunder _ hb

/-- Over a reliable air a ball that is lost has its throw unconfirmed or cut off. -/
theorem Lane.Counted.play_lost {l : Lane} {p : Player} {m : Move} (h : l.Counted true)
    (ha : l.Admits true p m) (q : Player) (hb : (l.play p m).ball = .lost q) :
    ((l.play p m).hand q).throw = .under ∨ ((l.play p m).hand q).throw = .cut := by
  have hlost := h.lost rfl
  rw [Lane.play_ball] at hb
  cases m with
  | serve => cases hb
  | toss => cases hb
  | land => cases hb
  | take => cases hb
  | lose =>
      cases hb
      rw [Lane.play_hand]
      exact .inl (h.under rfl p ha)
  | cut =>
      cases hb
      rw [Lane.play_hand]
      exact .inr rfl
  | finish =>
      rcases p.eq_or_peer q with rfl | rfl
      · exact absurd hb (ha.2 rfl).2
      · rw [Lane.play_hand_peer]
        exact hlost _ hb
  | clear =>
      rcases p.eq_or_peer q with rfl | rfl
      · have hthrow := hlost _ hb
        rw [show (l.hand q).throw = .done from ha] at hthrow
        rcases hthrow with hthrow | hthrow <;> cases hthrow
      · rw [Lane.play_hand_peer]
        exact hlost _ hb

theorem Lane.Counted.play {reliable : Bool} {l : Lane} {p : Player} {m : Move}
    (h : l.Counted reliable) (ha : l.Admits reliable p m) : (l.play p m).Counted reliable where
  confirmed := h.play_confirmed ha
  caught := h.play_caught ha
  turns := h.play_turns ha
  unopened := h.play_unopened ha
  under hr := by
    subst hr
    exact h.play_under ha
  lost hr := by
    subst hr
    exact h.play_lost ha

theorem State.play_lane (s : State ι) (p : Player) (i : ι) (m : Move) :
    (s.play p i m).lane i = (s.lane i).play p m := Function.update_self ..

theorem State.play_lane_ne (s : State ι) (p : Player) {i j : ι} (h : j ≠ i) (m : Move) :
    (s.play p i m).lane j = s.lane j := Function.update_of_ne h ..

/-- What holds on the lane after the move and held on the others holds on all. -/
theorem State.play_forall {s : State ι} {p : Player} {i : ι} {m : Move} {P : Lane → Prop}
    (hs : ∀ j, P (s.lane j)) (hi : P ((s.lane i).play p m)) (j : ι) :
    P ((s.play p i m).lane j) := by
  by_cases h : j = i
  · rw [h, s.play_lane]
    exact hi
  · rw [s.play_lane_ne p h]
    exact hs j

variable [Fintype ι]

omit [DecidableEq ι] in
theorem State.total_add (s : State ι) (f g : Lane → ℕ) :
    s.total (fun l => f l + g l) = s.total f + s.total g :=
  Finset.sum_add_distrib

omit [DecidableEq ι] in
theorem State.total_le {s : State ι} {f g : Lane → ℕ} (h : ∀ i, f (s.lane i) ≤ g (s.lane i)) :
    s.total f ≤ s.total g :=
  Finset.sum_le_sum fun i _ => h i

omit [DecidableEq ι] in
theorem State.total_le_card {s : State ι} {f : Lane → ℕ} (h : ∀ i, f (s.lane i) ≤ 1) :
    s.total f ≤ Fintype.card ι :=
  Tally.sum_le_card h

/-- A move changes a sum by what it changes on its lane. -/
theorem State.total_play (s : State ι) (f : Lane → ℕ) (p : Player) (i : ι) (m : Move) :
    (s.play p i m).total f + f (s.lane i) = s.total f + f ((s.lane i).play p m) := by
  have hchange := Tally.sum_change (f := fun j => f (s.lane j))
    (g := fun j => f ((s.play p i m).lane j)) i fun j hj => by rw [s.play_lane_ne p hj]
  rwa [s.play_lane] at hchange

/-- A count of the hands that one kind of move raises. -/
theorem State.total_hand_play {f : Hand → ℕ} {m₀ m : Move} (s : State ι) (p q : Player) (i : ι)
    (hf : ∀ h, f (h.play m) = f h + if m = m₀ then 1 else 0) :
    (s.play p i m).total (fun l => f (l.hand q)) =
      s.total (fun l => f (l.hand q)) + if m = m₀ ∧ q = p then 1 else 0 := by
  have htotal := s.total_play (fun l => f (l.hand q)) p i m
  rcases p.eq_or_peer q with rfl | rfl
  · simp only [Lane.play_hand, hf] at htotal
    simp only [and_true]
    omega
  · simp only [Lane.play_hand_peer] at htotal
    rw [if_neg (fun h => p.peer_ne h.2)]
    omega

theorem State.sent_play (s : State ι) (p q : Player) (i : ι) (m : Move) :
    (s.play p i m).sent q = s.sent q + if m = .clear ∧ q = p then 1 else 0 :=
  s.total_hand_play (f := Hand.cleared) p q i fun h => by cases m <;> simp [Hand.play]

theorem State.received_play (s : State ι) (p q : Player) (i : ι) (m : Move) :
    (s.play p i m).received q = s.received q + if m = .take ∧ q = p then 1 else 0 :=
  s.total_hand_play (f := Hand.caught) p q i fun h => by cases m <;> simp [Hand.play]

theorem State.thrown_play_le (s : State ι) (p q : Player) (i : ι) (m : Move) :
    s.thrown q ≤ (s.play p i m).thrown q := by
  have htotal := s.total_play (fun l => (l.hand q).thrown) p i m
  have hlane : ((s.lane i).hand q).thrown ≤ (((s.lane i).play p m).hand q).thrown := by
    rcases p.eq_or_peer q with rfl | rfl
    · rw [Lane.play_hand]
      cases m <;> simp [Hand.play]
    · rw [Lane.play_hand_peer]
  unfold State.thrown
  omega

/-- A lane nobody has opened. -/
def Lane.unserved (l : Lane) : ℕ := if l.ball = .unopened then 1 else 0

/-- What every run keeps: the lanes are counted, a throw is cut or lost only
because somebody left, whoever left had met the quota or quit, and beyond the
quota no player throws more than once on each lane. -/
structure State.Sound (R : Rules) (s : State ι) : Prop where
  counted : ∀ i, (s.lane i).Counted R.reliable
  cut : ∀ p i, ((s.lane i).hand p).throw = .cut →
    R.reliable = true ∧ s.left p.peer = true ∧ (R.quits p.peer = false → R.quota < s.thrown p)
  lost : R.reliable = true → ∀ p i, (s.lane i).ball = .lost p →
    s.left p = true ∨ ((s.lane i).hand p).throw = .cut
  left : ∀ p, s.left p = true → R.quits p = false →
    R.quota ≤ s.sent p ∧ R.quota ≤ s.received p
  served : s.thrown .first + s.total Lane.unserved + 1 ≤ max R.quota 1 + Fintype.card ι
  thrown : s.thrown .second + 1 ≤ max R.quota 1 + Fintype.card ι

omit [DecidableEq ι] in
theorem State.thrown_fresh (p : Player) : (State.fresh : State ι).thrown p = 0 :=
  Finset.sum_eq_zero fun _ _ => rfl

omit [DecidableEq ι] in
theorem State.sound_fresh (R : Rules) : (State.fresh : State ι).Sound R where
  counted _ := Lane.counted_fresh R.reliable
  cut p i := by simp [State.fresh, Lane.fresh]
  lost _ p i := by simp [State.fresh, Lane.fresh]
  left p := by simp [State.fresh]
  served := by
    have hunserved : (State.fresh : State ι).total Lane.unserved ≤ Fintype.card ι :=
      State.total_le_card fun _ => le_of_eq rfl
    have hquota := le_max_right R.quota 1
    rw [State.thrown_fresh]
    omega
  thrown := by
    have hquota := le_max_right R.quota 1
    rw [State.thrown_fresh]
    omega

omit [DecidableEq ι] in
/-- A ball that is away from its thrower's peer is missing from the peer's catches. -/
theorem State.Sound.received_lt {R : Rules} {s : State ι} (h : s.Sound R) {p : Player} {i : ι}
    (ha : (s.lane i).aloft p = 1) : s.received p.peer < s.thrown p := by
  have hcaught : ∀ j, ((s.lane j).hand p.peer).caught ≤ ((s.lane j).hand p).thrown := fun j =>
    (h.counted j).caught p ▸ Nat.le_add_right _ _
  have hlt : ((s.lane i).hand p.peer).caught < ((s.lane i).hand p).thrown := by
    have hi := (h.counted i).caught p
    omega
  exact Finset.sum_lt_sum (fun j _ => hcaught j) ⟨i, Finset.mem_univ i, hlt⟩

omit [DecidableEq ι] in
/-- Only a throw beyond the quota is cut off by a peer that does not quit. -/
theorem State.Sound.cut_surplus {R : Rules} {s : State ι} (h : s.Sound R) {p : Player} {i : ι}
    (ha : s.allows R p i .cut) (hstays : R.quits p.peer = false) : R.quota < s.thrown p := by
  obtain ⟨-, -, hball, hleft, -⟩ := ha
  have haloft : (s.lane i).aloft p = 1 := by simp [Lane.aloft, hball]
  have hlt := h.received_lt haloft
  have hquota := (h.left _ hleft hstays).2
  omega

theorem State.Sound.counted_play {R : Rules} {s : State ι} {p : Player} {i : ι} {m : Move}
    (h : s.Sound R) (ha : s.allows R p i m) (j : ι) :
    ((s.play p i m).lane j).Counted R.reliable :=
  State.play_forall h.counted ((h.counted i).play ha.admits) j

theorem State.Sound.cut_play {R : Rules} {s : State ι} {p : Player} {i : ι} {m : Move}
    (h : s.Sound R) (ha : s.allows R p i m) (q : Player) (j : ι)
    (hcut : (((s.play p i m).lane j).hand q).throw = .cut) :
    R.reliable = true ∧ s.left q.peer = true ∧
      (R.quits q.peer = false → R.quota < (s.play p i m).thrown q) := by
  suffices hbefore : R.reliable = true ∧ s.left q.peer = true ∧
      (R.quits q.peer = false → R.quota < s.thrown q) from
    ⟨hbefore.1, hbefore.2.1, fun hstays =>
      (hbefore.2.2 hstays).trans_le (s.thrown_play_le p q i m)⟩
  refine State.play_forall (P := fun l => (l.hand q).throw = .cut →
    R.reliable = true ∧ s.left q.peer = true ∧ (R.quits q.peer = false → R.quota < s.thrown q))
    (h.cut q) ?_ j hcut
  have hq := h.cut q i
  rcases p.eq_or_peer q with rfl | rfl
  · rw [Lane.play_hand]
    cases m with
    | cut => exact fun _ => ⟨ha.1, ha.2.2.2.1, h.cut_surplus ha⟩
    | serve => exact fun hc => by cases hc
    | toss => exact fun hc => by cases hc
    | finish => exact fun hc => by cases hc
    | clear => exact fun hc => by cases hc
    | land => exact hq
    | lose => exact hq
    | take => exact hq
  · rw [Lane.play_hand_peer]
    exact hq

theorem State.Sound.lost_play {R : Rules} {s : State ι} {p : Player} {i : ι} {m : Move}
    (h : s.Sound R) (ha : s.allows R p i m) (hr : R.reliable = true) (q : Player) (j : ι)
    (hlost : ((s.play p i m).lane j).ball = .lost q) :
    s.left q = true ∨ (((s.play p i m).lane j).hand q).throw = .cut := by
  refine State.play_forall
    (P := fun l => l.ball = .lost q → s.left q = true ∨ (l.hand q).throw = .cut)
    (h.lost hr q) (fun hb => ?_) j hlost
  rw [Lane.play_ball] at hb
  cases m with
  | serve => cases hb
  | toss => cases hb
  | land => cases hb
  | take => cases hb
  | lose =>
      cases hb
      exact .inl (ha.2.resolve_left fun hun => by cases hr.symm.trans hun)
  | cut =>
      cases hb
      rw [Lane.play_hand]
      exact .inr rfl
  | finish =>
      rcases p.eq_or_peer q with rfl | rfl
      · exact absurd hb (ha.2.2 hr).2
      · rw [Lane.play_hand_peer]
        exact h.lost hr _ i hb
  | clear =>
      rcases p.eq_or_peer q with rfl | rfl
      · refine (h.lost hr q i hb).imp_right fun hcut => ?_
        cases ha.1.symm.trans hcut
      · rw [Lane.play_hand_peer]
        exact h.lost hr _ i hb

omit [DecidableEq ι] in
/-- Every throw is confirmed or the last one on its lane. -/
theorem State.thrown_eq {reliable : Bool} {s : State ι} (p : Player)
    (h : ∀ i, (s.lane i).Counted reliable) :
    s.thrown p = s.sent p + s.total fun l => l.busy p := by
  rw [State.sent, ← s.total_add]
  exact Finset.sum_congr rfl fun i _ => (h i).confirmed p

omit [DecidableEq ι] in
theorem State.thrown_le {reliable : Bool} {s : State ι} (p : Player)
    (h : ∀ i, (s.lane i).Counted reliable) :
    s.thrown p + s.total Lane.unserved ≤ s.sent p + Fintype.card ι := by
  have hbusy : s.total (fun l => l.busy p + l.unserved) ≤ Fintype.card ι := by
    refine s.total_le_card fun i => ?_
    have hun := (h i).unopened
    unfold Lane.busy Lane.unserved
    grind
  rw [s.total_add] at hbusy
  have hthrown := s.thrown_eq p h
  omega

/-- A serve opens its lane and nothing else does. -/
theorem Lane.unserved_play {reliable : Bool} {l : Lane} {p : Player} {m : Move}
    (ha : l.Admits reliable p m) :
    (l.play p m).unserved + (if m = .serve then 1 else 0) = l.unserved := by
  unfold Lane.unserved
  rw [Lane.play_ball]
  cases m with
  | serve => simp [ha.1, Ball.play]
  | toss => simp [ha.1, Ball.play]
  | land => simp [show l.ball = .flying p from ha, Ball.play]
  | lose => simp [show l.ball = .flying p from ha, Ball.play]
  | finish => rfl
  | cut => simp [ha.2, Ball.play]
  | take => simp [show l.ball = .landed p from ha, Ball.play]
  | clear => rfl

theorem State.Sound.served_play {R : Rules} {s : State ι} {p : Player} {i : ι} {m : Move}
    (h : s.Sound R) (ha : s.allows R p i m) :
    (s.play p i m).thrown .first + (s.play p i m).total Lane.unserved + 1 ≤
      max R.quota 1 + Fintype.card ι := by
  by_cases htoss : m = .toss ∧ p = .first
  · obtain ⟨rfl, rfl⟩ := htoss
    have hle := State.thrown_le .first (h.counted_play ha)
    have hsent := s.total_play (fun l => (l.hand .first).cleared) .first i .toss
    rw [Lane.play_hand] at hsent
    simp only [State.allows] at ha
    simp only [State.sent, Hand.play] at *
    omega
  · have htotal := s.total_play (fun l => (l.hand .first).thrown + l.unserved) p i m
    have hlane : (((s.lane i).play p m).hand .first).thrown + ((s.lane i).play p m).unserved ≤
        ((s.lane i).hand .first).thrown + (s.lane i).unserved := by
      have hun := Lane.unserved_play ha.admits
      cases p with
      | first =>
          rw [Lane.play_hand]
          cases m with
          | serve =>
              rw [if_pos rfl] at hun
              simp only [Hand.play]
              omega
          | toss => exact absurd ⟨rfl, rfl⟩ htoss
          | _ => exact Nat.add_le_add_left hun.le _
      | second =>
          have hpeer := (s.lane i).play_hand_peer .second m
          rw [Player.peer] at hpeer
          rw [hpeer]
          omega
    rw [State.total_add, State.total_add] at htotal
    have hserved := h.served
    simp only [State.thrown] at *
    omega

theorem State.Sound.thrown_play {R : Rules} {s : State ι} {p : Player} {i : ι} {m : Move}
    (h : s.Sound R) (ha : s.allows R p i m) :
    (s.play p i m).thrown .second + 1 ≤ max R.quota 1 + Fintype.card ι := by
  by_cases htoss : m = .toss ∧ p = .second
  · obtain ⟨rfl, rfl⟩ := htoss
    have hle := State.thrown_le .second (h.counted_play ha)
    have hsent := s.total_play (fun l => (l.hand .second).cleared) .second i .toss
    rw [Lane.play_hand] at hsent
    simp only [State.allows] at ha
    simp only [State.sent, Hand.play] at *
    omega
  · have htotal := s.total_play (fun l => (l.hand .second).thrown) p i m
    have hlane : (((s.lane i).play p m).hand .second).thrown ≤
        ((s.lane i).hand .second).thrown := by
      cases p with
      | first =>
          have hpeer := (s.lane i).play_hand_peer .first m
          rw [Player.peer] at hpeer
          rw [hpeer]
      | second =>
          rw [Lane.play_hand]
          cases m with
          | serve => cases ha.2
          | toss => exact absurd ⟨rfl, rfl⟩ htoss
          | _ => exact le_rfl
    have hthrown := h.thrown
    simp only [State.thrown] at *
    omega

theorem State.Sound.play {R : Rules} {s : State ι} {p : Player} {i : ι} {m : Move}
    (h : s.Sound R) (ha : s.allows R p i m) : (s.play p i m).Sound R where
  counted := h.counted_play ha
  cut := h.cut_play ha
  lost := h.lost_play ha
  left q hq hstays := by
    have hquota := h.left q hq hstays
    rw [s.sent_play, s.received_play]
    omega
  served := h.served_play ha
  thrown := h.thrown_play ha

theorem State.Sound.step {R : Rules} {s t : State ι} {e : Event ι} (h : s.Sound R)
    (hs : step R s e = some t) : t.Sound R := by
  cases e with
  | move m p i =>
      obtain ⟨ha, rfl⟩ := step_move.mp hs
      exact h.play ha
  | leave p =>
      obtain ⟨hwhy, rfl⟩ := step_leave.mp hs
      have hmono : ∀ q, s.left q = true → Function.update s.left p true q = true := by
        grind
      refine ⟨h.counted, fun q i hcut => (h.cut q i hcut).imp_right (And.imp_left (hmono _)),
        fun hr q i hlost => (h.lost hr q i hlost).imp_left (hmono q), fun q hq hstays => ?_,
        h.served, h.thrown⟩
      by_cases hqp : q = p
      · subst hqp
        rcases hwhy with hmay | hquits
        · exact hmay.2
        · rw [hquits.2] at hstays
          cases hstays
      · simp only [Function.update_of_ne hqp] at hq
        exact h.left q hq hstays

theorem State.Sound.run {R : Rules} {s t : State ι} {es : List (Event ι)} (h : s.Sound R)
    (hs : Runs.run (Volley.step R) s es = some t) : t.Sound R :=
  invariant (fun hi hstep => hi.step hstep) h hs

omit [DecidableEq ι] in
theorem State.Sound.quota_le_thrown {R : Rules} {s : State ι} (h : s.Sound R) (p : Player) :
    s.thrown p + 1 ≤ max R.quota 1 + Fintype.card ι := by
  have hserved := h.served
  have hthrown := h.thrown
  cases p <;> omega

omit [DecidableEq ι] in
theorem State.Sound.sent_le {R : Rules} {s : State ι} (h : s.Sound R) (p : Player) :
    s.sent p ≤ s.thrown p :=
  State.total_le fun i => ((h.counted i).confirmed p).symm ▸ Nat.le_add_right _ _

omit [DecidableEq ι] in
theorem State.Sound.received_le {R : Rules} {s : State ι} (h : s.Sound R) (p : Player) :
    s.received p ≤ s.thrown p.peer := by
  refine State.total_le fun i => ?_
  have hcaught := (h.counted i).caught p.peer
  rw [Player.peer_peer] at hcaught
  omega

omit [DecidableEq ι] in
/-- On a single lane the one ball that is lost was one the receiver needs. -/
theorem State.Sound.stays_of_lost {R : Rules} {s : State ι} (h : s.Sound R)
    (hcard : Fintype.card ι = 1) (hquota : 0 < R.quota) {p : Player} {i : ι}
    (hlost : (s.lane i).ball = .lost p) : s.received p.peer < R.quota := by
  have haloft : (s.lane i).aloft p = 1 := by simp [Lane.aloft, hlost]
  have hlt := h.received_lt haloft
  have hle := h.quota_le_thrown p
  omega

/-- A ball that is lost stays so. -/
theorem lost_step {R : Rules} {s t : State ι} {e : Event ι} {p : Player} {i : ι}
    (hlost : (s.lane i).ball = .lost p) (hs : Volley.step R s e = some t) :
    (t.lane i).ball = .lost p := by
  cases e with
  | move m q j =>
      obtain ⟨ha, rfl⟩ := step_move.mp hs
      by_cases hj : i = j
      · subst hj
        rw [s.play_lane, Lane.play_ball, hlost]
        have hadmits := ha.admits
        cases m <;> simp_all [Lane.Admits, Ball.play]
      · rw [s.play_lane_ne q hj]
        exact hlost
  | leave q =>
      obtain ⟨-, rfl⟩ := step_leave.mp hs
      exact hlost

/-- What a ball and a throw still have before them. -/
def Ball.weight : Ball → ℕ
  | .flying _ => 2
  | .landed _ => 1
  | .unopened | .held _ | .lost _ => 0

def Throw.weight : Throw → ℕ
  | .under => 2
  | .done => 1
  | .idle | .cut => 0

def Lane.weight (l : Lane) : ℕ :=
  l.ball.weight + ((l.hand .first).throw.weight + (l.hand .second).throw.weight)

/-- A throw is paid for by the throws still to come. -/
def State.remaining (R : Rules) (s : State ι) : ℕ :=
  10 * (max R.quota 1 + Fintype.card ι) + s.total Lane.weight +
    ((!s.left .first).toNat + (!s.left .second).toNat) -
    5 * (s.thrown .first + s.thrown .second)

/-- A throw starts a ball and a confirmation; every other move uses up a step
of one of them. -/
theorem Lane.weight_throw {reliable : Bool} {l : Lane} {p : Player} {m : Move}
    (ha : l.Admits reliable p m) :
    (l.ball.play p m).weight + ((l.hand p).play m).throw.weight + 1 + 5 * (l.hand p).thrown ≤
      l.ball.weight + (l.hand p).throw.weight + 5 * ((l.hand p).play m).thrown := by
  cases m with
  | serve =>
      simp only [Ball.play, Hand.play, Ball.weight, Throw.weight]
      omega
  | toss =>
      simp only [Ball.play, Hand.play, Ball.weight, Throw.weight]
      omega
  | land =>
      rw [show l.ball = .flying p from ha]
      simp only [Ball.play, Hand.play, Ball.weight]
      omega
  | lose =>
      rw [show l.ball = .flying p from ha]
      simp only [Ball.play, Hand.play, Ball.weight]
      omega
  | finish => simp [ha.1, Ball.play, Hand.play, Throw.weight]
  | cut => simp [ha.1, ha.2, Ball.play, Hand.play, Ball.weight, Throw.weight]
  | take =>
      rw [show l.ball = .landed p from ha]
      simp only [Ball.play, Hand.play, Ball.weight]
      omega
  | clear =>
      rw [show (l.hand p).throw = .done from ha]
      simp only [Ball.play, Hand.play, Throw.weight]
      omega

theorem Lane.weight_play {reliable : Bool} {l : Lane} {p : Player} {m : Move}
    (ha : l.Admits reliable p m) :
    (l.play p m).weight + 1 + 5 * ((l.hand .first).thrown + (l.hand .second).thrown) ≤
      l.weight + 5 * (((l.play p m).hand .first).thrown + ((l.play p m).hand .second).thrown) := by
  have hthrow := Lane.weight_throw ha
  have hself := l.play_hand p m
  have hpeer := l.play_hand_peer p m
  unfold Lane.weight
  rw [Lane.play_ball]
  cases p with
  | first =>
      rw [Player.peer] at hpeer
      rw [hself, hpeer]
      omega
  | second =>
      rw [Player.peer] at hpeer
      rw [hself, hpeer]
      omega

theorem State.Sound.remaining_step {R : Rules} {s t : State ι} {e : Event ι} (h : s.Sound R)
    (hs : Volley.step R s e = some t) : t.remaining R + 1 ≤ s.remaining R := by
  have hfirst := (h.step hs).quota_le_thrown .first
  have hsecond := (h.step hs).quota_le_thrown .second
  unfold State.remaining
  cases e with
  | move m p i =>
      obtain ⟨ha, rfl⟩ := step_move.mp hs
      have hlane := Lane.weight_play ha.admits
      have hw := s.total_play Lane.weight p i m
      have hf := s.total_play (fun l => (l.hand .first).thrown) p i m
      have hse := s.total_play (fun l => (l.hand .second).thrown) p i m
      simp only [State.thrown, State.play] at *
      omega
  | leave p =>
      obtain ⟨hwhy, rfl⟩ := step_leave.mp hs
      have hstay : s.left p = false := hwhy.elim And.left And.left
      have hflags : (!Function.update s.left p true .first).toNat +
          (!Function.update s.left p true .second).toNat + 1 ≤
          (!s.left .first).toNat + (!s.left .second).toNat := by
        cases p <;> simp [Function.update, hstay, Nat.add_comm]
      simp only [State.thrown, State.total] at *
      omega

/-- Every event of a run uses up a unit. -/
theorem State.Sound.remaining_run {R : Rules} {s t : State ι} {es : List (Event ι)}
    (h : s.Sound R) (hs : Runs.run (Volley.step R) s es = some t) :
    es.length + t.remaining R ≤ s.remaining R := by
  have hpay := potential (I := fun s => s.Sound R) (P := fun _ => True) (fun _ => true)
    (State.remaining R) (fun hi _ hstep => hi.step hstep)
    (fun hi _ hstep => Nat.add_comm _ _ ▸ hi.remaining_step hstep) h (fun _ _ => trivial) hs
  simpa using hpay

end CppPlayground.Volley
