import CppPlayground.Tally
import Mathlib.Data.Int.ModEq

/-!
# Round robin

As many users as carriers: for its use `k` a user takes the carrier `k` places
after its own. However the users' uses interleave, a round of all users takes
every carrier once, so equal numbers of uses load the carriers equally.
-/
namespace CppPlayground.RoundRobin

variable {m : ℕ}

/-- The carrier of use `k` of user `i`. -/
def turn (i : Fin m) (k : ℕ) : Fin m := ⟨(i + k) % m, Nat.mod_lt _ i.pos⟩

theorem turn_injective (k : ℕ) : Function.Injective fun i : Fin m => turn i k := by
  intro i j h
  have hmod : (i + k : ℕ) ≡ j + k [MOD m] := congrArg Fin.val h
  have hcancel := Nat.ModEq.add_right_cancel' k hmod
  exact Fin.ext (Nat.ModEq.eq_of_lt_of_lt hcancel i.isLt j.isLt)

/-- Use `k` of exactly one user is on the carrier. -/
theorem exists_turn (k : ℕ) (j : Fin m) : ∃ i, turn i k = j :=
  Finite.surjective_of_injective (turn_injective k) j

/-- How often the carrier was taken when each user has made its uses. -/
def carried (uses : Fin m → ℕ) (j : Fin m) : ℕ :=
  ∑ i, (List.range (uses i)).countP fun k => turn i k = j

theorem carried_zero (j : Fin m) : carried (fun _ => 0) j = 0 :=
  Finset.sum_eq_zero fun _ _ => rfl

theorem countP_range_succ (p : ℕ → Bool) (k : ℕ) :
    (List.range (k + 1)).countP p = (List.range k).countP p + (p k).toNat := by
  rw [List.range_succ, List.countP_append, List.countP_singleton]
  cases p k <;> rfl

/-- One more use loads the carrier whose turn it is. -/
theorem carried_update (uses : Fin m → ℕ) (i j : Fin m) :
    carried (Function.update uses i (uses i + 1)) j =
      carried uses j + if turn i (uses i) = j then 1 else 0 := by
  have hchange := Tally.sum_update
    (fun l k => (List.range k).countP fun k => turn l k = j) uses i (uses i + 1)
  have hload : (decide (turn i (uses i) = j)).toNat = if turn i (uses i) = j then 1 else 0 := by
    by_cases h : turn i (uses i) = j <;> simp [h]
  rw [countP_range_succ, hload] at hchange
  unfold carried
  omega

theorem carried_mono {uses uses' : Fin m → ℕ} (h : ∀ i, uses i ≤ uses' i) (j : Fin m) :
    carried uses j ≤ carried uses' j :=
  Finset.sum_le_sum fun i _ => (List.range_sublist.mpr (h i)).countP_le

/-- After `k` uses of each user every carrier has been taken `k` times. -/
theorem carried_const (k : ℕ) (j : Fin m) : carried (fun _ => k) j = k := by
  induction k with
  | zero => exact carried_zero j
  | succ k ih =>
      obtain ⟨i, hi⟩ := exists_turn k j
      have hone : ∑ l : Fin m, (decide (turn l k = j)).toNat = 1 := by
        rw [Finset.sum_eq_single i]
        · rw [hi, decide_eq_true rfl]
          rfl
        · intro l _ hl
          have hne : turn l k ≠ j := fun h => hl (turn_injective k (h.trans hi.symm))
          rw [decide_eq_false hne]
          rfl
        · exact fun h => absurd (Finset.mem_univ i) h
      unfold carried at ih ⊢
      calc
        _ = ∑ l : Fin m, ((List.range k).countP (fun k => turn l k = j) +
              (decide (turn l k = j)).toNat) :=
            Finset.sum_congr rfl fun l _ => countP_range_succ _ k
        _ = k + 1 := by rw [Finset.sum_add_distrib, ih, hone]

theorem carried_le {uses : Fin m → ℕ} {k : ℕ} (h : ∀ i, uses i ≤ k) (j : Fin m) :
    carried uses j ≤ k :=
  (carried_mono h j).trans_eq (carried_const k j)

end CppPlayground.RoundRobin
