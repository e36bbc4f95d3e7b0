import Mathlib.Algebra.BigOperators.Group.Finset.Basic
import Mathlib.Algebra.Order.BigOperators.Group.Finset
import Mathlib.Data.Fintype.BigOperators

/-!
# Tallies over finitely many places

A sum over all places changes by what changes at the one place that does.
-/
namespace CppPlayground.Tally

variable {ι : Type*} [Fintype ι] [DecidableEq ι]

theorem sum_change {f g : ι → ℕ} (i : ι) (h : ∀ j, j ≠ i → g j = f j) :
    ∑ j, g j + f i = ∑ j, f j + g i := by
  have hrest : ∑ j ∈ Finset.univ.erase i, g j = ∑ j ∈ Finset.univ.erase i, f j :=
    Finset.sum_congr rfl fun j hj => h j (Finset.ne_of_mem_erase hj)
  have hf := Finset.add_sum_erase Finset.univ f (Finset.mem_univ i)
  have hg := Finset.add_sum_erase Finset.univ g (Finset.mem_univ i)
  omega

/-- What each place contributes, after an update of one. -/
theorem sum_update {A : Type*} (w : ι → A → ℕ) (a : ι → A) (i : ι) (b : A) :
    ∑ j, w j (Function.update a i b j) + w i (a i) = ∑ j, w j (a j) + w i b := by
  have hchange := sum_change (f := fun j => w j (a j))
    (g := fun j => w j (Function.update a i b j)) i fun j hj => by rw [Function.update_of_ne hj]
  rwa [Function.update_self] at hchange

omit [DecidableEq ι] in
theorem le_sum (f : ι → ℕ) (i : ι) : f i ≤ ∑ j, f j :=
  Finset.single_le_sum (fun _ _ => Nat.zero_le _) (Finset.mem_univ i)

omit [DecidableEq ι] in
theorem sum_le_card {f : ι → ℕ} (h : ∀ i, f i ≤ 1) : ∑ i, f i ≤ Fintype.card ι := by
  rw [← Finset.card_univ, Finset.card_eq_sum_ones]
  exact Finset.sum_le_sum fun i _ => h i

omit [Fintype ι] [DecidableEq ι] in
/-- Entries of a kind that all come from one family are counted by it. -/
theorem countP_le_sum {α κ : Type*} [DecidableEq α] [Fintype κ] (f : κ → α) (q : α → Bool)
    {l : List α} (h : ∀ a ∈ l, q a = true → ∃ k, a = f k) : l.countP q ≤ ∑ k, l.count (f k) := by
  induction l with
  | nil => simp
  | cons a l ih =>
      have hl := ih fun b hb => h b (List.mem_cons_of_mem a hb)
      simp only [List.countP_cons, List.count_cons, Finset.sum_add_distrib]
      refine Nat.add_le_add hl ?_
      split_ifs with hq
      · obtain ⟨k, rfl⟩ := h a List.mem_cons_self hq
        have hone := Finset.single_le_sum
          (f := fun j => if (f k == f j) = true then 1 else 0) (fun j _ => Nat.zero_le _)
          (Finset.mem_univ k)
        simpa using hone
      · exact Nat.zero_le _

theorem sum_fin_const (n k : ℕ) : ∑ _j : Fin n, k = n * k := by
  rw [Finset.sum_const_nat fun _ _ => rfl, Finset.card_univ, Fintype.card_fin]

end CppPlayground.Tally
