import Mathlib.Data.List.Basic
import Mathlib.Data.List.Infix
import Mathlib.Logic.Function.Basic
import Mathlib.Tactic.Common

/-!
# Queues with a gate

What enters the queue is held until a commit opens the gate for everything
that has entered so far; only what is ready may be taken out. Two lists
describe a queue's history: all that entered it, and the part of it the gate
has released. Taking changes neither.

The queue is kept in an array between three indices: ready from `n` to `w`,
held from `w` to `u`.
-/
namespace CppPlayground.GatedQueue

variable {α : Type*}

structure Queue (α : Type*) where
  out : List α
  ready : List α
  held : List α

def Queue.put (q : Queue α) (x : α) : Queue α := { q with held := q.held ++ [x] }

def Queue.commit (q : Queue α) : Queue α := ⟨q.out, q.ready ++ q.held, []⟩

def Queue.take (q : Queue α) (k : ℕ) : Queue α :=
  ⟨q.out ++ q.ready.take k, q.ready.drop k, q.held⟩

def Queue.entered (q : Queue α) : List α := q.out ++ q.ready ++ q.held

def Queue.released (q : Queue α) : List α := q.out ++ q.ready

@[simp] theorem Queue.entered_put (q : Queue α) (x : α) :
    (q.put x).entered = q.entered ++ [x] := by
  simp [entered, put]

@[simp] theorem Queue.released_put (q : Queue α) (x : α) :
    (q.put x).released = q.released := rfl

@[simp] theorem Queue.entered_commit (q : Queue α) : q.commit.entered = q.entered := by
  simp [entered, commit]

@[simp] theorem Queue.released_commit (q : Queue α) : q.commit.released = q.entered := by
  simp [entered, released, commit]

@[simp] theorem Queue.released_take (q : Queue α) (k : ℕ) :
    (q.take k).released = q.released := by
  simp [released, take]

@[simp] theorem Queue.entered_take (q : Queue α) (k : ℕ) :
    (q.take k).entered = q.entered := by
  simp [entered, take]

/-- The gate never releases what did not enter. -/
theorem Queue.released_prefix (q : Queue α) : q.released <+: q.entered :=
  List.prefix_append _ _

/-- The elements at the indices from `a` up to, not including, `b`. -/
def window (f : ℕ → α) (a b : ℕ) : List α := (List.range' a (b - a)).map f

theorem window_length (f : ℕ → α) (a b : ℕ) : (window f a b).length = b - a := by
  simp [window]

theorem window_eq_nil {f : ℕ → α} {a b : ℕ} (h : b ≤ a) : window f a b = [] := by
  simp [window, Nat.sub_eq_zero_of_le h]

theorem window_append (f : ℕ → α) {a b c : ℕ} (hab : a ≤ b) (hbc : b ≤ c) :
    window f a b ++ window f b c = window f a c := by
  have hsplit : List.range' a (c - a) = List.range' a (b - a) ++ List.range' b (c - b) := by
    have hend : a + (b - a) = b := by omega
    have hlen : c - a = (b - a) + (c - b) := by omega
    rw [hlen, ← List.range'_append_1, hend]
  rw [window, window, window, hsplit, List.map_append]

theorem window_cons {f : ℕ → α} {a b : ℕ} (h : a < b) :
    window f a b = f a::window f (a + 1) b := by
  obtain ⟨k, rfl⟩ : ∃ k, b = a + 1 + k := ⟨b - (a + 1), by omega⟩
  have hlen : a + 1 + k - a = (a + 1 + k - (a + 1)) + 1 := by omega
  rw [window, window, hlen, List.range'_succ, List.map_cons]

theorem window_snoc {f : ℕ → α} {a b : ℕ} (h : a ≤ b) :
    window f a (b + 1) = window f a b ++ [f b] := by
  rw [← window_append f h (Nat.le_succ b), window_cons (Nat.lt_succ_self b),
    window_eq_nil le_rfl]

theorem window_congr {f g : ℕ → α} {a b : ℕ} (h : ∀ i, a ≤ i → i < b → f i = g i) :
    window f a b = window g a b := by
  apply List.map_congr_left
  intro i hi
  obtain ⟨hai, hib⟩ := List.mem_range'_1.mp hi
  exact h i hai (by omega)

/-- A store at or past the end of a window leaves the window as it is. -/
theorem window_update_of_le {f : ℕ → α} {a b i : ℕ} (h : b ≤ i) (x : α) :
    window (Function.update f i x) a b = window f a b := by
  apply window_congr
  intro j _ hj
  have hne : j ≠ i := by omega
  exact Function.update_of_ne hne x f

theorem window_take {f : ℕ → α} {a b k : ℕ} (h : k ≤ b - a) :
    (window f a b).take k = window f a (a + k) := by
  by_cases hab : a ≤ b
  · rw [← window_append f (Nat.le_add_right a k) (by omega : a + k ≤ b)]
    exact List.take_left' (by rw [window_length]; omega)
  · have hk : k = 0 := by omega
    rw [hk, List.take_zero, window_eq_nil (Nat.le_of_eq (Nat.add_zero a))]

theorem window_drop {f : ℕ → α} {a b k : ℕ} (h : k ≤ b - a) :
    (window f a b).drop k = window f (a + k) b := by
  by_cases hab : a ≤ b
  · rw [← window_append f (Nat.le_add_right a k) (by omega : a + k ≤ b)]
    exact List.drop_left' (by rw [window_length]; omega)
  · rw [window_eq_nil (by omega), window_eq_nil (by omega), List.drop_nil]

def ofArray (out : List α) (f : ℕ → α) (n w u : ℕ) : Queue α :=
  ⟨out, window f n w, window f w u⟩

section Array
variable {out : List α} {f : ℕ → α} {n w u : ℕ}

theorem entered_ofArray (hnw : n ≤ w) (hwu : w ≤ u) :
    (ofArray out f n w u).entered = out ++ window f n u := by
  rw [Queue.entered, ofArray, List.append_assoc, window_append f hnw hwu]

theorem released_ofArray : (ofArray out f n w u).released = out ++ window f n w := rfl

theorem ofArray_put (hwu : w ≤ u) (x : α) :
    ofArray out (Function.update f u x) n w (u + 1) = (ofArray out f n w u).put x := by
  rw [ofArray, window_snoc hwu, window_update_of_le hwu, window_update_of_le le_rfl,
    Function.update_self]
  rfl

theorem ofArray_commit (hnw : n ≤ w) (hwu : w ≤ u) :
    ofArray out f n u u = (ofArray out f n w u).commit := by
  simp only [ofArray, Queue.commit, window_append f hnw hwu, window_eq_nil (le_refl u)]

theorem ofArray_take {k : ℕ} (hk : k ≤ w - n) :
    ofArray (out ++ window f n (n + k)) f (n + k) w u = (ofArray out f n w u).take k := by
  simp only [ofArray, Queue.take, window_take hk, window_drop hk]

/-- With nothing between them the indices may be put anywhere. -/
theorem ofArray_empty (hnw : n ≤ w) (hwu : w ≤ u) (hu : u ≤ n) (i : ℕ) :
    ofArray out f i i i = ofArray out f n w u := by
  simp only [ofArray, window_eq_nil (le_refl i), window_eq_nil (hwu.trans hu),
    window_eq_nil (hu.trans hnw)]

end Array

end CppPlayground.GatedQueue
