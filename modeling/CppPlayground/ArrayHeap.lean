import Mathlib.Data.List.Basic
import Mathlib.Tactic.Common

/-!
# Arrays on a heap

Arrays are allocated one after another and never freed; the address of an array
is its position in the heap. A cell of a new array has no value until one is
stored. An access outside an array has no result. Loops that fill an array or
copy one cell by cell are summed up by the array they leave.
-/
namespace CppPlayground.ArrayHeap

variable {α : Type}

abbrev Heap (α : Type) := List (List (Option α))

/-- The address of the new array is the number of arrays before. -/
def alloc (h : Heap α) (n : ℕ) : Heap α := h ++ [List.replicate n none]

def load (h : Heap α) (a i : ℕ) : Option (Option α) := h[a]?.bind fun cells => cells[i]?

def store (h : Heap α) (a i : ℕ) (x : Option α) : Option (Heap α) :=
  match h[a]? with
  | none => none
  | some cells => if i < cells.length then some (h.set a (cells.set i x)) else none

/-- Values stored one after another from a cell on. -/
def fill (h : Heap α) (a i : ℕ) : List α → Option (Heap α)
  | [] => some h
  | x::xs => (store h a i (some x)).bind fun h => fill h a (i + 1) xs

def copyCell (dst src : ℕ) (h : Heap α) (i : ℕ) : Option (Heap α) :=
  (load h src i).bind (store h dst i)

/-- The first cells of one array, stored into another in order. -/
def copyCells (dst src n : ℕ) (h : Heap α) : Option (Heap α) :=
  (List.range n).foldlM (copyCell dst src) h

section Accesses
variable {h : Heap α} {a i : ℕ} {cells : List (Option α)}

theorem lt_of_array (ha : h[a]? = some cells) : a < h.length :=
  (List.getElem?_eq_some_iff.mp ha).1

theorem array_alloc (h : Heap α) (n : ℕ) :
    (alloc h n)[h.length]? = some (List.replicate n none) := by
  simp [alloc]

theorem array_alloc_old (n : ℕ) (ha : h[a]? = some cells) : (alloc h n)[a]? = some cells := by
  rw [alloc, List.getElem?_append_left (lt_of_array ha), ha]

theorem set_alloc (h : Heap α) (n : ℕ) (cells : List (Option α)) :
    (alloc h n).set h.length cells = h ++ [cells] := by
  simp [alloc]

theorem set_array (ha : h[a]? = some cells) : h.set a cells = h := by
  obtain ⟨hlt, rfl⟩ := List.getElem?_eq_some_iff.mp ha
  exact List.set_getElem_self hlt

theorem store_eq (ha : h[a]? = some cells) (hi : i < cells.length) (x : Option α) :
    store h a i x = some (h.set a (cells.set i x)) := by
  simp only [store, ha, if_pos hi]

theorem load_eq (ha : h[a]? = some cells) (i : ℕ) : load h a i = cells[i]? := by
  rw [load, ha, Option.bind_some]

/-- Storing at the end of the cells that are done. -/
theorem set_next {done old : List (Option α)} (hi : done.length = i) (x y : Option α) :
    (done ++ y::old).set i x = done ++ [x] ++ old := by
  subst hi
  simp

end Accesses

section Loops
variable {h : Heap α} {a : ℕ} {cells : List (Option α)}

theorem fill_eq {i : ℕ} {xs : List α} {done old : List (Option α)}
    (ha : h[a]? = some (done ++ old)) (hi : done.length = i) (hxs : xs.length ≤ old.length) :
    fill h a i xs = some (h.set a (done ++ (xs.map some ++ old.drop xs.length))) := by
  induction xs generalizing h i done old with
  | nil => simp [fill, set_array ha]
  | cons x xs ih =>
      cases old with
      | nil => cases hxs
      | cons y old =>
          have hnew : (h.set a (done ++ [some x] ++ old))[a]? = some (done ++ [some x] ++ old) :=
            List.getElem?_set_self (lt_of_array ha)
          have hrest := ih hnew (i := i + 1) (by simp [hi]) (Nat.le_of_succ_le_succ hxs)
          rw [fill, store_eq ha (by simp [← hi]), Option.bind_some, set_next hi, hrest,
            List.set_set]
          simp

/-- An array filled with as many values as it has cells. -/
theorem fill_whole {xs : List α} (ha : h[a]? = some cells) (hlength : xs.length = cells.length) :
    fill h a 0 xs = some (h.set a (xs.map some)) := by
  have hcells : h[a]? = some ([] ++ cells) := ha
  have hfill := fill_eq hcells rfl (Nat.le_of_eq hlength)
  rwa [hlength, List.drop_length, List.append_nil, List.nil_append] at hfill

theorem copyCells_eq {dst src n : ℕ} {xs ys : List (Option α)} (hsrc : h[src]? = some xs)
    (hdst : h[dst]? = some ys) (hne : src ≠ dst) (hx : n ≤ xs.length) (hy : n ≤ ys.length) :
    copyCells dst src n h = some (h.set dst (xs.take n ++ ys.drop n)) := by
  induction n with
  | zero => simp [copyCells, set_array hdst]
  | succ n ih =>
      have hnew : (h.set dst (xs.take n ++ ys.drop n))[dst]? = some (xs.take n ++ ys.drop n) :=
        List.getElem?_set_self (lt_of_array hdst)
      have hold : (h.set dst (xs.take n ++ ys.drop n))[src]? = some xs := by
        rw [List.getElem?_set_ne hne.symm, hsrc]
      have hprev := ih (by omega) (by omega)
      rw [copyCells] at hprev
      rw [copyCells, List.range_succ, List.foldlM_append, hprev]
      simp only [Option.bind_eq_bind, Option.bind_some, List.foldlM_cons, List.foldlM_nil, copyCell]
      have hlength : (xs.take n).length = n := by simp; omega
      have hcells : xs.take n ++ ys.drop n = xs.take n ++ ys[n]::ys.drop (n + 1) := by
        rw [← List.drop_eq_getElem_cons]
      rw [load_eq hold, List.getElem?_eq_getElem hx, Option.bind_some,
        store_eq hnew (by simp; omega), hcells, set_next hlength, List.take_append_getElem,
        List.set_set]
      rfl

/-- Copying an array onto itself changes nothing. -/
theorem copyCells_self {n : ℕ} (ha : h[a]? = some cells) (hn : n ≤ cells.length) :
    copyCells a a n h = some h := by
  induction n with
  | zero => rfl
  | succ n ih =>
      have hprev := ih (by omega)
      rw [copyCells] at hprev
      rw [copyCells, List.range_succ, List.foldlM_append, hprev]
      simp only [Option.bind_eq_bind, Option.bind_some, List.foldlM_cons, List.foldlM_nil, copyCell]
      rw [load_eq ha, List.getElem?_eq_getElem hn, Option.bind_some, store_eq ha hn,
        List.set_getElem_self hn, set_array ha]
      rfl

end Loops

end CppPlayground.ArrayHeap
