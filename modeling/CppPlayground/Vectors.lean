import CppPlayground.ArrayHeap
import CppPlayground.Runs
import Mathlib.Tactic.NormNum

/-!
# Vectors and their copies

The class `Vector` of clazz.cpp keeps a pointer to its elements and their
number. Copying makes a new array, so that no two Vectors share one, and a
program that only constructs, copies and assigns Vectors and writes elements
sees lists that are copied by value. Assignment replaces the array before it
copies: when a Vector is assigned to itself, what it copies are the cells of
the new array. The loops count in `int`. Allocation succeeds; a program whose
`new` throws ends there.
-/
namespace CppPlayground.Vectors
open ArrayHeap Runs

variable {α : Type}

/-- The members of a `Vector`; `element` is an address. -/
structure Vec where
  element : ℕ
  sz : ℕ

/-- The heap, and the Vectors in the order of their construction. -/
structure State (α : Type) where
  heap : Heap α
  vectors : List Vec

/-- A size is given by the elements that are set afterwards. -/
inductive Op (α : Type) where
  | ofSize (values : List α)
  | ofList (lst : List α)
  | copy (src : ℕ)
  | assign (dst src : ℕ)
  | write (v i : ℕ) (x : α)

/-- `for (int i = 0; i < n; i++)`; the increment of the last `int` is undefined. -/
def forInt (n : ℕ) (body : Heap α → ℕ → Option (Heap α)) (h : Heap α) : Option (Heap α) :=
  if n < 2 ^ 31 then (List.range n).foldlM body h else none

/-- The loop of both copy operations: `element[i] = v.element[i]`. -/
def copyLoop (dst src n : ℕ) (h : Heap α) : Option (Heap α) := forInt n (copyCell dst src) h

/-- `Vector(ulong s)`, and the setting of all elements. -/
def State.ofSize (st : State α) (values : List α) : Option (State α) :=
  (fill (alloc st.heap values.length) st.heap.length 0 values).map fun h =>
    ⟨h, st.vectors ++ [⟨st.heap.length, values.length⟩]⟩

/-- `Vector(initializer_list<double> lst)`, which copies the list once for each
of its elements. -/
def State.ofList (st : State α) (lst : List α) : Option (State α) :=
  (forInt lst.length (fun h _ => fill h st.heap.length 0 lst) (alloc st.heap lst.length)).map
    fun h => ⟨h, st.vectors ++ [⟨st.heap.length, lst.length⟩]⟩

/-- `Vector(const Vector& v)` -/
def State.copy (st : State α) (src : ℕ) : Option (State α) :=
  st.vectors[src]?.bind fun v =>
    (copyLoop st.heap.length v.element v.sz (alloc st.heap v.sz)).map fun h =>
      ⟨h, st.vectors ++ [⟨st.heap.length, v.sz⟩]⟩

/-- `operator=`: the members are replaced first, and `v` may be `*this`. -/
def State.assign (st : State α) (dst src : ℕ) : Option (State α) :=
  st.vectors[src]?.bind fun v =>
    let vectors := st.vectors.set dst ⟨st.heap.length, v.sz⟩
    vectors[dst]?.bind fun this =>
      vectors[src]?.bind fun v =>
        (copyLoop this.element v.element this.sz (alloc st.heap this.sz)).map fun h =>
          ⟨h, vectors⟩

/-- `v[i] = x` -/
def State.write (st : State α) (v i : ℕ) (x : α) : Option (State α) :=
  st.vectors[v]?.bind fun vec =>
    (store st.heap vec.element i (some x)).map fun h => ⟨h, st.vectors⟩

def exec (st : State α) : Op α → Option (State α)
  | .ofSize values => st.ofSize values
  | .ofList lst => st.ofList lst
  | .copy src => st.copy src
  | .assign dst src => st.assign dst src
  | .write v i x => st.write v i x

def State.start : State α := ⟨[], []⟩

/-- An index is an `int`, so that it must be below `2 ^ 31` to set an element. -/
def byValue (lists : List (List α)) : Op α → Option (List (List α))
  | .ofSize values => if values.length ≤ 2 ^ 31 then some (lists ++ [values]) else none
  | .ofList lst => some (lists ++ [lst])
  | .copy src => lists[src]?.map fun l => lists ++ [l]
  | .assign dst src =>
      if dst < lists.length then lists[src]?.map fun l => lists.set dst l else none
  | .write v i x =>
      lists[v]?.bind fun l =>
        if i < l.length ∧ i < 2 ^ 31 then some (lists.set v (l.set i x)) else none

/-- The array holds exactly the list, and the size is its length. -/
structure Holds (heap : Heap α) (vec : Vec) (l : List α) : Prop where
  size : vec.sz = l.length
  cells : heap[vec.element]? = some (l.map some)

/-- Each Vector holds its list, and no two have the same array. -/
structure Refines (st : State α) (lists : List (List α)) : Prop where
  length_eq : st.vectors.length = lists.length
  holds : ∀ (v : ℕ) (vec : Vec) (l : List α), st.vectors[v]? = some vec → lists[v]? = some l →
    Holds st.heap vec l
  apart : ∀ (v w : ℕ) (vec wec : Vec), st.vectors[v]? = some vec → st.vectors[w]? = some wec →
    vec.element = wec.element → v = w

theorem refines_start : Refines (.start : State α) [] where
  length_eq := rfl
  holds _ _ _ hvec _ := by cases hvec
  apart _ _ _ _ hvec _ _ := by cases hvec

theorem getElem?_snoc {β : Type} {xs : List β} {x y : β} {v : ℕ}
    (h : (xs ++ [x])[v]? = some y) : xs[v]? = some y ∨ (v = xs.length ∧ y = x) := by
  rcases Nat.lt_or_ge v xs.length with hlt | hge
  · rw [List.getElem?_append_left hlt] at h
    exact .inl h
  · rw [List.getElem?_append_right hge, List.getElem?_singleton] at h
    split_ifs at h with hv
    exact .inr ⟨by omega, (Option.some.inj h).symm⟩

theorem getElem?_set_cases {β : Type} {xs : List β} {x y : β} {v w : ℕ}
    (h : (xs.set w x)[v]? = some y) : (v ≠ w ∧ xs[v]? = some y) ∨ (v = w ∧ y = x) := by
  by_cases hv : v = w
  · subst hv
    rw [List.getElem?_set_self'] at h
    obtain ⟨_, _, rfl⟩ := Option.map_eq_some_iff.mp h
    exact .inr ⟨rfl, rfl⟩
  · rw [List.getElem?_set_ne (ne_comm.mp hv)] at h
    exact .inl ⟨hv, h⟩

section Refining
variable {st : State α} {lists : List (List α)} {l : List α} {v : ℕ} {vec : Vec}

theorem Refines.vector (h : Refines st lists) (hl : lists[v]? = some l) :
    ∃ vec, st.vectors[v]? = some vec ∧ Holds st.heap vec l := by
  have hlt : v < st.vectors.length := by
    rw [h.length_eq]
    exact (List.getElem?_eq_some_iff.mp hl).1
  exact ⟨_, List.getElem?_eq_getElem hlt, h.holds v _ l (List.getElem?_eq_getElem hlt) hl⟩

theorem Refines.list (h : Refines st lists) (hvec : st.vectors[v]? = some vec) :
    ∃ l, lists[v]? = some l ∧ Holds st.heap vec l := by
  have hlt : v < lists.length := by
    rw [← h.length_eq]
    exact (List.getElem?_eq_some_iff.mp hvec).1
  exact ⟨_, List.getElem?_eq_getElem hlt, h.holds v vec _ hvec (List.getElem?_eq_getElem hlt)⟩

/-- The arrays in use are on the heap. -/
theorem Refines.old (h : Refines st lists) (hvec : st.vectors[v]? = some vec) :
    vec.element < st.heap.length := by
  obtain ⟨_, _, hholds⟩ := h.list hvec
  exact lt_of_array hholds.cells

theorem Holds.append {heap : Heap α} (h : Holds heap vec l) (cells : List (Option α)) :
    Holds (heap ++ [cells]) vec l := by
  refine ⟨h.size, ?_⟩
  rw [List.getElem?_append_left (lt_of_array h.cells), h.cells]

/-- The new array at the end of the heap. -/
theorem holds_new (heap : Heap α) (l : List α) :
    Holds (heap ++ [l.map some]) ⟨heap.length, l.length⟩ l := ⟨rfl, by simp⟩

/-- A Vector with a new array is constructed. -/
theorem Refines.construct (h : Refines st lists) (l : List α) :
    Refines ⟨st.heap ++ [l.map some], st.vectors ++ [⟨st.heap.length, l.length⟩]⟩
      (lists ++ [l]) where
  length_eq := by simp [h.length_eq]
  holds v vec k hvec hk := by
    have hlength := h.length_eq
    rcases getElem?_snoc hvec with hold | ⟨hv, rfl⟩ <;>
      rcases getElem?_snoc hk with hkold | ⟨hkv, rfl⟩
    · exact (h.holds v vec k hold hkold).append _
    · have hlt := (List.getElem?_eq_some_iff.mp hold).1
      omega
    · have hlt := (List.getElem?_eq_some_iff.mp hkold).1
      omega
    · exact holds_new st.heap k
  apart v w vec wec hvec hwec hsame := by
    rcases getElem?_snoc hvec with hold | ⟨hv, rfl⟩ <;>
      rcases getElem?_snoc hwec with hwold | ⟨hw, rfl⟩
    · exact h.apart v w vec wec hold hwold hsame
    · exact absurd hsame (Nat.ne_of_lt (h.old hold))
    · exact absurd hsame.symm (Nat.ne_of_lt (h.old hwold))
    · rw [hv, hw]

/-- A Vector gets a new array. -/
theorem Refines.replace (h : Refines st lists) (dst : ℕ) (l : List α) :
    Refines ⟨st.heap ++ [l.map some], st.vectors.set dst ⟨st.heap.length, l.length⟩⟩
      (lists.set dst l) where
  length_eq := by simp [h.length_eq]
  holds v vec k hvec hk := by
    rcases getElem?_set_cases hvec with ⟨hv, hold⟩ | ⟨hv, rfl⟩ <;>
      rcases getElem?_set_cases hk with ⟨hkv, hkold⟩ | ⟨hkv, rfl⟩
    · exact (h.holds v vec k hold hkold).append _
    · exact absurd hkv hv
    · exact absurd hv hkv
    · exact holds_new st.heap k
  apart v w vec wec hvec hwec hsame := by
    rcases getElem?_set_cases hvec with ⟨_, hold⟩ | ⟨hv, rfl⟩ <;>
      rcases getElem?_set_cases hwec with ⟨_, hwold⟩ | ⟨hw, rfl⟩
    · exact h.apart v w vec wec hold hwold hsame
    · exact absurd hsame (Nat.ne_of_lt (h.old hold))
    · exact absurd hsame.symm (Nat.ne_of_lt (h.old hwold))
    · rw [hv, hw]

/-- The array of one Vector changes. -/
theorem Refines.update (h : Refines st lists) (hvec : st.vectors[v]? = some vec)
    (hl : lists[v]? = some l) {l' : List α} (hlength : l'.length = l.length) :
    Refines ⟨st.heap.set vec.element (l'.map some), st.vectors⟩ (lists.set v l') where
  length_eq := by simp [h.length_eq]
  holds w wec k hwec hk := by
    have hsize := (h.holds v vec l hvec hl).size
    rcases getElem?_set_cases hk with ⟨hw, hk⟩ | ⟨rfl, rfl⟩
    · have hold := h.holds w wec k hwec hk
      have hne : vec.element ≠ wec.element := fun hsame =>
        hw (h.apart v w vec wec hvec hwec hsame).symm
      exact ⟨hold.size, by rw [List.getElem?_set_ne hne, hold.cells]⟩
    · cases hvec.symm.trans hwec
      exact ⟨by omega, List.getElem?_set_self (h.old hvec)⟩
  apart := h.apart

end Refining

section Operations
variable {st : State α} {l : List α} {v : ℕ} {vec : Vec}

theorem forInt_eq {n : ℕ} (hn : n < 2 ^ 31) (body : Heap α → ℕ → Option (Heap α)) (h : Heap α) :
    forInt n body h = (List.range n).foldlM body h := if_pos hn

theorem forInt_none {n : ℕ} (hn : ¬ n < 2 ^ 31) (body : Heap α → ℕ → Option (Heap α))
    (h : Heap α) : forInt n body h = none := if_neg hn

/-- After the first pass the others store the same again. -/
theorem fill_repeated {h : Heap α} {a n : ℕ} {cells : List (Option α)}
    (ha : h[a]? = some cells) (hlength : l.length = cells.length) (hn : 0 < n) :
    (List.range n).foldlM (fun h _ => fill h a 0 l) h = some (h.set a (l.map some)) := by
  induction n with
  | zero => cases hn
  | succ n ih =>
      rw [List.range_succ, List.foldlM_append]
      rcases Nat.eq_zero_or_pos n with rfl | hpos
      · simp [fill_whole ha hlength]
      · have hagain : (h.set a (l.map some))[a]? = some (l.map some) :=
          List.getElem?_set_self (lt_of_array ha)
        have hsame : fill (h.set a (l.map some)) a 0 l = some (h.set a (l.map some)) := by
          rw [fill_whole hagain (by rw [List.length_map]), List.set_set]
        simp [ih hpos, hsame]

/-- The state with a new Vector, and the one in which a Vector has a new array. -/
def State.constructed (st : State α) (l : List α) : State α :=
  ⟨st.heap ++ [l.map some], st.vectors ++ [⟨st.heap.length, l.length⟩]⟩

def State.replaced (st : State α) (dst : ℕ) (cells : List (Option α)) : State α :=
  ⟨st.heap ++ [cells], st.vectors.set dst ⟨st.heap.length, cells.length⟩⟩

theorem ofSize_eq (st : State α) (values : List α) :
    st.ofSize values = some (st.constructed values) := by
  have hfill := fill_whole (array_alloc st.heap values.length)
    (List.length_replicate (n := values.length) (a := (none : Option α))).symm
  rw [set_alloc] at hfill
  rw [State.ofSize, hfill]
  rfl

theorem ofList_eq (st : State α) {lst : List α} (h : lst.length < 2 ^ 31) :
    st.ofList lst = some (st.constructed lst) := by
  rw [State.ofList, forInt_eq h]
  cases lst with
  | nil => rfl
  | cons x lst =>
      rw [fill_repeated (array_alloc st.heap _) (by simp) (by simp), set_alloc]
      rfl

theorem copyLoop_eq {h : Heap α} {src dst n : ℕ} {ys : List (Option α)}
    (hsrc : h[src]? = some (l.map some)) (hdst : h[dst]? = some ys) (hne : src ≠ dst)
    (hl : l.length = n) (hy : ys.length = n) (hn : n < 2 ^ 31) :
    copyLoop dst src n h = some (h.set dst (l.map some)) := by
  rw [copyLoop, forInt_eq hn]
  have hcopy := copyCells_eq hsrc hdst hne (by simp [hl]) (Nat.le_of_eq hy.symm)
  rw [copyCells] at hcopy
  rw [hcopy, List.take_of_length_le (by simp [hl]), ← hy, List.drop_length, List.append_nil]

/-- Copying the array of a Vector into a new one. -/
theorem copyLoop_alloc (hvec : Holds st.heap vec l) (hn : l.length < 2 ^ 31) :
    copyLoop st.heap.length vec.element vec.sz (alloc st.heap vec.sz) =
      some (st.heap ++ [l.map some]) := by
  rw [copyLoop_eq (array_alloc_old _ hvec.cells) (array_alloc _ _)
    (Nat.ne_of_lt (lt_of_array hvec.cells)) hvec.size.symm (by simp) (hvec.size ▸ hn), set_alloc]

theorem copy_eq (hv : st.vectors[v]? = some vec) (hvec : Holds st.heap vec l)
    (hn : l.length < 2 ^ 31) : st.copy v = some (st.constructed l) := by
  rw [State.copy, hv, Option.bind_some, copyLoop_alloc hvec hn, hvec.size]
  rfl

theorem assign_eq {dst src : ℕ} (hne : dst ≠ src) (hdst : dst < st.vectors.length)
    (hv : st.vectors[src]? = some vec) (hvec : Holds st.heap vec l) (hn : l.length < 2 ^ 31) :
    st.assign dst src = some (st.replaced dst (l.map some)) := by
  simp only [State.assign, hv, Option.bind_some, List.getElem?_set_self hdst,
    List.getElem?_set_ne hne]
  rw [copyLoop_alloc hvec hn, Option.map_some, State.replaced, List.length_map, hvec.size]

/-- What is copied is the new array itself. -/
theorem assign_self (hv : st.vectors[v]? = some vec) (hn : vec.sz < 2 ^ 31) :
    st.assign v v = some (st.replaced v (List.replicate vec.sz none)) := by
  have hlt := (List.getElem?_eq_some_iff.mp hv).1
  have hcopy := copyCells_self (n := vec.sz) (array_alloc st.heap vec.sz) (by simp)
  rw [copyCells] at hcopy
  simp only [State.assign, hv, Option.bind_some, List.getElem?_set_self hlt, copyLoop,
    forInt_eq hn, hcopy, Option.map_some, State.replaced, List.length_replicate]
  rfl

theorem write_eq {i : ℕ} (hv : st.vectors[v]? = some vec) (hvec : Holds st.heap vec l)
    (hi : i < l.length) (x : α) :
    st.write v i x = some ⟨st.heap.set vec.element ((l.set i x).map some), st.vectors⟩ := by
  rw [State.write, hv, Option.bind_some, store_eq hvec.cells (by simpa using hi), List.map_set]
  rfl

end Operations

/-- No list that a loop goes over is too long for an `int`, and only an empty
Vector is assigned to itself. -/
def keepsValues (lists : List (List α)) : Op α → Bool
  | .ofSize _ => true
  | .ofList lst => lst.length < 2 ^ 31
  | .copy src => lists[src]?.all fun l => l.length < 2 ^ 31
  | .assign dst src => lists[src]?.all fun l => l.length < 2 ^ 31 ∧ (dst = src → l = [])
  | .write _ _ _ => true

section Steps
variable {st : State α} {lists lists' : List (List α)} {op : Op α}

/-- An operation that has a result is right exactly if the result is. -/
theorem right_iff {st' : State α} {P : Prop} (hexec : exec st op = some st')
    (h : Refines st' lists' ↔ P) :
    (∃ t, exec st op = some t ∧ Refines t lists') ↔ P := by
  rw [← h]
  constructor
  · rintro ⟨t, ht, hR⟩
    cases hexec.symm.trans ht
    exact hR
  · exact fun hR => ⟨st', hexec, hR⟩

theorem not_right {P : Prop} (hexec : exec st op = none) (h : ¬ P) :
    (∃ t, exec st op = some t ∧ Refines t lists') ↔ P := by
  refine ⟨?_, fun hP => absurd hP h⟩
  rintro ⟨t, ht, _⟩
  cases hexec.symm.trans ht

theorem copy_none {src : ℕ} {l : List α} (h : Refines st lists) (hl : lists[src]? = some l)
    (hn : ¬ l.length < 2 ^ 31) : st.copy src = none := by
  obtain ⟨vec, hvec, hholds⟩ := h.vector hl
  rw [State.copy, hvec, Option.bind_some, copyLoop, forInt_none (hholds.size ▸ hn)]
  rfl

theorem assign_none {dst src : ℕ} {l : List α} (h : Refines st lists)
    (hdst : dst < lists.length) (hl : lists[src]? = some l) (hn : ¬ l.length < 2 ^ 31) :
    st.assign dst src = none := by
  obtain ⟨vec, hvec, hholds⟩ := h.vector hl
  simp only [State.assign, hvec, Option.bind_some, List.getElem?_set_self (h.length_eq ▸ hdst)]
  cases (st.vectors.set dst ⟨st.heap.length, vec.sz⟩)[src]? with
  | none => rfl
  | some v =>
      rw [Option.bind_some, copyLoop, forInt_none (hholds.size ▸ hn)]
      rfl

/-- After an assignment to itself a Vector has its elements only if there are
none. -/
theorem assign_self_right_iff {v : ℕ} {l : List α} (h : Refines st lists)
    (hl : lists[v]? = some l) (hn : l.length < 2 ^ 31) :
    (∃ t, exec st (.assign v v) = some t ∧ Refines t (lists.set v l)) ↔ l = [] := by
  obtain ⟨vec, hvec, hholds⟩ := h.vector hl
  have hlt := (List.getElem?_eq_some_iff.mp hvec).1
  refine right_iff (assign_self hvec (hholds.size ▸ hn)) ⟨fun hafter => ?_, ?_⟩
  · have hnew : (st.replaced v (List.replicate vec.sz none)).vectors[v]? =
        some ⟨st.heap.length, vec.sz⟩ := by
      simp [State.replaced, List.getElem?_set_self hlt]
    have hsame : (lists.set v l)[v]? = some l := List.getElem?_set_self (h.length_eq ▸ hlt)
    have hcells := (hafter.holds v _ l hnew hsame).cells
    simp only [State.replaced, List.getElem?_concat_length, Option.some.injEq] at hcells
    cases l with
    | nil => rfl
    | cons x l =>
        rw [hholds.size, List.length_cons, List.replicate_succ, List.map_cons] at hcells
        cases hcells
  · rintro rfl
    have hempty : List.replicate vec.sz (none : Option α) = ([] : List α).map some := by
      rw [hholds.size]
      rfl
    rw [State.replaced, hempty]
    exact h.replace v []

theorem assign_right_iff {dst src : ℕ} {l : List α} (h : Refines st lists)
    (hdst : dst < lists.length) (hl : lists[src]? = some l) :
    (∃ t, exec st (.assign dst src) = some t ∧ Refines t (lists.set dst l)) ↔
      l.length < 2 ^ 31 ∧ (dst = src → l = []) := by
  by_cases hn : l.length < 2 ^ 31
  · by_cases hsame : dst = src
    · subst hsame
      rw [assign_self_right_iff h hl hn]
      exact ⟨fun hempty => ⟨hn, fun _ => hempty⟩, fun hkeeps => hkeeps.2 rfl⟩
    · obtain ⟨vec, hvec, hholds⟩ := h.vector hl
      have hassign := assign_eq hsame (h.length_eq ▸ hdst) hvec hholds hn
      refine right_iff hassign (iff_of_true ?_ ⟨hn, fun heq => absurd heq hsame⟩)
      rw [State.replaced, List.length_map]
      exact h.replace dst l
  · exact not_right (assign_none h hdst hl hn) fun hkeeps => hn hkeeps.1

/-- One operation keeps values exactly if it is allowed. -/
theorem exec_right_iff (h : Refines st lists) (hop : byValue lists op = some lists') :
    (∃ t, exec st op = some t ∧ Refines t lists') ↔ keepsValues lists op = true := by
  cases op with
  | ofSize values =>
      simp only [byValue] at hop
      split_ifs at hop
      cases hop
      exact right_iff (ofSize_eq st values) (iff_of_true (h.construct values) rfl)
  | ofList lst =>
      cases hop
      rw [keepsValues, decide_eq_true_iff]
      by_cases hn : lst.length < 2 ^ 31
      · exact right_iff (ofList_eq st hn) (iff_of_true (h.construct lst) hn)
      · refine not_right ?_ hn
        rw [exec, State.ofList, forInt_none hn]
        rfl
  | copy src =>
      obtain ⟨l, hl, rfl⟩ := Option.map_eq_some_iff.mp hop
      rw [keepsValues, hl, Option.all_some, decide_eq_true_iff]
      obtain ⟨vec, hvec, hholds⟩ := h.vector hl
      by_cases hn : l.length < 2 ^ 31
      · exact right_iff (copy_eq hvec hholds hn) (iff_of_true (h.construct l) hn)
      · exact not_right (copy_none h hl hn) hn
  | assign dst src =>
      simp only [byValue] at hop
      split_ifs at hop with hdst
      obtain ⟨l, hl, rfl⟩ := Option.map_eq_some_iff.mp hop
      rw [keepsValues, hl, Option.all_some, decide_eq_true_iff]
      exact assign_right_iff h hdst hl
  | write v i x =>
      obtain ⟨l, hl, hset⟩ := Option.bind_eq_some_iff.mp hop
      split_ifs at hset with hi
      cases hset
      obtain ⟨vec, hvec, hholds⟩ := h.vector hl
      exact right_iff (write_eq hvec hholds hi.1 x)
        (iff_of_true (h.update hvec hl (List.length_set)) rfl)

end Steps

/-- After every operation of the sequence the Vectors hold the lists that the
same operations produce by value, and no two share an array. -/
def ValueSemantics (ops : List (Op α)) : Prop :=
  ∀ p, p <+: ops → ∀ lists, run byValue [] p = some lists →
    ∃ st, run exec .start p = some st ∧ Refines st lists

/-- The Vectors have value semantics in exactly those sequences of operations
in which only empty Vectors are assigned to themselves and no loop goes over
more elements than an `int` counts. -/
theorem value_semantics_iff {ops : List (Op α)} {lists : List (List α)}
    (h : run byValue [] ops = some lists) :
    ValueSemantics ops ↔ run (guarded keepsValues byValue) [] ops = some lists :=
  matched_iff exec_right_iff refines_start h

/-- Copies that are written to, and an empty Vector assigned to itself. -/
theorem value_semantics_copies :
    ValueSemantics [.ofList [1, 2, 3], .copy 0, .write 1 0 7, .ofSize [], .assign 2 2,
      .assign 2 1, .write 2 1 (8 : ℕ)] := by
  have hrun : run byValue ([] : List (List ℕ)) [.ofList [1, 2, 3], .copy 0, .write 1 0 7,
      .ofSize [], .assign 2 2, .assign 2 1, .write 2 1 8] =
        some [[1, 2, 3], [7, 2, 3], [7, 8, 3]] := by decide
  exact (value_semantics_iff hrun).mpr (by decide)

/-- A Vector of one element that is assigned to itself loses it. -/
theorem element_lost :
    run byValue [] [.ofList [(5 : ℕ)], .assign 0 0] = some [[5]] ∧
      ∃ st, run exec .start [.ofList [(5 : ℕ)], .assign 0 0] = some st ∧
        st.vectors.map (fun vec => st.heap[vec.element]?) = [some [none]] := by
  refine ⟨by decide, _, rfl, ?_⟩
  decide

end CppPlayground.Vectors
