import Mathlib.Data.List.Basic
import Mathlib.Logic.Function.Basic
import Mathlib.Tactic.Common

/-!
# A ledger of resources

A program acquires resources and releases them, and some resources need
others. A log of its calls is booked when every resource is acquired at most
once and while all that it needs is held, and released only while it is held
and nothing that needs it is. Booked logs are closed under an orderly clean-up,
and one after which nothing is held has released everything exactly once, in an
order that respects the needs.
-/
namespace CppPlayground.ResourceLedger

inductive Event (R H : Type) where
  | acquire (r : R) (x : H)
  | release (r : R) (x : H)
  deriving DecidableEq

inductive Phase (H : Type) where
  | fresh
  | held (x : H)
  | released
  deriving DecidableEq

variable {R H : Type}

/-- The releases of what is held of a list of resources. -/
def releases (held : R → Option H) (order : List R) : List (Event R H) :=
  order.flatMap fun r => (held r).toList.map (.release r)

theorem releases_cons (held : R → Option H) (r : R) (order : List R) :
    releases held (r::order) = (held r).toList.map (.release r) ++ releases held order := rfl

theorem releases_congr {held held' : R → Option H} {order : List R}
    (h : ∀ r ∈ order, held r = held' r) : releases held order = releases held' order := by
  induction order with
  | nil => rfl
  | cons r order ih =>
      rw [releases_cons, releases_cons, h r (by simp), ih fun s hs => h s (by simp [hs])]

/-- The list has each resource once and before those it needs, and with a
resource all that is held and needs it. -/
structure Orderly (needs : R → R → Prop) (held : R → Option H) (order : List R) : Prop where
  nodup : order.Nodup
  irrefl : ∀ r ∈ order, ¬ needs r r
  before : order.Pairwise fun r s => ¬ needs s r
  dependents : ∀ r ∈ order, ∀ s, needs s r → held s ≠ none → s ∈ order

section Orderly
variable {needs : R → R → Prop} {held held' : R → Option H} {r : R} {order : List R}

theorem Orderly.not_mem (h : Orderly needs held (r::order)) : r ∉ order :=
  (List.nodup_cons.mp h.nodup).1

/-- Nothing held needs the first of the list. -/
theorem Orderly.free (h : Orderly needs held (r::order)) (s : R) (hneeds : needs s r) :
    held s = none := by
  by_contra hs
  rcases List.mem_cons.mp (h.dependents r (by simp) s hneeds hs) with rfl | hmem
  · exact h.irrefl s (by simp) hneeds
  · exact (List.pairwise_cons.mp h.before).1 s hmem hneeds

/-- The rest of the list is orderly once the first is not held. -/
theorem Orderly.tail (h : Orderly needs held (r::order)) (hr : held' r = none)
    (hother : ∀ s, s ≠ r → held' s = held s) : Orderly needs held' order where
  nodup := (List.nodup_cons.mp h.nodup).2
  irrefl s hs := h.irrefl s (by simp [hs])
  before := (List.pairwise_cons.mp h.before).2
  dependents s hs t hneeds ht := by
    have htr : t ≠ r := by
      rintro rfl
      exact ht hr
    rw [hother t htr] at ht
    exact (List.mem_cons.mp (h.dependents s (by simp [hs]) t hneeds ht)).resolve_left htr

end Orderly

variable [DecidableEq R]

/-- The log keeps the rules, and leaves the resources in these phases. -/
inductive Booked (needs : R → R → Prop) : List (Event R H) → (R → Phase H) → Prop where
  | nil : Booked needs [] fun _ => .fresh
  | acquire {log : List (Event R H)} {phase : R → Phase H} (r : R) (x : H)
      (h : Booked needs log phase) (hfresh : phase r = .fresh)
      (hneeds : ∀ s, needs r s → ∃ y, phase s = .held y) :
      Booked needs (log ++ [.acquire r x]) (Function.update phase r (.held x))
  | release {log : List (Event R H)} {phase : R → Phase H} (r : R) (x : H)
      (h : Booked needs log phase) (hheld : phase r = .held x)
      (hfree : ∀ s y, needs s r → phase s ≠ .held y) :
      Booked needs (log ++ [.release r x]) (Function.update phase r .released)

/-- Every acquired resource is released once, none is released that is not
held, and none is released after one that it needs. -/
structure ReleasedOnce [DecidableEq H] (needs : R → R → Prop) (log : List (Event R H)) :
    Prop where
  once : ∀ r x, log.count (.acquire r x) ≤ 1 ∧
    log.count (.release r x) = log.count (.acquire r x)
  held_before : ∀ p, p <+: log → ∀ r x, p.count (.release r x) ≤ p.count (.acquire r x)
  order : log.Pairwise fun e e' => ∀ r s x y, needs r s → e = .release s x → e' ≠ .release r y

section Phases
variable {needs : R → R → Prop} {log : List (Event R H)} {phase : R → Phase H}

/-- What a held resource needs is held. -/
theorem Booked.needs_held (h : Booked needs log phase) {r s : R} {x : H} (hr : phase r = .held x)
    (hneeds : needs r s) : ∃ y, phase s = .held y := by
  induction h generalizing x with
  | nil => cases hr
  | acquire t z _ hfresh hheld ih =>
      by_cases hs : s = t
      · exact ⟨z, by rw [hs, Function.update_self]⟩
      · rw [Function.update_of_ne hs]
        by_cases ht : r = t
        · exact hheld s (ht ▸ hneeds)
        · rw [Function.update_of_ne ht] at hr
          exact ih hr
  | release t z _ hheld hfree ih =>
      by_cases ht : r = t
      · rw [ht, Function.update_self] at hr
        cases hr
      · rw [Function.update_of_ne ht] at hr
        have hs : s ≠ t := by
          rintro rfl
          exact hfree r x hneeds hr
        rw [Function.update_of_ne hs]
        exact ih hr

/-- A resource that has not been acquired is fresh. -/
theorem Booked.fresh (h : Booked needs log phase) {r : R} (hr : ∀ x, .acquire r x ∉ log) :
    phase r = .fresh := by
  induction h with
  | nil => rfl
  | acquire t z _ _ _ ih =>
      have ht : r ≠ t := by
        rintro rfl
        exact hr z (by simp)
      rw [Function.update_of_ne ht]
      exact ih fun x hx => hr x (by simp [hx])
  | release t z _ hheld _ ih =>
      have hfresh := ih fun x hx => hr x (by simp [hx])
      have ht : r ≠ t := by
        rintro rfl
        rw [hfresh] at hheld
        cases hheld
      rw [Function.update_of_ne ht]
      exact hfresh

theorem Booked.released (h : Booked needs log phase) {r : R} {x : H} (hr : .release r x ∈ log) :
    phase r = .released := by
  induction h with
  | nil => cases hr
  | acquire t z _ hfresh _ ih =>
      have hold := ih (by simpa using hr)
      have ht : r ≠ t := by
        rintro rfl
        rw [hold] at hfresh
        cases hfresh
      rw [Function.update_of_ne ht]
      exact hold
  | release t z _ hheld _ ih =>
      by_cases ht : r = t
      · rw [ht, Function.update_self]
      · rw [Function.update_of_ne ht]
        exact ih (by simpa [ht] using hr)

theorem Booked.prefix_booked (h : Booked needs log phase) {p : List (Event R H)} (hp : p <+: log) :
    ∃ phase', Booked needs p phase' := by
  induction h with
  | nil =>
      rw [List.prefix_nil.mp hp]
      exact ⟨_, .nil⟩
  | acquire t z hbooked hfresh hheld ih =>
      rcases List.prefix_concat_iff.mp hp with rfl | hp
      · exact ⟨_, .acquire t z hbooked hfresh hheld⟩
      · exact ih hp
  | release t z hbooked hheld hfree ih =>
      rcases List.prefix_concat_iff.mp hp with rfl | hp
      · exact ⟨_, .release t z hbooked hheld hfree⟩
      · exact ih hp

theorem Booked.order (h : Booked needs log phase) :
    log.Pairwise fun e e' =>
      ∀ r s x y, needs r s → e = .release s x → e' ≠ .release r y := by
  induction h with
  | nil => exact .nil
  | acquire t z _ _ _ ih =>
      refine List.pairwise_append.mpr ⟨ih, List.pairwise_singleton _ _, ?_⟩
      intro e _ e' he' r s x y _ _ hlast
      rw [List.mem_singleton.mp he'] at hlast
      cases hlast
  | release t z hbooked hheld _ ih =>
      refine List.pairwise_append.mpr ⟨ih, List.pairwise_singleton _ _, ?_⟩
      intro e he e' he' r s x y hneeds hfirst hlast
      rw [List.mem_singleton.mp he'] at hlast
      cases hlast
      -- what is released last was held, so all that it needs is
      obtain ⟨y, hy⟩ := hbooked.needs_held hheld hneeds
      rw [hbooked.released (hfirst ▸ he)] at hy
      cases hy

section Counts
variable [DecidableEq H]

theorem Booked.count_acquire (h : Booked needs log phase) (r : R) (x : H) :
    log.count (.acquire r x) =
      log.count (.release r x) + if phase r = .held x then 1 else 0 := by
  induction h with
  | nil => rfl
  | acquire t z _ hfresh _ ih =>
      rw [List.count_append, List.count_append, ih]
      by_cases ht : r = t
      · subst ht
        by_cases hx : x = z <;> simp [hfresh, hx, eq_comm]
      · simp [Function.update_of_ne ht, ne_comm.mp ht]
  | release t z _ hheld _ ih =>
      rw [List.count_append, List.count_append, ih]
      by_cases ht : r = t
      · subst ht
        by_cases hx : x = z <;> simp [hheld, hx, eq_comm]
      · simp [Function.update_of_ne ht, ne_comm.mp ht]

theorem Booked.count_le (h : Booked needs log phase) (r : R) (x : H) :
    log.count (.acquire r x) ≤ 1 ∧ (phase r = .fresh → log.count (.acquire r x) = 0) := by
  induction h with
  | nil => simp
  | acquire t z _ hfresh _ ih =>
      by_cases ht : r = t
      · subst ht
        have hnone := ih.2 hfresh
        by_cases hx : z = x <;> simp [List.count_append, hnone, hx]
      · simpa [List.count_append, Function.update_of_ne ht, ne_comm.mp ht] using ih
  | release t z _ hheld _ ih =>
      by_cases ht : r = t
      · subst ht
        simpa [List.count_append] using ih.1
      · simpa [List.count_append, Function.update_of_ne ht] using ih

theorem Booked.releasedOnce (h : Booked needs log phase) (hnone : ∀ r x, phase r ≠ .held x) :
    ReleasedOnce needs log where
  once r x := by
    refine ⟨(h.count_le r x).1, ?_⟩
    rw [h.count_acquire r x, if_neg (hnone r x), Nat.add_zero]
  held_before p hp r x := by
    obtain ⟨phase', hbooked⟩ := h.prefix_booked hp
    rw [hbooked.count_acquire r x]
    exact Nat.le_add_right _ _
  order := h.order

end Counts
end Phases

/-- The log is booked, and exactly these resources are held after it. -/
def Accounted (needs : R → R → Prop) (log : List (Event R H)) (held : R → Option H) : Prop :=
  ∃ phase, Booked needs log phase ∧ ∀ r x, phase r = .held x ↔ held r = some x

section Accounts
variable {needs : R → R → Prop} {log : List (Event R H)} {held : R → Option H}

theorem Accounted.nil : Accounted needs ([] : List (Event R H)) fun _ => none :=
  ⟨_, .nil, by simp⟩

theorem held_iff_update {phase : R → Phase H} (h : ∀ r x, phase r = .held x ↔ held r = some x)
    {r : R} {now : Phase H} {here : Option H} (hr : ∀ x, now = .held x ↔ here = some x)
    (s : R) (x : H) :
    Function.update phase r now s = .held x ↔ Function.update held r here s = some x := by
  by_cases hs : s = r
  · rw [hs, Function.update_self, Function.update_self]
    exact hr x
  · rw [Function.update_of_ne hs, Function.update_of_ne hs]
    exact h s x

theorem Accounted.acquire (h : Accounted needs log held) {r : R} (hr : ∀ x, .acquire r x ∉ log)
    (hneeds : ∀ s, needs r s → held s ≠ none) (x : H) :
    Accounted needs (log ++ [.acquire r x]) (Function.update held r (some x)) := by
  obtain ⟨phase, hbooked, hheld⟩ := h
  have hall : ∀ s, needs r s → ∃ y, phase s = .held y := by
    intro s hs
    obtain ⟨y, hy⟩ := Option.ne_none_iff_exists'.mp (hneeds s hs)
    exact ⟨y, (hheld s y).mpr hy⟩
  exact ⟨_, hbooked.acquire r x (hbooked.fresh hr) hall, held_iff_update hheld (by simp)⟩

theorem Accounted.release (h : Accounted needs log held) {r : R} {x : H} (hx : held r = some x)
    (hfree : ∀ s, needs s r → held s = none) :
    Accounted needs (log ++ [.release r x]) (Function.update held r none) := by
  obtain ⟨phase, hbooked, hheld⟩ := h
  have hnone : ∀ s y, needs s r → phase s ≠ .held y := by
    intro s y hs hy
    have hheldy := (hheld s y).mp hy
    rw [hfree s hs] at hheldy
    cases hheldy
  exact ⟨_, hbooked.release r x ((hheld r x).mpr hx) hnone, held_iff_update hheld (by simp)⟩

/-- Releasing what is held along an orderly list. -/
theorem Accounted.releases {order : List R} (h : Accounted needs log held)
    (ho : Orderly needs held order) :
    Accounted needs (log ++ releases held order) fun r => if r ∈ order then none else held r := by
  induction order generalizing log held with
  | nil => simpa [ResourceLedger.releases] using h
  | cons r order ih =>
      -- releasing the first and then the rest leaves what the whole list leaves
      have hafter : (fun s => if s ∈ r::order then none else held s) =
          fun s => if s ∈ order then none else Function.update held r none s := by
        funext s
        by_cases hs : s = r <;> simp [hs]
      rw [releases_cons, hafter]
      cases hr : held r with
      | none =>
          have hsame : Function.update held r none = held := by rw [← hr, Function.update_eq_self]
          rw [hsame]
          exact ih h (ho.tail hr fun _ _ => rfl)
      | some x =>
          have hother : ∀ s, s ≠ r → Function.update held r none s = held s := fun s hs =>
            Function.update_of_ne hs _ _
          have hrest := ih (h.release hr ho.free) (ho.tail (Function.update_self _ _ _) hother)
          have hsame : ∀ s ∈ order, Function.update held r none s = held s := by
            intro s hs
            apply hother
            rintro rfl
            exact ho.not_mem hs
          rw [releases_congr hsame, List.append_assoc] at hrest
          exact hrest

theorem Accounted.releasedOnce [DecidableEq H] (h : Accounted needs log held)
    (hnone : ∀ r, held r = none) : ReleasedOnce needs log := by
  obtain ⟨phase, hbooked, hheld⟩ := h
  refine hbooked.releasedOnce fun r x hx => ?_
  have hheldx := (hheld r x).mp hx
  rw [hnone r] at hheldx
  cases hheldx

end Accounts

end CppPlayground.ResourceLedger
