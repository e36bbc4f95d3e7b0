import Mathlib.Data.List.Induction
import Mathlib.Order.Basic
import Mathlib.Tactic.Common

/-!
# Runs of an event-driven step function

A system is a partial step function: an event that is not enabled in a state
has no successor. A run folds the step over a list of events. The rules here
are the only places where runs are taken apart by induction: an invariant of
the state alone, an invariant tying the state to the events so far, a
potential paid for by the events, and the completion of a run by events that
all lower a potential. Guards restrict the events without changing the step.
-/
namespace CppPlayground.Runs

variable {S E : Type*}

/-- The whole run fails as soon as one event is not enabled. -/
def run (step : S → E → Option S) : S → List E → Option S
  | s, [] => some s
  | s, e::es => (step s e).bind fun t => run step t es

@[simp] theorem run_nil (step : S → E → Option S) (s : S) : run step s [] = some s := rfl

theorem run_cons {step : S → E → Option S} {s t u : S} {e : E} {es : List E}
    (h : step s e = some t) (k : run step t es = some u) : run step s (e::es) = some u := by
  simp only [run, h, Option.bind_some, k]

theorem run_cons_eq {step : S → E → Option S} {s u : S} {e : E} {es : List E}
    (h : run step s (e::es) = some u) : ∃ t, step s e = some t ∧ run step t es = some u := by
  simpa only [run, Option.bind_eq_some_iff] using h

theorem run_append (step : S → E → Option S) (s : S) (es fs : List E) :
    run step s (es ++ fs) = (run step s es).bind fun t => run step t fs := by
  induction es generalizing s with
  | nil => rfl
  | cons e es ih =>
      simp only [List.cons_append, run, Option.bind_assoc]
      congr 1
      funext t
      exact ih t

theorem run_append_some {step : S → E → Option S} {s t u : S} {es fs : List E}
    (h : run step s es = some t) (k : run step t fs = some u) :
    run step s (es ++ fs) = some u := by
  rw [run_append, h, Option.bind_some, k]

theorem run_snoc {step : S → E → Option S} {s t u : S} {es : List E} {e : E}
    (h : run step s es = some t) (k : step t e = some u) :
    run step s (es ++ [e]) = some u :=
  run_append_some h (run_cons k rfl)

/-- Every prefix of a run is a run. -/
theorem run_append_eq {step : S → E → Option S} {s u : S} {es fs : List E}
    (h : run step s (es ++ fs) = some u) :
    ∃ t, run step s es = some t ∧ run step t fs = some u := by
  simpa only [run_append, Option.bind_eq_some_iff] using h

/-- What one step preserves, a run preserves. -/
theorem invariant {step : S → E → Option S} {I : S → Prop}
    (hstep : ∀ {s e t}, I s → step s e = some t → I t)
    {s t : S} {es : List E} (hs : I s) (h : run step s es = some t) : I t := by
  induction es generalizing s with
  | nil =>
      simp only [run_nil, Option.some.injEq] at h
      exact h ▸ hs
  | cons e es ih =>
      obtain ⟨u, he, hu⟩ := run_cons_eq h
      exact ih (hstep hs he) hu

/-- The invariant may speak of the events that led to the state; a step adds
its event at the end. -/
theorem history_invariant {step : S → E → Option S} {I : List E → S → Prop} {s : S}
    (hs : I [] s)
    (hstep : ∀ {es t e u}, run step s es = some t → I es t → step t e = some u → I (es ++ [e]) u)
    {t : S} {es : List E} (h : run step s es = some t) : I es t := by
  induction es using List.reverseRecOn generalizing t with
  | nil =>
      simp only [run_nil, Option.some.injEq] at h
      exact h ▸ hs
  | append_singleton es e ih =>
      obtain ⟨u, hu, he⟩ := run_append_eq h
      obtain ⟨v, hv, hn⟩ := run_cons_eq he
      simp only [run_nil, Option.some.injEq] at hn
      subst hn
      exact hstep hu (ih hu) hv

/-- Each counted event uses up at least one unit of the potential. -/
theorem potential {step : S → E → Option S} {I : S → Prop} {P : E → Prop} (counted : E → Bool)
    (φ : S → ℕ) (hinv : ∀ {s e t}, I s → P e → step s e = some t → I t)
    (hpay : ∀ {s e t}, I s → P e → step s e = some t → (counted e).toNat + φ t ≤ φ s)
    {s t : S} {es : List E} (hs : I s) (hP : ∀ e ∈ es, P e) (h : run step s es = some t) :
    es.countP counted + φ t ≤ φ s := by
  induction es generalizing s with
  | nil =>
      simp only [run_nil, Option.some.injEq] at h
      simp [h]
  | cons e es ih =>
      obtain ⟨u, he, hu⟩ := run_cons_eq h
      have hPe := hP e (by simp)
      have hrest := ih (hinv hs hPe he) (fun x hx => hP x (by simp [hx])) hu
      have hone := hpay hs hPe he
      rw [List.countP_cons]
      cases hc : counted e <;> simp only [hc, Bool.toNat_true, Bool.toNat_false] at hone <;>
        simp <;> omega

/-- While the goal is not met some event of the kind is enabled and lowers
the potential; so some run of such events meets the goal. -/
theorem completion {step : S → E → Option S} {I G : S → Prop} {P : E → Prop} (φ : S → ℕ)
    (hnext : ∀ {s}, I s → ¬ G s → ∃ e t, P e ∧ step s e = some t ∧ I t ∧ φ t < φ s)
    {s : S} (hs : I s) :
    ∃ es t, (∀ e ∈ es, P e) ∧ run step s es = some t ∧ I t ∧ G t := by
  induction hn : φ s using Nat.strongRecOn generalizing s with
  | ind n ih =>
      by_cases hg : G s
      · exact ⟨[], s, by simp, rfl, hs, hg⟩
      · obtain ⟨e, u, hPe, he, hu, hlt⟩ := hnext hs hg
        obtain ⟨es, t, hPes, hrun, ht, hgoal⟩ := ih (φ u) (hn ▸ hlt) hu rfl
        refine ⟨e::es, t, ?_, run_cons he hrun, ht, hgoal⟩
        intro x hx
        rcases List.mem_cons.mp hx with rfl | hx
        · exact hPe
        · exact hPes x hx

/-- A step matched under an abstraction of states and events gives a run
matched under it. -/
theorem simulation {S' E' : Type*} {step : S → E → Option S} {step' : S' → E' → Option S'}
    {I : S → Prop} (f : S → S') (g : E → E')
    (hstep : ∀ {s e t}, I s → step s e = some t → I t ∧ step' (f s) (g e) = some (f t))
    {s t : S} {es : List E} (hs : I s) (h : run step s es = some t) :
    I t ∧ run step' (f s) (es.map g) = some (f t) := by
  induction es generalizing s with
  | nil =>
      simp only [run_nil, Option.some.injEq] at h
      subst h
      exact ⟨hs, rfl⟩
  | cons e es ih =>
      obtain ⟨u, he, hu⟩ := run_cons_eq h
      obtain ⟨hIu, hmatch⟩ := hstep hs he
      obtain ⟨hIt, hrest⟩ := ih hIu hu
      exact ⟨hIt, run_cons hmatch hrest⟩

/-- A step matched by a run of the other system, which may be empty, gives a
run matched by one. -/
theorem stuttering {S' E' : Type*} {step : S → E → Option S} {step' : S' → E' → Option S'}
    {R : S → S' → Prop}
    (hstep : ∀ {s e t s'}, R s s' → step s e = some t →
      ∃ es' t', run step' s' es' = some t' ∧ R t t')
    {s t : S} {s' : S'} {es : List E} (hs : R s s') (h : run step s es = some t) :
    ∃ es' t', run step' s' es' = some t' ∧ R t t' := by
  induction es generalizing s s' with
  | nil =>
      simp only [run_nil, Option.some.injEq] at h
      exact ⟨[], s', rfl, h ▸ hs⟩
  | cons e es ih =>
      obtain ⟨u, he, hu⟩ := run_cons_eq h
      obtain ⟨fs, u', hfs, hR⟩ := hstep hs he
      obtain ⟨gs, t', hgs, hRt⟩ := ih hR hu
      exact ⟨fs ++ gs, t', run_append_some hfs hgs, hRt⟩

/-- Under a relation to another system the potential may speak of both; every
step uses up a unit. -/
theorem stuttering_potential {S' : Type*} {step : S → E → Option S} {R : S → S' → Prop}
    (φ : S → S' → ℕ)
    (hstep : ∀ {s e t s'}, R s s' → step s e = some t → ∃ t', R t t' ∧ φ t t' + 1 ≤ φ s s')
    {s t : S} {s' : S'} {es : List E} (hs : R s s') (h : run step s es = some t) :
    ∃ t', R t t' ∧ es.length + φ t t' ≤ φ s s' := by
  induction es generalizing s s' with
  | nil =>
      simp only [run_nil, Option.some.injEq] at h
      exact ⟨s', h ▸ hs, by simp [h]⟩
  | cons e es ih =>
      obtain ⟨u, he, hu⟩ := run_cons_eq h
      obtain ⟨u', hR, hpay⟩ := hstep hs he
      obtain ⟨t', hRt, hrest⟩ := ih hR hu
      refine ⟨t', hRt, ?_⟩
      rw [List.length_cons]
      omega

/-- Only the admitted events, under the same step. -/
def guarded (allow : S → E → Bool) (step : S → E → Option S) : S → E → Option S := fun s e =>
  if allow s e then step s e else none

theorem guarded_eq_some {allow : S → E → Bool} {step : S → E → Option S} {s t : S} {e : E} :
    guarded allow step s e = some t ↔ allow s e = true ∧ step s e = some t := by
  unfold guarded
  split <;> simp_all

/-- A guarded run is a run. -/
theorem run_of_guarded {allow : S → E → Bool} {step : S → E → Option S} {s t : S} {es : List E}
    (h : run (guarded allow step) s es = some t) : run step s es = some t := by
  induction es generalizing s with
  | nil => exact h
  | cons e es ih =>
      obtain ⟨u, he, hu⟩ := run_cons_eq h
      exact run_cons (guarded_eq_some.mp he).2 (ih hu)

theorem run_guarded {allow : E → Bool} {step : S → E → Option S} {s t : S} {es : List E}
    (hall : ∀ e ∈ es, allow e = true) (h : run step s es = some t) :
    run (guarded (fun _ e => allow e) step) s es = some t := by
  induction es generalizing s with
  | nil => exact h
  | cons e es ih =>
      obtain ⟨u, he, hu⟩ := run_cons_eq h
      exact run_cons (guarded_eq_some.mpr ⟨hall e (by simp), he⟩)
        (ih (fun d hd => hall d (by simp [hd])) hu)

/-- What a step keeps exactly when it is admitted holds after exactly the runs
in which every step was admitted; an invariant of all runs may help. -/
theorem guarded_iff {allow : S → E → Bool} {step : S → E → Option S} {J I : S → Prop}
    (hinv : ∀ {s e t}, J s → step s e = some t → J t)
    (hstep : ∀ {s e t}, J s → step s e = some t → (I t ↔ I s ∧ allow s e = true))
    {s t : S} {es : List E} (hJ : J s) (hI : I s) (h : run step s es = some t) :
    I t ↔ run (guarded allow step) s es = some t := by
  induction es using List.reverseRecOn generalizing t with
  | nil =>
      simp only [run_nil, Option.some.injEq] at h
      simp only [run_nil, ← h, hI]
  | append_singleton es e ih =>
      obtain ⟨u, hu, he⟩ := run_append_eq h
      obtain ⟨v, hv, hn⟩ := run_cons_eq he
      simp only [run_nil, Option.some.injEq] at hn
      subst hn
      rw [hstep (invariant hinv hJ hu) hv, ih hu]
      constructor
      · rintro ⟨hgood, hallow⟩
        exact run_snoc hgood (guarded_eq_some.mpr ⟨hallow, hv⟩)
      · intro hgood
        obtain ⟨u', hu', he'⟩ := run_append_eq hgood
        obtain ⟨v', hv', _⟩ := run_cons_eq he'
        have hsame : u' = u := Option.some.inj ((run_of_guarded hu').symm.trans hu)
        subst hsame
        exact ⟨hu', (guarded_eq_some.mp hv').1⟩

/-- Where the concrete step matches the abstract one exactly if it is admitted,
every prefix of an abstract run is matched exactly if all of it is admitted. -/
theorem matched_iff {S' : Type*} {concrete : S → E → Option S} {abstract : S' → E → Option S'}
    {R : S → S' → Prop} {allow : S' → E → Bool}
    (hstep : ∀ {s l e l'}, R s l → abstract l e = some l' →
      ((∃ t, concrete s e = some t ∧ R t l') ↔ allow l e = true))
    {s : S} {l l' : S'} {es : List E} (hs : R s l) (h : run abstract l es = some l') :
    (∀ p, p <+: es → ∀ m, run abstract l p = some m → ∃ t, run concrete s p = some t ∧ R t m) ↔
      run (guarded allow abstract) l es = some l' := by
  induction es generalizing s l with
  | nil =>
      refine ⟨fun _ => h, fun _ p hp m hm => ?_⟩
      rw [List.prefix_nil.mp hp, run_nil, Option.some.injEq] at hm
      rw [List.prefix_nil.mp hp]
      exact ⟨s, rfl, hm ▸ hs⟩
  | cons e es ih =>
      obtain ⟨k, he, hrest⟩ := run_cons_eq h
      constructor
      · intro hall
        obtain ⟨t, ht, hR⟩ := hall [e] (by simp) k (run_cons he rfl)
        obtain ⟨t', ht', hnil⟩ := run_cons_eq ht
        cases hnil
        have hallow := (hstep hs he).mp ⟨t, ht', hR⟩
        refine run_cons (guarded_eq_some.mpr ⟨hallow, he⟩) ((ih hR hrest).mp ?_)
        intro p hp m hm
        obtain ⟨u, hu, hRu⟩ := hall (e::p) (by simpa using hp) m (run_cons he hm)
        obtain ⟨t'', ht'', hu⟩ := run_cons_eq hu
        cases ht'.symm.trans ht''
        exact ⟨u, hu, hRu⟩
      · intro hguarded p hp m hm
        obtain ⟨k', hk', hrest'⟩ := run_cons_eq hguarded
        obtain ⟨hallow, habstract⟩ := guarded_eq_some.mp hk'
        cases he.symm.trans habstract
        obtain ⟨t, ht, hR⟩ := (hstep hs he).mpr hallow
        cases p with
        | nil =>
            cases hm
            exact ⟨s, rfl, hs⟩
        | cons d p =>
            obtain ⟨rfl, hp'⟩ := List.cons_prefix_cons.mp hp
            obtain ⟨k'', hk'', hm⟩ := run_cons_eq hm
            cases he.symm.trans hk''
            obtain ⟨u, hu, hRu⟩ := (ih hR hrest).mpr hrest' p hp' m hm
            exact ⟨u, run_cons ht hu, hRu⟩

end CppPlayground.Runs
