import Mathlib.Data.Set.Function
import RedisRoaring.Library.Exec

/-!
# Footprints

A step on a store of keys reads and writes only the keys of its footprint. When
the keys have owners and every client keeps to its own, a client is told the
same in any interleaving with others as when it is served alone, and its keys
get the same values.
-/

namespace Footprints

open Exec

variable {K V α ρ C : Type}

/-- A step keeps to its footprint. -/
structure Local (step : (K → V) → α → (K → V) × ρ) (footprint : α → Set K) : Prop where
  frame : ∀ s a, ∀ k ∉ footprint a, (step s a).1 k = s k
  reads : ∀ s s' a, Set.EqOn s s' (footprint a) →
    (step s a).2 = (step s' a).2 ∧ Set.EqOn (step s a).1 (step s' a).1 (footprint a)

/-! ## Schedules -/

/-- What is served, in order. -/
def served (schedule : List (C × α)) : List α := schedule.map Prod.snd

@[simp] theorem served_cons (c : C) (a : α) (schedule : List (C × α)) : served ((c, a) :: schedule) = a :: served schedule :=
  rfl

/-- Every client keeps to the keys it owns. -/
def Owned (owner : K → C) (footprint : α → Set K) (schedule : List (C × α)) : Prop :=
  ∀ turn ∈ schedule, ∀ k ∈ footprint turn.2, owner k = turn.1

theorem Owned.tail {owner : K → C} {footprint : α → Set K} {schedule : List (C × α)} {turn : C × α} (owned : Owned owner footprint (turn :: schedule)) :
    Owned owner footprint schedule :=
  fun other inside => owned other (List.mem_cons_of_mem _ inside)

variable [DecidableEq C] (c : C)

/-- The turns of one client. -/
def turns : List (C × α) → List α
  | [] => []
  | (client, a) :: schedule => if client = c then a :: turns schedule else turns schedule

/-- What one client is told. -/
def heard : List (C × α) → List ρ → List ρ
  | (client, _) :: schedule, r :: rs => if client = c then r :: heard schedule rs else heard schedule rs
  | _, _ => []

/-! ## One step -/

section Step

variable {step : (K → V) → α → (K → V) × ρ} {footprint : α → Set K} {region : Set K} {s s' : K → V} {a : α}

/-- A step inside a region does the same on stores that agree there. -/
theorem Local.inside (keeps : Local step footprint) (within : footprint a ⊆ region) (same : Set.EqOn s s' region) :
    (step s a).2 = (step s' a).2 ∧ Set.EqOn (step s a).1 (step s' a).1 region := by
  obtain ⟨told, there⟩ := keeps.reads s s' a (same.mono within)
  refine ⟨told, fun k inRegion => ?_⟩
  by_cases touched : k ∈ footprint a
  · exact there touched
  · rw [keeps.frame s a k touched, keeps.frame s' a k touched]
    exact same inRegion

/-- A step outside a region changes nothing there. -/
theorem Local.outside (keeps : Local step footprint) (apart : ∀ k ∈ footprint a, k ∉ region)
    (same : Set.EqOn s s' region) : Set.EqOn (step s a).1 s' region := by
  intro k inRegion
  rw [keeps.frame s a k fun touched => apart k touched inRegion]
  exact same inRegion

end Step

/-! ## Runs -/

section Run

variable {step : (K → V) → α → (K → V) × ρ} {footprint : α → Set K} {owner : K → C} {schedule : List (C × α)}
  {s s' : K → V}

/-- **Isolation.** In a schedule a client is told what it is told when it is
served alone, and the keys it owns get the values they get then. -/
theorem Local.alone (keeps : Local step footprint) (owned : Owned owner footprint schedule)
    (same : Set.EqOn s s' {k | owner k = c}) :
    heard c schedule (runPure step s (served schedule)).2 = (runPure step s' (turns c schedule)).2 ∧
      Set.EqOn (runPure step s (served schedule)).1 (runPure step s' (turns c schedule)).1 {k | owner k = c} := by
  induction schedule generalizing s s' with
  | nil => exact ⟨rfl, same⟩
  | cons turn schedule ih =>
    obtain ⟨client, a⟩ := turn
    have mine := owned (client, a) (by simp)
    rw [served_cons, runPure_cons, heard, turns]
    by_cases own : client = c
    · subst own
      obtain ⟨told, after⟩ := keeps.inside mine same
      obtain ⟨rest, last⟩ := ih owned.tail after
      rw [if_pos rfl, if_pos rfl, runPure_cons, told, rest]
      exact ⟨rfl, last⟩
    · have apart : ∀ k ∈ footprint a, k ∉ {k | owner k = c} :=
        fun k touched other => own ((mine k touched).symm.trans other)
      rw [if_neg own, if_neg own]
      exact ih owned.tail (keeps.outside apart same)

/-- A condition that looks only at the footprint holds along the turns of one
client when it holds along the schedule. -/
theorem Local.along {Ok : (K → V) → α → Prop} (keeps : Local step footprint) (owned : Owned owner footprint schedule)
    (looks : ∀ s s' a, Set.EqOn s s' (footprint a) → Ok s a → Ok s' a) (same : Set.EqOn s s' {k | owner k = c})
    (along : Along step Ok s (served schedule)) : Along step Ok s' (turns c schedule) := by
  induction schedule generalizing s s' with
  | nil => exact .nil s'
  | cons turn schedule ih =>
    obtain ⟨client, a⟩ := turn
    have mine := owned (client, a) (by simp)
    rw [served_cons] at along
    cases along with
    | cons first rest =>
      rw [turns]
      by_cases own : client = c
      · subst own
        rw [if_pos rfl]
        exact .cons (looks s s' a (same.mono mine) first) (ih owned.tail (keeps.inside mine same).2 rest)
      · have apart : ∀ k ∈ footprint a, k ∉ {k | owner k = c} :=
          fun k touched other => own ((mine k touched).symm.trans other)
        rw [if_neg own]
        exact ih owned.tail (keeps.outside apart same) rest

end Run

end Footprints
