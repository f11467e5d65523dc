import Mathlib.Data.List.Count
import Mathlib.Data.Nat.Find
import RedisRoaring.Library.Intervals

/-!
# Maximal runs

A set of numbers, given by a test, falls into maximal runs of consecutive
numbers, and each run has one last number. A walk that cuts the set into its
runs has, at any position, as many as there are last numbers before it
(`RunsBelow`): their count is known before the walk, and bounds it.
-/

namespace Intervals

/-- The number of runs of a set that end below `n`. -/
def ends (p : Nat → Bool) (n : Nat) : Nat := (List.range n).countP fun i => p i && !p (i + 1)

section Ends

variable {p : Nat → Bool} {m n start stop : Nat}

theorem ends_add (p : Nat → Bool) (m n : Nat) :
    ends p (m + n) = ends p m + (List.range n).countP fun i => p (m + i) && !p (m + i + 1) := by
  rw [ends, ends, List.range_add, List.countP_append, List.countP_map]
  rfl

theorem ends_succ (p : Nat → Bool) (n : Nat) : ends p (n + 1) = ends p n + if p n && !p (n + 1) then 1 else 0 := by
  rw [ends, ends, List.range_succ, List.countP_append, List.countP_singleton]

theorem ends_mono (le : m ≤ n) : ends p m ≤ ends p n := by
  obtain ⟨more, rfl⟩ := Nat.exists_eq_add_of_le le
  rw [ends_add]
  exact Nat.le_add_right ..

/-- No run ends where there is nothing. -/
theorem ends_gap (le : m ≤ n) (free : ∀ i, m ≤ i → i < n → p i = false) : ends p n = ends p m := by
  induction n, le using Nat.le_induction with
  | base => rfl
  | succ n le ih =>
    have here := free n le (Nat.lt_succ_self n)
    rw [ends_succ, ih fun i above below => free i above (Nat.lt_succ_of_lt below), here]
    rfl

/-- No run ends before its last number. -/
theorem ends_inside (le : m ≤ n) (filled : ∀ i, m ≤ i → i ≤ n → p i = true) : ends p n = ends p m := by
  induction n, le using Nat.le_induction with
  | base => rfl
  | succ n le ih =>
    have next := filled (n + 1) (Nat.le_succ_of_le le) (Nat.le_refl _)
    rw [ends_succ, ih fun i above below => filled i above (Nat.le_succ_of_le below), next, Bool.not_true, Bool.and_false]
    rfl

/-- One run ends where it stops. -/
theorem ends_run (some : start < stop) (filled : ∀ i, start ≤ i → i < stop → p i = true) (out : p stop = false) :
    ends p stop = ends p start + 1 := by
  obtain ⟨last, rfl⟩ := Nat.exists_eq_succ_of_ne_zero (Nat.ne_of_gt (Nat.lt_of_le_of_lt (Nat.zero_le _) some))
  have first := ends_inside (Nat.le_of_lt_succ some) fun i above below => filled i above (Nat.lt_succ_of_le below)
  have isLast := filled last (Nat.le_of_lt_succ some) (Nat.lt_succ_self last)
  rw [Nat.succ_eq_add_one, ends_succ, first, isLast, out]
  rfl

/-- A run that starts below `n` ends below it when `n` is not in the set. -/
theorem ends_lt (set : p start = true) (below : start < n) (out : p n = false) : ends p start < ends p n := by
  have stops : ∃ i, start < i ∧ p i = false := ⟨n, below, out⟩
  obtain ⟨after, free⟩ := Nat.find_spec stops
  have filled : ∀ i, start ≤ i → i < Nat.find stops → p i = true := by
    intro i above before
    rcases Nat.eq_or_lt_of_le above with rfl | later
    · exact set
    · by_contra absent
      exact Nat.find_min stops before ⟨later, Bool.eq_false_iff.2 absent⟩
  have first := ends_run after filled free
  have rest := @ends_mono p _ _ (Nat.find_min' stops ⟨below, out⟩)
  omega

/-- No list of intervals covers a set with fewer intervals than it has runs. -/
theorem ends_le_length {l : List Interval} (covers : ∀ i ≤ n, Covers l i ↔ p i = true) : ends p n ≤ l.length := by
  have lasts : (l.map fun i => i.stop - 1).length = l.length := List.length_map _
  rw [ends, List.countP_eq_length_filter, ← lasts]
  refine (List.nodup_range.filter _).length_le_of_subset ?_
  intro i inside
  obtain ⟨below, last⟩ := List.mem_filter.1 inside
  have small := List.mem_range.1 below
  rw [Bool.and_eq_true, Bool.not_eq_true'] at last
  -- the interval that has the last number of a run stops after it
  obtain ⟨j, member, from_, has⟩ := (covers i small.le).2 last.1
  refine List.mem_map.2 ⟨j, member, ?_⟩
  by_contra other
  have next : Covers l (i + 1) := covers_of_mem member ⟨from_.trans (Nat.le_succ i), by omega⟩
  rw [covers (i + 1) small, last.2] at next
  exact absurd next Bool.false_ne_true

end Ends

/-- The maximal runs of a set below a position that no run crosses. -/
structure RunsBelow (p : Nat → Bool) (pos : Nat) (l : List Interval) : Prop where
  ordered : Ordered l
  covers : ∀ n, Covers l n ↔ n < pos ∧ p n = true
  length : l.length = ends p pos

section Walk

variable {p : Nat → Bool} {pos start stop n : Nat} {l : List Interval}

theorem RunsBelow.nil : RunsBelow p 0 [] := ⟨.nil, by simp, rfl⟩

/-- A gap adds no run. -/
theorem RunsBelow.gap (below : RunsBelow p pos l) (le : pos ≤ start) (free : ∀ i, pos ≤ i → i < start → p i = false) :
    RunsBelow p start l where
  ordered := below.ordered
  covers n := by
    rw [below.covers]
    refine and_congr_left fun set => ⟨fun before => before.trans_le le, fun before => ?_⟩
    by_contra after
    rw [free n (Nat.not_lt.1 after) before] at set
    exact absurd set Bool.false_ne_true
  length := by rw [below.length, ends_gap le free]

/-- The run that starts at the position. -/
theorem RunsBelow.run (below : RunsBelow p start l) (some : start < stop)
    (filled : ∀ i, start ≤ i → i < stop → p i = true) (out : p stop = false) : RunsBelow p stop (l ++ [⟨start, stop⟩]) where
  ordered := by
    refine ordered_append.2 ⟨below.ordered, .singleton some, fun i inside j single => ?_⟩
    rw [List.mem_singleton.1 single]
    by_contra across
    have nonempty := below.ordered.nonempty i inside
    have last : Covers l (i.stop - 1) := covers_of_mem inside ⟨by omega, by omega⟩
    have before := ((below.covers _).1 last).1
    exact absurd before (by simp only at across; omega)
  covers n := by
    rw [covers_append, below.covers, covers_cons, Interval.Has]
    have covered := filled n
    constructor
    · rintro (⟨before, set⟩ | ⟨above, before⟩ | none)
      · exact ⟨before.trans some, set⟩
      · exact ⟨before, covered above before⟩
      · exact absurd none covers_nil
    · rintro ⟨before, set⟩
      rcases Nat.lt_or_ge n start with earlier | later
      · exact .inl ⟨earlier, set⟩
      · exact .inr (.inl ⟨later, before⟩)
  length := by rw [List.length_append, List.length_singleton, below.length, ends_run some filled out]

/-- There is room for the run that starts at the position. -/
theorem RunsBelow.room (below : RunsBelow p start l) (set : p start = true) (inside : start < n) (out : p n = false) :
    l.length < ends p n := by
  rw [below.length]
  exact ends_lt set inside out

end Walk

end Intervals
