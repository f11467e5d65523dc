import Mathlib.Data.List.Pairwise
import Mathlib.Data.List.Nodup
import Mathlib.Data.List.Perm.Subperm
import Mathlib.Data.List.Range
import Mathlib.Tactic.Tauto

/-!
# Lists of intervals

A set of numbers as a list of half-open intervals in order, none reaching into
the next. A list is specified by the numbers it covers (`Covers`). Pushing
intervals by increasing starts, each merged with the last one where they touch,
covers what the pushed intervals cover; this is all that a union of two lists
needs.
-/

namespace Intervals

/-- The numbers from `start` up to and without `stop`. -/
structure Interval where
  start : Nat
  stop : Nat
  deriving DecidableEq, Repr

/-- A number lies in the interval. -/
def Interval.Has (i : Interval) (x : Nat) : Prop := i.start ≤ x ∧ x < i.stop

instance (i : Interval) (x : Nat) : Decidable (i.Has x) := inferInstanceAs (Decidable (_ ∧ _))

/-- A number lies in one of the intervals. -/
def Covers (l : List Interval) (x : Nat) : Prop := ∃ i ∈ l, i.Has x

/-- Nonempty intervals in order, none reaching into the next. -/
structure Ordered (l : List Interval) : Prop where
  nonempty : ∀ i ∈ l, i.start < i.stop
  apart : l.Pairwise fun i j => i.stop ≤ j.start

/-! ## What a list covers -/

variable {l l' pre post : List Interval} {i j : Interval} {x : Nat}

@[simp] theorem covers_nil : ¬ Covers [] x := by
  simp [Covers]

@[simp] theorem covers_cons : Covers (i :: l) x ↔ i.Has x ∨ Covers l x := by
  simp [Covers]

@[simp] theorem covers_append : Covers (l ++ l') x ↔ Covers l x ∨ Covers l' x := by
  simp [Covers, or_and_right, exists_or]

/-- The numbers around one interval are its own and those of the others. -/
theorem covers_split : Covers (pre ++ i :: post) x ↔ i.Has x ∨ Covers (pre ++ post) x := by
  simp only [covers_append, covers_cons]
  tauto

theorem covers_of_mem (member : i ∈ l) (has : i.Has x) : Covers l x := ⟨i, member, has⟩

/-- Intervals that start above a number do not have it. -/
theorem not_covers_of_lt (above : ∀ j ∈ l, x < j.start) : ¬ Covers l x := by
  intro covered
  obtain ⟨j, member, from_, -⟩ := covered
  exact absurd (above j member) (Nat.not_lt.2 from_)

/-- Intervals that stop at or below a number do not have it. -/
theorem not_covers_of_ge (below : ∀ j ∈ l, j.stop ≤ x) : ¬ Covers l x := by
  intro covered
  obtain ⟨j, member, -, inside⟩ := covered
  exact absurd inside (Nat.not_lt.2 (below j member))

/-! ## Lists in order -/

theorem Ordered.nil : Ordered [] := ⟨by simp, List.Pairwise.nil⟩

theorem Ordered.singleton (some : i.start < i.stop) : Ordered [i] :=
  ⟨by simpa using some, List.pairwise_singleton _ _⟩

theorem Ordered.sublist (ordered : Ordered l) (part : l'.Sublist l) : Ordered l' :=
  ⟨fun i member => ordered.nonempty i (part.subset member), ordered.apart.sublist part⟩

theorem ordered_append : Ordered (l ++ l') ↔ Ordered l ∧ Ordered l' ∧ ∀ i ∈ l, ∀ j ∈ l', i.stop ≤ j.start := by
  constructor
  · intro ordered
    exact ⟨ordered.sublist (List.sublist_append_left ..), ordered.sublist (List.sublist_append_right ..),
      (List.pairwise_append.1 ordered.apart).2.2⟩
  · intro given
    obtain ⟨front, back, across⟩ := given
    exact ⟨List.forall_mem_append.2 ⟨front.nonempty, back.nonempty⟩,
      List.pairwise_append.2 ⟨front.apart, back.apart, across⟩⟩

theorem ordered_cons : Ordered (i :: l) ↔ i.start < i.stop ∧ Ordered l ∧ ∀ j ∈ l, i.stop ≤ j.start := by
  constructor
  · intro ordered
    exact ⟨ordered.nonempty i (by simp), ordered.sublist (List.sublist_cons_self ..),
      (List.pairwise_cons.1 ordered.apart).1⟩
  · intro given
    obtain ⟨some, back, across⟩ := given
    exact ⟨List.forall_mem_cons.2 ⟨some, back.nonempty⟩, List.pairwise_cons.2 ⟨across, back.apart⟩⟩

/-- Around one interval the others stop before it and start after it. -/
theorem Ordered.around (ordered : Ordered (pre ++ i :: post)) :
    i.start < i.stop ∧ (∀ j ∈ pre, j.stop ≤ i.start) ∧ ∀ j ∈ post, i.stop ≤ j.start := by
  obtain ⟨-, back, across⟩ := ordered_append.1 ordered
  obtain ⟨some, -, after⟩ := ordered_cons.1 back
  exact ⟨some, fun j member => across j member i (by simp), after⟩

/-- The numbers of one interval are not covered by the others. -/
theorem Ordered.not_covers_others (ordered : Ordered (pre ++ i :: post)) (has : i.Has x) : ¬ Covers (pre ++ post) x := by
  obtain ⟨-, before, after⟩ := ordered.around
  obtain ⟨from_, inside⟩ := has
  rw [covers_append, not_or]
  exact ⟨not_covers_of_ge fun j member => (before j member).trans from_,
    not_covers_of_lt fun j member => Nat.lt_of_lt_of_le inside (after j member)⟩

/-- An interval is put between others that leave room for it. -/
theorem Ordered.insert (ordered : Ordered (pre ++ post)) (some : i.start < i.stop)
    (before : ∀ j ∈ pre, j.stop ≤ i.start) (after : ∀ j ∈ post, i.stop ≤ j.start) : Ordered (pre ++ i :: post) := by
  obtain ⟨front, back, across⟩ := ordered_append.1 ordered
  refine ordered_append.2 ⟨front, ordered_cons.2 ⟨some, back, after⟩, ?_⟩
  intro j member
  exact List.forall_mem_cons.2 ⟨before j member, across j member⟩

/-- Between the starts of two neighbours only the first of them can have a number. -/
theorem Ordered.covers_at (ordered : Ordered (pre ++ i :: post)) (from_ : i.start ≤ x) (after : ∀ j ∈ post, x < j.start) :
    Covers (pre ++ i :: post) x ↔ x < i.stop := by
  obtain ⟨-, before, -⟩ := ordered.around
  have front : ¬ Covers pre x := not_covers_of_ge fun j member => (before j member).trans from_
  have back := not_covers_of_lt after
  simp [front, back, Interval.Has, from_]

/-- The starts of intervals in order are distinct numbers that are covered. -/
theorem Ordered.starts (ordered : Ordered l) :
    (l.map Interval.start).Pairwise (· < ·) ∧ ∀ x ∈ l.map Interval.start, Covers l x := by
  constructor
  · refine List.pairwise_map.2 (ordered.apart.imp_of_mem ?_)
    intro i j member _ apart
    exact Nat.lt_of_lt_of_le (ordered.nonempty i member) apart
  · intro x member
    obtain ⟨i, inside, rfl⟩ := List.mem_map.1 member
    exact covers_of_mem inside ⟨Nat.le_refl _, ordered.nonempty i inside⟩

/-- There are fewer intervals below a bound than numbers, if one number is not covered. -/
theorem Ordered.length_lt {bound : Nat} (ordered : Ordered l) (within : ∀ i ∈ l, i.stop ≤ bound) (small : x < bound)
    (free : ¬ Covers l x) : l.length < bound := by
  obtain ⟨sorted, covered⟩ := ordered.starts
  have nodup : (l.map Interval.start).Nodup := sorted.imp fun less => Nat.ne_of_lt less
  have inside : l.map Interval.start ⊆ (List.range bound).erase x := by
    intro y member
    obtain ⟨i, hi, isStart⟩ := List.mem_map.1 member
    have below := within i hi
    have some := ordered.nonempty i hi
    refine (List.mem_erase_of_ne ?_).2 (List.mem_range.2 (by omega))
    rintro rfl
    exact free (covered y member)
  have length := (List.subperm_of_subset nodup inside).length_le
  rw [List.length_map, List.length_erase_of_mem (List.mem_range.2 small), List.length_range] at length
  omega

/-! ## Pushing intervals -/

/-- `next` after the others, merged with the last one when that reaches it. -/
def push (l : List Interval) (next : Interval) : List Interval :=
  match l.getLast? with
  | none => [next]
  | some last =>
    if last.stop < next.start then l ++ [next] else l.dropLast ++ [{ last with stop := max last.stop next.stop }]

theorem push_concat {last next : Interval} : push (pre ++ [last]) next =
    if last.stop < next.start then pre ++ [last] ++ [next]
    else pre ++ [{ last with stop := max last.stop next.stop }] := by
  simp [push]

/-- A pushed interval starts no earlier than the others: the list stays in order
and covers the numbers of the interval as well. -/
theorem push_spec {next : Interval} (ordered : Ordered l) (some : next.start < next.stop)
    (later : ∀ i ∈ l, i.start ≤ next.start) :
    Ordered (push l next) ∧ (∀ i ∈ push l next, i.start ≤ next.start) ∧
      ∀ x, Covers (push l next) x ↔ Covers l x ∨ next.Has x := by
  rcases List.eq_nil_or_concat l with rfl | ⟨pre, last, rfl⟩
  · exact ⟨.singleton some, by simp [push], by simp [push]⟩
  · rw [List.concat_eq_append] at ordered later ⊢
    rw [push_concat]
    obtain ⟨-, before, -⟩ := ordered.around
    have lastLater : last.start ≤ next.start := later last (by simp)
    have lastSome : last.start < last.stop := ordered.nonempty last (by simp)
    split
    case isTrue apart =>
      refine ⟨ordered_append.2 ⟨ordered, .singleton some, ?_⟩, ?_, by simp [or_assoc]⟩
      · intro j member k single
        obtain rfl := List.mem_singleton.1 single
        rcases List.mem_append.1 member with h | h
        · exact (before j h).trans (lastSome.le.trans apart.le)
        · exact List.mem_singleton.1 h ▸ apart.le
      · exact List.forall_mem_append.2 ⟨later, by simp⟩
    case isFalse touching =>
      refine ⟨ordered_append.2 ⟨(ordered_append.1 ordered).1, .singleton ?_, ?_⟩, ?_, ?_⟩
      · show last.start < max last.stop next.stop
        omega
      · intro j member k single
        obtain rfl := List.mem_singleton.1 single
        exact before j member
      · refine List.forall_mem_append.2 ⟨fun j member => later j (List.mem_append_left _ member), ?_⟩
        exact List.forall_mem_singleton.2 lastLater
      · intro x
        simp only [covers_append, covers_cons, covers_nil, or_false, or_assoc, Interval.Has]
        apply or_congr_right
        omega

theorem length_push_le (l : List Interval) (next : Interval) : (push l next).length ≤ l.length + 1 := by
  rcases List.eq_nil_or_concat l with rfl | ⟨pre, last, rfl⟩
  · simp [push]
  · rw [List.concat_eq_append, push_concat]
    split <;> simp

/-- Pushing intervals by increasing starts. -/
theorem foldl_push_spec (more : List Interval) (ordered : Ordered l) (some : ∀ i ∈ more, i.start < i.stop)
    (increasing : more.Pairwise fun i j => i.start ≤ j.start) (later : ∀ i ∈ l, ∀ j ∈ more, i.start ≤ j.start) :
    Ordered (more.foldl push l) ∧ ∀ x, Covers (more.foldl push l) x ↔ Covers l x ∨ Covers more x := by
  induction more generalizing l with
  | nil => exact ⟨ordered, by simp⟩
  | cons next more ih =>
    obtain ⟨least, rest⟩ := List.pairwise_cons.1 increasing
    obtain ⟨ordered', earlier, covers⟩ := push_spec ordered (some next (by simp)) fun i hi => later i hi next (by simp)
    obtain ⟨done, all⟩ := ih ordered' (fun i hi => some i (by simp [hi])) rest fun i hi j hj =>
      (earlier i hi).trans (least j hj)
    refine ⟨done, ?_⟩
    intro x
    rw [List.foldl_cons, all, covers, covers_cons, or_assoc]

theorem length_foldl_push_le (more l : List Interval) : (more.foldl push l).length ≤ l.length + more.length := by
  induction more generalizing l with
  | nil => exact Nat.le_refl _
  | cons next more ih =>
    have step := length_push_le l next
    have rest := ih (push l next)
    rw [List.foldl_cons, List.length_cons]
    omega

/-! ## Union -/

/-- The order in which a union pushes the intervals of its operands. -/
def startsFirst (i j : Interval) : Bool := decide (i.start ≤ j.start)

theorem startsFirst_iff : startsFirst i j = true ↔ i.start ≤ j.start := decide_eq_true_iff

/-- The union of two lists: their intervals by increasing starts, pushed in turn. -/
def union (l l' : List Interval) : List Interval := (l.merge l' startsFirst).foldl push []

theorem Ordered.startsFirst (ordered : Ordered l) : l.Pairwise fun i j => Intervals.startsFirst i j = true := by
  refine ordered.apart.imp_of_mem ?_
  intro i j member _ apart
  exact startsFirst_iff.2 ((ordered.nonempty i member).le.trans apart)

/-- The union of two lists in order is in order and covers what they cover. -/
theorem union_spec (ordered : Ordered l) (ordered' : Ordered l') :
    Ordered (union l l') ∧ ∀ x, Covers (union l l') x ↔ Covers l x ∨ Covers l' x := by
  have some : ∀ i ∈ l.merge l' startsFirst, i.start < i.stop := by
    intro i member
    exact (List.mem_merge.1 member).elim (ordered.nonempty i) (ordered'.nonempty i)
  have increasing : (l.merge l' startsFirst).Pairwise fun i j => i.start ≤ j.start := by
    have trans : ∀ a b c, startsFirst a b = true → startsFirst b c = true → startsFirst a c = true := fun a b c first second =>
      startsFirst_iff.2 ((startsFirst_iff.1 first).trans (startsFirst_iff.1 second))
    have total : ∀ a b, (startsFirst a b || startsFirst b a) = true := fun a b => by
      rw [Bool.or_eq_true, startsFirst_iff, startsFirst_iff]
      exact Nat.le_total a.start b.start
    have sorted := List.pairwise_merge trans total l l' ordered.startsFirst ordered'.startsFirst
    exact sorted.imp startsFirst_iff.1
  obtain ⟨done, covers⟩ := foldl_push_spec _ .nil some increasing (by simp)
  refine ⟨done, ?_⟩
  intro x
  rw [union, covers]
  simp only [Covers, List.mem_merge, or_and_right, exists_or, List.not_mem_nil, false_and, exists_false, false_or]

theorem length_union_le (l l' : List Interval) : (union l l').length ≤ l.length + l'.length := by
  have length := length_foldl_push_le (l.merge l' startsFirst) []
  rwa [List.length_merge, List.length_nil, Nat.zero_add] at length

end Intervals
