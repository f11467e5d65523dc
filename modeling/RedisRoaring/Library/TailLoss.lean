import Mathlib.Data.Set.Basic
import Mathlib.Order.Defs.LinearOrder

/-!
# Unions that lose a tail

Sets are merged one after the other into an accumulator. A merge is the union,
but a set with members under every key loses those whose keys lie above every
key of a nonempty accumulator. What a fold of merges loses is described by the
merged sets alone, without the accumulators in between (`mem_foldl_merge_empty`).
-/

namespace TailLoss

variable {V K : Type} [LinearOrder K] (key : V → K)

/-- There are members under every key. -/
def Spans (S : Set V) : Prop := ∀ k, ∃ v ∈ S, key v = k

/-- Every key lies below the bound. -/
def Below (S : Set V) (bound : K) : Prop := ∀ v ∈ S, key v < bound

/-- What is lost when `S` is merged into `A`. -/
def Lost (A S : Set V) (v : V) : Prop := Spans key S ∧ A.Nonempty ∧ Below key A (key v)

/-- The merge. -/
def merge (A S : Set V) : Set V := {v | v ∈ A ∨ v ∈ S ∧ ¬ Lost key A S v}

/-- What is lost of `S` after the sets before it have been merged, the first of
them into nothing: spanning sets in between do not matter. -/
def CutOff (before : List (Set V)) (S : Set V) (v : V) : Prop :=
  Spans key S ∧ ∃ first mid, before = first :: mid ∧ Below key first (key v) ∧
    ∀ T ∈ mid, ¬ Spans key T → Below key T (key v)

variable {key} {A S : Set V} {v : V} {bound : K}

theorem subset_merge : A ⊆ merge key A S := fun _ inside => .inl inside

/-- Nothing is lost when the accumulator is empty. -/
theorem merge_empty : merge key ∅ S = S := by
  ext v
  constructor
  · rintro (inside | ⟨inside, -⟩)
    · exact absurd inside (Set.notMem_empty v)
    · exact inside
  · exact fun inside => .inr ⟨inside, fun lost => Set.not_nonempty_empty lost.2.1⟩

/-- A merge raises the bound as the union does if the set does not span, and
not at all if it does. -/
theorem below_merge (nonempty : A.Nonempty) :
    Below key (merge key A S) bound ↔ Below key A bound ∧ (¬ Spans key S → Below key S bound) := by
  constructor
  · refine fun below => ⟨fun v inside => below v (.inl inside), fun narrow v inside => below v (.inr ⟨inside, ?_⟩)⟩
    exact fun lost => narrow lost.1
  · rintro ⟨below, rest⟩ v (inside | ⟨inside, kept⟩)
    · exact below v inside
    by_cases spans : Spans key S
    · -- a member that is kept lies at or below some key of the accumulator
      have notAbove : ¬ Below key A (key v) := fun above => kept ⟨spans, nonempty, above⟩
      simp only [Below, not_forall, not_lt] at notAbove
      obtain ⟨a, inA, le⟩ := notAbove
      exact le.trans_lt (below a inA)
    · exact rest spans v inside

theorem nonempty_foldl_merge {l : List (Set V)} {A : Set V} (nonempty : A.Nonempty) :
    (l.foldl (merge key) A).Nonempty := by
  induction l generalizing A with
  | nil => exact nonempty
  | cons S l ih =>
    rw [List.foldl_cons]
    exact ih (nonempty.mono subset_merge)

/-- The bound after a fold of merges. -/
theorem below_foldl_merge {l : List (Set V)} {A : Set V} (nonempty : A.Nonempty) :
    Below key (l.foldl (merge key) A) bound ↔ Below key A bound ∧ ∀ T ∈ l, ¬ Spans key T → Below key T bound := by
  induction l generalizing A with
  | nil => simp
  | cons S l ih =>
    rw [List.foldl_cons, ih (nonempty.mono subset_merge), below_merge nonempty, List.forall_mem_cons, and_assoc]

/-- A member of the fold was there before, or some merge has kept it. -/
theorem mem_foldl_merge {l : List (Set V)} {A : Set V} : v ∈ l.foldl (merge key) A ↔
    v ∈ A ∨ ∃ before S after, l = before ++ S :: after ∧ v ∈ S ∧ ¬ Lost key (before.foldl (merge key) A) S v := by
  induction l generalizing A with
  | nil => simp
  | cons T l ih =>
    rw [List.foldl_cons, ih]
    constructor
    · rintro ((inside | ⟨inside, kept⟩) | ⟨before, S, after, rfl, inside, kept⟩)
      · exact .inl inside
      · exact .inr ⟨[], T, l, rfl, inside, kept⟩
      · exact .inr ⟨T :: before, S, after, rfl, inside, kept⟩
    · rintro (inside | ⟨before, S, after, split, inside, kept⟩)
      · exact .inl (.inl inside)
      cases before with
      | nil =>
        obtain ⟨rfl, rfl⟩ := List.cons.inj split
        exact .inl (.inr ⟨inside, kept⟩)
      | cons first before =>
        obtain ⟨rfl, rfl⟩ := List.cons.inj split
        exact .inr ⟨before, S, after, rfl, inside, kept⟩

/-- After merges into nothing, what is lost depends on the merged sets only. -/
theorem lost_foldl_merge_empty {before : List (Set V)} (nonempty : ∀ T ∈ before, T.Nonempty) :
    Lost key (before.foldl (merge key) ∅) S v ↔ CutOff key before S v := by
  cases before with
  | nil =>
    constructor
    · exact fun lost => absurd lost.2.1 Set.not_nonempty_empty
    · intro given
      obtain ⟨-, first, mid, split, -⟩ := given
      cases split
  | cons first mid =>
    have some : first.Nonempty := nonempty first (by simp)
    rw [Lost, List.foldl_cons, merge_empty, below_foldl_merge some, CutOff]
    constructor
    · intro given
      obtain ⟨spans, -, below, rest⟩ := given
      exact ⟨spans, first, mid, rfl, below, rest⟩
    · intro given
      obtain ⟨spans, first', mid', split, below, rest⟩ := given
      obtain ⟨rfl, rfl⟩ := List.cons.inj split
      exact ⟨spans, nonempty_foldl_merge some, below, rest⟩

/-- The sets of a list that have members. -/
noncomputable def populated (l : List (Set V)) : List (Set V) :=
  open Classical in l.filter fun T => decide T.Nonempty

theorem nonempty_of_mem_populated {l : List (Set V)} : ∀ T ∈ populated l, T.Nonempty := by
  intro T inside
  simpa using (List.mem_filter.1 inside).2

theorem populated_sublist (l : List (Set V)) : (populated l).Sublist l := List.filter_sublist

theorem populated_eq {l : List (Set V)} (nonempty : ∀ T ∈ l, T.Nonempty) : populated l = l :=
  List.filter_eq_self.2 fun T inside => by simpa using nonempty T inside

/-- Merging the empty set changes nothing. -/
theorem foldl_merge_populated (l : List (Set V)) (A : Set V) :
    l.foldl (merge key) A = (populated l).foldl (merge key) A := by
  induction l generalizing A with
  | nil => rfl
  | cons S l ih =>
    rw [List.foldl_cons, ih]
    by_cases some : S.Nonempty
    · have split : populated (S :: l) = S :: populated l := List.filter_cons_of_pos (by simpa using some)
      rw [split, List.foldl_cons]
    · have split : populated (S :: l) = populated l := List.filter_cons_of_neg (by simpa using some)
      have empty : S = ∅ := Set.not_nonempty_iff_eq_empty.1 some
      have same : merge key A ∅ = A := Set.ext fun v => by simp [merge]
      rw [split, empty, same]

/-- **What a fold of merges delivers.** -/
theorem mem_foldl_merge_empty {l : List (Set V)} (nonempty : ∀ T ∈ l, T.Nonempty) : v ∈ l.foldl (merge key) ∅ ↔
    ∃ before S after, l = before ++ S :: after ∧ v ∈ S ∧ ¬ CutOff key before S v := by
  rw [mem_foldl_merge, or_iff_right (Set.notMem_empty v)]
  have same : ∀ {before S after}, l = before ++ S :: after →
      (Lost key (before.foldl (merge key) ∅) S v ↔ CutOff key before S v) := fun split =>
    lost_foldl_merge_empty fun T inside => nonempty T (split ▸ List.mem_append_left _ inside)
  constructor
  · intro given
    obtain ⟨before, S, after, split, inside, kept⟩ := given
    exact ⟨before, S, after, split, inside, mt (same split).2 kept⟩
  · intro given
    obtain ⟨before, S, after, split, inside, kept⟩ := given
    exact ⟨before, S, after, split, inside, mt (same split).1 kept⟩

end TailLoss
