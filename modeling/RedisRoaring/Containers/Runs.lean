import RedisRoaring.Containers.Run
import RedisRoaring.Library.Intervals

/-!
# Run containers as sets

A list of runs in order is a list of intervals in order. The single-value
operations change one run, join two, break one or put in a new one; in each case
the new runs are in order and cover the old values with the one added or removed.
-/

namespace RedisRoaring

open Exec SortedList Intervals

/-! ## Values -/

theorem length_runValues (r : RunContainer) : runContainerCardinality r = r.values.length := by
  have sum : ∀ (runs : List Rle16) (start : Nat), runs.foldl (fun sum rle => sum + rle.length.toNat) start + runs.length =
      start + (runs.flatMap fun rle => rle.numbers.map UInt16.ofNat).length := by
    intro runs
    induction runs with
    | nil => intro start; rfl
    | cons rle runs ih =>
      intro start
      have tail := ih (start + rle.length.toNat)
      simp only [List.foldl_cons, List.length_cons, List.flatMap_cons, List.length_append, List.length_map, Rle16.numbers,
        List.length_range'] at tail ⊢
      omega
  have total := sum r.runs r.runs.length
  rw [runContainerCardinality, RunContainer.nRuns, RunContainer.values]
  omega

/-- Every run counts for one value at least. -/
theorem nRuns_le_cardinality (r : RunContainer) : r.nRuns ≤ runContainerCardinality r := by
  have grows : ∀ (runs : List Rle16) (start : Nat), start ≤ runs.foldl (fun sum rle => sum + rle.length.toNat) start := by
    intro runs
    induction runs with
    | nil => exact fun start => Nat.le_refl _
    | cons rle runs ih => exact fun start => (Nat.le_add_right ..).trans (ih _)
  exact grows r.runs r.nRuns

/-- A run counts upwards exactly when it stays within 16 bits. -/
theorem sorted_numbers_iff (rle : Rle16) : (rle.numbers.map UInt16.ofNat).Pairwise (· < ·) ↔ rle.stop ≤ 65536 := by
  have start := rle.value.toNat_lt
  have length := rle.length.toNat_lt
  constructor
  · intro sorted
    by_contra beyond
    rw [Rle16.stop] at beyond
    -- the number 65536 of the run wraps to 0
    have steps := List.pairwise_iff_getElem.1 sorted (65535 - rle.value.toNat) (65536 - rle.value.toNat)
      (by simp [Rle16.numbers]; omega) (by simp [Rle16.numbers]; omega) (by omega)
    simp only [List.getElem_map, Rle16.numbers, List.getElem_range', UInt16.lt_iff_toNat_lt, UInt16.toNat_ofNat'] at steps
    omega
  · intro inside
    rw [Rle16.stop] at inside
    refine List.pairwise_map.2 ((List.pairwise_lt_range' (s := rle.value.toNat)).imp_of_mem fun {a b} ha hb below => ?_)
    have := (List.mem_range'_1.1 ha).2
    have := (List.mem_range'_1.1 hb).2
    rw [UInt16.lt_iff_toNat_lt, UInt16.toNat_ofNat_of_lt' (by show a < 65536; omega),
      UInt16.toNat_ofNat_of_lt' (by show b < 65536; omega)]
    exact below

/-- The runs of a container in order: within 16 bits and none reaching the next. -/
structure RunsOrdered (runs : List Rle16) : Prop where
  within : ∀ rle ∈ runs, rle.stop ≤ 65536
  apart : runs.Pairwise fun rle next => rle.stop ≤ next.value.toNat

theorem sorted_runValues_iff (r : RunContainer) : r.values.Pairwise (· < ·) ↔ RunsOrdered r.runs := by
  rw [RunContainer.values, List.pairwise_flatMap]
  simp only [sorted_numbers_iff]
  constructor
  · intro given
    obtain ⟨within, apart⟩ := given
    refine ⟨within, apart.imp_of_mem fun {a b} ha hb less => ?_⟩
    have last := less (UInt16.ofNat (a.stop - 1)) (List.mem_map_of_mem (List.mem_range'_1.2 (by rw [Rle16.stop]; omega)))
      (UInt16.ofNat b.value.toNat) (List.mem_map_of_mem (List.mem_range'_1.2 (by omega)))
    have := within a ha
    have := b.value.toNat_lt
    rw [UInt16.ofNat_toNat, UInt16.lt_iff_toNat_lt, UInt16.toNat_ofNat'] at last
    omega
  · intro given
    obtain ⟨within, apart⟩ := given
    refine ⟨within, apart.imp_of_mem fun {a b} ha hb less => ?_⟩
    intro x hx y hy
    obtain ⟨i, hi, rfl⟩ := List.mem_map.1 hx
    obtain ⟨j, hj, rfl⟩ := List.mem_map.1 hy
    have insideA := within a ha
    have insideB := within b hb
    have boundsA := List.mem_range'_1.1 hi
    have boundsB := List.mem_range'_1.1 hj
    rw [Rle16.stop] at insideA insideB less
    rw [UInt16.lt_iff_toNat_lt, UInt16.toNat_ofNat_of_lt' (by show i < 65536; omega),
      UInt16.toNat_ofNat_of_lt' (by show j < 65536; omega)]
    omega

theorem runValues_eq_nil_iff (r : RunContainer) : r.values = [] ↔ r.runs = [] := by
  rw [RunContainer.values, List.flatMap_eq_nil_iff]
  constructor
  · intro all
    apply List.eq_nil_iff_forall_not_mem.2
    intro rle inside
    have empty := congrArg List.length (all rle inside)
    simp [Rle16.numbers] at empty
  · intro none
    simp [none]

/-- The values of some runs, one after the other. -/
def runsValues (runs : List Rle16) : List UInt16 := runs.flatMap fun rle => rle.numbers.map UInt16.ofNat

@[simp] theorem runsValues_cons (rle : Rle16) (runs : List Rle16) :
    runsValues (rle :: runs) = rle.numbers.map UInt16.ofNat ++ runsValues runs := rfl

theorem runsValues_snoc (seen : List Rle16) (rle : Rle16) :
    runsValues (seen ++ [rle]) = runsValues seen ++ rle.numbers.map UInt16.ofNat := by
  simp [runsValues]

/-! ## Intervals -/

/-- The interval of a run. -/
def Rle16.interval (rle : Rle16) : Interval := { start := rle.value.toNat, stop := rle.stop }

/-- The intervals of some runs. -/
def intervals (runs : List Rle16) : List Interval := runs.map Rle16.interval

@[simp] theorem intervals_nil : intervals [] = [] := rfl

@[simp] theorem intervals_cons (rle : Rle16) (runs : List Rle16) :
    intervals (rle :: runs) = rle.interval :: intervals runs := rfl

@[simp] theorem intervals_append (front back : List Rle16) :
    intervals (front ++ back) = intervals front ++ intervals back := List.map_append

@[simp] theorem Rle16.start_interval (rle : Rle16) : rle.interval.start = rle.value.toNat := rfl

@[simp] theorem Rle16.stop_interval (rle : Rle16) : rle.interval.stop = rle.stop := rfl

theorem Rle16.value_lt_stop (rle : Rle16) : rle.value.toNat < rle.stop := by
  unfold Rle16.stop
  omega

theorem forall_mem_intervals {runs : List Rle16} {Q : Interval → Prop} :
    (∀ i ∈ intervals runs, Q i) ↔ ∀ rle ∈ runs, Q rle.interval := List.forall_mem_map

/-- The runs are in order exactly when their intervals are, below 65536. -/
theorem runsOrdered_iff {runs : List Rle16} :
    RunsOrdered runs ↔ Ordered (intervals runs) ∧ ∀ rle ∈ runs, rle.stop ≤ 65536 := by
  constructor
  · intro ordered
    exact ⟨⟨forall_mem_intervals.2 fun rle _ => rle.value_lt_stop, List.pairwise_map.2 ordered.apart⟩, ordered.within⟩
  · intro given
    obtain ⟨ordered, within⟩ := given
    exact ⟨within, List.pairwise_map.1 ordered.apart⟩

theorem RunsOrdered.intervals {runs : List Rle16} (ordered : RunsOrdered runs) : Ordered (intervals runs) :=
  (runsOrdered_iff.1 ordered).1

/-- What runs in order cover is below 65536. -/
theorem RunsOrdered.lt {runs : List Rle16} (ordered : RunsOrdered runs) {n : Nat} (covered : Covers (RedisRoaring.intervals runs) n) :
    n < 65536 := by
  obtain ⟨i, member, -, below⟩ := covered
  obtain ⟨rle, inside, rfl⟩ := List.mem_map.1 member
  exact Nat.lt_of_lt_of_le below (ordered.within rle inside)

theorem covers_intervals {runs : List Rle16} {n : Nat} :
    Covers (intervals runs) n ↔ ∃ rle ∈ runs, rle.interval.Has n := by
  simp [Covers, intervals]

/-- The members of a run container are the numbers that its intervals cover. -/
theorem mem_runValues {r : RunContainer} (ordered : RunsOrdered r.runs) {x : UInt16} :
    x ∈ r.values ↔ Covers (intervals r.runs) x.toNat := by
  rw [RunContainer.values, List.mem_flatMap, covers_intervals]
  apply exists_congr
  intro rle
  apply and_congr_right
  intro inside
  have within := ordered.within rle inside
  rw [List.mem_map]
  constructor
  · intro given
    obtain ⟨n, member, rfl⟩ := given
    obtain ⟨from_, below⟩ := List.mem_range'_1.1 member
    rw [Rle16.stop] at within
    rw [UInt16.toNat_ofNat_of_lt' (by show n < 65536; omega)]
    exact ⟨from_, below⟩
  · intro has
    obtain ⟨from_, below⟩ := has
    exact ⟨x.toNat, List.mem_range'_1.2 ⟨from_, below⟩, UInt16.ofNat_toNat⟩

/-- Runs in order that cover a set of numbers. -/
structure RunsFor (runs : List Rle16) (P : Nat → Prop) : Prop where
  ordered : RunsOrdered runs
  covers : ∀ n, Covers (intervals runs) n ↔ P n

theorem RunsFor.mem_values {r : RunContainer} {P : Nat → Prop} (runsFor : RunsFor r.runs P) {x : UInt16} :
    x ∈ r.values ↔ P x.toNat := (mem_runValues runsFor.ordered).trans (runsFor.covers _)

theorem RunsOrdered.runsFor {runs : List Rle16} (ordered : RunsOrdered runs) :
    RunsFor runs (Covers (RedisRoaring.intervals runs)) := ⟨ordered, fun _ => Iff.rfl⟩

/-! ## Changing one run -/

section Runs

variable {pre post : List Rle16} {rle : Rle16}

theorem RunsOrdered.sublist {runs part : List Rle16} (ordered : RunsOrdered runs) (sublist : part.Sublist runs) :
    RunsOrdered part :=
  ⟨fun rle member => ordered.within rle (sublist.subset member), ordered.apart.sublist sublist⟩

theorem RunsOrdered.erase (ordered : RunsOrdered (pre ++ rle :: post)) : RunsOrdered (pre ++ post) :=
  ordered.sublist ((List.sublist_cons_self rle post).append_left pre)

/-- The runs around one stop before it and start after it. -/
theorem RunsOrdered.around (ordered : RunsOrdered (pre ++ rle :: post)) :
    (∀ c ∈ pre, c.stop ≤ rle.value.toNat) ∧ ∀ c ∈ post, rle.stop ≤ c.value.toNat := by
  have parts := ordered.intervals
  rw [intervals_append, intervals_cons] at parts
  exact ⟨forall_mem_intervals.1 parts.around.2.1, forall_mem_intervals.1 parts.around.2.2⟩

/-- A run is put between others that leave room for it. -/
theorem RunsOrdered.put (ordered : RunsOrdered (pre ++ post)) (inside : rle.stop ≤ 65536)
    (before : ∀ c ∈ pre, c.stop ≤ rle.value.toNat) (after : ∀ c ∈ post, rle.stop ≤ c.value.toNat) :
    RunsOrdered (pre ++ rle :: post) := by
  have parts := ordered.intervals
  rw [intervals_append] at parts
  refine runsOrdered_iff.2 ⟨?_, ?_⟩
  · rw [intervals_append, intervals_cons]
    exact parts.insert rle.value_lt_stop (forall_mem_intervals.2 before) (forall_mem_intervals.2 after)
  · obtain ⟨front, back⟩ := List.forall_mem_append.1 ordered.within
    exact List.forall_mem_append.2 ⟨front, List.forall_mem_cons.2 ⟨inside, back⟩⟩

theorem covers_runs_split {n : Nat} : Covers (intervals (pre ++ rle :: post)) n ↔
    rle.interval.Has n ∨ Covers (intervals (pre ++ post)) n := by
  rw [intervals_append, intervals_cons, covers_split, intervals_append]

/-- The interval of a run between two bounds. -/
theorem has_interval_iff {n : Nat} : rle.interval.Has n ↔ rle.value.toNat ≤ n ∧ n < rle.stop := Iff.rfl

/-- A run whose numbers and the changed ones make up another gives way to it. -/
theorem RunsFor.change {rle' : Rle16} {Q : Nat → Prop} (ordered : RunsOrdered (pre ++ rle :: post))
    (inside : rle'.stop ≤ 65536) (before : ∀ c ∈ pre, c.stop ≤ rle'.value.toNat)
    (after : ∀ c ∈ post, rle'.stop ≤ c.value.toNat)
    (covers : ∀ n, rle'.interval.Has n ∨ Covers (intervals (pre ++ post)) n ↔ Q n) :
    RunsFor (pre ++ rle' :: post) Q :=
  ⟨ordered.erase.put inside before after, fun n => covers_runs_split.trans (covers n)⟩

end Runs

/-! ## Valid run containers -/

/-- The invariant of a run container: the runs are in order, the array has room
for them and their number fits 16 bits. -/
structure RunContainer.Valid (run : RunContainer) : Prop where
  ordered : RunsOrdered run.runs
  fits : run.runs.length ≤ run.capacity
  few : run.runs.length < 65536

theorem RunContainer.Valid.sorted {run : RunContainer} (valid : run.Valid) : run.values.Pairwise (· < ·) :=
  (sorted_runValues_iff run).2 valid.ordered

theorem RunContainer.Full.ordered {run : RunContainer} (full : run.Full) : RunsOrdered run.runs := by
  rw [full]
  exact ⟨by decide, List.pairwise_singleton _ _⟩

/-- Runs with a number to spare are fewer than 65536. -/
theorem RunsOrdered.few {runs : List Rle16} (ordered : RunsOrdered runs) {n : Nat} (small : n < 65536)
    (free : ¬ Covers (RedisRoaring.intervals runs) n) : runs.length < 65536 := by
  have length := ordered.intervals.length_lt (forall_mem_intervals.2 ordered.within) small free
  rwa [RedisRoaring.intervals, List.length_map] at length

/-! ## Single values -/

section Single

variable {run : RunContainer} {pos : UInt16}

theorem interleavedBinarySearch_spec {runs : List Rle16} (ordered : RunsOrdered runs) (pos : UInt16) :
    SearchBy Rle16.value runs pos (interleavedBinarySearch runs pos) := by
  apply Search.by_key
  apply binarySearch_search
  refine List.pairwise_map.2 (ordered.apart.imp ?_)
  intro a b apart
  exact UInt16.lt_iff_toNat_lt.2 (Nat.lt_of_lt_of_le a.value_lt_stop apart)

theorem miss_index (n : Nat) : (-(-(n + 1 : Int)) - 1).toNat = n := by
  omega

/-- The membership test. -/
theorem runContainerContains_iff (ordered : RunsOrdered run.runs) :
    runContainerContains run pos = true ↔ pos ∈ run.values := by
  have search := interleavedBinarySearch_spec ordered pos
  rw [mem_runValues ordered]
  unfold runContainerContains
  generalize interleavedBinarySearch run.runs pos = index at search
  cases search with
  | hit pre rle post split isValue =>
    have covered : Covers (intervals run.runs) pos.toNat := by
      rw [split, covers_runs_split, ← isValue]
      exact .inl ⟨Nat.le_refl _, rle.value_lt_stop⟩
    simp [covered]
  | miss pre post split below above =>
    have outside : ¬ (0 : Int) ≤ -(pre.length + 1 : Int) := by omega
    have after : ∀ i ∈ intervals post, pos.toNat < i.start :=
      forall_mem_intervals.2 fun rle member => UInt16.lt_iff_toNat_lt.1 (above rle member)
    simp only [outside, if_false, miss_index, split, List.take_left']
    rcases List.eq_nil_or_concat pre with rfl | ⟨front, prev, rfl⟩
    · simp [not_covers_of_lt after]
    · have from_ := UInt16.lt_iff_toNat_lt.1 (below prev (by simp))
      have here : Covers (intervals run.runs) pos.toNat ↔ pos.toNat < prev.stop := by
        have parts := ordered.intervals
        rw [split] at parts ⊢
        simp only [List.concat_eq_append, intervals_append, intervals_cons, List.append_assoc, List.cons_append,
          List.nil_append] at parts ⊢
        exact parts.covers_at (show prev.value.toNat ≤ pos.toNat from from_.le) after
      rw [split] at here
      rw [here]
      simp only [List.concat_eq_append, List.getLast?_append, List.getLast?_singleton, Option.some_or, decide_eq_true_eq,
        Rle16.stop]
      omega

/-- Growing makes room for as many runs as asked for. -/
theorem le_capacity_runContainerGrow (run : RunContainer) (min : Nat) (copy : Bool) :
    min ≤ (runContainerGrow run min copy).capacity := by
  have large : ∀ newCapacity : Nat, min ≤ if newCapacity < min then min else newCapacity := by
    intro newCapacity
    split <;> omega
  exact large _

theorem RunContainer.store_eq_ok {run : RunContainer} {runs : List Rle16} (room : runs.length ≤ run.capacity) :
    run.store runs = .ok { run with runs } := if_pos room

/-- The new run finds its place. -/
theorem makeRoomAtIndex_spec {before after : List Rle16} (new : Rle16)
    (length : run.runs.length = before.length + after.length) :
    ∃ run', makeRoomAtIndex run before after new = .ok run' ∧ run'.runs = before ++ new :: after ∧
      run'.runs.length ≤ run'.capacity := by
  have needed : (before ++ new :: after).length = run.nRuns + 1 := by
    rw [RunContainer.nRuns, length, List.length_append, List.length_cons, Nat.add_assoc]
  unfold makeRoomAtIndex
  split
  case isTrue short =>
    have room := le_capacity_runContainerGrow run (run.nRuns + 1) true
    rw [← needed] at room
    exact ⟨_, RunContainer.store_eq_ok (needed ▸ room), rfl, needed ▸ room⟩
  case isFalse enough =>
    have room : (before ++ new :: after).length ≤ run.capacity := by omega
    exact ⟨_, RunContainer.store_eq_ok room, rfl, room⟩

section Add

variable {pre post : List Rle16} {prev next : Rle16}

/-- The run before the value reaches it. -/
theorem add_extend (ordered : RunsOrdered (pre ++ prev :: post)) (touching : prev.stop = pos.toNat)
    (apart : ∀ c ∈ post, pos.toNat + 1 < c.value.toNat) :
    RunsFor (pre ++ { prev with length := prev.length + 1 } :: post)
      fun n => Covers (intervals (pre ++ prev :: post)) n ∨ n = pos.toNat := by
  have small := pos.toNat_lt
  have longer : Rle16.stop { prev with length := prev.length + 1 } = pos.toNat + 1 := by
    rw [Rle16.stop] at touching ⊢
    simp only [UInt16.toNat_add, UInt16.reduceToNat]
    omega
  refine .change ordered (by omega) ordered.around.1 (fun c member => longer ▸ (apart c member).le) ?_
  intro n
  have here : (Rle16.interval { prev with length := prev.length + 1 }).Has n ↔
      prev.interval.Has n ∨ n = pos.toNat := by
    rw [has_interval_iff, has_interval_iff, longer, touching]
    have := prev.value_lt_stop
    simp only
    omega
  rw [here, covers_runs_split]
  tauto

/-- The value closes the gap between two runs. -/
theorem add_fuse (ordered : RunsOrdered (pre ++ prev :: next :: post)) (touching : prev.stop = pos.toNat)
    (follows : next.value.toNat = pos.toNat + 1) :
    RunsFor (pre ++ { prev with length := next.value + next.length - prev.value } :: post)
      fun n => Covers (intervals (pre ++ prev :: next :: post)) n ∨ n = pos.toNat := by
  have within := ordered.within next (by simp)
  have start := prev.value_lt_stop
  have fused : Rle16.stop { prev with length := next.value + next.length - prev.value } = next.stop := by
    rw [Rle16.stop] at touching within ⊢
    rw [Rle16.stop]
    simp only [UInt16.toNat_sub, UInt16.toNat_add]
    omega
  have split : pre ++ prev :: next :: post = (pre ++ [prev]) ++ next :: post := by simp
  have later := (split ▸ ordered).around.2
  have rest : RunsOrdered (pre ++ prev :: post) := by
    rw [split] at ordered
    simpa using ordered.erase
  refine .change rest (by omega) ordered.around.1 (fun c member => fused ▸ later c member) ?_
  intro n
  have here : (Rle16.interval { prev with length := next.value + next.length - prev.value }).Has n ↔
      prev.interval.Has n ∨ next.interval.Has n ∨ n = pos.toNat := by
    rw [has_interval_iff, has_interval_iff, has_interval_iff, fused, touching]
    have := next.value_lt_stop
    simp only
    omega
  rw [here, covers_runs_split, covers_runs_split]
  tauto

/-- The value reaches the run after it. -/
theorem add_before (ordered : RunsOrdered (pre ++ next :: post)) (apart : ∀ c ∈ pre, c.stop ≤ pos.toNat)
    (follows : next.value.toNat = pos.toNat + 1) :
    RunsFor (pre ++ { value := pos, length := next.length + 1 } :: post)
      fun n => Covers (intervals (pre ++ next :: post)) n ∨ n = pos.toNat := by
  have within := ordered.within next (by simp)
  have longer : Rle16.stop { value := pos, length := next.length + 1 } = next.stop := by
    rw [Rle16.stop] at within ⊢
    rw [Rle16.stop]
    simp only [UInt16.toNat_add, UInt16.reduceToNat]
    omega
  refine .change ordered (by omega) apart (fun c member => longer ▸ ordered.around.2 c member) ?_
  intro n
  have here : (Rle16.interval { value := pos, length := next.length + 1 }).Has n ↔
      next.interval.Has n ∨ n = pos.toNat := by
    rw [has_interval_iff, has_interval_iff, longer]
    have := next.value_lt_stop
    simp only
    omega
  rw [here, covers_runs_split]
  tauto

/-- The value makes a run of its own, and a number next to it is to spare. -/
theorem add_new (ordered : RunsOrdered (pre ++ post)) (before : ∀ c ∈ pre, c.stop < pos.toNat)
    (after : ∀ c ∈ post, pos.toNat + 1 < c.value.toNat) :
    RunsFor (pre ++ { value := pos, length := 0 } :: post)
        (fun n => Covers (intervals (pre ++ post)) n ∨ n = pos.toNat) ∧
      (pre ++ ({ value := pos, length := 0 } : Rle16) :: post).length < 65536 := by
  have small := pos.toNat_lt
  have single : Rle16.stop { value := pos, length := 0 } = pos.toNat + 1 := rfl
  have here : ∀ n, (Rle16.interval { value := pos, length := 0 }).Has n ↔ n = pos.toNat := by
    intro n
    rw [has_interval_iff, single]
    simp only
    omega
  have runsFor : RunsFor (pre ++ { value := pos, length := 0 } :: post)
      fun n => Covers (intervals (pre ++ post)) n ∨ n = pos.toNat := by
    refine ⟨ordered.put (by omega) (fun c member => (before c member).le) fun c member => single ▸ (after c member).le,
      fun n => ?_⟩
    rw [covers_runs_split, here, or_comm]
  refine ⟨runsFor, ?_⟩
  have free : ∀ n, n ≠ pos.toNat → (∀ c ∈ pre, c.stop ≤ n) → (∀ c ∈ post, n < c.value.toNat) →
      ¬ Covers (intervals (pre ++ { value := pos, length := 0 } :: post)) n := by
    intro n apart below above
    rw [runsFor.covers, intervals_append, covers_append, not_or, not_or]
    exact ⟨⟨not_covers_of_ge (forall_mem_intervals.2 below), not_covers_of_lt (forall_mem_intervals.2 above)⟩, apart⟩
  by_cases last : pos.toNat = 65535
  · refine runsFor.ordered.few (show 65534 < 65536 by omega) (free _ (by omega) ?_ ?_)
    · intro c member
      have := before c member
      omega
    · intro c member
      have := after c member
      omega
  · refine runsFor.ordered.few (show pos.toNat + 1 < 65536 by omega) (free _ (by omega) ?_ after)
    intro c member
    have := before c member
    omega

end Add

/-- A run container that stands for the values and one more. -/
theorem mem_values_add {run' : RunContainer} (ordered : RunsOrdered run.runs)
    (runsFor : RunsFor run'.runs fun n => Covers (intervals run.runs) n ∨ n = pos.toNat) (x : UInt16) :
    x ∈ run'.values ↔ x ∈ run.values ∨ x = pos := by
  rw [runsFor.mem_values, mem_runValues ordered, UInt16.toNat_inj]

/-- The new run is put where the value was looked for. -/
theorem add_room {pre post : List Rle16} (valid : run.Valid) (split : run.runs = pre ++ post)
    (before : ∀ c ∈ pre, c.stop < pos.toNat) (after : ∀ c ∈ post, pos.toNat + 1 < c.value.toNat) :
    ∃ run', makeRoomAtIndex run pre post { value := pos, length := 0 } = .ok run' ∧ run'.Valid ∧
      ∀ x, x ∈ run'.values ↔ x ∈ run.values ∨ x = pos := by
  obtain ⟨runsFor, few⟩ := add_new (split ▸ valid.ordered) before after
  obtain ⟨run', made, runs, room⟩ := makeRoomAtIndex_spec { value := pos, length := 0 }
    (show run.runs.length = pre.length + post.length by rw [split, List.length_append])
  rw [← runs, ← split] at runsFor
  exact ⟨run', made, ⟨runsFor.ordered, room, runs ▸ few⟩, mem_values_add valid.ordered runsFor⟩

/-- Runs that take no more room than the old ones. -/
theorem RunContainer.Valid.with_runs {runs : List Rle16} (valid : run.Valid) (ordered : RunsOrdered runs)
    (length : runs.length ≤ run.runs.length) : RunContainer.Valid { run with runs } :=
  ⟨ordered, length.trans valid.fits, length.trans_lt valid.few⟩

/-- The runs change in place by one more value. -/
theorem add_in_place {runs : List Rle16} (valid : run.Valid) (length : runs.length ≤ run.runs.length)
    (runsFor : RunsFor runs fun n => Covers (intervals run.runs) n ∨ n = pos.toNat) :
    RunContainer.Valid { run with runs } ∧
      ∀ x, x ∈ RunContainer.values { run with runs } ↔ x ∈ run.values ∨ x = pos :=
  ⟨valid.with_runs runsFor.ordered length, mem_values_add valid.ordered runsFor⟩

/-- Runs after a value that do not start right after it. -/
theorem apart_of_ne {pre rest : List Rle16} {next : Rle16} (ordered : RunsOrdered (pre ++ next :: rest))
    (above : pos < next.value) (apart : ¬ next.value.toNat = pos.toNat + 1) :
    ∀ c ∈ next :: rest, pos.toNat + 1 < c.value.toNat := by
  have later := UInt16.lt_iff_toNat_lt.1 above
  have first : pos.toNat + 1 < next.value.toNat := by omega
  refine List.forall_mem_cons.2 ⟨first, ?_⟩
  intro c member
  exact first.trans (Nat.lt_of_lt_of_le next.value_lt_stop (ordered.around.2 c member))

/-- Adding a value keeps a run container valid and adds exactly that value. -/
theorem runContainerAdd_spec (valid : run.Valid) (pos : UInt16) :
    ∃ run' fresh, runContainerAdd run pos = .ok (run', fresh) ∧ run'.Valid ∧
      ∀ x, x ∈ run'.values ↔ x ∈ run.values ∨ x = pos := by
  have ordered := valid.ordered
  have contains : runContainerContains run pos = true ↔ _ := runContainerContains_iff ordered
  have search := interleavedBinarySearch_spec ordered pos
  have kept : pos ∈ run.values → ∀ x, x ∈ run.values ↔ x ∈ run.values ∨ x = pos := by
    intro member x
    exact ⟨.inl, fun given => given.elim id fun same => same ▸ member⟩
  unfold runContainerAdd
  unfold runContainerContains at contains
  generalize interleavedBinarySearch run.runs pos = index at search contains
  cases search with
  | hit pre rle post split isValue =>
    simp only [Int.natCast_nonneg, if_true, pure_eq, true_iff] at contains ⊢
    exact ⟨run, false, rfl, valid, kept contains⟩
  | miss pre post split below above =>
    have outside : ¬ (0 : Int) ≤ -(pre.length + 1 : Int) := by omega
    simp only [outside, if_false, miss_index, split, List.take_left', List.drop_left', pure_eq] at contains ⊢
    rcases List.eq_nil_or_concat pre with rfl | ⟨front, prev, rfl⟩
    · -- no run before the value
      rw [List.nil_append] at split
      simp only [List.getLast?_nil]
      cases post with
      | nil =>
        obtain ⟨run', made, done⟩ := add_room valid (show run.runs = [] ++ [] from split) (by simp) (by simp)
        exact ⟨run', true, by simp only [made, ok_bind], done⟩
      | cons next rest =>
        by_cases follows : next.value.toNat = pos.toNat + 1
        · have isPos : next.value - 1 = pos := by
            apply UInt16.toNat_inj.1
            simp only [UInt16.toNat_sub, UInt16.reduceToNat]
            have := next.value.toNat_lt
            omega
          simp only [follows, if_true, isPos]
          have changed := add_before (show RunsOrdered ([] ++ next :: rest) from split ▸ ordered) (by simp) follows
          exact ⟨_, true, rfl, add_in_place valid (by rw [split]; simp) (split ▸ changed)⟩
        · have ahead : RunsOrdered ([] ++ next :: rest) := split ▸ ordered
          obtain ⟨run', made, done⟩ := add_room valid (show run.runs = [] ++ next :: rest from split) (by simp)
            (apart_of_ne ahead (above next (by simp)) follows)
          exact ⟨run', true, by simp only [follows, if_false, made, ok_bind], done⟩
    · simp only [List.concat_eq_append, List.getLast?_append, List.getLast?_singleton, Option.some_or,
        List.dropLast_concat] at contains split ⊢
      have from_ := UInt16.lt_iff_toNat_lt.1 (below prev (by simp))
      by_cases inside : (pos.toNat : Int) - prev.value.toNat ≤ prev.length.toNat
      · simp only [inside, if_true, decide_true, true_iff] at contains ⊢
        exact ⟨run, false, rfl, valid, kept contains⟩
      have joined : front ++ [prev] ++ post = front ++ prev :: post := by simp
      have around : RunsOrdered (front ++ prev :: post) := by rwa [← joined, ← split]
      by_cases touches : (pos.toNat : Int) - prev.value.toNat = prev.length.toNat + 1
      · -- the value extends the run before it
        have touching : prev.stop = pos.toNat := by
          rw [Rle16.stop]
          omega
        simp only [inside, if_false]
        simp only [touches, if_true]
        cases post with
        | nil =>
          have changed := add_extend around touching (by simp)
          exact ⟨_, true, rfl, add_in_place valid (by rw [split]; simp) (by rw [split, List.append_nil]; exact changed)⟩
        | cons next rest =>
          have ahead : RunsOrdered (front ++ [prev] ++ next :: rest) := joined ▸ around
          by_cases follows : next.value.toNat = pos.toNat + 1
          · simp only [follows, if_true]
            have changed := add_fuse around touching follows
            exact ⟨_, true, rfl, add_in_place valid (by rw [split]; simp) (split ▸ joined ▸ changed)⟩
          · simp only [follows, if_false]
            have changed := add_extend around touching (apart_of_ne ahead (above next (by simp)) follows)
            exact ⟨_, true, rfl, add_in_place valid (by rw [split]; simp) (split ▸ joined ▸ changed)⟩
      · -- the value is past the run before it
        have past : prev.stop < pos.toNat := by
          rw [Rle16.stop]
          omega
        have before : ∀ c ∈ front ++ [prev], c.stop < pos.toNat := by
          refine List.forall_mem_append.2 ⟨?_, List.forall_mem_singleton.2 past⟩
          intro c member
          exact (around.around.1 c member).trans_lt from_
        simp only [inside, touches, if_false]
        cases post with
        | nil =>
          obtain ⟨run', made, done⟩ := add_room valid split before (by simp)
          exact ⟨run', true, by simp only [made, ok_bind], done⟩
        | cons next rest =>
          have ahead : RunsOrdered (front ++ [prev] ++ next :: rest) := joined ▸ around
          by_cases follows : next.value.toNat = pos.toNat + 1
          · simp only [follows, if_true]
            have changed := add_before ahead (fun c member => (before c member).le) follows
            exact ⟨_, true, rfl, add_in_place valid (by rw [split]; simp) (split ▸ changed)⟩
          · obtain ⟨run', made, done⟩ := add_room valid split before (apart_of_ne ahead (above next (by simp)) follows)
            exact ⟨run', true, by simp only [follows, if_false, made, ok_bind], done⟩

section Remove

variable {pre post : List Rle16} {rle : Rle16} {n : Nat}

/-- Without a number of one run the others are what they were. -/
theorem covers_without (ordered : RunsOrdered (pre ++ rle :: post)) (has : rle.interval.Has pos.toNat) :
    Covers (intervals (pre ++ rle :: post)) n ∧ n ≠ pos.toNat ↔
      rle.interval.Has n ∧ n ≠ pos.toNat ∨ Covers (intervals (pre ++ post)) n := by
  have parts := ordered.intervals
  rw [intervals_append, intervals_cons] at parts
  have others : ¬ Covers (intervals (pre ++ post)) pos.toNat := by
    rw [intervals_append]
    exact parts.not_covers_others has
  have apart : Covers (intervals (pre ++ post)) n → n ≠ pos.toNat := by
    rintro covered rfl
    exact others covered
  rw [covers_runs_split]
  tauto

/-- The run of the value alone goes. -/
theorem remove_whole (ordered : RunsOrdered (pre ++ rle :: post)) (only : rle.stop = pos.toNat + 1)
    (start : rle.value.toNat = pos.toNat) :
    RunsFor (pre ++ post) fun n => Covers (intervals (pre ++ rle :: post)) n ∧ n ≠ pos.toNat := by
  refine ⟨ordered.erase, fun n => ?_⟩
  rw [covers_without ordered (by rw [has_interval_iff]; omega), has_interval_iff]
  have none : ¬ ((rle.value.toNat ≤ n ∧ n < rle.stop) ∧ n ≠ pos.toNat) := by omega
  simp only [none, false_or]

/-- A run loses its first or its last number. -/
theorem remove_end {rle' : Rle16} (ordered : RunsOrdered (pre ++ rle :: post)) (has : rle.interval.Has pos.toNat)
    (rest : ∀ n, rle'.interval.Has n ↔ rle.interval.Has n ∧ n ≠ pos.toNat) :
    RunsFor (pre ++ rle' :: post) fun n => Covers (intervals (pre ++ rle :: post)) n ∧ n ≠ pos.toNat := by
  have first := ((rest rle'.value.toNat).1 ⟨Nat.le_refl _, rle'.value_lt_stop⟩).1
  have positive := rle'.value_lt_stop
  have last := ((rest (rle'.stop - 1)).1 ⟨by rw [Rle16.start_interval]; omega, by rw [Rle16.stop_interval]; omega⟩).1
  obtain ⟨before, after⟩ := ordered.around
  have within := ordered.within rle (by simp)
  rw [has_interval_iff] at first last
  refine .change ordered (by omega) (fun c member => (before c member).trans first.1) (fun c member => ?_) fun n => ?_
  · have := after c member
    omega
  · rw [rest, covers_without ordered has]

/-- A run is broken in two, and the number between is to spare. -/
theorem remove_middle {left right : Rle16} (ordered : RunsOrdered (pre ++ rle :: post))
    (from_ : left.value = rle.value) (first : left.stop = pos.toNat) (next : right.value.toNat = pos.toNat + 1)
    (last : right.stop = rle.stop) :
    RunsFor (pre ++ left :: right :: post) (fun n => Covers (intervals (pre ++ rle :: post)) n ∧ n ≠ pos.toNat) ∧
      (pre ++ left :: right :: post).length < 65536 := by
  obtain ⟨before, after⟩ := ordered.around
  have within := ordered.within rle (by simp)
  have start := left.value_lt_stop
  have end_ := right.value_lt_stop
  have has : rle.interval.Has pos.toNat := by
    rw [has_interval_iff, ← from_]
    omega
  have rightIn : RunsOrdered (pre ++ right :: post) := by
    refine ordered.erase.put (by omega) (fun c member => ?_) fun c member => last ▸ after c member
    have := before c member
    rw [← from_] at this
    omega
  have runsFor : RunsFor (pre ++ left :: right :: post)
      fun n => Covers (intervals (pre ++ rle :: post)) n ∧ n ≠ pos.toNat := by
    refine ⟨rightIn.put (by omega) (fun c member => from_ ▸ before c member) ?_, fun n => ?_⟩
    · refine List.forall_mem_cons.2 ⟨by omega, ?_⟩
      intro c member
      have := after c member
      omega
    · have halves : left.interval.Has n ∨ right.interval.Has n ↔ rle.interval.Has n ∧ n ≠ pos.toNat := by
        rw [has_interval_iff, has_interval_iff, has_interval_iff, ← from_]
        omega
      rw [covers_runs_split, covers_runs_split, covers_without ordered has, ← halves, or_assoc]
  refine ⟨runsFor, runsFor.ordered.few pos.toNat_lt ?_⟩
  rw [runsFor.covers]
  exact fun given => given.2 rfl

end Remove

/-- A run container that stands for the values without one. -/
theorem mem_values_remove {run' : RunContainer} (ordered : RunsOrdered run.runs)
    (runsFor : RunsFor run'.runs fun n => Covers (intervals run.runs) n ∧ n ≠ pos.toNat) (x : UInt16) :
    x ∈ run'.values ↔ x ∈ run.values ∧ x ≠ pos := by
  rw [runsFor.mem_values, mem_runValues ordered, ne_eq, ne_eq, UInt16.toNat_inj]

/-- The runs change in place by one value less. -/
theorem remove_in_place {runs : List Rle16} (valid : run.Valid) (length : runs.length ≤ run.runs.length)
    (runsFor : RunsFor runs fun n => Covers (intervals run.runs) n ∧ n ≠ pos.toNat) :
    RunContainer.Valid { run with runs } ∧
      ∀ x, x ∈ RunContainer.values { run with runs } ↔ x ∈ run.values ∧ x ≠ pos :=
  ⟨valid.with_runs runsFor.ordered length, mem_values_remove valid.ordered runsFor⟩

/-- Removing a value keeps a run container valid and removes exactly that value. -/
theorem runContainerRemove_spec (valid : run.Valid) (pos : UInt16) :
    ∃ run' present, runContainerRemove run pos = .ok (run', present) ∧ run'.Valid ∧
      ∀ x, x ∈ run'.values ↔ x ∈ run.values ∧ x ≠ pos := by
  have ordered := valid.ordered
  have contains : runContainerContains run pos = true ↔ _ := runContainerContains_iff ordered
  have search := interleavedBinarySearch_spec ordered pos
  have small := pos.toNat_lt
  unfold runContainerRemove
  unfold runContainerContains at contains
  generalize interleavedBinarySearch run.runs pos = index at search contains
  cases search with
  | hit pre rle post split isValue =>
    have start : rle.value.toNat = pos.toNat := congrArg UInt16.toNat isValue
    have within := ordered.within rle (by rw [split]; simp)
    simp only [Int.natCast_nonneg, if_true, Int.toNat_natCast, split, List.take_left', List.drop_left', pure_eq]
    by_cases single : rle.length = 0
    · have only : rle.stop = pos.toNat + 1 := by rw [Rle16.stop, single, start]; rfl
      have changed := remove_whole (split ▸ ordered) only start
      simp only [single, if_true]
      exact ⟨_, true, rfl, remove_in_place valid (by rw [split]; simp) (split ▸ changed)⟩
    · have positive : 0 < rle.length.toNat := Nat.pos_of_ne_zero fun none => single (UInt16.toNat_inj.1 none)
      simp only [single, if_false]
      refine ⟨_, true, rfl, remove_in_place valid (by rw [split]; simp) (split ▸ remove_end (split ▸ ordered) ?_ ?_)⟩
      · rw [has_interval_iff, Rle16.stop]
        omega
      · intro n
        rw [Rle16.stop] at within
        simp only [has_interval_iff, Rle16.stop, UInt16.toNat_add, UInt16.toNat_sub, UInt16.reduceToNat]
        omega
  | miss pre post split below above =>
    have outside : ¬ (0 : Int) ≤ -(pre.length + 1 : Int) := by omega
    have absent : pos ∉ run.values → ∀ x, x ∈ run.values ↔ x ∈ run.values ∧ x ≠ pos := fun free x =>
      ⟨fun member => ⟨member, ne_of_mem_of_not_mem member free⟩, And.left⟩
    simp only [outside, if_false, miss_index, split, List.take_left', List.drop_left', pure_eq] at contains ⊢
    rcases List.eq_nil_or_concat pre with rfl | ⟨front, prev, rfl⟩
    · simp only [List.getLast?_nil, Bool.false_eq_true, false_iff] at contains ⊢
      exact ⟨run, false, rfl, valid, absent contains⟩
    · simp only [List.concat_eq_append, List.getLast?_append, List.getLast?_singleton, Option.some_or,
        List.dropLast_concat] at contains split ⊢
      have from_ := UInt16.lt_iff_toNat_lt.1 (below prev (by simp))
      have joined : front ++ [prev] ++ post = front ++ prev :: post := by simp
      have around : RunsOrdered (front ++ prev :: post) := by rwa [← joined, ← split]
      have within := around.within prev (by simp)
      have length := prev.length.toNat_lt
      by_cases inner : (pos.toNat : Int) - prev.value.toNat < prev.length.toNat
      · -- the run is broken in two
        have cast : ∀ (k : Int) (n : Nat), k = n → n < 65536 → (UInt16.ofInt k).toNat = n := by
          intro k n same bound
          show (k % 2 ^ 16).toNat % 2 ^ 16 = n
          omega
        rw [Rle16.stop] at within
        have below := cast ((pos.toNat : Int) - prev.value.toNat - 1) (pos.toNat - prev.value.toNat - 1)
          (by omega) (by omega)
        have above := cast ((prev.length.toNat : Int) - (pos.toNat - prev.value.toNat) - 1)
          (prev.length.toNat - (pos.toNat - prev.value.toNat) - 1) (by omega) (by omega)
        simp only [inner, if_true]
        generalize UInt16.ofInt ((pos.toNat : Int) - prev.value.toNat - 1) = lower at below
        generalize UInt16.ofInt ((prev.length.toNat : Int) - (pos.toNat - prev.value.toNat) - 1) = upper at above
        have first : Rle16.stop { prev with length := lower } = pos.toNat := by
          simp only [Rle16.stop, below]
          omega
        have next : (pos + 1).toNat = pos.toNat + 1 := by
          simp only [UInt16.toNat_add, UInt16.reduceToNat]
          omega
        have end_ : Rle16.stop { value := pos + 1, length := upper } = prev.stop := by
          simp only [Rle16.stop, next, above]
          omega
        have from_' : ({ prev with length := lower } : Rle16).value = prev.value := rfl
        obtain ⟨runsFor, few⟩ := remove_middle around from_' first next end_
        obtain ⟨run', made, runs, room⟩ := makeRoomAtIndex_spec { value := pos + 1, length := upper }
          (show run.runs.length = (front ++ [{ prev with length := lower }]).length + post.length by
            rw [split]
            simp only [List.length_append, List.length_singleton])
        have isRuns : run'.runs = _ := runs.trans (List.append_assoc ..)
        rw [List.singleton_append] at isRuns
        rw [← isRuns, ← joined, ← split] at runsFor
        simp only [made, ok_bind]
        exact ⟨run', true, rfl, ⟨runsFor.ordered, room, isRuns ▸ few⟩, mem_values_remove ordered runsFor⟩
      by_cases last : (pos.toNat : Int) - prev.value.toNat = prev.length.toNat
      · simp only [inner, if_false]
        simp only [last, if_true]
        refine ⟨_, true, rfl, remove_in_place valid (by rw [split]; simp)
          (split ▸ joined ▸ remove_end around ?_ ?_)⟩
        · rw [has_interval_iff, Rle16.stop]
          omega
        · intro n
          rw [Rle16.stop] at within
          simp only [has_interval_iff, Rle16.stop, UInt16.toNat_sub, UInt16.reduceToNat]
          omega
      · have beyond : ¬ (pos.toNat : Int) - prev.value.toNat ≤ prev.length.toNat := by omega
        simp only [inner, last, beyond, if_false, decide_false, Bool.false_eq_true, false_iff] at contains ⊢
        exact ⟨run, false, rfl, valid, absent contains⟩

end Single

end RedisRoaring
