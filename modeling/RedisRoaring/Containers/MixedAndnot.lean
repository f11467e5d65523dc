import RedisRoaring.Containers.Convert

/-!
# Differences of containers of different types

The pairs that `container_iandnot` dispatches on. A difference computed in a
bitset ends as an array when at most 4096 values are left. The full run is
subtracted from by way of a bitset: the complement of a bitset operand, or the
bitset of all values with an array operand cleared.
-/

namespace RedisRoaring

open Exec SortedList Intervals

/-- `array_bitset_container_andnot`, with `dst` the first operand. -/
def arrayBitsetContainerIandnot (src1 : ArrayContainer) (src2 : BitsetContainer) : Outcome ArrayContainer :=
  let src1' :=
    if src1.capacity < arrayContainerCardinality src1 then
      arrayContainerGrow src1 (arrayContainerCardinality src1) int32Max false
    else src1
  src1'.store (src1.array.filter fun key => !bitsetContainerGet src2 key)

/-- `array_array_container_iandnot`. -/
def arrayArrayContainerIandnot (src1 src2 : ArrayContainer) : Outcome ArrayContainer :=
  arrayContainerAndnot src1 src2 src1

/-- `bitset_array_container_iandnot`. -/
def bitsetArrayContainerIandnot (src1 : BitsetContainer) (src2 : ArrayContainer) : Outcome Container :=
  let (array, cardinality) := bitsetClearList src1.array src1.cardinality src2.array
  shrinkBitset { cardinality, array }

/-- `bitset_bitset_container_iandnot`. -/
def bitsetBitsetContainerIandnot (src1 src2 : BitsetContainer) : Outcome Container :=
  shrinkBitset (bitsetContainerAndnot src1 src2)

/-- `run_bitset_container_andnot`. -/
def runBitsetContainerAndnot (src1 : RunContainer) (src2 : BitsetContainer) : Outcome Container := do
  let card := runContainerCardinality src1
  if card ≤ defaultMaxSize then
    let kept := src1.values.filter fun runValue => !bitsetContainerGet src2 runValue
    return .array (← (arrayContainerCreateGivenCapacity card).store kept)
  let (array, lastPos) ← src1.runs.foldlM (fun (array, lastPos) rle => do
    let start := rle.value.toNat
    let array ← bitsetResetRange array lastPos start
    return (← bitsetFlipRange array start rle.stop, rle.stop)) (src2.array, 0)
  let array ← bitsetResetRange array lastPos 65536
  shrinkBitset { cardinality := bitsetContainerComputeCardinality array, array }

/-- `bitset_run_container_iandnot`. -/
def bitsetRunContainerIandnot (src1 : BitsetContainer) (src2 : RunContainer) : Outcome Container := do
  let array ← src2.runs.foldlM (fun array rle => bitsetResetRange array rle.value.toNat rle.stop) src1.array
  shrinkBitset { cardinality := bitsetContainerComputeCardinality array, array }

/-- One pass of `run_array_array_subtract`: the members of `[start, end)`
without those of `aIn` from `pos` on, the position reached, and the next value
to leave out (0, which no longer matches, when there is none). -/
def subtractRun (aIn : List UInt16) (start end_ pos : Nat) (nextNonincluded : UInt16) : List UInt16 × Nat × UInt16 :=
  (List.range' start (end_ - start)).foldl (fun (out, pos, next) i =>
    if i ≠ next.toNat then (out ++ [UInt16.ofNat i], pos, next)
    else
      match aIn[pos + 1]? with
      | none => (out, pos, 0)
      | some later => (out, pos + 1, later)) ([], pos, nextNonincluded)

/-- `run_array_array_subtract`; `next` is `in_array_pos + 1`, the index at
which `advanceUntil` starts. -/
def runArrayArraySubtract (r : RunContainer) (aIn : List UInt16) : List UInt16 :=
  (r.runs.foldl (fun (out, next) rle =>
    let start := rle.value.toNat
    let whole := rle.numbers.map UInt16.ofNat
    let inArrayPos := gallop aIn next rle.value
    match aIn[inArrayPos]? with
    | none => (out ++ whole, inArrayPos + 1)
    | some nextNonincluded =>
      if rle.stop ≤ nextNonincluded.toNat then (out ++ whole, inArrayPos)
      else
        let (kept, inArrayPos, _) := subtractRun aIn start rle.stop inArrayPos nextNonincluded
        (out ++ kept, inArrayPos)) (([] : List UInt16), 0)).1

/-- `run_array_container_andnot`. -/
def runArrayContainerAndnot (src1 : RunContainer) (src2 : ArrayContainer) : Outcome Container := do
  let card := runContainerCardinality src1
  let arbitraryThreshold := 32
  if card ≤ arbitraryThreshold then
    if arrayContainerCardinality src2 = 0 then return .run (← runContainerClone src1)
    let answer := runContainerCreateGivenCapacity (card + arrayContainerCardinality src2)
    match src1.runs with
    | [] => throw .uninitialized
    | rle :: rest =>
      -- a value of the array acts as a run of its own
      let singles := src2.array.map fun value => { value, length := 0 }
      convertRunToEfficientContainer (← answer.store (andnotRunsLoop rle.value.toNat rle.stop rest singles))
  else if card ≤ defaultMaxSize then
    return .array (← (arrayContainerCreateGivenCapacity card).store (runArrayArraySubtract src1 src2.array))
  else bitsetArrayContainerIandnot (← bitsetContainerFromRun src1) src2

/-- The loop of `array_run_container_andnot`: `runStart .. runEnd` is the
current run of the second operand, and `65537` stands for no run left. -/
def arrayRunAndnotLoop (runStart runEnd : Nat) (rest : List Rle16) : List UInt16 → List UInt16
  | [] => []
  | val :: array =>
    if val.toNat < runStart then val :: arrayRunAndnotLoop runStart runEnd rest array
    else if val.toNat ≤ runEnd then arrayRunAndnotLoop runStart runEnd rest array
    else
      match rest with
      | rle :: rest => arrayRunAndnotLoop rle.value.toNat (rle.value.toNat + rle.length.toNat) rest (val :: array)
      | [] => arrayRunAndnotLoop 65537 65537 [] (val :: array)
termination_by array => array.length + rest.length + if runEnd < 65536 then 1 else 0
decreasing_by
  all_goals
    have := val.toNat_lt
    simp only [List.length_cons]
    repeat' split
  all_goals simp_all <;> omega

/-- `array_run_container_andnot`, with `dst` the first operand. -/
def arrayRunContainerIandnot (src1 : ArrayContainer) (src2 : RunContainer) : Outcome ArrayContainer :=
  let dst :=
    if src1.capacity < arrayContainerCardinality src1 then
      arrayContainerGrow src1 (arrayContainerCardinality src1) int32Max false
    else src1
  match src2.runs with
  | [] => dst.store src1.array
  | rle :: rest =>
    dst.store (arrayRunAndnotLoop rle.value.toNat (rle.value.toNat + rle.length.toNat) rest src1.array)

/-- `run_run_container_iandnot`. -/
def runRunContainerIandnot (src1 src2 : RunContainer) : Outcome Container := do
  convertRunToEfficientContainer (← runContainerAndnot src1 src2 runContainerCreate)

/-! ## Specifications -/

theorem arrayBitsetContainerIandnot_spec {src1 : ArrayContainer} (valid : src1.Valid) (src2 : BitsetContainer) :
    ∃ arr, arrayBitsetContainerIandnot src1 src2 = .ok arr ∧ arr.Valid ∧
      (∀ x, x ∈ arr.array ↔ x ∈ src1.array ∧ x ∉ src2.values) ∧ arr.array.length ≤ src1.array.length := by
  have kept : (src1.array.filter fun key => !bitsetContainerGet src2 key).Sublist src1.array := List.filter_sublist
  have noGrow : ¬ src1.capacity < src1.array.length := Nat.not_lt.2 valid.fits
  refine ⟨{ src1 with array := src1.array.filter fun key => !bitsetContainerGet src2 key }, ?_,
    ⟨valid.sorted.sublist kept, kept.length_le.trans valid.fits⟩, ?_, kept.length_le⟩
  · simp only [arrayBitsetContainerIandnot, arrayContainerCardinality, noGrow, if_false]
    exact store_eq_ok (kept.length_le.trans valid.fits)
  · intro x
    simp only [List.mem_filter, Bool.not_eq_true', ← Bool.not_eq_true, bitsetContainerGet_iff]

theorem bitsetArrayContainerIandnot_spec {src1 : BitsetContainer} (exact : src1.Exact) (src2 : ArrayContainer) :
    ∃ c, bitsetArrayContainerIandnot src1 src2 = .ok c ∧ c.Plain ∧
      (∀ x, x ∈ c.values ↔ x ∈ src1.values ∧ x ∉ src2.array) := by
  obtain ⟨words, card, run, exact', members⟩ := bitsetClearList_spec src2.array src1.array exact
  obtain ⟨c, shrunk, plain, values⟩ := shrinkBitset_spec
    (show BitsetContainer.Exact { cardinality := card, array := words } from exact')
  refine ⟨c, ?_, plain, fun x => by rw [values]; exact members x⟩
  rw [bitsetArrayContainerIandnot, run]
  exact shrunk

theorem bitsetBitsetContainerIandnot_spec (src1 src2 : BitsetContainer) :
    ∃ c, bitsetBitsetContainerIandnot src1 src2 = .ok c ∧ c.Plain ∧
      (∀ x, x ∈ c.values ↔ x ∈ src1.values ∧ x ∉ src2.values) := by
  obtain ⟨exact, members⟩ := bitsetContainerAndnot_spec src1 src2
  obtain ⟨c, shrunk, plain, values⟩ := shrinkBitset_spec exact
  exact ⟨c, shrunk, plain, fun x => by rw [values, members]⟩

/-- Subtracting a bitset from the full run complements it: the two resets are
empty and the flip covers every bit. -/
theorem runBitsetContainerAndnot_full {src1 : RunContainer} (full : src1.Full) (src2 : BitsetContainer) :
    ∃ c, runBitsetContainerAndnot src1 src2 = .ok c ∧ c.Plain ∧ ∀ x, x ∈ c.values ↔ x ∉ src2.values := by
  obtain ⟨array, flip, set⟩ :=
    bitsetFlipRange_spec src2.array (show 0 < 65536 by omega) (Nat.le_refl 65536)
  have members : ∀ x, x ∈ wordValues array ↔ x ∉ src2.values := by
    intro x
    have := x.toNat_lt
    rw [BitsetContainer.values, mem_wordValues, mem_wordValues, set _ (by omega), decide_eq_true (by omega),
      Bool.xor_true, Bool.not_eq_true', Bool.not_eq_true]
  obtain ⟨c, shrunk, plain, values⟩ :=
    shrinkBitset_spec (show BitsetContainer.Exact { cardinality := bitsetContainerComputeCardinality array, array }
      from bitsetContainerComputeCardinality_eq array)
  refine ⟨c, ?_, plain, fun x => by rw [values]; exact members x⟩
  have large : ¬ 65536 ≤ defaultMaxSize := by decide
  have runs : src1.runs = [{ value := 0, length := 0xFFFF }] := full
  have step : bitsetFlipRange src2.array (0 : UInt16).toNat ({ value := 0, length := 0xFFFF } : Rle16).stop =
      .ok array := flip
  have before : bitsetResetRange src2.array 0 (0 : UInt16).toNat = .ok src2.array := rfl
  have after : bitsetResetRange array ({ value := 0, length := 0xFFFF } : Rle16).stop 65536 = .ok array := rfl
  simp only [runBitsetContainerAndnot, full_cardinality full, large, if_false, runs, List.foldlM_cons,
    List.foldlM_nil, before, ok_bind, step, pure_eq, after]
  exact shrunk

/-- Subtracting an array from the full run clears its values in the bitset of
all values. -/
theorem runArrayContainerAndnot_full {src1 : RunContainer} (full : src1.Full) (src2 : ArrayContainer) :
    ∃ c, runArrayContainerAndnot src1 src2 = .ok c ∧ c.Plain ∧ ∀ x, x ∈ c.values ↔ x ∉ src2.array := by
  obtain ⟨b, run, exact, all⟩ := bitsetContainerFromRun_full full
  obtain ⟨c, cleared, plain, members⟩ := bitsetArrayContainerIandnot_spec exact src2
  refine ⟨c, ?_, plain, fun x => by rw [members]; exact and_iff_right (all x)⟩
  have large : ¬ 65536 ≤ defaultMaxSize := by decide
  have large' : ¬ 65536 ≤ 32 := by decide
  simp only [runArrayContainerAndnot, full_cardinality full, large, large', if_false, run, ok_bind]
  exact cleared

/-! ## Differences with a run container -/

section Runs

variable {r : RunContainer}

theorem resetRange_run (words : Words) {rle : Rle16} (within : rle.stop ≤ 65536) :
    ∃ words', bitsetResetRange words rle.value.toNat rle.stop = .ok words' ∧
      ∀ x, x ∈ wordValues words' ↔ x ∈ wordValues words ∧ ¬ rle.interval.Has x.toNat := by
  obtain ⟨words', run, set⟩ := bitsetResetRange_spec words rle.value_lt_stop.le within
  refine ⟨words', run, fun x => ?_⟩
  rw [mem_wordValues, mem_wordValues, set _ x.toNat_lt, Bool.and_eq_true, Bool.not_eq_true', decide_eq_false_iff_not,
    has_interval_iff]

/-- A run container subtracted from a bitset. -/
theorem bitsetRunContainerIandnot_spec (src1 : BitsetContainer) (ordered : RunsOrdered r.runs) :
    ∃ c, bitsetRunContainerIandnot src1 r = .ok c ∧ c.Plain ∧ ∀ x, x ∈ c.values ↔ x ∈ src1.values ∧ x ∉ r.values := by
  obtain ⟨words, run, reset⟩ : ∃ words, r.runs.foldlM (fun array (rle : Rle16) =>
      bitsetResetRange array rle.value.toNat rle.stop) src1.array = .ok words ∧
        ∀ x, x ∈ wordValues words ↔ x ∈ src1.values ∧ ¬ Covers (intervals r.runs) x.toNat := by
    apply foldlM_loop (P := fun seen words =>
      ∀ x, x ∈ wordValues words ↔ x ∈ src1.values ∧ ¬ Covers (intervals seen) x.toNat)
    · intro seen rle left words split here
      obtain ⟨words', run, members⟩ := resetRange_run words (ordered.within rle (by rw [split]; simp))
      refine ⟨words', run, fun x => ?_⟩
      rw [members, here, intervals_append, covers_append, intervals_cons, covers_cons]
      simp [and_assoc]
    · simp [BitsetContainer.values]
  obtain ⟨c, shrunk, plain, values⟩ :=
    shrinkBitset_spec (show BitsetContainer.Exact { cardinality := bitsetContainerComputeCardinality words, array := words }
      from bitsetContainerComputeCardinality_eq words)
  refine ⟨c, ?_, plain, fun x => ?_⟩
  · simp only [bitsetRunContainerIandnot, run, ok_bind]
    exact shrunk
  · rw [values, mem_runValues ordered]
    exact reset x

/-- Where the walk of `run_bitset_container_andnot` stands after some runs: below
`lastPos` the difference, from there on the second operand. -/
structure Flipped (src2 : BitsetContainer) (seen : List Rle16) (state : Words × Nat) : Prop where
  last : state.2 = 0 ∨ ∃ rle ∈ seen, rle.stop = state.2
  passed : ∀ rle ∈ seen, rle.stop ≤ state.2
  below : ∀ x, x.toNat < state.2 → (x ∈ wordValues state.1 ↔ Covers (intervals seen) x.toNat ∧ x ∉ src2.values)
  above : ∀ x, state.2 ≤ x.toNat → (x ∈ wordValues state.1 ↔ x ∈ src2.values)

/-- One run: the gap before it is cleared and the run complemented. -/
theorem Flipped.round {src2 : BitsetContainer} {seen left : List Rle16} {rle : Rle16} {array : Words} {lastPos : Nat}
    (ordered : RunsOrdered (seen ++ rle :: left)) (here : Flipped src2 seen (array, lastPos)) :
    ∃ array' array'', bitsetResetRange array lastPos rle.value.toNat = .ok array' ∧
      bitsetFlipRange array' rle.value.toNat rle.stop = .ok array'' ∧ Flipped src2 (seen ++ [rle]) (array'', rle.stop) := by
  obtain ⟨last, passed, below, above⟩ := here
  simp only at last passed below above
  have before := ordered.around.1
  have within := ordered.within rle (by simp)
  have some := rle.value_lt_stop
  have from_ : lastPos ≤ rle.value.toNat := by
    rcases last with none | given
    · omega
    · obtain ⟨c, member, isLast⟩ := given
      exact isLast ▸ before c member
  obtain ⟨array', reset, cleared⟩ := bitsetResetRange_spec array from_ (by omega)
  obtain ⟨array'', flip, flipped⟩ := bitsetFlipRange_spec array' some within
  have members : ∀ x, x ∈ wordValues array'' ↔
      ((x ∈ wordValues array ∧ ¬ (lastPos ≤ x.toNat ∧ x.toNat < rle.value.toNat)) ↔ ¬ rle.interval.Has x.toNat) := by
    intro x
    have inside := x.toNat_lt
    rw [mem_wordValues, mem_wordValues, flipped _ inside, cleared _ inside, has_interval_iff]
    by_cases a : BitWords.test array x.toNat = true <;>
      by_cases b : lastPos ≤ x.toNat ∧ x.toNat < rle.value.toNat <;>
        by_cases c : rle.value.toNat ≤ x.toNat ∧ x.toNat < rle.stop <;> simp [a, b, c]
  refine ⟨array', array'', reset, flip, ⟨.inr ⟨rle, by simp, rfl⟩, ?_, ?_, ?_⟩⟩
  · refine List.forall_mem_append.2 ⟨fun c member => ?_, by simp⟩
    have := before c member
    show c.stop ≤ rle.stop
    omega
  · intro x small
    simp only at small ⊢
    rw [members, intervals_append, covers_append, intervals_cons, intervals_nil, covers_cons, has_interval_iff]
    by_cases early : x.toNat < lastPos
    · have out : ¬ (rle.value.toNat ≤ x.toNat ∧ x.toNat < rle.stop) := by omega
      have keep : ¬ (lastPos ≤ x.toNat ∧ x.toNat < rle.value.toNat) := by omega
      simp only [out, keep, not_false_eq_true, and_true, iff_true, below x early, covers_nil, or_false]
    · have none : ¬ Covers (intervals seen) x.toNat := by
        refine not_covers_of_ge (forall_mem_intervals.2 fun c member => ?_)
        have := passed c member
        rw [Rle16.stop_interval]
        omega
      have same := above x (by omega)
      by_cases gap : x.toNat < rle.value.toNat
      · have out : ¬ (rle.value.toNat ≤ x.toNat ∧ x.toNat < rle.stop) := by omega
        have cleared : lastPos ≤ x.toNat ∧ x.toNat < rle.value.toNat := by omega
        simp [out, cleared, none]
      · have inside : rle.value.toNat ≤ x.toNat ∧ x.toNat < rle.stop := by omega
        have keep : ¬ (lastPos ≤ x.toNat ∧ x.toNat < rle.value.toNat) := by omega
        simp [inside, keep, same]
  · intro x large
    simp only at large ⊢
    have out : ¬ (rle.value.toNat ≤ x.toNat ∧ x.toNat < rle.stop) := by omega
    have keep : ¬ (lastPos ≤ x.toNat ∧ x.toNat < rle.value.toNat) := by omega
    rw [members, has_interval_iff, above x (by omega)]
    simp [out, keep]

/-- A bitset subtracted from a run container. -/
theorem runBitsetContainerAndnot_spec (ordered : RunsOrdered r.runs) (src2 : BitsetContainer) :
    ∃ c, runBitsetContainerAndnot r src2 = .ok c ∧ c.Plain ∧ ∀ x, x ∈ c.values ↔ x ∈ r.values ∧ x ∉ src2.values := by
  have length := length_runValues r
  unfold runBitsetContainerAndnot
  by_cases small : runContainerCardinality r ≤ defaultMaxSize
  · have kept : (r.values.filter fun runValue => !bitsetContainerGet src2 runValue).Sublist r.values := List.filter_sublist
    have fits : (r.values.filter fun runValue => !bitsetContainerGet src2 runValue).length ≤ runContainerCardinality r :=
      length ▸ kept.length_le
    have stored : (arrayContainerCreateGivenCapacity (runContainerCardinality r)).store
        (r.values.filter fun runValue => !bitsetContainerGet src2 runValue) = _ := store_eq_ok fits
    refine ⟨_, by simp only [small, if_true, stored, ok_bind]; rfl, .array ⟨?_, fits⟩ (fits.trans small), fun x => ?_⟩
    · exact ((sorted_runValues_iff r).2 ordered).sublist kept
    · simp only [Container.values_array, List.mem_filter, Bool.not_eq_true', ← Bool.not_eq_true, bitsetContainerGet_iff]
  simp only [small, if_false]
  obtain ⟨state, run, here⟩ : ∃ state, r.runs.foldlM (fun (array, lastPos) (rle : Rle16) => do
      let start := rle.value.toNat
      let array ← bitsetResetRange array lastPos start
      return (← bitsetFlipRange array start rle.stop, rle.stop)) (src2.array, 0) = .ok state ∧
        Flipped src2 r.runs state := by
    apply foldlM_loop (P := Flipped src2)
    · intro seen rle left state split here
      obtain ⟨array', array'', reset, flip, next⟩ := Flipped.round (split ▸ ordered) here
      refine ⟨(array'', rle.stop), ?_, next⟩
      simp only [reset, flip, ok_bind, pure_eq]
    · exact ⟨.inl rfl, by simp, by simp, fun x _ => Iff.rfl⟩
  obtain ⟨array, lastPos⟩ := state
  obtain ⟨last, passed, below, above⟩ := here
  simp only at last passed below above
  have bound : lastPos ≤ 65536 := by
    rcases last with none | given
    · omega
    · obtain ⟨rle, member, isLast⟩ := given
      exact isLast ▸ ordered.within rle member
  obtain ⟨words, reset, cleared⟩ := bitsetResetRange_spec array bound (Nat.le_refl 65536)
  have members : ∀ x, x ∈ wordValues words ↔ x ∈ r.values ∧ x ∉ src2.values := by
    intro x
    have inside := x.toNat_lt
    rw [mem_runValues ordered]
    by_cases early : x.toNat < lastPos
    · have keep : ¬ (lastPos ≤ x.toNat ∧ x.toNat < 65536) := by omega
      rw [← below x early, mem_wordValues, mem_wordValues, cleared _ inside, decide_eq_false keep, Bool.not_false,
        Bool.and_true]
    · have gone : lastPos ≤ x.toNat ∧ x.toNat < 65536 := by omega
      have none : ¬ Covers (intervals r.runs) x.toNat := by
        refine not_covers_of_ge (forall_mem_intervals.2 fun c member => ?_)
        have := passed c member
        rw [Rle16.stop_interval]
        omega
      simp [mem_wordValues, cleared _ inside, gone.1, inside, none]
  obtain ⟨c, shrunk, plain, values⟩ :=
    shrinkBitset_spec (show BitsetContainer.Exact { cardinality := bitsetContainerComputeCardinality words, array := words }
      from bitsetContainerComputeCardinality_eq words)
  refine ⟨c, ?_, plain, fun x => by rw [values]; exact members x⟩
  simp only [run, ok_bind, reset]
  exact shrunk

/-! ## Runs and arrays -/

/-- The values of an array outside some runs. -/
theorem arrayRunAndnotLoop_spec (runStart runEnd : Nat) (rest : List Rle16) (array : List UInt16) (some : runStart ≤ runEnd)
    (sorted : array.Pairwise (· < ·)) (ordered : RunsOrdered rest) (apart : ∀ c ∈ rest, runEnd < c.value.toNat) :
    (arrayRunAndnotLoop runStart runEnd rest array).Sublist array ∧
      ∀ x, x ∈ arrayRunAndnotLoop runStart runEnd rest array ↔ x ∈ array ∧
        ¬ ((runStart ≤ x.toNat ∧ x.toNat ≤ runEnd) ∨ Covers (intervals rest) x.toNat) := by
  have later : ∀ {val : UInt16} {array : List UInt16}, (val :: array).Pairwise (· < ·) → ∀ x ∈ val :: array,
      val.toNat ≤ x.toNat := by
    intro val array sorted x member
    rcases List.mem_cons.1 member with rfl | tail
    · exact Nat.le_refl _
    · exact (UInt16.lt_iff_toNat_lt.1 ((List.pairwise_cons.1 sorted).1 x tail)).le
  fun_induction arrayRunAndnotLoop runStart runEnd rest array with
  | case1 runStart runEnd rest => simp
  | case2 runStart runEnd rest val array before ih =>
    -- the value lies before the current run
    obtain ⟨part, members⟩ := ih some (List.pairwise_cons.1 sorted).2 ordered apart
    have free : ¬ ((runStart ≤ val.toNat ∧ val.toNat ≤ runEnd) ∨ Covers (intervals rest) val.toNat) := by
      refine not_or.2 ⟨by omega, not_covers_of_lt (forall_mem_intervals.2 fun c member => ?_)⟩
      have := apart c member
      rw [Rle16.start_interval]
      omega
    refine ⟨part.cons_cons val, fun x => ?_⟩
    rw [List.mem_cons, List.mem_cons, members]
    constructor
    · rintro (rfl | given)
      · exact ⟨.inl rfl, free⟩
      · exact ⟨.inr given.1, given.2⟩
    · rintro ⟨rfl | member, outside⟩
      · exact .inl rfl
      · exact .inr ⟨member, outside⟩
  | case3 runStart runEnd rest val array before inside ih =>
    -- the value lies in the current run
    obtain ⟨part, members⟩ := ih some (List.pairwise_cons.1 sorted).2 ordered apart
    refine ⟨part.cons val, fun x => ?_⟩
    rw [members, List.mem_cons]
    constructor
    · exact fun given => ⟨.inr given.1, given.2⟩
    · rintro ⟨rfl | member, outside⟩
      · exact absurd (.inl ⟨by omega, inside⟩) outside
      · exact ⟨member, outside⟩
  | case4 runStart runEnd val array before outside rle rest ih =>
    -- the walk goes on with the next run
    have tail : RunsOrdered rest := ordered.sublist (List.sublist_cons_self ..)
    obtain ⟨part, members⟩ := ih (Nat.le_add_right ..) sorted tail (fun c member => (List.pairwise_cons.1 ordered.apart).1 c member)
    refine ⟨part, fun x => ?_⟩
    rw [members, intervals_cons, covers_cons, has_interval_iff]
    apply and_congr_right
    intro member
    have := later sorted x member
    have past : ¬ (runStart ≤ x.toNat ∧ x.toNat ≤ runEnd) := by omega
    rw [Rle16.stop]
    simp only [past, false_or, Nat.lt_succ_iff]
  | case5 runStart runEnd val array before outside ih =>
    obtain ⟨part, members⟩ := ih (Nat.le_refl _) sorted ordered (by simp)
    refine ⟨part, fun x => ?_⟩
    rw [members]
    apply and_congr_right
    intro member
    have := later sorted x member
    have := x.toNat_lt
    have past : ¬ (runStart ≤ x.toNat ∧ x.toNat ≤ runEnd) := by omega
    have none : ¬ (65537 ≤ x.toNat ∧ x.toNat ≤ 65537) := by omega
    simp only [past, none, false_or]

/-- A run container subtracted from an array, in its place. -/
theorem arrayRunContainerIandnot_spec {src1 : ArrayContainer} (valid : src1.Valid) (ordered : RunsOrdered r.runs) :
    ∃ arr, arrayRunContainerIandnot src1 r = .ok arr ∧ arr.Valid ∧
      (∀ x, x ∈ arr.array ↔ x ∈ src1.array ∧ x ∉ r.values) ∧ arr.array.length ≤ src1.array.length := by
  have noGrow : ¬ src1.capacity < arrayContainerCardinality src1 := Nat.not_lt.2 valid.fits
  have members := fun x => mem_runValues (r := r) (x := x) ordered
  unfold arrayRunContainerIandnot
  rw [if_neg noGrow]
  simp only [members]
  generalize r.runs = runs at ordered
  cases runs with
  | nil => exact ⟨src1, store_eq_ok valid.fits, valid, by simp, Nat.le_refl _⟩
  | cons rle rest =>
    have tail : RunsOrdered rest := ordered.sublist (List.sublist_cons_self ..)
    obtain ⟨part, kept⟩ := arrayRunAndnotLoop_spec rle.value.toNat (rle.value.toNat + rle.length.toNat) rest src1.array
      (Nat.le_add_right ..) valid.sorted tail fun c member => (List.pairwise_cons.1 ordered.apart).1 c member
    have fits := part.length_le.trans valid.fits
    refine ⟨_, store_eq_ok fits, ⟨valid.sorted.sublist part, fits⟩, fun x => ?_, part.length_le⟩
    rw [kept, intervals_cons, covers_cons, has_interval_iff, Rle16.stop, Nat.lt_succ_iff]

section Subtract

variable {aIn : List UInt16}

/-- The value that `run_array_array_subtract` leaves out next, at number `i`: the
first one from there on, or 0 when there is none. -/
inductive LeavesOut (aIn : List UInt16) (i : Nat) : Nat → UInt16 → Prop where
  | found {pre post : List UInt16} {value : UInt16} (split : aIn = pre ++ value :: post)
      (passed : ∀ v ∈ pre, v.toNat < i) (ahead : i ≤ value.toNat) : LeavesOut aIn i pre.length value
  | past {pos : Nat} (started : 0 < i) (passed : ∀ v ∈ aIn, v.toNat < i) : LeavesOut aIn i pos 0

/-- A number that is not the next one to leave out is kept. -/
theorem LeavesOut.keep (sorted : aIn.Pairwise (· < ·)) {i pos : Nat} {next : UInt16} (leaves : LeavesOut aIn i pos next)
    (other : i ≠ next.toNat) : LeavesOut aIn (i + 1) pos next ∧ ∀ v ∈ aIn, v.toNat ≠ i := by
  cases leaves with
  | @found pre post value split passed ahead =>
    refine ⟨.found split (fun v member => (passed v member).trans (Nat.lt_succ_self i)) (by omega), ?_⟩
    intro v member
    rw [split] at member sorted
    rcases List.mem_append.1 member with before | from_
    · exact (passed v before).ne
    · rcases List.mem_cons.1 from_ with rfl | after
      · exact other.symm
      · have := UInt16.lt_iff_toNat_lt.1 ((sorted_split sorted).2 v after)
        omega
  | past started passed =>
    exact ⟨.past (Nat.succ_pos i) fun v member => (passed v member).trans (Nat.lt_succ_self i),
      fun v member => (passed v member).ne⟩

/-- The number to leave out is a value of the array, and its successor is the next one. -/
theorem LeavesOut.leave (sorted : aIn.Pairwise (· < ·)) {i pos : Nat} {next : UInt16} (leaves : LeavesOut aIn i pos next)
    (same : i = next.toNat) : next ∈ aIn ∧ match aIn[pos + 1]? with
      | none => LeavesOut aIn (i + 1) pos 0
      | some later => LeavesOut aIn (i + 1) (pos + 1) later := by
  cases leaves with
  | @found pre post value split passed ahead =>
    refine ⟨by simp [split], ?_⟩
    have before : ∀ v ∈ pre ++ [next], v.toNat < i + 1 := by
      refine List.forall_mem_append.2 ⟨fun v member => (passed v member).trans (Nat.lt_succ_self i), by simp [same]⟩
    have joined : aIn = (pre ++ [next]) ++ post := by simp [split]
    have index : pre.length + 1 = (pre ++ [next]).length := by simp
    rw [index]
    cases post with
    | nil =>
      rw [List.append_nil] at joined
      rw [List.getElem?_eq_none (by rw [← joined])]
      exact .past (Nat.succ_pos i) (joined ▸ before)
    | cons later post =>
      rw [joined, List.getElem?_append_right (Nat.le_refl _), Nat.sub_self, List.getElem?_cons_zero, ← joined]
      refine .found joined before ?_
      rw [split] at sorted
      have := UInt16.lt_iff_toNat_lt.1 ((sorted_split sorted).2 later (by simp))
      omega
  | past started passed =>
    rw [UInt16.toNat_zero] at same
    omega

theorem LeavesOut.passed {n pos : Nat} {next : UInt16} (leaves : LeavesOut aIn n pos next) :
    ∀ i (h : i < aIn.length), i < pos → aIn[i].toNat < n := by
  intro i h low
  cases leaves with
  | @found pre post value split passed ahead =>
    have here : aIn[i] = pre[i] := by
      simp only [split]
      exact List.getElem_append_left low
    rw [here]
    exact passed _ (List.getElem_mem low)
  | past started passed => exact passed _ (List.getElem_mem h)

/-- The loop over the numbers of a run keeps those that are no value of the array. -/
theorem subtractRun_loop (sorted : aIn.Pairwise (· < ·)) (count start : Nat) (out : List UInt16) {pos : Nat}
    {next : UInt16} (leaves : LeavesOut aIn start pos next) (bound : start + count ≤ 65536) :
    ∃ pos' next', (List.range' start count).foldl (fun (out, pos, next) i =>
        if i ≠ next.toNat then (out ++ [UInt16.ofNat i], pos, next)
        else
          match aIn[pos + 1]? with
          | none => (out, pos, 0)
          | some later => (out, pos + 1, later)) (out, pos, next) =
        (out ++ ((List.range' start count).map UInt16.ofNat).filter (· ∉ aIn), pos', next') ∧
      LeavesOut aIn (start + count) pos' next' := by
  induction count generalizing start out pos next with
  | zero => exact ⟨pos, next, by simp, leaves⟩
  | succ count ih =>
    have small : (UInt16.ofNat start).toNat = start := UInt16.toNat_ofNat_of_lt' (by show start < 65536; omega)
    rw [List.range'_succ, List.foldl_cons, List.map_cons, ← Nat.add_assoc, Nat.add_right_comm]
    by_cases same : start = next.toNat
    · subst same
      obtain ⟨member, leaves'⟩ := leaves.leave sorted rfl
      rw [UInt16.ofNat_toNat, List.filter_cons_of_neg (by simpa using member)]
      simp only [ne_eq, not_true_eq_false, if_false]
      cases isLater : aIn[pos + 1]? with
      | none =>
        rw [isLater] at leaves'
        exact ih _ out leaves' (by omega)
      | some later =>
        rw [isLater] at leaves'
        exact ih _ out leaves' (by omega)
    · obtain ⟨leaves', apart⟩ := leaves.keep sorted same
      have absent : UInt16.ofNat start ∉ aIn := fun member => apart _ member small
      rw [List.filter_cons_of_pos (by simpa using absent)]
      obtain ⟨pos', next', run, left⟩ := ih (start + 1) (out ++ [UInt16.ofNat start]) leaves' (by omega)
      refine ⟨pos', next', ?_, left⟩
      simp only [same, ne_eq, not_false_eq_true, if_true]
      rw [run, List.append_assoc]
      rfl

/-- What `run_array_array_subtract` has put out after some runs, and where its
search goes on. -/
structure Subtracted (aIn : List UInt16) (seen : List Rle16) (state : List UInt16 × Nat) : Prop where
  out : state.1 = (runsValues seen).filter (· ∉ aIn)
  passed : ∀ i (h : i < aIn.length), i < state.2 → ∃ rle ∈ seen, aIn[i].toNat < rle.stop

/-- The values of a run between two neighbours of the array are none of its values. -/
theorem filter_between {rle : Rle16} (within : rle.stop ≤ 65536) {p : Nat}
    (below : ∀ i (h : i < aIn.length), i < p → aIn[i] < rle.value)
    (above : ∀ i (h : i < aIn.length), p ≤ i → rle.stop ≤ aIn[i].toNat) :
    (rle.numbers.map UInt16.ofNat).filter (· ∉ aIn) = rle.numbers.map UInt16.ofNat := by
  apply List.filter_eq_self.2
  intro x member
  obtain ⟨n, number, rfl⟩ := List.mem_map.1 member
  obtain ⟨from_, under⟩ := List.mem_range'_1.1 number
  rw [Rle16.stop] at within above
  have small : (UInt16.ofNat n).toNat = n := UInt16.toNat_ofNat_of_lt' (by show n < 65536; omega)
  rw [decide_eq_true_iff]
  intro inside
  obtain ⟨i, h, isValue⟩ := List.getElem_of_mem inside
  rw [← isValue] at small
  by_cases low : i < p
  · have := UInt16.lt_iff_toNat_lt.1 (below i h low)
    omega
  · have := above i h (by omega)
    omega

theorem Subtracted.passed_on {seen : List Rle16} {rle : Rle16} {p : Nat}
    (below : ∀ i (h : i < aIn.length), i < p → aIn[i] < rle.value) :
    ∀ i (h : i < aIn.length), i < p → ∃ c ∈ seen ++ [rle], aIn[i].toNat < c.stop := by
  intro i h low
  have := UInt16.lt_iff_toNat_lt.1 (below i h low)
  exact ⟨rle, by simp, this.trans rle.value_lt_stop⟩

theorem runArrayArraySubtract_eq (sorted : aIn.Pairwise (· < ·)) (ordered : RunsOrdered r.runs) :
    runArrayArraySubtract r aIn = r.values.filter (· ∉ aIn) := by
  unfold runArrayArraySubtract
  refine (show Subtracted aIn r.runs _ from ?_).out
  apply foldl_loop (P := Subtracted aIn) _ ⟨rfl, by simp⟩
  intro seen rle left state split here
  obtain ⟨out, next⟩ := state
  obtain ⟨isOut, passed⟩ := here
  simp only at isOut passed ⊢
  rw [split] at ordered
  have before := ordered.around.1
  have within := ordered.within rle (by simp)
  obtain ⟨below, above⟩ := gallop_separates sorted rle.value next (by
    intro i h low
    obtain ⟨c, member, under⟩ := passed i h low
    exact UInt16.lt_iff_toNat_lt.2 (under.trans_le (before c member)))
  generalize gallop aIn next rle.value = p at below above
  have kept := fun unaltered => (congrArg₂ (· ++ ·) isOut (filter_between within below unaltered).symm).trans
    (List.filter_append ..).symm
  rw [← runsValues_snoc] at kept
  cases isValue : aIn[p]? with
  | none =>
    -- the array has no value from the start of the run on
    have all := List.getElem?_eq_none_iff.1 isValue
    refine ⟨kept fun i h from_ => absurd h (by omega), ?_⟩
    intro i h _
    exact Subtracted.passed_on below i h (by omega)
  | some nextNonincluded =>
    obtain ⟨inside, value⟩ := List.getElem?_eq_some_iff.1 isValue
    have later : ∀ i (h : i < aIn.length), p ≤ i → nextNonincluded.toNat ≤ aIn[i].toNat := by
      intro i h from_
      rcases Nat.eq_or_lt_of_le from_ with rfl | after
      · rw [value]
      · have := List.pairwise_iff_getElem.1 sorted p i inside h after
        rw [value] at this
        exact (UInt16.lt_iff_toNat_lt.1 this).le
    by_cases unaltered : rle.stop ≤ nextNonincluded.toNat
    · simp only [unaltered, if_true]
      exact ⟨kept fun i h from_ => unaltered.trans (later i h from_), Subtracted.passed_on below⟩
    · -- some value of the array lies in the run
      have split : aIn = aIn.take p ++ nextNonincluded :: aIn.drop (p + 1) := by
        rw [← value, List.getElem_cons_drop, List.take_append_drop]
      have length : (aIn.take p).length = p := List.length_take_of_le inside.le
      have from_ : rle.value.toNat ≤ nextNonincluded.toNat := by
        have := above p inside (Nat.le_refl _)
        rwa [value] at this
      have leaves : LeavesOut aIn rle.value.toNat p nextNonincluded := by
        have found := LeavesOut.found split (fun v member => ?_) from_
        · rwa [length] at found
        · obtain ⟨i, h, rfl⟩ := List.getElem_of_mem member
          rw [length] at h
          rw [List.getElem_take]
          exact UInt16.lt_iff_toNat_lt.1 (below i (by omega) h)
      have count : rle.value.toNat + (rle.length.toNat + 1) = rle.stop := rfl
      obtain ⟨pos', next', run, left⟩ :=
        subtractRun_loop sorted (rle.length.toNat + 1) rle.value.toNat [] leaves (by omega)
      have run' : subtractRun aIn rle.value.toNat rle.stop p nextNonincluded =
          ((rle.numbers.map UInt16.ofNat).filter (· ∉ aIn), pos', next') := by
        rw [subtractRun, show rle.stop - rle.value.toNat = rle.length.toNat + 1 by omega]
        exact run
      simp only [unaltered, if_false, run']
      refine ⟨?_, ?_⟩
      · rw [isOut, runsValues_snoc, List.filter_append]
      · intro i h low
        exact ⟨rle, by simp, count ▸ left.passed i h low⟩

end Subtract

/-- An array subtracted from a run container. -/
theorem runArrayContainerAndnot_spec (valid : r.Valid) (some : r.runs ≠ []) {src2 : ArrayContainer} (valid2 : src2.Valid) :
    ∃ c, runArrayContainerAndnot r src2 = .ok c ∧ c.Valid ∧ ∀ x, x ∈ c.values ↔ x ∈ r.values ∧ x ∉ src2.array := by
  have ordered := valid.ordered
  have length := length_runValues r
  unfold runArrayContainerAndnot
  by_cases few : runContainerCardinality r ≤ 32
  · simp only [few, if_true]
    by_cases none : arrayContainerCardinality src2 = 0
    · have empty : src2.array = [] := List.eq_nil_of_length_eq_zero none
      have cloned : runContainerClone r = .ok r := RunContainer.store_eq_ok valid.fits
      exact ⟨.run r, by simp only [none, if_true, cloned, ok_bind]; rfl, .run valid, by simp [empty]⟩
    obtain ⟨rle, rest, split⟩ := List.exists_cons_of_ne_nil some
    obtain ⟨runsFor, bound⟩ := andnotRuns_spec (split ▸ ordered) (singles_ordered valid2.sorted)
    have fits : (andnotRunsLoop rle.value.toNat rle.stop rest (singles src2.array)).length ≤
        runContainerCardinality r + arrayContainerCardinality src2 := by
      rw [← split, singles, List.length_map] at bound
      exact bound.trans (Nat.add_le_add_right (nRuns_le_cardinality r) _)
    rw [← split] at runsFor
    generalize isOut : andnotRunsLoop rle.value.toNat rle.stop rest (singles src2.array) = out at runsFor fits
    have stored : (runContainerCreateGivenCapacity (runContainerCardinality r + arrayContainerCardinality src2)).store out =
        .ok { capacity := _, runs := out } := RunContainer.store_eq_ok fits
    obtain ⟨c, converted, valid', members⟩ := convertRunToEfficientContainer_spec
      (show RunsOrdered (RunContainer.runs { capacity := _, runs := out }) from runsFor.ordered) fits
    refine ⟨c, ?_, valid', fun x => ?_⟩
    · rw [singles] at isOut
      simp only [none, if_false, split, isOut, stored, ok_bind]
      exact converted
    · rw [members, RunsFor.mem_values runsFor, covers_singles, ← mem_runValues ordered]
  simp only [few, if_false]
  by_cases small : runContainerCardinality r ≤ defaultMaxSize
  · have same := runArrayArraySubtract_eq valid2.sorted ordered
    have part : (runArrayArraySubtract r src2.array).Sublist r.values := same ▸ List.filter_sublist
    have fits : (runArrayArraySubtract r src2.array).length ≤ runContainerCardinality r := length ▸ part.length_le
    have stored : (arrayContainerCreateGivenCapacity (runContainerCardinality r)).store (runArrayArraySubtract r src2.array) =
        _ := store_eq_ok fits
    refine ⟨_, by simp only [small, if_true, stored, ok_bind]; rfl,
      .plain (.array ⟨valid.sorted.sublist part, fits⟩ (fits.trans small)), fun x => ?_⟩
    simp [same]
  · obtain ⟨b, made, exact, members⟩ := bitsetContainerFromRun_spec ordered
    obtain ⟨c, cleared, plain, left⟩ := bitsetArrayContainerIandnot_spec exact src2
    refine ⟨c, by simp only [small, if_false, made, ok_bind]; exact cleared, .plain plain, fun x => ?_⟩
    rw [left, members]

/-- The difference of two run containers. -/
theorem runRunContainerIandnot_spec {src1 src2 : RunContainer} (valid1 : src1.Valid) (valid2 : src2.Valid) :
    ∃ c, runRunContainerIandnot src1 src2 = .ok c ∧ c.Valid ∧ ∀ x, x ∈ c.values ↔ x ∈ src1.values ∧ x ∉ src2.values := by
  obtain ⟨run, made, fits, runsFor⟩ := runContainerAndnot_spec valid1 valid2 runContainerCreate
  obtain ⟨c, converted, valid, members⟩ := convertRunToEfficientContainer_spec runsFor.ordered fits
  refine ⟨c, by rw [runRunContainerIandnot, made]; exact converted, valid, fun x => ?_⟩
  rw [members, runsFor.mem_values, mem_runValues valid1.ordered, mem_runValues valid2.ordered]

end Runs

end RedisRoaring
