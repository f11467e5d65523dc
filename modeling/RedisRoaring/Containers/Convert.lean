import RedisRoaring.Containers.RunMerges

/-!
# Conversions between container types

`Container` is a container with its type code. A bitset of at most 4096 values
becomes an array, and an array of more than 4096 a bitset; the conversions keep
the members and, as the array is allocated from the cardinality field, they
need that field to be exact.
-/

namespace RedisRoaring

open Exec Intervals

/-- A container and its type code. -/
inductive Container where
  | bitset (container : BitsetContainer)
  | array (container : ArrayContainer)
  | run (container : RunContainer)
  deriving DecidableEq, Repr

/-- The members of a container in increasing order. -/
def Container.values : Container → List UInt16
  | .bitset b => b.values
  | .array arr => arr.array
  | .run r => r.values

@[simp] theorem Container.values_bitset (b : BitsetContainer) : (Container.bitset b).values = b.values := rfl

@[simp] theorem Container.values_array (arr : ArrayContainer) : (Container.array arr).values = arr.array := rfl

@[simp] theorem Container.values_run (r : RunContainer) : (Container.run r).values = r.values := rfl

/-- `bitset_container_from_array`. -/
def bitsetContainerFromArray (a : ArrayContainer) : BitsetContainer :=
  a.array.foldl bitsetContainerSet bitsetContainerCreate

/-- `bitset_container_from_run`. -/
def bitsetContainerFromRun (arr : RunContainer) : Outcome BitsetContainer := do
  let array ← arr.runs.foldlM (fun array vl => bitsetSetLenrange array vl.value.toNat vl.length.toNat)
    bitsetContainerCreate.array
  return { cardinality := runContainerCardinality arr, array }

/-- `array_container_from_bitset`: the extraction fills an array of as many
slots as the cardinality field says. -/
def arrayContainerFromBitset (bits : BitsetContainer) : Outcome ArrayContainer :=
  let setbits := bitsetExtractSetbitsUint16 bits.array
  if setbits.length < bits.cardinality then .error .uninitialized
  else (arrayContainerCreateGivenCapacity bits.cardinality).store setbits

/-- `array_container_serialized_size_in_bytes`. -/
def arrayContainerSerializedSizeInBytes (card : Nat) : Nat := card * 2 + 2

/-- `bitset_container_serialized_size_in_bytes`. -/
def bitsetContainerSerializedSizeInBytes : Nat := bitsetContainerSizeInWords * 8

/-- `run_container_serialized_size_in_bytes`. -/
def runContainerSerializedSizeInBytes (numRuns : Nat) : Nat := 2 + 4 * numRuns

/-- `convert_run_to_efficient_container`. -/
def convertRunToEfficientContainer (c : RunContainer) : Outcome Container := do
  let card := runContainerCardinality c
  let minSizeNonRun := min bitsetContainerSerializedSizeInBytes (arrayContainerSerializedSizeInBytes card)
  if runContainerSerializedSizeInBytes c.nRuns ≤ minSizeNonRun then return .run c
  if card ≤ defaultMaxSize then
    return .array (← (arrayContainerCreateGivenCapacity card).store c.values)
  let array ← c.runs.foldlM (fun array rle => bitsetSetRange array rle.value.toNat rle.stop) bitsetContainerCreate.array
  return .bitset { cardinality := card, array }

/-- The end of an operation that computed a bitset: `array_container_from_bitset`
when at most `DEFAULT_MAX_SIZE` values are left. -/
def shrinkBitset (bits : BitsetContainer) : Outcome Container := do
  if bits.cardinality ≤ defaultMaxSize then return .array (← arrayContainerFromBitset bits)
  else return .bitset bits

/-! ## Specifications -/

/-- A container of the kinds a bitmap is stored with: a valid array of at most
4096 values, or an exact bitset of more. -/
inductive Container.Plain : Container → Prop where
  | array {arr : ArrayContainer} (valid : arr.Valid) (small : arr.array.length ≤ defaultMaxSize) : Plain (.array arr)
  | bitset {b : BitsetContainer} (exact : b.Exact) (large : defaultMaxSize < b.cardinality) : Plain (.bitset b)

/-- A container of the kinds an accumulator may hold: a plain one or the full run. -/
inductive Container.Sound : Container → Prop where
  | plain {c : Container} (plain : c.Plain) : Sound c
  | full {r : RunContainer} (full : r.Full) : Sound (.run r)

/-- A container of any kind that a well-formed payload may hold. -/
inductive Container.Valid : Container → Prop where
  | plain {c : Container} (plain : c.Plain) : Valid c
  | run {r : RunContainer} (valid : r.Valid) : Valid (.run r)

theorem Container.Plain.sorted {c : Container} (plain : c.Plain) : c.values.Pairwise (· < ·) := by
  cases plain with
  | array valid small => exact valid.sorted
  | @bitset b exact large => exact b.sorted_values

theorem Container.Sound.sorted {c : Container} (sound : c.Sound) : c.values.Pairwise (· < ·) := by
  cases sound with
  | plain plain => exact plain.sorted
  | full full => exact sorted_full_values full

theorem bitsetContainerCreate_exact : bitsetContainerCreate.Exact := by
  rw [BitsetContainer.Exact, bitsetContainerCreate_values]
  rfl

/-- Setting the members of a list one by one. -/
theorem foldl_bitsetContainerSet (l : List UInt16) {b : BitsetContainer} (exact : b.Exact) :
    (l.foldl bitsetContainerSet b).Exact ∧ ∀ x, x ∈ (l.foldl bitsetContainerSet b).values ↔ x ∈ b.values ∨ x ∈ l := by
  induction l generalizing b with
  | nil => exact ⟨exact, by simp⟩
  | cons a l ih =>
    obtain ⟨exact', members⟩ := bitsetContainerSet_spec exact a
    obtain ⟨done, all⟩ := ih exact'
    refine ⟨done, ?_⟩
    intro x
    rw [List.foldl_cons, all, members, List.mem_cons, or_assoc]

theorem bitsetContainerFromArray_spec {a : ArrayContainer} (valid : a.Valid) :
    (bitsetContainerFromArray a).Exact ∧ (bitsetContainerFromArray a).values = a.array := by
  obtain ⟨exact, members⟩ := foldl_bitsetContainerSet a.array bitsetContainerCreate_exact
  refine ⟨exact, SortedList.eq_of_same_members (BitsetContainer.sorted_values _) valid.sorted ?_⟩
  intro x
  rw [bitsetContainerFromArray, members, bitsetContainerCreate_values]
  simp

/-- The bitset of the full run has every bit set. -/
theorem bitsetContainerFromRun_full {r : RunContainer} (full : r.Full) :
    ∃ b, bitsetContainerFromRun r = .ok b ∧ b.Exact ∧ ∀ x, x ∈ b.values := by
  obtain ⟨array, run, set⟩ :=
    bitsetSetLenrange_spec bitsetContainerCreate.array (show 0 + 65535 < 65536 by omega)
  have members : ∀ x, x ∈ wordValues array := by
    intro x
    have := x.toNat_lt
    rw [mem_wordValues, set _ (by omega), decide_eq_true (by omega), Bool.or_true]
  refine ⟨{ cardinality := 65536, array }, ?_, ?_, members⟩
  · rw [bitsetContainerFromRun, full, full_cardinality full]
    simp only [List.foldlM_cons, List.foldlM_nil]
    have step : bitsetSetLenrange bitsetContainerCreate.array (0 : UInt16).toNat (0xFFFF : UInt16).toNat = .ok array :=
      run
    rw [step]
    rfl
  · have all : wordValues array = (List.range 65536).map UInt16.ofNat := by
      rw [← full_values full]
      exact SortedList.eq_of_same_members (sorted_wordValues _) (sorted_full_values full) fun x =>
        ⟨fun _ => mem_full_values full x, fun _ => members x⟩
    rw [BitsetContainer.Exact, BitsetContainer.values, all, List.length_map, List.length_range]

theorem arrayContainerFromBitset_spec {bits : BitsetContainer} (exact : bits.Exact) :
    ∃ arr, arrayContainerFromBitset bits = .ok arr ∧ arr.Valid ∧ arr.array = bits.values := by
  have length : bits.values.length = bits.cardinality := exact.symm
  refine ⟨{ capacity := bits.cardinality, array := bits.values }, ?_, ⟨bits.sorted_values, Nat.le_of_eq length⟩, rfl⟩
  rw [arrayContainerFromBitset, bitsetExtractSetbitsUint16_eq, ← BitsetContainer.values, length,
    if_neg (Nat.lt_irrefl _)]
  exact store_eq_ok (Nat.le_of_eq length)

/-- Shrinking an exact bitset gives a plain container with the same members. -/
theorem shrinkBitset_spec {bits : BitsetContainer} (exact : bits.Exact) :
    ∃ c, shrinkBitset bits = .ok c ∧ c.Plain ∧ c.values = bits.values := by
  unfold shrinkBitset
  split
  case isTrue small =>
    obtain ⟨arr, run, valid, values⟩ := arrayContainerFromBitset_spec exact
    refine ⟨.array arr, by rw [run]; rfl, .array valid ?_, values⟩
    have length : bits.values.length = bits.cardinality := exact.symm
    rwa [values, length]
  case isFalse large => exact ⟨.bitset bits, rfl, .bitset exact (Nat.lt_of_not_le large), rfl⟩

/-! ## Runs in a bitset -/

section Runs

variable {r : RunContainer} {words : Words}

/-- The runs of a container are added to a bitset. -/
theorem foldlM_setRuns {runs : List Rle16} {set : Words → Rle16 → Outcome Words} (words : Words)
    (sets : ∀ rle ∈ runs, ∀ words, ∃ words', set words rle = .ok words' ∧
      ∀ x, x ∈ wordValues words' ↔ x ∈ wordValues words ∨ rle.interval.Has x.toNat) :
    ∃ words', runs.foldlM set words = .ok words' ∧
      ∀ x, x ∈ wordValues words' ↔ x ∈ wordValues words ∨ Covers (intervals runs) x.toNat := by
  apply foldlM_loop (P := fun seen mid => ∀ x, x ∈ wordValues mid ↔ x ∈ wordValues words ∨ Covers (intervals seen) x.toNat)
  · intro seen rle left mid split here
    obtain ⟨words', run, members⟩ := sets rle (by rw [split]; simp) mid
    refine ⟨words', run, fun x => ?_⟩
    rw [members, here, intervals_append, covers_append, intervals_cons, covers_cons]
    simp [or_assoc]
  · simp

theorem setLenrange_run (words : Words) {rle : Rle16} (within : rle.stop ≤ 65536) :
    ∃ words', bitsetSetLenrange words rle.value.toNat rle.length.toNat = .ok words' ∧
      ∀ x, x ∈ wordValues words' ↔ x ∈ wordValues words ∨ rle.interval.Has x.toNat := by
  obtain ⟨words', run, set⟩ := bitsetSetLenrange_spec words (show rle.value.toNat + rle.length.toNat < 65536 from within)
  refine ⟨words', run, fun x => ?_⟩
  rw [mem_wordValues, mem_wordValues, set _ x.toNat_lt, Bool.or_eq_true, decide_eq_true_iff, has_interval_iff,
    Rle16.stop, Nat.lt_succ_iff]

theorem setRange_run (words : Words) {rle : Rle16} (within : rle.stop ≤ 65536) :
    ∃ words', bitsetSetRange words rle.value.toNat rle.stop = .ok words' ∧
      ∀ x, x ∈ wordValues words' ↔ x ∈ wordValues words ∨ rle.interval.Has x.toNat := by
  obtain ⟨words', run, set⟩ := bitsetSetRange_spec words rle.value_lt_stop.le within
  refine ⟨words', run, fun x => ?_⟩
  rw [mem_wordValues, mem_wordValues, set _ x.toNat_lt, Bool.or_eq_true, decide_eq_true_iff, has_interval_iff]

/-- A bitset with the members of a run container has as many as its runs count. -/
theorem exact_of_runs (ordered : RunsOrdered r.runs)
    (members : ∀ x, x ∈ wordValues words ↔ x ∈ r.values) :
    BitsetContainer.Exact { cardinality := runContainerCardinality r, array := words } := by
  have same : wordValues words = r.values :=
    SortedList.eq_of_same_members (sorted_wordValues words) ((sorted_runValues_iff r).2 ordered) members
  rw [BitsetContainer.Exact, BitsetContainer.values, same]
  exact length_runValues r

/-- The bitset of a run container. -/
theorem bitsetContainerFromRun_spec (ordered : RunsOrdered r.runs) :
    ∃ b, bitsetContainerFromRun r = .ok b ∧ b.Exact ∧ ∀ x, x ∈ b.values ↔ x ∈ r.values := by
  obtain ⟨words, run, set⟩ := foldlM_setRuns bitsetContainerCreate.array
    fun rle member words => setLenrange_run words (ordered.within rle member)
  have members : ∀ x, x ∈ wordValues words ↔ x ∈ r.values := by
    intro x
    rw [set, ← BitsetContainer.values, bitsetContainerCreate_values, mem_runValues ordered]
    simp
  refine ⟨{ cardinality := runContainerCardinality r, array := words }, ?_, exact_of_runs ordered members, members⟩
  rw [bitsetContainerFromRun, run]
  rfl

/-- **The smallest representation**: the container kept or made from some runs is
valid and has their members. -/
theorem convertRunToEfficientContainer_spec (ordered : RunsOrdered r.runs) (fits : r.runs.length ≤ r.capacity) :
    ∃ c, convertRunToEfficientContainer r = .ok c ∧ c.Valid ∧ ∀ x, x ∈ c.values ↔ x ∈ r.values := by
  unfold convertRunToEfficientContainer
  by_cases keep : runContainerSerializedSizeInBytes r.nRuns ≤
      min bitsetContainerSerializedSizeInBytes (arrayContainerSerializedSizeInBytes (runContainerCardinality r))
  · refine ⟨.run r, by simp only [keep, if_true]; rfl, .run ⟨ordered, fits, ?_⟩, fun x => Iff.rfl⟩
    have small := keep.trans (Nat.min_le_left ..)
    simp only [runContainerSerializedSizeInBytes, bitsetContainerSerializedSizeInBytes, bitsetContainerSizeInWords,
      RunContainer.nRuns] at small
    omega
  simp only [keep, if_false]
  by_cases small : runContainerCardinality r ≤ defaultMaxSize
  · have length : r.values.length = runContainerCardinality r := (length_runValues r).symm
    have stored : (arrayContainerCreateGivenCapacity (runContainerCardinality r)).store r.values = _ :=
      store_eq_ok length.le
    refine ⟨.array _, by simp only [small, if_true, stored, ok_bind]; rfl, ?_, fun x => Iff.rfl⟩
    exact .plain (.array ⟨(sorted_runValues_iff r).2 ordered, length.le⟩ (length.trans_le small))
  · obtain ⟨words, run, set⟩ := foldlM_setRuns bitsetContainerCreate.array
      fun rle member words => setRange_run words (ordered.within rle member)
    have members : ∀ x, x ∈ wordValues words ↔ x ∈ r.values := by
      intro x
      rw [set, ← BitsetContainer.values, bitsetContainerCreate_values, mem_runValues ordered]
      simp
    refine ⟨.bitset { cardinality := runContainerCardinality r, array := words }, ?_, ?_, members⟩
    · simp only [small, if_false, run, ok_bind]
      rfl
    · exact .plain (.bitset (exact_of_runs ordered members) (Nat.lt_of_not_le small))

end Runs

end RedisRoaring
