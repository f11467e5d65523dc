import RedisRoaring.Containers.Convert

/-!
# Run containers without their runs

`convert_to_bitset_or_array_container` writes the values of a run container into
an array or a bitset, whatever takes less room. The variable of the loop for an
array has 16 bits, as has the last value of a run: where a run goes up to 65535
the loop does not stop there, and writes behind the array.
-/

namespace RedisRoaring

open Exec Intervals

/-- The inner loop of `convert_to_bitset_or_array_container`, with its 16-bit variable. -/
def fillRun (answer : ArrayContainer) (runEnd runValue : UInt16) : Outcome ArrayContainer :=
  if runValue ≤ runEnd then
    match _filled : answer.store (answer.array ++ [runValue]) with
    | .error fault => .error fault
    | .ok answer' => fillRun answer' runEnd (runValue + 1)
  else .ok answer
termination_by answer.capacity - answer.array.length
decreasing_by
  rw [ArrayContainer.store] at _filled
  split at _filled
  case isTrue fits =>
    rw [← Except.ok.inj _filled]
    simp only [List.length_append, List.length_singleton] at fits ⊢
    omega
  case isFalse => exact nomatch _filled

/-- `convert_to_bitset_or_array_container`. -/
def convertToBitsetOrArrayContainer (r : RunContainer) (card : Nat) : Outcome Container := do
  if card ≤ defaultMaxSize then
    let answer ← r.runs.foldlM (fun answer rle => fillRun answer (rle.value + rle.length) rle.value)
      (arrayContainerCreateGivenCapacity card)
    if answer.array.length ≠ card then .error .assertFailed
    return .array answer
  let array ← r.runs.foldlM (fun array rle => bitsetSetLenrange array rle.value.toNat rle.length.toNat)
    bitsetContainerCreate.array
  return .bitset { cardinality := card, array }

section Fill

variable {answer answer' : ArrayContainer} {runEnd runValue : UInt16}

/-- One round of the loop. -/
theorem fillRun_step (more : runValue ≤ runEnd) (stored : answer.store (answer.array ++ [runValue]) = .ok answer') :
    fillRun answer runEnd runValue = fillRun answer' runEnd (runValue + 1) := by
  rw [fillRun, if_pos more]
  split
  · rename_i failed
    rw [stored] at failed
    exact nomatch failed
  · rename_i filled
    rw [stored] at filled
    rw [Except.ok.inj filled]

/-- Where the run ends below 65535, the loop appends its values. -/
theorem fillRun_spec {n : Nat} (stops : runEnd.toNat < 65535) (count : runValue.toNat + n = runEnd.toNat + 1)
    (room : answer.array.length + n ≤ answer.capacity) :
    fillRun answer runEnd runValue =
      .ok { answer with array := answer.array ++ (List.range' runValue.toNat n).map UInt16.ofNat } := by
  induction n generalizing answer runValue with
  | zero =>
    have done : ¬ runValue ≤ runEnd := by rw [UInt16.le_iff_toNat_le]; omega
    rw [fillRun, if_neg done, List.range'_zero, List.map_nil, List.append_nil]
  | succ n ih =>
    have more : runValue ≤ runEnd := by rw [UInt16.le_iff_toNat_le]; omega
    have next : (runValue + 1).toNat = runValue.toNat + 1 := by
      rw [UInt16.toNat_add, UInt16.toNat_one]
      omega
    have stored : answer.store (answer.array ++ [runValue]) = _ :=
      store_eq_ok (by rw [List.length_append, List.length_singleton]; omega)
    rw [fillRun_step more stored, ih (by rw [next]; omega) (by simp only [List.length_append, List.length_singleton]; omega),
      next, List.range'_succ, List.map_cons, UInt16.ofNat_toNat, List.append_assoc]
    rfl

/-- Where the run ends at 65535, the loop leaves the array. -/
theorem fillRun_last (last : runEnd.toNat = 65535) : fillRun answer runEnd runValue = .error .outOfBounds := by
  fun_induction fillRun answer runEnd runValue with
  | case1 answer runValue more fault failed =>
    rw [ArrayContainer.store] at failed
    split at failed
    · cases failed
    · exact failed.symm ▸ rfl
  | case2 answer runValue more answer' filled ih => exact ih
  | case3 answer runValue done =>
    have := runValue.toNat_lt
    exact absurd (UInt16.le_iff_toNat_le.2 (by omega)) done

end Fill

section Convert

variable {r : RunContainer} {c : Container}

/-- The 16-bit end of a run that stays within 16 bits. -/
theorem toNat_runEnd {rle : Rle16} (within : rle.stop ≤ 65536) :
    (rle.value + rle.length).toNat = rle.value.toNat + rle.length.toNat := by
  rw [Rle16.stop] at within
  rw [UInt16.toNat_add]
  omega

/-- The last value of a container is the end of a run. -/
theorem last_mem_iff (ordered : RunsOrdered r.runs) : 65535 ∈ r.values ↔ ∃ rle ∈ r.runs, rle.stop = 65536 := by
  have last : (65535 : UInt16).toNat = 65535 := rfl
  rw [mem_runValues ordered, covers_intervals, last]
  refine exists_congr fun rle => and_congr_right fun inside => ?_
  have within := ordered.within rle inside
  have := rle.value.toNat_lt
  rw [has_interval_iff]
  omega

/-- Without the last value every run is written. -/
theorem foldlM_fillRun (ordered : RunsOrdered r.runs) (stops : 65535 ∉ r.values) :
    r.runs.foldlM (fun answer rle => fillRun answer (rle.value + rle.length) rle.value)
      (arrayContainerCreateGivenCapacity (runContainerCardinality r)) =
        .ok { capacity := runContainerCardinality r, array := r.values } := by
  rw [last_mem_iff ordered] at stops
  -- the values of the runs seen so far
  let written (seen : List Rle16) : ArrayContainer :=
    { capacity := runContainerCardinality r, array := seen.flatMap fun rle => rle.numbers.map UInt16.ofNat }
  have round : ∀ seen rle left answer, r.runs = seen ++ rle :: left → answer = written seen →
      ∃ answer', fillRun answer (rle.value + rle.length) rle.value = .ok answer' ∧ answer' = written (seen ++ [rle]) := by
    rintro seen rle left answer split rfl
    have member : rle ∈ r.runs := by rw [split]; simp
    have within := ordered.within rle member
    have below : rle.stop ≠ 65536 := fun last => stops ⟨rle, member, last⟩
    have isEnd := toNat_runEnd within
    rw [Rle16.stop] at within below
    have room : (written seen).array.length + (rle.length.toNat + 1) ≤ (written seen).capacity := by
      show (seen.flatMap _).length + _ ≤ runContainerCardinality r
      rw [length_runValues, RunContainer.values, split, List.flatMap_append, List.flatMap_cons]
      simp only [List.length_append, List.length_map, Rle16.numbers, List.length_range']
      omega
    refine ⟨_, fillRun_spec (by omega) (by omega) room, ?_⟩
    simp only [written, List.flatMap_append, List.flatMap_singleton]
    rfl
  obtain ⟨answer, run, rfl⟩ := foldlM_loop round (show arrayContainerCreateGivenCapacity _ = written [] from rfl)
  exact run

/-- **The conversion without runs.** It leaves the array exactly when a container of
at most 4096 values has the value 65535; otherwise it keeps the values. -/
theorem convertToBitsetOrArrayContainer_spec (valid : r.Valid)
    (fits : 65535 ∈ r.values → defaultMaxSize < r.values.length) :
    ∃ c, convertToBitsetOrArrayContainer r (runContainerCardinality r) = .ok c ∧ c.Plain ∧ c.values = r.values := by
  have ordered := valid.ordered
  have length : r.values.length = runContainerCardinality r := (length_runValues r).symm
  unfold convertToBitsetOrArrayContainer
  by_cases small : runContainerCardinality r ≤ defaultMaxSize
  · have stops : 65535 ∉ r.values := fun last => absurd (fits last) (Nat.not_lt.2 (length.trans_le small))
    refine ⟨.array { capacity := runContainerCardinality r, array := r.values }, ?_, ?_, rfl⟩
    · simp only [small, if_true, foldlM_fillRun ordered stops, ok_bind, length, ne_eq, not_true_eq_false, if_false, pure_eq]
    · exact .array ⟨valid.sorted, length.le⟩ (length.trans_le small)
  · obtain ⟨words, run, set⟩ := foldlM_setRuns bitsetContainerCreate.array
      fun rle member words => setLenrange_run words (ordered.within rle member)
    have members : ∀ x, x ∈ wordValues words ↔ x ∈ r.values := by
      intro x
      rw [set, ← BitsetContainer.values, bitsetContainerCreate_values, mem_runValues ordered]
      simp
    refine ⟨.bitset { cardinality := runContainerCardinality r, array := words }, ?_, ?_, ?_⟩
    · simp only [small, if_false, run, ok_bind, pure_eq]
    · exact .bitset (exact_of_runs ordered members) (Nat.lt_of_not_le small)
    · exact SortedList.eq_of_same_members (sorted_wordValues words) valid.sorted members

theorem convertToBitsetOrArrayContainer_fails (valid : r.Valid) (last : 65535 ∈ r.values)
    (small : r.values.length ≤ defaultMaxSize) :
    convertToBitsetOrArrayContainer r (runContainerCardinality r) ≠ .ok c := by
  intro run
  have card : runContainerCardinality r ≤ defaultMaxSize := (length_runValues r).trans_le small
  simp only [convertToBitsetOrArrayContainer, card, if_true, bind_eq_ok] at run
  obtain ⟨answer, filled, -⟩ := run
  obtain ⟨rle, member, isLast⟩ := (last_mem_iff valid.ordered).1 last
  obtain ⟨start, answer', step⟩ := foldlM_ok_step filled member
  rw [fillRun_last] at step
  · cases step
  · rw [toNat_runEnd isLast.le]
    rw [Rle16.stop] at isLast
    omega

end Convert

end RedisRoaring
