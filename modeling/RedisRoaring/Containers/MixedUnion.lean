import RedisRoaring.Containers.Convert

/-!
# Unions of containers of different types

The pairs that `container_ior` dispatches on. Two arrays that may exceed 4096
values together are merged in a bitset and converted back if they do not; an
array is added to a bitset value by value.
-/

namespace RedisRoaring

open Exec Intervals

/-- `array_bitset_container_union`: `src_2` is `dst`, or has been copied to it. -/
def arrayBitsetContainerUnion (src1 : ArrayContainer) (src2 : BitsetContainer) : BitsetContainer :=
  let (array, cardinality) := bitsetSetListWithcard src2.array src2.cardinality src1.array
  { cardinality, array }

/-- `array_array_container_union`. -/
def arrayArrayContainerUnion (src1 src2 : ArrayContainer) : Outcome Container := do
  let totalCardinality := arrayContainerCardinality src1 + arrayContainerCardinality src2
  if totalCardinality ≤ defaultMaxSize then
    return .array (← arrayContainerUnion src1 src2 (arrayContainerCreateGivenCapacity totalCardinality))
  let array := bitsetSetList bitsetContainerCreate.array src1.array
  let (array, cardinality) := bitsetSetListWithcard array (arrayContainerCardinality src1) src2.array
  shrinkBitset { cardinality, array }

/-- `run_bitset_container_union`. -/
def runBitsetContainerUnion (src1 : RunContainer) (src2 : BitsetContainer) : Outcome BitsetContainer := do
  if runContainerIsFull src1 then throw .assertFailed
  let array ← src1.runs.foldlM (fun array rle => bitsetSetLenrange array rle.value.toNat rle.length.toNat) src2.array
  return { cardinality := bitsetContainerComputeCardinality array, array }

/-- The merge loop of `array_run_container_union`. -/
def unionRunsArrayLoop : List Rle16 → List UInt16 → List Rle16 × Rle16 → List Rle16
  | [], array, state => (array.foldl (fun s val => runContainerAppendValue s.1 s.2 val) state).1
  | runs, [], state => (runs.foldl (fun s rle => runContainerAppend s.1 s.2 rle) state).1
  | rle :: runs, val :: array, state =>
    if rle.value ≤ val then unionRunsArrayLoop runs (val :: array) (runContainerAppend state.1 state.2 rle)
    else unionRunsArrayLoop (rle :: runs) array (runContainerAppendValue state.1 state.2 val)
termination_by runs array => runs.length + array.length

/-- The merge of an array and the runs of a run container, from the first of
either on. -/
def unionRunsArray (runs : List Rle16) (array : List UInt16) : Outcome (List Rle16) :=
  match runs, array with
  | rle :: runs, val :: array =>
    if rle.value ≤ val then .ok (unionRunsArrayLoop runs (val :: array) ([rle], rle))
    else
      let first := { value := val, length := 0 }
      .ok (unionRunsArrayLoop (rle :: runs) array ([first], first))
  | _, _ => .error .uninitialized

/-- `array_run_container_union`. -/
def arrayRunContainerUnion (src1 : ArrayContainer) (src2 dst : RunContainer) : Outcome RunContainer := do
  if runContainerIsFull src2 then return ← runContainerCopy src2 dst
  let dst := runContainerGrow dst (2 * (arrayContainerCardinality src1 + src2.nRuns)) false
  dst.store (← unionRunsArray src2.runs src1.array)

/-- `array_run_container_inplace_union`: the result is in `src_2`. -/
def arrayRunContainerInplaceUnion (src1 : ArrayContainer) (src2 : RunContainer) : Outcome RunContainer := do
  if runContainerIsFull src2 then return src2
  let neededcapacity := arrayContainerCardinality src1 + src2.nRuns + src2.nRuns
  let src2 := if src2.capacity < neededcapacity then runContainerGrow src2 neededcapacity true else src2
  src2.store (← unionRunsArray src2.runs src1.array)

/-! ## Specifications -/

theorem arrayBitsetContainerUnion_spec (src1 : ArrayContainer) {src2 : BitsetContainer} (exact : src2.Exact) :
    (arrayBitsetContainerUnion src1 src2).Exact ∧
      ∀ x, x ∈ (arrayBitsetContainerUnion src1 src2).values ↔ x ∈ src2.values ∨ x ∈ src1.array := by
  obtain ⟨words, card, run, exact', members⟩ := bitsetSetListWithcard_spec src1.array src2.array exact
  rw [arrayBitsetContainerUnion, run]
  exact ⟨exact', members⟩

/-- The bitset of a valid array's members. -/
theorem bitsetSetList_create {arr : ArrayContainer} (valid : arr.Valid) :
    wordValues (bitsetSetList bitsetContainerCreate.array arr.array) = arr.array := by
  apply SortedList.eq_of_same_members (sorted_wordValues _) valid.sorted
  intro x
  rw [mem_bitsetSetList, ← BitsetContainer.values, bitsetContainerCreate_values]
  simp

/-- The union of two valid arrays: an array while they have at most 4096 values. -/
theorem arrayArrayContainerUnion_spec {src1 src2 : ArrayContainer} (valid1 : src1.Valid) (valid2 : src2.Valid) :
    ∃ c, arrayArrayContainerUnion src1 src2 = .ok c ∧ c.Plain ∧
      ∀ x, x ∈ c.values ↔ x ∈ src1.array ∨ x ∈ src2.array := by
  unfold arrayArrayContainerUnion
  by_cases small : arrayContainerCardinality src1 + arrayContainerCardinality src2 ≤ defaultMaxSize
  · obtain ⟨out, run, valid, members, length⟩ :=
      arrayContainerUnion_spec (arrayContainerCreateGivenCapacity _) valid1 valid2 (Nat.le_refl _)
    refine ⟨.array out, ?_, .array valid (length.trans small), members⟩
    simp only [small, if_true]
    rw [show arrayContainerCardinality src1 + arrayContainerCardinality src2 =
      src1.array.length + src2.array.length from rfl, run]
    rfl
  · have exact1 : arrayContainerCardinality src1 =
        (wordValues (bitsetSetList bitsetContainerCreate.array src1.array)).length := by
      rw [bitsetSetList_create valid1]; rfl
    obtain ⟨words, card, run, exact, members⟩ := bitsetSetListWithcard_spec src2.array _ exact1
    rw [bitsetSetList_create valid1] at members
    obtain ⟨c, shrunk, plain, values⟩ :=
      shrinkBitset_spec (show BitsetContainer.Exact { cardinality := card, array := words } from exact)
    refine ⟨c, ?_, plain, fun x => by rw [values]; exact members x⟩
    simp only [small, if_false, run]
    exact shrunk

/-! ## Unions with a run container -/

section Runs

variable {src2 dst : RunContainer} {state : List Rle16 × Rle16} {l : List Interval}

/-- The union of a run container that is not full and a bitset. -/
theorem runBitsetContainerUnion_spec {src1 : RunContainer} (ordered : RunsOrdered src1.runs)
    (partly : ¬ runContainerIsFull src1 = true) (src2 : BitsetContainer) :
    ∃ b, runBitsetContainerUnion src1 src2 = .ok b ∧ b.Exact ∧ ∀ x, x ∈ b.values ↔ x ∈ src1.values ∨ x ∈ src2.values := by
  obtain ⟨words, run, set⟩ := foldlM_setRuns src2.array
    fun rle member words => setLenrange_run words (ordered.within rle member)
  refine ⟨{ cardinality := bitsetContainerComputeCardinality words, array := words }, ?_,
    bitsetContainerComputeCardinality_eq words, ?_⟩
  · simp only [runBitsetContainerUnion, partly, if_false, run, ok_bind, Bool.false_eq_true]
    rfl
  · intro x
    rw [mem_runValues ordered, or_comm]
    exact set x

/-- A value of the array is merged as its run. -/
theorem unionRunsArrayLoop_eq (runs : List Rle16) (array : List UInt16) (within : ∀ rle ∈ runs, rle.stop ≤ 65536)
    (tracks : Tracks state l) : unionRunsArrayLoop runs array state = unionRunsLoop runs (singles array) state := by
  have small : ∀ val : UInt16, Rle16.stop { value := val, length := 0 } ≤ 65536 := fun val => val.toNat_lt
  fun_induction unionRunsArrayLoop runs array state generalizing l with
  | case1 array state =>
    rw [unionRunsLoop]
    induction array generalizing state l with
    | nil => rfl
    | cons val array ih =>
      rw [List.foldl_cons, runContainerAppendValue_eq tracks, ih _ (tracks.append (small val))]
      rfl
  | case2 runs state some =>
    rw [singles_nil, unionRunsLoop.eq_def]
    cases runs with
    | nil => rfl
    | cons rle runs => rfl
  | case3 rle runs val array state first ih =>
    obtain ⟨here, rest⟩ := List.forall_mem_cons.1 within
    rw [ih rest (tracks.append here), singles_cons, unionRunsLoop.eq_def _ _ state]
    simp only [first, if_true]
  | case4 rle runs val array state second ih =>
    rw [runContainerAppendValue_eq tracks] at ih ⊢
    rw [ih within (tracks.append (small val)), singles_cons, unionRunsLoop.eq_def _ _ state]
    simp only [second, if_false]

theorem unionRunsArray_eq {runs : List Rle16} {array : List UInt16} (within : ∀ rle ∈ runs, rle.stop ≤ 65536)
    (some1 : runs ≠ []) (some2 : array ≠ []) : unionRunsArray runs array = .ok (unionRuns runs (singles array)) := by
  obtain ⟨rle, runs, rfl⟩ := List.exists_cons_of_ne_nil some1
  obtain ⟨val, array, rfl⟩ := List.exists_cons_of_ne_nil some2
  simp only [unionRunsArray, unionRuns, singles_cons]
  split
  case isTrue first =>
    rw [unionRunsArrayLoop_eq _ _ (List.forall_mem_cons.1 within).2 (.first rle)]
    rfl
  case isFalse second =>
    rw [unionRunsArrayLoop_eq _ _ within (.first _)]

/-- The runs of the union of an array and a run container. -/
structure ArrayRunUnion (src1 : ArrayContainer) (src2 run : RunContainer) : Prop where
  fits : run.runs.length ≤ run.capacity
  ordered : RunsOrdered run.runs
  members : ∀ x, x ∈ run.values ↔ x ∈ src1.array ∨ x ∈ src2.values

theorem ArrayRunUnion.of_full (src1 : ArrayContainer) {run : RunContainer} (full : src2.Full) (runs : run.runs = src2.runs)
    (fits : run.runs.length ≤ run.capacity) : ArrayRunUnion src1 src2 run := by
  have all : run.Full := runs.trans full
  exact ⟨fits, all.ordered, fun x => ⟨fun _ => .inr (mem_full_values full x), fun _ => mem_full_values all x⟩⟩

/-- The merge stored where it has room. -/
theorem store_unionRunsArray {src1 : ArrayContainer} (valid1 : src1.Valid) (valid2 : src2.Valid) (some1 : src1.array ≠ [])
    (some2 : src2.runs ≠ []) (room : src1.array.length + src2.runs.length ≤ dst.capacity) :
    ∃ run, (unionRunsArray src2.runs src1.array >>= dst.store) = .ok run ∧ ArrayRunUnion src1 src2 run := by
  have someSingles : singles src1.array ≠ [] := fun none => some1 (List.map_eq_nil_iff.1 none)
  obtain ⟨runsFor, length⟩ := unionRuns_spec valid2.ordered (singles_ordered valid1.sorted) some2 someSingles
  have fits : (unionRuns src2.runs (singles src1.array)).length ≤ dst.capacity := by
    rw [singles, List.length_map, Nat.add_comm] at length
    exact length.trans room
  refine ⟨{ dst with runs := unionRuns src2.runs (singles src1.array) }, ?_, ⟨fits, runsFor.ordered, fun x => ?_⟩⟩
  · rw [unionRunsArray_eq valid2.ordered.within some2 some1]
    exact RunContainer.store_eq_ok fits
  · rw [RunsFor.mem_values runsFor, covers_singles, ← mem_runValues valid2.ordered, or_comm]

/-- The union of an array and a run container in a new container. -/
theorem arrayRunContainerUnion_spec {src1 : ArrayContainer} (valid1 : src1.Valid) (valid2 : src2.Valid)
    (some1 : src1.array ≠ []) (some2 : src2.runs ≠ []) (dst : RunContainer) :
    ∃ run, arrayRunContainerUnion src1 src2 dst = .ok run ∧ ArrayRunUnion src1 src2 run := by
  unfold arrayRunContainerUnion
  by_cases full : runContainerIsFull src2 = true
  · obtain ⟨run, copied, runs, fits⟩ := runContainerCopy_spec src2 dst
    exact ⟨run, by simp only [full, if_true, copied], .of_full src1 (runContainerIsFull_iff.1 full) runs fits⟩
  · have grown := le_capacity_runContainerGrow dst (2 * (arrayContainerCardinality src1 + src2.nRuns)) false
    simp only [full, if_false, Bool.false_eq_true]
    apply store_unionRunsArray valid1 valid2 some1 some2
    simp only [arrayContainerCardinality, RunContainer.nRuns] at grown ⊢
    omega

/-- The union of an array and a run container in place of the latter. -/
theorem arrayRunContainerInplaceUnion_spec {src1 : ArrayContainer} (valid1 : src1.Valid) (valid2 : src2.Valid)
    (some1 : src1.array ≠ []) (some2 : src2.runs ≠ []) :
    ∃ run, arrayRunContainerInplaceUnion src1 src2 = .ok run ∧ ArrayRunUnion src1 src2 run := by
  unfold arrayRunContainerInplaceUnion
  by_cases full : runContainerIsFull src2 = true
  · exact ⟨src2, by simp only [full, if_true]; rfl, .of_full src1 (runContainerIsFull_iff.1 full) rfl valid2.fits⟩
  · obtain ⟨capacity, enough, grown⟩ := grow_runs src2 (arrayContainerCardinality src1 + src2.nRuns + src2.nRuns)
    simp only [full, if_false, grown, Bool.false_eq_true]
    apply store_unionRunsArray valid1 valid2 some1 some2
    simp only [arrayContainerCardinality, RunContainer.nRuns] at enough ⊢
    omega

end Runs

end RedisRoaring
