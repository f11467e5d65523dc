import RedisRoaring.Containers.Kinds

/-!
# Unions and differences in new containers

`container_or` and `container_andnot` leave their operands alone. Most pairs of
types share their code with the in-place operations, on a copy or with a new
container to write to. On valid containers the results have the same members.
-/

namespace RedisRoaring

open Exec SortedList Intervals

/-! ## Unions -/

/-- `run_container_union`. -/
def runContainerUnion (src1 src2 dst : RunContainer) : Outcome RunContainer := do
  if runContainerIsFull src1 then return ← runContainerCopy src1 dst
  if runContainerIsFull src2 then return ← runContainerCopy src2 dst
  let neededcapacity := src1.nRuns + src2.nRuns
  let dst := if dst.capacity < neededcapacity then runContainerGrow dst neededcapacity false else dst
  match src1.runs, src2.runs with
  | rle1 :: input1, rle2 :: input2 =>
    if rle1.value ≤ rle2.value then dst.store (unionRunsLoop input1 (rle2 :: input2) ([rle1], rle1))
    else dst.store (unionRunsLoop (rle1 :: input1) input2 ([rle2], rle2))
  | _, _ => throw .uninitialized

/-- `container_or`. -/
def containerOr (c1 c2 : SlotContainer) : Outcome Container := do
  match containerUnwrapShared c1, containerUnwrapShared c2 with
  | .bitset b1, .bitset b2 => return .bitset (bitsetContainerOr b1 b2)
  | .array a1, .array a2 => arrayArrayContainerUnion a1 a2
  | .run r1, .run r2 => convertRunToEfficientContainer (← runContainerUnion r1 r2 runContainerCreate)
  | .bitset b1, .array a2 => return .bitset (arrayBitsetContainerUnion a2 b1)
  | .array a1, .bitset b2 => return .bitset (arrayBitsetContainerUnion a1 b2)
  | .bitset b1, .run r2 =>
    if runContainerIsFull r2 then return .run (← runContainerCopy r2 runContainerCreate)
    else return .bitset (← runBitsetContainerUnion r2 b1)
  | .run r1, .bitset b2 =>
    if runContainerIsFull r1 then return .run (← runContainerCopy r1 runContainerCreate)
    else return .bitset (← runBitsetContainerUnion r1 b2)
  | .array a1, .run r2 => convertRunToEfficientContainer (← arrayRunContainerUnion a1 r2 runContainerCreate)
  | .run r1, .array a2 => convertRunToEfficientContainer (← arrayRunContainerUnion a2 r1 runContainerCreate)

/-! ## Differences -/

/-- `array_bitset_container_andnot`. -/
def arrayBitsetContainerAndnot (src1 : ArrayContainer) (src2 : BitsetContainer) (dst : ArrayContainer) :
    Outcome ArrayContainer :=
  let dst :=
    if dst.capacity < arrayContainerCardinality src1 then
      arrayContainerGrow dst (arrayContainerCardinality src1) int32Max false
    else dst
  dst.store (src1.array.filter fun key => !bitsetContainerGet src2 key)

/-- `array_run_container_andnot`. -/
def arrayRunContainerAndnot (src1 : ArrayContainer) (src2 : RunContainer) (dst : ArrayContainer) :
    Outcome ArrayContainer :=
  let dst :=
    if dst.capacity < arrayContainerCardinality src1 then
      arrayContainerGrow dst (arrayContainerCardinality src1) int32Max false
    else dst
  match src2.runs with
  | [] => dst.store src1.array
  | rle :: rest =>
    dst.store (arrayRunAndnotLoop rle.value.toNat (rle.value.toNat + rle.length.toNat) rest src1.array)

/-- `container_andnot`. -/
def containerAndnot (c1 c2 : SlotContainer) : Outcome Container := do
  match containerUnwrapShared c1, containerUnwrapShared c2 with
  | .bitset b1, .bitset b2 => bitsetBitsetContainerIandnot b1 b2
  | .array a1, .array a2 => return .array (← arrayContainerAndnot a1 a2 arrayContainerCreate)
  | .run r1, .run r2 =>
    if runContainerIsFull r2 then return .array arrayContainerCreate
    else runRunContainerIandnot r1 r2
  | .bitset b1, .array a2 => bitsetArrayContainerIandnot (bitsetContainerClone b1) a2
  | .array a1, .bitset b2 => return .array (← arrayBitsetContainerAndnot a1 b2 arrayContainerCreate)
  | .bitset b1, .run r2 =>
    if runContainerIsFull r2 then return .array arrayContainerCreate
    else bitsetRunContainerIandnot (bitsetContainerClone b1) r2
  | .run r1, .bitset b2 => runBitsetContainerAndnot r1 b2
  | .array a1, .run r2 =>
    if runContainerIsFull r2 then return .array arrayContainerCreate
    else return .array (← arrayRunContainerAndnot a1 r2 arrayContainerCreate)
  | .run r1, .array a2 => runArrayContainerAndnot r1 a2

/-! ## Specifications -/

/-- The union of two run containers in a new one. -/
theorem runContainerUnion_spec {src1 src2 : RunContainer} (valid1 : src1.Valid) (valid2 : src2.Valid)
    (some1 : src1.runs ≠ []) (some2 : src2.runs ≠ []) (dst : RunContainer) :
    ∃ run, runContainerUnion src1 src2 dst = .ok run ∧ run.runs.length ≤ run.capacity ∧
      RunsFor run.runs fun n => Covers (intervals src1.runs) n ∨ Covers (intervals src2.runs) n := by
  unfold runContainerUnion
  by_cases full1 : runContainerIsFull src1 = true
  · obtain ⟨run, copied, runs, fits⟩ := runContainerCopy_spec src1 dst
    have all := (runContainerIsFull_iff.1 full1).covers_iff
    refine ⟨run, by simp only [full1, copied]; rfl, fits, runs ▸ valid1.ordered, ?_⟩
    intro n
    rw [runs, all, or_iff_left_of_imp valid2.ordered.lt]
  by_cases full2 : runContainerIsFull src2 = true
  · obtain ⟨run, copied, runs, fits⟩ := runContainerCopy_spec src2 dst
    have all := (runContainerIsFull_iff.1 full2).covers_iff
    refine ⟨run, by simp only [full1, full2, copied]; rfl, fits, runs ▸ valid2.ordered, ?_⟩
    intro n
    rw [runs, all, or_iff_right_of_imp valid1.ordered.lt]
  · obtain ⟨runsFor, length⟩ := unionRuns_spec valid1.ordered valid2.ordered some1 some2
    have room : (unionRuns src1.runs src2.runs).length ≤ (if dst.capacity < src1.nRuns + src2.nRuns then
        runContainerGrow dst (src1.nRuns + src2.nRuns) false else dst).capacity := by
      apply length.trans
      split
      · exact le_capacity_runContainerGrow ..
      · next enough => exact Nat.le_of_not_lt enough
    simp only [full1, full2, Bool.false_eq_true, if_false]
    generalize (if dst.capacity < src1.nRuns + src2.nRuns then
      runContainerGrow dst (src1.nRuns + src2.nRuns) false else dst) = dst' at room
    refine ⟨{ dst' with runs := unionRuns src1.runs src2.runs }, ?_, room, runsFor⟩
    obtain ⟨rle1, input1, split1⟩ := List.exists_cons_of_ne_nil some1
    obtain ⟨rle2, input2, split2⟩ := List.exists_cons_of_ne_nil some2
    rw [split1, split2] at room ⊢
    simp only [unionRuns] at room ⊢
    split
    case isTrue first =>
      rw [if_pos first] at room
      exact RunContainer.store_eq_ok room
    case isFalse second =>
      rw [if_neg second] at room
      exact RunContainer.store_eq_ok room

section Valid

variable {c1 c2 : Container}

/-- The union in a new container. -/
theorem containerOr_valid (valid1 : c1.Valid) (valid2 : c2.Valid) (some1 : c1.values ≠ []) (some2 : c2.values ≠ []) :
    ∃ c, containerOr (.owned c1) (.owned c2) = .ok c ∧ c.Valid ∧
      ∀ x, x ∈ c.values ↔ x ∈ c1.values ∨ x ∈ c2.values := by
  have inplace := containerIor_valid valid1 valid2 some1 some2
  cases valid1 with
  | plain plain1 =>
    cases valid2 with
    | plain plain2 =>
      cases plain1 with
      | array valid1 small1 => cases plain2 <;> exact inplace
      | @bitset b1 exact1 large1 =>
        cases plain2 with
        | array valid2 small2 => exact inplace
        | @bitset b2 exact2 large2 =>
          obtain ⟨exact, members⟩ := bitsetContainerOr_spec b1 b2
          have plain := plain_of_grown exact1 large1 exact fun x inside => (members x).2 (.inl inside)
          exact ⟨_, rfl, .plain plain, members⟩
    | run valid2 => cases plain1 <;> exact inplace
  | @run r1 valid1 =>
    cases valid2 with
    | plain plain2 =>
      cases plain2 with
      | @array a2 valid2 small2 =>
        obtain ⟨run, made, union⟩ := arrayRunContainerUnion_spec valid2 valid1 some2 (runs_ne_nil some1) runContainerCreate
        obtain ⟨c, converted, valid, members⟩ := convertRunToEfficientContainer_spec union.ordered union.fits
        refine ⟨c, ?_, valid, fun x => ((members x).trans (union.members x)).trans or_comm⟩
        simp only [containerOr, containerUnwrapShared, ok_bind, made]
        exact converted
      | @bitset b2 exact2 large2 =>
        simp only [containerIor, containerOr, getWritableCopyIfShared, containerUnwrapShared, ok_bind] at inplace ⊢
        by_cases full : runContainerIsFull r1 = true
        · have whole := runContainerIsFull_iff.1 full
          obtain ⟨run, copied, runs, fits⟩ := runContainerCopy_spec r1 runContainerCreate
          have all : run.Full := runs.trans whole
          refine ⟨.run run, by simp only [full, if_true, copied, ok_bind]; rfl, valid_of_full whole runs fits, fun x => ?_⟩
          exact ⟨fun _ => .inl (mem_full_values whole x), fun _ => mem_full_values all x⟩
        · simp only [full, if_false, Bool.false_eq_true] at inplace ⊢
          exact inplace
    | @run r2 valid2 =>
      obtain ⟨run, made, fits, runsFor⟩ :=
        runContainerUnion_spec valid1 valid2 (runs_ne_nil some1) (runs_ne_nil some2) runContainerCreate
      obtain ⟨c, converted, valid, members⟩ := convertRunToEfficientContainer_spec runsFor.ordered fits
      refine ⟨c, ?_, valid, fun x => ?_⟩
      · simp only [containerOr, containerUnwrapShared, ok_bind, made]
        exact converted
      · rw [members, runsFor.mem_values, Container.values_run, Container.values_run, mem_runValues valid1.ordered,
          mem_runValues valid2.ordered]

/-- Part of an array is written to another array, which grows if it is short. -/
theorem store_part {src1 : ArrayContainer} (valid : src1.Valid) {part : List UInt16} (within : part.Sublist src1.array)
    (dst : ArrayContainer) :
    ∃ arr, (if dst.capacity < arrayContainerCardinality src1 then
        arrayContainerGrow dst (arrayContainerCardinality src1) int32Max false else dst).store part = .ok arr ∧
      arr.Valid ∧ arr.array = part := by
  have small : src1.array.length ≤ int32Max :=
    (MachineOrder.length_le_of_nodup (nodup_of_sorted valid.sorted)).trans (by decide)
  have room : part.length ≤ (if dst.capacity < arrayContainerCardinality src1 then
      arrayContainerGrow dst (arrayContainerCardinality src1) int32Max false else dst).capacity := by
    apply within.length_le.trans
    split
    · exact le_capacity_grow dst false small
    · next enough => exact Nat.le_of_not_lt enough
  exact ⟨_, store_eq_ok room, ⟨valid.sorted.sublist within, room⟩, rfl⟩

theorem arrayBitsetContainerAndnot_spec {src1 : ArrayContainer} (valid : src1.Valid) (src2 : BitsetContainer)
    (dst : ArrayContainer) :
    ∃ arr, arrayBitsetContainerAndnot src1 src2 dst = .ok arr ∧ arr.Valid ∧ arr.array.Sublist src1.array ∧
      ∀ x, x ∈ arr.array ↔ x ∈ src1.array ∧ x ∉ src2.values := by
  have part : (src1.array.filter fun key => !bitsetContainerGet src2 key).Sublist src1.array := List.filter_sublist
  obtain ⟨arr, run, valid', isPart⟩ := store_part valid part dst
  refine ⟨arr, run, valid', isPart ▸ part, fun x => ?_⟩
  rw [isPart]
  simp only [List.mem_filter, Bool.not_eq_true', ← Bool.not_eq_true, bitsetContainerGet_iff]

theorem arrayRunContainerAndnot_spec {src1 : ArrayContainer} {r : RunContainer} (valid : src1.Valid)
    (ordered : RunsOrdered r.runs) (dst : ArrayContainer) :
    ∃ arr, arrayRunContainerAndnot src1 r dst = .ok arr ∧ arr.Valid ∧ arr.array.Sublist src1.array ∧
      ∀ x, x ∈ arr.array ↔ x ∈ src1.array ∧ x ∉ r.values := by
  have members := fun x => mem_runValues (r := r) (x := x) ordered
  unfold arrayRunContainerAndnot
  simp only [members]
  generalize r.runs = runs at ordered
  cases runs with
  | nil =>
    obtain ⟨arr, run, valid', isPart⟩ := store_part valid (List.Sublist.refl _) dst
    exact ⟨arr, run, valid', isPart ▸ List.Sublist.refl _, fun x => by simp [isPart]⟩
  | cons rle rest =>
    have tail : RunsOrdered rest := ordered.sublist (List.sublist_cons_self ..)
    obtain ⟨part, kept⟩ := arrayRunAndnotLoop_spec rle.value.toNat (rle.value.toNat + rle.length.toNat) rest src1.array
      (Nat.le_add_right ..) valid.sorted tail fun c member => (List.pairwise_cons.1 ordered.apart).1 c member
    obtain ⟨arr, run, valid', isPart⟩ := store_part valid part dst
    refine ⟨arr, run, valid', isPart ▸ part, fun x => ?_⟩
    rw [isPart, kept, intervals_cons, covers_cons, has_interval_iff, Rle16.stop, Nat.lt_succ_iff]

theorem arrayContainerAndnot_new {src1 src2 : ArrayContainer} (valid1 : src1.Valid) (valid2 : src2.Valid)
    (dst : ArrayContainer) :
    ∃ arr, arrayContainerAndnot src1 src2 dst = .ok arr ∧ arr.Valid ∧ arr.array.Sublist src1.array ∧
      ∀ x, x ∈ arr.array ↔ x ∈ src1.array ∧ x ∉ src2.array := by
  obtain ⟨arr, run, valid', isPart⟩ := store_part valid1 (difference_sublist src1.array src2.array) dst
  refine ⟨arr, run, valid', isPart ▸ difference_sublist .., fun x => ?_⟩
  rw [isPart, mem_difference valid1.sorted valid2.sorted]

/-- Nothing is left when a full run is subtracted. -/
theorem emptied_by_full {values : List UInt16} {r : RunContainer} (full : runContainerIsFull r = true) (x : UInt16) :
    x ∈ Container.values (.array arrayContainerCreate) ↔ x ∈ values ∧ x ∉ r.values :=
  iff_of_false List.not_mem_nil fun given => given.2 (mem_full_values (runContainerIsFull_iff.1 full) x)

/-- The difference in a new container; it may be empty. -/
theorem containerAndnot_valid (valid1 : c1.Valid) (valid2 : c2.Valid) (some1 : c1.values ≠ []) :
    ∃ c, containerAndnot (.owned c1) (.owned c2) = .ok c ∧ c.Valid ∧
      ∀ x, x ∈ c.values ↔ x ∈ c1.values ∧ x ∉ c2.values := by
  have inplace := containerIandnot_valid valid1 valid2 some1
  cases valid1 with
  | plain plain1 =>
    cases plain1 with
    | @array a1 valid1 small1 =>
      have kept : ∀ {arr : ArrayContainer}, arr.Valid → arr.array.Sublist a1.array → Container.Valid (.array arr) :=
        fun valid part => .plain (.array valid (part.length_le.trans small1))
      cases valid2 with
      | plain plain2 =>
        cases plain2 with
        | @array a2 valid2 small2 =>
          obtain ⟨arr, run, valid, part, members⟩ := arrayContainerAndnot_new valid1 valid2 arrayContainerCreate
          refine ⟨.array arr, ?_, kept valid part, members⟩
          simp only [containerAndnot, containerUnwrapShared, run, ok_bind, pure_eq]
        | @bitset b2 exact2 large2 =>
          obtain ⟨arr, run, valid, part, members⟩ := arrayBitsetContainerAndnot_spec valid1 b2 arrayContainerCreate
          refine ⟨.array arr, ?_, kept valid part, members⟩
          simp only [containerAndnot, containerUnwrapShared, run, ok_bind, pure_eq]
      | @run r2 valid2 =>
        simp only [containerAndnot, containerUnwrapShared]
        by_cases full : runContainerIsFull r2 = true
        · exact ⟨_, by simp only [full, if_true, pure_eq], .plain plain_create, emptied_by_full full⟩
        · obtain ⟨arr, run, valid, part, members⟩ :=
            arrayRunContainerAndnot_spec valid1 valid2.ordered arrayContainerCreate
          refine ⟨.array arr, ?_, kept valid part, members⟩
          simp only [full, if_false, Bool.false_eq_true, run, ok_bind, pure_eq]
    | bitset exact1 large1 =>
      cases valid2 with
      | plain plain2 => cases plain2 <;> exact inplace
      | @run r2 valid2 =>
        simp only [containerAndnot, containerIandnot, getWritableCopyIfShared, containerUnwrapShared, ok_bind] at inplace ⊢
        by_cases full : runContainerIsFull r2 = true
        · exact ⟨_, by simp only [full, if_true, pure_eq], .plain plain_create, emptied_by_full full⟩
        · simp only [full, if_false, Bool.false_eq_true]
          exact inplace
  | run valid1 =>
    cases valid2 with
    | plain plain2 => cases plain2 <;> exact inplace
    | @run r2 valid2 =>
      simp only [containerAndnot, containerIandnot, getWritableCopyIfShared, containerUnwrapShared, ok_bind] at inplace ⊢
      by_cases full : runContainerIsFull r2 = true
      · exact ⟨_, by simp only [full, if_true, pure_eq], .plain plain_create, emptied_by_full full⟩
      · simp only [full, if_false, Bool.false_eq_true]
        exact inplace

end Valid

end RedisRoaring
