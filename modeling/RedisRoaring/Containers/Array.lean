import RedisRoaring.Library.Exec
import RedisRoaring.Library.SortedList
import RedisRoaring.Library.MachineOrder

/-!
# Array containers

A sorted array of 16-bit values with a capacity. The model keeps the
`cardinality` slots in use as a list; a write goes through `store`, which
faults when the values no longer fit the allocation. `binarySearch`,
`union_uint16` and `difference_uint16` are the sorted-list algorithms of the
library at `UInt16`.
-/

namespace RedisRoaring

open Exec SortedList

/-! ## Constants -/

/-- `DEFAULT_MAX_SIZE`: the largest array container. -/
def defaultMaxSize : Nat := 4096

/-- `ARRAY_DEFAULT_INIT_SIZE`. -/
def arrayDefaultInitSize : Nat := 16

/-- `INT32_MAX`. -/
def int32Max : Nat := 2147483647

/-! ## The container -/

/-- `array_container_t`. -/
structure ArrayContainer where
  capacity : Nat
  array : List UInt16
  deriving DecidableEq, Repr

/-- `array_container_cardinality`. -/
def arrayContainerCardinality (array : ArrayContainer) : Nat := array.array.length

/-- Overwrite the slots in use. -/
def ArrayContainer.store (arr : ArrayContainer) (array : List UInt16) : Outcome ArrayContainer :=
  if array.length ≤ arr.capacity then .ok { arr with array } else .error .outOfBounds

/-- `array_container_create_given_capacity`. -/
def arrayContainerCreateGivenCapacity (size : Nat) : ArrayContainer := { capacity := size, array := [] }

/-- `array_container_create`. -/
def arrayContainerCreate : ArrayContainer := arrayContainerCreateGivenCapacity arrayDefaultInitSize

/-- `array_container_clone`. -/
def arrayContainerClone (src : ArrayContainer) : Outcome ArrayContainer :=
  (arrayContainerCreateGivenCapacity src.capacity).store src.array

/-- `grow_capacity`. -/
def growCapacity (capacity : Nat) : Nat :=
  if capacity = 0 then arrayDefaultInitSize
  else if capacity < 64 then capacity * 2
  else if capacity < 1024 then capacity * 3 / 2
  else capacity * 5 / 4

/-- `clamp`. -/
def clamp (val min max : Nat) : Nat := if val < min then min else if max < val then max else val

/-- `array_container_grow`: without `preserve` the old values are lost. -/
def arrayContainerGrow (container : ArrayContainer) (min max : Nat) (preserve : Bool) : ArrayContainer :=
  let newCapacity := clamp (growCapacity container.capacity) min max
  let newCapacity := if newCapacity > max - max / 16 then max else newCapacity
  { capacity := newCapacity, array := if preserve then container.array else [] }

/-- `array_container_full`. -/
def arrayContainerFull (array : ArrayContainer) : Bool := arrayContainerCardinality array == array.capacity

/-- `array_container_append`. -/
def arrayContainerAppend (arr : ArrayContainer) (pos : UInt16) : Outcome ArrayContainer :=
  let arr := if arrayContainerFull arr then arrayContainerGrow arr (arr.capacity + 1) int32Max true else arr
  arr.store (arr.array ++ [pos])

/-- `array_container_add`: whether `pos` was absent, and the new array. -/
def arrayContainerAdd (arr : ArrayContainer) (pos : UInt16) : Outcome (ArrayContainer × Bool) := do
  if arr.array.getLast?.all (· < pos) then
    -- the array is empty, or its last value is below `pos`
    return (← arrayContainerAppend arr pos, true)
  let loc := binarySearch arr.array pos
  if loc < 0 then
    let arr := if arrayContainerFull arr then arrayContainerGrow arr (arr.capacity + 1) int32Max true else arr
    let insertIdx := (-loc - 1).toNat
    return (← arr.store (arr.array.take insertIdx ++ pos :: arr.array.drop insertIdx), true)
  else return (arr, false)

/-- `array_container_remove`. -/
def arrayContainerRemove (arr : ArrayContainer) (pos : UInt16) : ArrayContainer × Bool :=
  let idx := binarySearch arr.array pos
  if 0 ≤ idx then
    ({ arr with array := arr.array.take idx.toNat ++ arr.array.drop (idx.toNat + 1) }, true)
  else (arr, false)

/-- `array_container_contains`. -/
def arrayContainerContains (arr : ArrayContainer) (pos : UInt16) : Bool :=
  decide (0 ≤ binarySearch arr.array pos)

/-- `array_container_union`: the smaller array is merged first. -/
def arrayContainerUnion (array1 array2 out : ArrayContainer) : Outcome ArrayContainer :=
  let maxCardinality := arrayContainerCardinality array1 + arrayContainerCardinality array2
  let out := if out.capacity < maxCardinality then arrayContainerGrow out maxCardinality int32Max false else out
  if arrayContainerCardinality array1 < arrayContainerCardinality array2 then
    out.store (union array1.array array2.array)
  else out.store (union array2.array array1.array)

/-- `array_container_andnot`. -/
def arrayContainerAndnot (array1 array2 out : ArrayContainer) : Outcome ArrayContainer :=
  let out :=
    if out.capacity < arrayContainerCardinality array1 then
      arrayContainerGrow out (arrayContainerCardinality array1) int32Max false
    else out
  out.store (difference array1.array array2.array)

/-! ## What the operations do -/

/-- Strictly increasing values within the allocation. -/
structure ArrayContainer.Valid (arr : ArrayContainer) : Prop where
  sorted : arr.array.Pairwise (· < ·)
  fits : arr.array.length ≤ arr.capacity

section Specs

variable {arr : ArrayContainer} {pos : UInt16}

/-- A store of values that fit. -/
theorem store_eq_ok {array : List UInt16} (fits : array.length ≤ arr.capacity) :
    arr.store array = .ok { arr with array } := if_pos fits

/-- Growing reaches the capacity that was asked for. -/
theorem le_capacity_grow (arr : ArrayContainer) {min max : Nat} (preserve : Bool) (bound : min ≤ max) :
    min ≤ (arrayContainerGrow arr min max preserve).capacity := by
  have clamped : min ≤ clamp (growCapacity arr.capacity) min max := by
    unfold clamp
    split
    · exact Nat.le_refl _
    · split <;> omega
  unfold arrayContainerGrow
  simp only
  split
  · exact bound
  · exact clamped

/-- Making room for one more value keeps the values. -/
theorem grow_if_full (fits : arr.array.length ≤ arr.capacity) (small : arr.array.length < int32Max) :
    ∃ capacity, arr.array.length < capacity ∧
      (if arrayContainerFull arr then arrayContainerGrow arr (arr.capacity + 1) int32Max true else arr) =
        { capacity, array := arr.array } := by
  by_cases full : arr.array.length = arr.capacity
  · refine ⟨_, ?_, by rw [if_pos (by simp [arrayContainerFull, arrayContainerCardinality, full])]; rfl⟩
    exact le_capacity_grow arr true (by omega) |>.trans_lt' (by omega)
  · refine ⟨arr.capacity, by omega, ?_⟩
    rw [if_neg (by simp [arrayContainerFull, arrayContainerCardinality, full])]

/-- The value inserted between a smaller and a larger part. -/
theorem valid_insert {pre post : List UInt16} {capacity : Nat} (sorted : (pre ++ post).Pairwise (· < ·))
    (below : ∀ y ∈ pre, y < pos) (above : ∀ y ∈ post, pos < y) (room : (pre ++ post).length < capacity) :
    ArrayContainer.Valid { capacity, array := pre ++ pos :: post } :=
  ⟨sorted_insert sorted below above, by simp at room ⊢; omega⟩

/-- Appending a value above all others. -/
theorem arrayContainerAppend_spec (valid : arr.Valid) (small : arr.array.length < int32Max)
    (above : ∀ y ∈ arr.array, y < pos) :
    ∃ arr', arrayContainerAppend arr pos = .ok arr' ∧ arr'.Valid ∧ arr'.array = arr.array ++ [pos] := by
  obtain ⟨capacity, room, grown⟩ := grow_if_full valid.fits small
  refine ⟨{ capacity, array := arr.array ++ [pos] }, ?_, ?_, rfl⟩
  · rw [arrayContainerAppend, grown]
    exact store_eq_ok (by simp; omega)
  · have sorted : (arr.array ++ []).Pairwise (· < ·) := by simpa using valid.sorted
    exact valid_insert sorted above (by simp) (by simpa using room)

/-- The test for appending: every value is below `pos`. -/
theorem append_test_iff (sorted : arr.array.Pairwise (· < ·)) :
    arr.array.getLast?.all (· < pos) = true ↔ ∀ y ∈ arr.array, y < pos := by
  rcases List.eq_nil_or_concat arr.array with empty | ⟨front, last, split⟩
  · simp [empty]
  · rw [List.concat_eq_append] at split
    rw [split] at sorted ⊢
    obtain ⟨below, -⟩ := sorted_split (show (front ++ last :: []).Pairwise (· < ·) from sorted)
    simp only [List.getLast?_append, List.getLast?_singleton, Option.some_or, Option.all_some,
      decide_eq_true_eq, List.mem_append, List.mem_singleton]
    exact ⟨fun lt y hy => hy.elim (fun h => lt_trans (below y h) lt) (fun h => h ▸ lt), fun h => h last (.inr rfl)⟩

/-- Adding a value keeps the array valid and adds exactly that value. -/
theorem arrayContainerAdd_spec (valid : arr.Valid) (small : arr.array.length < int32Max) (pos : UInt16) :
    ∃ arr' fresh, arrayContainerAdd arr pos = .ok (arr', fresh) ∧ arr'.Valid ∧
      ∀ x, x ∈ arr'.array ↔ x ∈ arr.array ∨ x = pos := by
  unfold arrayContainerAdd
  by_cases atEnd : arr.array.getLast?.all (· < pos) = true
  · obtain ⟨arr', run, valid', array⟩ :=
      arrayContainerAppend_spec valid small ((append_test_iff valid.sorted).1 atEnd)
    refine ⟨arr', true, ?_, valid', fun x => by simp [array]⟩
    rw [if_pos atEnd, run]; rfl
  · rw [if_neg atEnd]
    have search := binarySearch_search valid.sorted pos
    generalize binarySearch arr.array pos = loc at search ⊢
    cases search with
    | hit pre post split =>
      refine ⟨arr, false, ?_, valid, ?_⟩
      · simp only [show ¬ ((pre.length : Int) < 0) by omega, if_false, pure_eq]
      · intro x
        have present : pos ∈ arr.array := by simp [split]
        exact ⟨.inl, fun h => h.elim id fun e => e ▸ present⟩
    | miss pre post split below above =>
      obtain ⟨capacity, room, grown⟩ := grow_if_full valid.fits small
      have index : (-(-(pre.length + 1 : Int)) - 1).toNat = pre.length := by omega
      have sorted := valid.sorted
      rw [split] at sorted room
      refine ⟨{ capacity, array := pre ++ pos :: post }, true, ?_, valid_insert sorted below above room, ?_⟩
      · simp only [show (-(pre.length + 1 : Int)) < 0 by omega, if_true, grown, index, split, List.take_left,
          List.drop_left]
        rw [store_eq_ok (by simp at room ⊢; omega)]; rfl
      · intro x
        simp only [split, List.mem_append, List.mem_cons]
        tauto

/-- Removing a value keeps the array valid and removes exactly that value. -/
theorem arrayContainerRemove_spec (valid : arr.Valid) (pos : UInt16) :
    ∃ arr' present, arrayContainerRemove arr pos = (arr', present) ∧ arr'.Valid ∧
      ∀ x, x ∈ arr'.array ↔ x ∈ arr.array ∧ x ≠ pos := by
  unfold arrayContainerRemove
  have search := binarySearch_search valid.sorted pos
  have member := search.nonneg_iff
  generalize binarySearch arr.array pos = loc at search member ⊢
  cases search with
  | hit pre post split =>
    have sorted := valid.sorted
    have fits := valid.fits
    rw [split] at sorted fits
    refine ⟨{ capacity := arr.capacity, array := pre ++ post }, true, ?_, ⟨?_, ?_⟩, ?_⟩
    · simp [split, List.drop_append]
    · exact sorted.sublist ((List.sublist_cons_self pos post).append_left pre)
    · simp at fits ⊢; omega
    · intro x
      rw [split]; exact mem_erased_iff sorted
  | miss pre post split below above =>
    have absent : pos ∉ arr.array := fun h => by have := member.2 h; omega
    refine ⟨arr, false, ?_, valid, fun x => ⟨fun h => ⟨h, fun e => absent (e ▸ h)⟩, fun h => h.1⟩⟩
    simp only [show ¬ (0 ≤ -(pre.length + 1 : Int)) by omega, if_false]

/-- The membership test. -/
theorem arrayContainerContains_iff (valid : arr.Valid) : arrayContainerContains arr pos = true ↔ pos ∈ arr.array := by
  rw [arrayContainerContains, decide_eq_true_iff, (binarySearch_search valid.sorted pos).nonneg_iff]

/-- The union of two valid arrays. -/
theorem arrayContainerUnion_spec {array1 array2 : ArrayContainer} (out : ArrayContainer) (valid1 : array1.Valid)
    (valid2 : array2.Valid) (room : array1.array.length + array2.array.length ≤ out.capacity) :
    ∃ out', arrayContainerUnion array1 array2 out = .ok out' ∧ out'.Valid ∧
      (∀ x, x ∈ out'.array ↔ x ∈ array1.array ∨ x ∈ array2.array) ∧
      out'.array.length ≤ array1.array.length + array2.array.length := by
  have noGrow : ¬ out.capacity < array1.array.length + array2.array.length := Nat.not_lt.2 room
  unfold arrayContainerUnion
  simp only [arrayContainerCardinality, noGrow, if_false]
  split
  case isTrue =>
    have length := length_union_le array1.array array2.array
    exact ⟨_, store_eq_ok (length.trans room), ⟨sorted_union valid1.sorted valid2.sorted, length.trans room⟩,
      mem_union _ _, length⟩
  case isFalse =>
    have length := length_union_le array2.array array1.array
    rw [Nat.add_comm] at length
    exact ⟨_, store_eq_ok (length.trans room), ⟨sorted_union valid2.sorted valid1.sorted, length.trans room⟩,
      fun x => (mem_union _ _ x).trans or_comm, length⟩

/-- The difference of two valid arrays, computed in place of the first. -/
theorem arrayContainerAndnot_spec {array1 array2 : ArrayContainer} (valid1 : array1.Valid) (valid2 : array2.Valid) :
    ∃ out', arrayContainerAndnot array1 array2 array1 = .ok out' ∧ out'.Valid ∧
      ∀ x, x ∈ out'.array ↔ x ∈ array1.array ∧ x ∉ array2.array := by
  have length := (difference_sublist array1.array array2.array).length_le.trans valid1.fits
  refine ⟨{ array1 with array := difference array1.array array2.array }, ?_,
    ⟨sorted_difference valid1.sorted _, length⟩, mem_difference valid1.sorted valid2.sorted⟩
  have noGrow : ¬ array1.capacity < array1.array.length := Nat.not_lt.2 valid1.fits
  unfold arrayContainerAndnot
  simp only [arrayContainerCardinality, noGrow, if_false]
  exact store_eq_ok length

end Specs

end RedisRoaring
