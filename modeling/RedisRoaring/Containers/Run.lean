import RedisRoaring.Containers.BitsetUtil

/-!
# Run containers

A run `{ value, length }` stands for the values `value .. value + length`. The
commands never store a run container: the only one they make is the full run
`0 .. 65535`, into which the union of two bitsets that fills a chunk is
converted.
-/

namespace RedisRoaring

open Exec SortedList

/-- `RUN_DEFAULT_INIT_SIZE`. -/
def runDefaultInitSize : Nat := 4

/-- `rle16_t`. -/
structure Rle16 where
  value : UInt16
  length : UInt16
  deriving DecidableEq, Repr

/-- The first number after the run. -/
def Rle16.stop (rle : Rle16) : Nat := rle.value.toNat + rle.length.toNat + 1

/-- The numbers of the run in increasing order. -/
def Rle16.numbers (rle : Rle16) : List Nat := List.range' rle.value.toNat (rle.length.toNat + 1)

/-- `(rle16_t){.value = start, .length = end - start - 1}`. -/
def Rle16.ofInterval (start end_ : Nat) : Rle16 :=
  { value := UInt16.ofNat start, length := UInt16.ofNat (end_ - start - 1) }

/-- `run_container_t`. -/
structure RunContainer where
  capacity : Nat
  runs : List Rle16
  deriving DecidableEq, Repr

/-- The `n_runs` field. -/
def RunContainer.nRuns (run : RunContainer) : Nat := run.runs.length

/-- Overwrite the runs in use. -/
def RunContainer.store (run : RunContainer) (runs : List Rle16) : Outcome RunContainer :=
  if runs.length ≤ run.capacity then .ok { run with runs } else .error .outOfBounds

/-- `run_container_create_given_capacity`. -/
def runContainerCreateGivenCapacity (size : Nat) : RunContainer := { capacity := size, runs := [] }

/-- `run_container_create`. -/
def runContainerCreate : RunContainer := runContainerCreateGivenCapacity runDefaultInitSize

/-- `run_container_clone`. -/
def runContainerClone (src : RunContainer) : Outcome RunContainer :=
  (runContainerCreateGivenCapacity src.capacity).store src.runs

/-- `run_container_cardinality`: the sum starts at `n_runs`, the `+ 1` of every run. -/
def runContainerCardinality (run : RunContainer) : Nat :=
  run.runs.foldl (fun sum rle => sum + rle.length.toNat) run.nRuns

/-- `run_container_is_full`. -/
def runContainerIsFull (run : RunContainer) : Bool :=
  match run.runs with
  | [vl] => vl.value == 0 && vl.length == 0xFFFF
  | _ => false

/-- `run_container_grow`. -/
def runContainerGrow (run : RunContainer) (min : Nat) (copy : Bool) : RunContainer :=
  let newCapacity :=
    if run.capacity = 0 then runDefaultInitSize
    else if run.capacity < 64 then run.capacity * 2
    else if run.capacity < 1024 then run.capacity * 3 / 2
    else run.capacity * 5 / 4
  let newCapacity := if newCapacity < min then min else newCapacity
  { capacity := newCapacity, runs := if copy then run.runs else [] }

/-- `run_container_copy`. -/
def runContainerCopy (src dst : RunContainer) : Outcome RunContainer :=
  let dst := if dst.capacity < src.nRuns then runContainerGrow dst src.nRuns false else dst
  dst.store src.runs

/-! ## Single values -/

/-- `interleavedBinarySearch`. -/
def interleavedBinarySearch (array : List Rle16) (ikey : UInt16) : Int :=
  binarySearch (array.map Rle16.value) ikey

/-- `makeRoomAtIndex`, and the write of the new run at the freed index. -/
def makeRoomAtIndex (run : RunContainer) (before after : List Rle16) (new : Rle16) : Outcome RunContainer :=
  let run := if run.capacity < run.nRuns + 1 then runContainerGrow run (run.nRuns + 1) true else run
  run.store (before ++ new :: after)

/-- `run_container_add`. The runs that start before `pos` are `before`, its
last one being the only run `pos` can lie in or extend. -/
def runContainerAdd (run : RunContainer) (pos : UInt16) : Outcome (RunContainer × Bool) := do
  let index := interleavedBinarySearch run.runs pos
  if 0 ≤ index then return (run, false)
  let before := run.runs.take (-index - 1).toNat
  let after := run.runs.drop (-index - 1).toNat
  match before.getLast? with
  | some prev =>
    let offset := (pos.toNat : Int) - prev.value.toNat
    let le : Int := prev.length.toNat
    if offset ≤ le then return (run, false)
    else if offset = le + 1 then
      match after with
      | next :: rest =>
        if next.value.toNat = pos.toNat + 1 then
          return ({ run with runs :=
            before.dropLast ++ { prev with length := next.value + next.length - prev.value } :: rest }, true)
        else return ({ run with runs := before.dropLast ++ { prev with length := prev.length + 1 } :: after }, true)
      | [] => return ({ run with runs := before.dropLast ++ [{ prev with length := prev.length + 1 }] }, true)
    else
      match after with
      | next :: rest =>
        if next.value.toNat = pos.toNat + 1 then
          return ({ run with runs := before ++ { value := pos, length := next.length + 1 } :: rest }, true)
        else return (← makeRoomAtIndex run before after { value := pos, length := 0 }, true)
      | [] => return (← makeRoomAtIndex run before after { value := pos, length := 0 }, true)
  | none =>
    match after with
    | first :: rest =>
      if first.value.toNat = pos.toNat + 1 then
        return ({ run with runs := { value := first.value - 1, length := first.length + 1 } :: rest }, true)
      else return (← makeRoomAtIndex run before after { value := pos, length := 0 }, true)
    | [] => return (← makeRoomAtIndex run before after { value := pos, length := 0 }, true)

/-- `run_container_remove`. -/
def runContainerRemove (run : RunContainer) (pos : UInt16) : Outcome (RunContainer × Bool) := do
  let index := interleavedBinarySearch run.runs pos
  if 0 ≤ index then
    let before := run.runs.take index.toNat
    match run.runs.drop index.toNat with
    | here :: after =>
      if here.length = 0 then return ({ run with runs := before ++ after }, true)
      else return ({ run with runs :=
        before ++ { value := here.value + 1, length := here.length - 1 } :: after }, true)
    | [] => throw .outOfBounds
  else
    let before := run.runs.take (-index - 1).toNat
    let after := run.runs.drop (-index - 1).toNat
    match before.getLast? with
    | some prev =>
      let offset := (pos.toNat : Int) - prev.value.toNat
      let le : Int := prev.length.toNat
      if offset < le then
        -- the run is broken in two
        let left := { prev with length := UInt16.ofInt (offset - 1) }
        let right := { value := pos + 1, length := UInt16.ofInt (le - offset - 1) }
        return (← makeRoomAtIndex run (before.dropLast ++ [left]) after right, true)
      else if offset = le then
        return ({ run with runs := before.dropLast ++ { prev with length := prev.length - 1 } :: after }, true)
      else return (run, false)
    | none => return (run, false)

/-- `run_container_contains`. -/
def runContainerContains (run : RunContainer) (pos : UInt16) : Bool :=
  let index := interleavedBinarySearch run.runs pos
  if 0 ≤ index then true
  else
    match (run.runs.take (-index - 1).toNat).getLast? with
    | some prev => decide ((pos.toNat : Int) - prev.value.toNat ≤ prev.length.toNat)
    | none => false

/-! ## Merges of runs -/

/-- `run_container_append`: the last run is kept in `previousrl` as well. -/
def runContainerAppend (runs : List Rle16) (previousrl vl : Rle16) : List Rle16 × Rle16 :=
  let previousend := previousrl.value.toNat + previousrl.length.toNat
  if previousend + 1 < vl.value.toNat then (runs ++ [vl], vl)
  else
    let newend := vl.value.toNat + vl.length.toNat + 1
    if previousend < newend then
      let previousrl := { previousrl with length := UInt16.ofNat (newend - 1 - previousrl.value.toNat) }
      (runs.dropLast ++ [previousrl], previousrl)
    else (runs, previousrl)

/-- `run_container_append_value`. -/
def runContainerAppendValue (runs : List Rle16) (previousrl : Rle16) (val : UInt16) : List Rle16 × Rle16 :=
  let previousend := previousrl.value.toNat + previousrl.length.toNat
  if previousend + 1 < val.toNat then
    let previousrl := { value := val, length := 0 }
    (runs ++ [previousrl], previousrl)
  else if val.toNat = previousend + 1 then
    let previousrl := { previousrl with length := previousrl.length + 1 }
    (runs.dropLast ++ [previousrl], previousrl)
  else (runs, previousrl)

/-- The merge loop of `run_container_union_inplace`. -/
def unionRunsLoop : List Rle16 → List Rle16 → List Rle16 × Rle16 → List Rle16
  | [], input2, state => (input2.foldl (fun s rle => runContainerAppend s.1 s.2 rle) state).1
  | input1, [], state => (input1.foldl (fun s rle => runContainerAppend s.1 s.2 rle) state).1
  | rle1 :: input1, rle2 :: input2, state =>
    if rle1.value ≤ rle2.value then unionRunsLoop input1 (rle2 :: input2) (runContainerAppend state.1 state.2 rle1)
    else unionRunsLoop (rle1 :: input1) input2 (runContainerAppend state.1 state.2 rle2)
termination_by input1 input2 => input1.length + input2.length

/-- `run_container_union_inplace`. -/
def runContainerUnionInplace (src1 src2 : RunContainer) : Outcome RunContainer := do
  if runContainerIsFull src1 then return src1
  if runContainerIsFull src2 then return ← runContainerCopy src2 src1
  let neededcapacity := src1.nRuns + src2.nRuns + src1.nRuns
  let src1 := if src1.capacity < neededcapacity then runContainerGrow src1 neededcapacity true else src1
  match src1.runs, src2.runs with
  | rle1 :: input1, rle2 :: input2 =>
    if rle1.value ≤ rle2.value then src1.store (unionRunsLoop input1 (rle2 :: input2) ([rle1], rle1))
    else src1.store (unionRunsLoop (rle1 :: input1) input2 ([rle2], rle2))
  | _, _ => throw .uninitialized

/-- The loop of `run_container_andnot`: `[start, end_)` is what is left of the
first operand's current run and `rest1` the runs after it. -/
def andnotRunsLoop (start end_ : Nat) (rest1 : List Rle16) : List Rle16 → List Rle16
  | [] => Rle16.ofInterval start end_ :: rest1
  | rle2 :: rest2 =>
    let start2 := rle2.value.toNat
    let end2 := rle2.stop
    if end_ ≤ start2 then
      Rle16.ofInterval start end_ ::
        match rest1 with
        | rle1 :: rest1 => andnotRunsLoop rle1.value.toNat rle1.stop rest1 (rle2 :: rest2)
        | [] => []
    else if end2 ≤ start then andnotRunsLoop start end_ rest1 rest2
    else
      (if start < start2 then [Rle16.ofInterval start start2] else []) ++
        if end2 < end_ then andnotRunsLoop end2 end_ rest1 (rle2 :: rest2)
        else
          match rest1 with
          | rle1 :: rest1 => andnotRunsLoop rle1.value.toNat rle1.stop rest1 (rle2 :: rest2)
          | [] => []
termination_by rest2 =>
  2 * (rest1.length + rest2.length) + match rest2 with | rle2 :: _ => (if start < rle2.stop then 1 else 0) | [] => 0
decreasing_by all_goals (simp only [List.length_cons]; repeat' split) <;> omega

/-- `run_container_andnot`. -/
def runContainerAndnot (src1 src2 dst : RunContainer) : Outcome RunContainer :=
  let dst :=
    if dst.capacity < src1.nRuns + src2.nRuns then runContainerGrow dst (src1.nRuns + src2.nRuns) false else dst
  match src1.runs with
  | rle1 :: rest1 => dst.store (andnotRunsLoop rle1.value.toNat rle1.stop rest1 src2.runs)
  | [] => dst.store []

/-! ## Members -/

/-- The members of a run container, run by run. -/
def RunContainer.values (run : RunContainer) : List UInt16 := run.runs.flatMap fun rle => rle.numbers.map UInt16.ofNat

/-- The run container of a whole chunk. -/
def RunContainer.Full (run : RunContainer) : Prop := run.runs = [{ value := 0, length := 0xFFFF }]

theorem runContainerIsFull_iff {run : RunContainer} : runContainerIsFull run = true ↔ run.Full := by
  unfold runContainerIsFull RunContainer.Full
  split
  case h_1 vl single =>
    rw [single]
    simp only [Bool.and_eq_true, beq_iff_eq, List.cons.injEq, and_true]
    constructor
    · intro given
      obtain ⟨value, length⟩ := given
      cases vl
      simp_all
    · rintro rfl
      exact ⟨rfl, rfl⟩
  case h_2 other =>
    refine ⟨fun h => absurd h Bool.false_ne_true, fun h => absurd h (other _)⟩

theorem full_values {run : RunContainer} (full : run.Full) :
    run.values = (List.range 65536).map UInt16.ofNat := by
  have numbers : ({ value := 0, length := 0xFFFF } : Rle16).numbers = List.range 65536 := by
    rw [Rle16.numbers, List.range_eq_range']
    rfl
  rw [RunContainer.values, full, List.flatMap_singleton, numbers]

theorem mem_full_values {run : RunContainer} (full : run.Full) (x : UInt16) : x ∈ run.values := by
  rw [full_values full, List.mem_map]
  exact ⟨x.toNat, List.mem_range.2 x.toNat_lt, UInt16.ofNat_toNat⟩

/-- All 16-bit values in order. -/
theorem sorted_uint16_range : ((List.range 65536).map UInt16.ofNat).Pairwise (· < ·) := by
  refine List.pairwise_map.2 (List.pairwise_lt_range.imp_of_mem fun ha hb below => ?_)
  rw [UInt16.lt_iff_toNat_lt, UInt16.toNat_ofNat_of_lt' (List.mem_range.1 ha),
    UInt16.toNat_ofNat_of_lt' (List.mem_range.1 hb)]
  exact below

theorem sorted_full_values {run : RunContainer} (full : run.Full) : run.values.Pairwise (· < ·) := by
  rw [full_values full]
  exact sorted_uint16_range

theorem full_cardinality {run : RunContainer} (full : run.Full) : runContainerCardinality run = 65536 := by
  rw [runContainerCardinality, RunContainer.nRuns, full]
  rfl

end RedisRoaring
