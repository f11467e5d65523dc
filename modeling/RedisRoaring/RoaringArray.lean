import RedisRoaring.Containers.Kinds

/-!
# The roaring array

A bitmap is a map from the high 16 bits of its values to containers of low 16
bits, kept as parallel arrays of keys, containers and type codes with one
allocated length; the model zips them into `chunks`. A write beyond the
allocation is a fault. Several index parameters of the source are `uint16_t`
although there can be 65536 chunks: the model keeps their type.
-/

namespace RedisRoaring

open Exec SortedList

/-- A key, its container and the container's type code. -/
structure Chunk where
  key : UInt16
  container : SlotContainer
  deriving DecidableEq, Repr

/-- `roaring_array_t`. -/
structure RoaringArray where
  allocationSize : Nat
  chunks : List Chunk
  deriving DecidableEq, Repr

/-- The `size` field. -/
def RoaringArray.size (ra : RoaringArray) : Nat := ra.chunks.length

/-- The `keys` array. -/
def RoaringArray.keys (ra : RoaringArray) : List UInt16 := ra.chunks.map Chunk.key

/-- Overwrite the chunks in use. -/
def RoaringArray.store (ra : RoaringArray) (chunks : List Chunk) : Outcome RoaringArray :=
  if chunks.length ≤ ra.allocationSize then .ok { ra with chunks } else .error .outOfBounds

/-- `INITIAL_CAPACITY`. -/
def initialCapacity : Nat := 4

/-- `ra_init_with_capacity`. -/
def raInitWithCapacity (cap : Nat) : RoaringArray := { allocationSize := cap, chunks := [] }

/-- `ra_init`. -/
def raInit : RoaringArray := raInitWithCapacity initialCapacity

/-- `realloc_array`: the chunks are copied to the new allocation. -/
def reallocArray (ra : RoaringArray) (newCapacity : Nat) : Outcome RoaringArray :=
  (raInitWithCapacity newCapacity).store ra.chunks

/-- `extend_array`: room for `k` more chunks; `k` may be negative. -/
def extendArray (ra : RoaringArray) (k : Int) : Outcome RoaringArray :=
  let desiredSize : Int := ra.size + k
  if (ra.allocationSize : Int) < desiredSize then
    reallocArray ra (if ra.size < 1024 then 2 * desiredSize else 5 * desiredSize / 4).toNat
  else .ok ra

/-- `ra_get_index`: the last key is tried before the binary search. -/
def raGetIndex (ra : RoaringArray) (x : UInt16) : Int :=
  if ra.chunks.getLast?.all (·.key == x) then (ra.size : Int) - 1 else binarySearch ra.keys x

/-- `ra_get_container_at_index`. -/
def raGetContainerAtIndex (ra : RoaringArray) (i : UInt16) : Outcome SlotContainer :=
  match ra.chunks[i.toNat]? with
  | some chunk => .ok chunk.container
  | none => .error .outOfBounds

/-- `ra_get_key_at_index`. -/
def raGetKeyAtIndex (ra : RoaringArray) (i : UInt16) : Outcome UInt16 :=
  match ra.chunks[i.toNat]? with
  | some chunk => .ok chunk.key
  | none => .error .outOfBounds

/-- `ra_unshare_container_at_index`. -/
def raUnshareContainerAtIndex (ra : RoaringArray) (i : UInt16) : Outcome RoaringArray := do
  match ra.chunks[i.toNat]? with
  | none => throw .assertFailed
  | some chunk =>
    let container ← getWritableCopyIfShared chunk.container
    return { ra with chunks := ra.chunks.set i.toNat { chunk with container := .owned container } }

/-- `ra_set_container_at_index`. -/
def raSetContainerAtIndex (ra : RoaringArray) (i : Nat) (c : SlotContainer) : Outcome RoaringArray :=
  match ra.chunks[i]? with
  | none => .error .assertFailed
  | some chunk => .ok { ra with chunks := ra.chunks.set i { chunk with container := c } }

/-- `ra_replace_key_and_container_at_index`. -/
def raReplaceKeyAndContainerAtIndex (ra : RoaringArray) (i : Nat) (key : UInt16) (c : SlotContainer) :
    Outcome RoaringArray :=
  if i < ra.size then .ok { ra with chunks := ra.chunks.set i { key, container := c } } else .error .assertFailed

/-- `ra_insert_new_key_value_at`. -/
def raInsertNewKeyValueAt (ra : RoaringArray) (i : Nat) (key : UInt16) (container : SlotContainer) :
    Outcome RoaringArray := do
  let ra ← extendArray ra 1
  ra.store (ra.chunks.take i ++ { key, container } :: ra.chunks.drop i)

/-- `ra_append`. -/
def raAppend (ra : RoaringArray) (key : UInt16) (container : SlotContainer) : Outcome RoaringArray := do
  let ra ← extendArray ra 1
  ra.store (ra.chunks ++ [({ key, container } : Chunk)])

/-- `ra_remove_at_index_and_free`. -/
def raRemoveAtIndexAndFree (ra : RoaringArray) (i : Nat) : RoaringArray :=
  { ra with chunks := ra.chunks.take i ++ ra.chunks.drop (i + 1) }

/-- `container_clone`, as stored when there is no copy on write: the type code
is copied as it was, so a shared container's clone would be read as a shared
container, which it is not. -/
def cloneUnderTypecode : SlotContainer → Outcome SlotContainer
  | .owned c => do return .owned (← containerClone (.owned c))
  | .shared _ => .error .uninitialized

/-- `ra_overwrite`: both arrays, as with copy on write the source's containers
become shared. -/
def raOverwrite (source dest : RoaringArray) (copyOnWrite : Bool) : Outcome (RoaringArray × RoaringArray) := do
  let dest := { dest with chunks := [] }
  let dest ← if dest.allocationSize < source.size then reallocArray dest source.size else .ok dest
  if copyOnWrite then
    let shared ← source.chunks.mapM fun chunk => do
      return { chunk with container := ← getCopyOfContainer chunk.container copyOnWrite }
    return ({ source with chunks := shared }, ← dest.store shared)
  else
    let cloned ← source.chunks.mapM fun chunk => do
      return { chunk with container := ← cloneUnderTypecode chunk.container }
    return (source, ← dest.store cloned)

/-- `ra_copy`: the same copying as in `ra_overwrite`, to a new array of the size of the source. -/
def raCopy (source : RoaringArray) (copyOnWrite : Bool) : Outcome (RoaringArray × RoaringArray) :=
  raOverwrite source (raInitWithCapacity source.size) copyOnWrite

/-- One step of `ra_append_copy_range`: chunk `i` of `sa` is appended to `ra`. -/
def raAppendCopyAt (copyOnWrite : Bool) (arrays : RoaringArray × RoaringArray) (i : Nat) :
    Outcome (RoaringArray × RoaringArray) := do
  let (ra, sa) := arrays
  match sa.chunks[i]? with
  | none => throw .outOfBounds
  | some chunk =>
    if copyOnWrite then
      let chunk := { chunk with container := ← getCopyOfContainer chunk.container copyOnWrite }
      return (← ra.store (ra.chunks ++ [chunk]), { sa with chunks := sa.chunks.set i chunk })
    else
      let clone := { chunk with container := ← cloneUnderTypecode chunk.container }
      return (← ra.store (ra.chunks ++ [clone]), sa)

/-- `ra_append_copy_range`: the chunks of `sa` with index from `startIndex` up
to `endIndex`, two 16-bit indices. -/
def raAppendCopyRange (ra sa : RoaringArray) (startIndex endIndex : UInt16) (copyOnWrite : Bool) :
    Outcome (RoaringArray × RoaringArray) := do
  let ra ← extendArray ra (endIndex.toNat - startIndex.toNat)
  (List.range' startIndex.toNat (endIndex.toNat - startIndex.toNat)).foldlM (raAppendCopyAt copyOnWrite) (ra, sa)

/-- `ra_advance_until`. -/
def raAdvanceUntil (ra : RoaringArray) (x : UInt16) (pos : Nat) : Nat := gallop ra.keys (pos + 1) x

/-- `ra_copy_range`: slide the chunks `[begin, end_)` left to `newBegin`. -/
def raCopyRange (ra : RoaringArray) (begin_ end_ newBegin : Nat) : Outcome RoaringArray :=
  if begin_ ≤ end_ ∧ newBegin < begin_ then
    .ok { ra with chunks :=
      ra.chunks.take newBegin ++ (ra.chunks.drop begin_).take (end_ - begin_) ++
        ra.chunks.drop (newBegin + (end_ - begin_)) }
  else .error .assertFailed

/-- `ra_downsize`. -/
def raDownsize (ra : RoaringArray) (newLength : Nat) : Outcome RoaringArray :=
  if newLength ≤ ra.size then .ok { ra with chunks := ra.chunks.take newLength } else .error .assertFailed

/-! ## The two halves of a value -/

/-- `val >> 16`. -/
def highBits (val : UInt32) : UInt16 := (val >>> 16).toUInt16

/-- `val & 0xFFFF`. -/
def lowBits (val : UInt32) : UInt16 := (val &&& 0xFFFF).toUInt16

/-- The value with the given halves: `((uint32_t)key << 16) + low`. -/
def joinBits (key low : UInt16) : UInt32 := (key.toUInt32 <<< 16) + low.toUInt32

theorem toNat_highBits (val : UInt32) : (highBits val).toNat = val.toNat / 65536 := by
  have := val.toNat_lt
  simp only [highBits, UInt32.toNat_toUInt16, UInt32.toNat_shiftRight, UInt32.reduceToNat, Nat.reduceMod,
    Nat.shiftRight_eq_div_pow]
  omega

theorem toNat_lowBits (val : UInt32) : (lowBits val).toNat = val.toNat % 65536 := by
  have mask : val.toNat &&& 0xFFFF = val.toNat % 65536 := Nat.and_two_pow_sub_one_eq_mod val.toNat 16
  simp only [lowBits, UInt32.toNat_toUInt16, UInt32.toNat_and, UInt32.reduceToNat, mask]
  omega

theorem toNat_joinBits (key low : UInt16) : (joinBits key low).toNat = key.toNat * 65536 + low.toNat := by
  have := key.toNat_lt
  have := low.toNat_lt
  simp only [joinBits, UInt32.toNat_add, UInt32.toNat_shiftLeft, UInt16.toNat_toUInt32, UInt32.reduceToNat,
    Nat.reduceMod, Nat.shiftLeft_eq]
  omega

@[simp] theorem highBits_joinBits (key low : UInt16) : highBits (joinBits key low) = key := by
  have := low.toNat_lt
  apply UInt16.toNat_inj.1
  rw [toNat_highBits, toNat_joinBits]
  omega

@[simp] theorem lowBits_joinBits (key low : UInt16) : lowBits (joinBits key low) = low := by
  have := low.toNat_lt
  apply UInt16.toNat_inj.1
  rw [toNat_lowBits, toNat_joinBits]
  omega

@[simp] theorem joinBits_eq (val : UInt32) : joinBits (highBits val) (lowBits val) = val := by
  apply UInt32.toNat_inj.1
  rw [toNat_joinBits, toNat_highBits, toNat_lowBits]
  omega

/-- Values are ordered by their high half first. -/
theorem joinBits_lt_joinBits {key key' low low' : UInt16} :
    joinBits key low < joinBits key' low' ↔ key < key' ∨ key = key' ∧ low < low' := by
  have := low.toNat_lt
  have := low'.toNat_lt
  rw [UInt32.lt_iff_toNat_lt, UInt16.lt_iff_toNat_lt, UInt16.lt_iff_toNat_lt, ← UInt16.toNat_inj, toNat_joinBits,
    toNat_joinBits]
  omega

end RedisRoaring
