import RedisRoaring.Chunks

/-!
# Bitmap operations

The operations of the bitmap library that the commands call. `add_many` keeps
the container it touched last at hand; the in-place union walks the first
bitmap while inserting into it, and the in-place difference slides what is left
of the first bitmap over what is gone.
-/

namespace RedisRoaring

open Exec

/-- `roaring_bitmap_t`. -/
structure RoaringBitmap where
  highLowContainer : RoaringArray
  copyOnWrite : Bool
  deriving DecidableEq, Repr

/-- `roaring_bitmap_create`. -/
def roaringBitmapCreate : RoaringBitmap := { highLowContainer := raInit, copyOnWrite := false }

/-! ## Single values -/

/-- `containerptr_roaring_bitmap_add`: also the index of the container touched. -/
def containerptrRoaringBitmapAdd (r : RoaringBitmap) (val : UInt32) : Outcome (RoaringBitmap × Nat) := do
  let hb := highBits val
  let i := raGetIndex r.highLowContainer hb
  if 0 ≤ i then
    let ra ← raUnshareContainerAtIndex r.highLowContainer (UInt16.ofNat i.toNat)
    let container ← raGetContainerAtIndex ra (UInt16.ofNat i.toNat)
    let container2 ← containerAdd container (lowBits val)
    let ra ← raSetContainerAtIndex ra i.toNat (.owned container2)
    return ({ r with highLowContainer := ra }, i.toNat)
  else
    let container ← containerAdd (.owned (.array arrayContainerCreate)) (lowBits val)
    let ra ← raInsertNewKeyValueAt r.highLowContainer (-i - 1).toNat hb (.owned container)
    return ({ r with highLowContainer := ra }, (-i - 1).toNat)

/-- One round of the loop of `roaring_bitmap_add_many`: with the high half of
the previous value, the container at hand is used without a search. -/
def addManyStep (state : RoaringBitmap × Nat × UInt32) (val : UInt32) : Outcome (RoaringBitmap × Nat × UInt32) := do
  let (r, containerindex, prev) := state
  if (prev ^^^ val) >>> 16 = 0 then
    let container ← raGetContainerAtIndex r.highLowContainer (UInt16.ofNat containerindex)
    let container2 ← containerAdd container (lowBits val)
    let ra ← raSetContainerAtIndex r.highLowContainer containerindex (.owned container2)
    return ({ r with highLowContainer := ra }, containerindex, val)
  else
    let (r, containerindex) ← containerptrRoaringBitmapAdd r val
    return (r, containerindex, val)

/-- `roaring_bitmap_add_many`. -/
def roaringBitmapAddMany (r : RoaringBitmap) : List UInt32 → Outcome RoaringBitmap
  | [] => .ok r
  | val :: vals => do
    let (r, containerindex) ← containerptrRoaringBitmapAdd r val
    let (r, _) ← vals.foldlM addManyStep (r, containerindex, val)
    return r

/-- `roaring_bitmap_of_ptr`. -/
def roaringBitmapOfPtr (vals : List UInt32) : Outcome RoaringBitmap := roaringBitmapAddMany roaringBitmapCreate vals

/-- `roaring_bitmap_remove`: a chunk whose last value goes is removed. -/
def roaringBitmapRemove (r : RoaringBitmap) (val : UInt32) : Outcome RoaringBitmap := do
  let i := raGetIndex r.highLowContainer (highBits val)
  if 0 ≤ i then
    let ra ← raUnshareContainerAtIndex r.highLowContainer (UInt16.ofNat i.toNat)
    let container ← raGetContainerAtIndex ra (UInt16.ofNat i.toNat)
    let container2 ← containerRemove container (lowBits val)
    let ra ← raSetContainerAtIndex ra i.toNat (.owned container2)
    if containerGetCardinality (.owned container2) ≠ 0 then return { r with highLowContainer := ra }
    else return { r with highLowContainer := raRemoveAtIndexAndFree ra i.toNat }
  else return r

/-- `roaring_bitmap_contains`. -/
def roaringBitmapContains (r : RoaringBitmap) (val : UInt32) : Outcome Bool := do
  let i := raGetIndex r.highLowContainer (highBits val)
  if i < 0 then return false
  let container ← raGetContainerAtIndex r.highLowContainer (UInt16.ofNat i.toNat)
  return containerContains container (lowBits val)

/-- `roaring_bitmap_is_empty`. -/
def roaringBitmapIsEmpty (ra : RoaringBitmap) : Bool := ra.highLowContainer.size == 0

/-- `roaring_bitmap_get_cardinality`. -/
def roaringBitmapGetCardinality (ra : RoaringBitmap) : Nat :=
  ra.highLowContainer.chunks.foldl (fun card chunk => card + containerGetCardinality chunk.container) 0

/-- The byte counters of `roaring_statistics_t`. -/
structure RoaringStatistics where
  nBytesArrayContainers : UInt32
  nBytesRunContainers : UInt32
  nBytesBitsetContainers : UInt32
  deriving DecidableEq, Repr

/-- `roaring_bitmap_statistics`, as far as it counts bytes. -/
def roaringBitmapStatistics (ra : RoaringBitmap) : RoaringStatistics :=
  ra.highLowContainer.chunks.foldl (fun stat chunk =>
    let sbytes := UInt32.ofNat (containerSizeInBytes chunk.container)
    match containerUnwrapShared chunk.container with
    | .bitset _ => { stat with nBytesBitsetContainers := stat.nBytesBitsetContainers + sbytes }
    | .array _ => { stat with nBytesArrayContainers := stat.nBytesArrayContainers + sbytes }
    | .run _ => { stat with nBytesRunContainers := stat.nBytesRunContainers + sbytes })
    { nBytesArrayContainers := 0, nBytesRunContainers := 0, nBytesBitsetContainers := 0 }

/-! ## In-place union -/

/-- `roaring_bitmap_overwrite`: both bitmaps, as `ra_overwrite`. -/
def roaringBitmapOverwrite (dest src : RoaringBitmap) : Outcome (RoaringBitmap × RoaringBitmap) := do
  let (source, ra) ← raOverwrite src.highLowContainer dest.highLowContainer src.copyOnWrite
  return ({ dest with highLowContainer := ra }, { src with highLowContainer := source })

/-- The state of the walk of `roaring_bitmap_or_inplace`. -/
structure OrWalk where
  x1 : RoaringBitmap
  x2 : RoaringBitmap
  length1 : Nat
  pos1 : Nat
  pos2 : Nat
  deriving DecidableEq, Repr

/-- The branch `s1 == s2`: the containers are united unless the first is full. -/
def orAligned (x1 x2 : RoaringBitmap) (pos1 pos2 : Nat) : Outcome RoaringBitmap := do
  let c1 ← raGetContainerAtIndex x1.highLowContainer (UInt16.ofNat pos1)
  if containerIsFull c1 then return x1
  let c1 ← getWritableCopyIfShared c1
  let c2 ← raGetContainerAtIndex x2.highLowContainer (UInt16.ofNat pos2)
  let c ← containerIor (.owned c1) c2
  return { x1 with highLowContainer := ← raSetContainerAtIndex x1.highLowContainer pos1 (.owned c) }

/-- The branch `s1 > s2`: a copy of the second bitmap's chunk is inserted. -/
def orInsert (x1 x2 : RoaringBitmap) (pos1 pos2 : Nat) (s2 : UInt16) : Outcome (RoaringBitmap × RoaringBitmap) := do
  let c2 ← raGetContainerAtIndex x2.highLowContainer (UInt16.ofNat pos2)
  let c2 ← getCopyOfContainer c2 x2.copyOnWrite
  let ra2 ← if x2.copyOnWrite then raSetContainerAtIndex x2.highLowContainer pos2 c2 else .ok x2.highLowContainer
  let ra1 ← raInsertNewKeyValueAt x1.highLowContainer pos1 s2 c2
  return ({ x1 with highLowContainer := ra1 }, { x2 with highLowContainer := ra2 })

/-- The walk of `roaring_bitmap_or_inplace`, with `s1` and `s2` the keys at the
two positions. It breaks when a position reaches its length. -/
def orWalkLoop (length2 : Nat) (x1 x2 : RoaringBitmap) (length1 pos1 pos2 : Nat) (s1 s2 : UInt16) :
    Outcome OrWalk := do
  if s1 = s2 then
    let x1 ← orAligned x1 x2 pos1 pos2
    if length1 ≤ pos1 + 1 then return { x1, x2, length1, pos1 := pos1 + 1, pos2 := pos2 + 1 }
    else if length2 ≤ pos2 + 1 then return { x1, x2, length1, pos1 := pos1 + 1, pos2 := pos2 + 1 }
    else
      let s1 ← raGetKeyAtIndex x1.highLowContainer (UInt16.ofNat (pos1 + 1))
      let s2 ← raGetKeyAtIndex x2.highLowContainer (UInt16.ofNat (pos2 + 1))
      orWalkLoop length2 x1 x2 length1 (pos1 + 1) (pos2 + 1) s1 s2
  else if s1 < s2 then
    if length1 ≤ pos1 + 1 then return { x1, x2, length1, pos1 := pos1 + 1, pos2 }
    else
      let s1 ← raGetKeyAtIndex x1.highLowContainer (UInt16.ofNat (pos1 + 1))
      orWalkLoop length2 x1 x2 length1 (pos1 + 1) pos2 s1 s2
  else
    let (x1, x2) ← orInsert x1 x2 pos1 pos2 s2
    if length2 ≤ pos2 + 1 then return { x1, x2, length1 := length1 + 1, pos1 := pos1 + 1, pos2 := pos2 + 1 }
    else
      let s2 ← raGetKeyAtIndex x2.highLowContainer (UInt16.ofNat (pos2 + 1))
      orWalkLoop length2 x1 x2 (length1 + 1) (pos1 + 1) (pos2 + 1) s1 s2
termination_by (length1 - pos1) + (length2 - pos2)

/-- `roaring_bitmap_or_inplace`: both bitmaps. The tail is appended by 16-bit
indices, of which `length2` may be 65536. -/
def roaringBitmapOrInplace (x1 x2 : RoaringBitmap) : Outcome (RoaringBitmap × RoaringBitmap) := do
  let length1 := x1.highLowContainer.size
  let length2 := x2.highLowContainer.size
  if length2 = 0 then return (x1, x2)
  if length1 = 0 then return ← roaringBitmapOverwrite x1 x2
  let s1 ← raGetKeyAtIndex x1.highLowContainer 0
  let s2 ← raGetKeyAtIndex x2.highLowContainer 0
  let walk ← orWalkLoop length2 x1 x2 length1 0 0 s1 s2
  if walk.pos1 = walk.length1 then
    let (ra1, ra2) ← raAppendCopyRange walk.x1.highLowContainer walk.x2.highLowContainer
      (UInt16.ofNat walk.pos2) (UInt16.ofNat length2) walk.x2.copyOnWrite
    return ({ walk.x1 with highLowContainer := ra1 }, { walk.x2 with highLowContainer := ra2 })
  else return (walk.x1, walk.x2)

/-! ## In-place difference -/

/-- The branch `s1 == s2`: what is left of the chunk moves to `intersectionSize`. -/
def andnotAligned (x1 x2 : RoaringBitmap) (pos1 pos2 intersectionSize : Nat) (s1 : UInt16) :
    Outcome (RoaringBitmap × Nat) := do
  let c1 ← raGetContainerAtIndex x1.highLowContainer (UInt16.ofNat pos1)
  let c1 ← getWritableCopyIfShared c1
  let c2 ← raGetContainerAtIndex x2.highLowContainer (UInt16.ofNat pos2)
  let c ← containerIandnot (.owned c1) c2
  if containerNonzeroCardinality (.owned c) then
    let ra ← raReplaceKeyAndContainerAtIndex x1.highLowContainer intersectionSize s1 (.owned c)
    return ({ x1 with highLowContainer := ra }, intersectionSize + 1)
  else return (x1, intersectionSize)

/-- The branch `s1 < s2`: the chunk is kept and moves to `intersectionSize`. -/
def andnotKeep (x1 : RoaringBitmap) (pos1 intersectionSize : Nat) (s1 : UInt16) : Outcome RoaringBitmap := do
  if pos1 ≠ intersectionSize then
    let c1 ← raGetContainerAtIndex x1.highLowContainer (UInt16.ofNat pos1)
    return { x1 with highLowContainer := ← raReplaceKeyAndContainerAtIndex x1.highLowContainer intersectionSize s1 c1 }
  else return x1

/-- The state in which the walk of `roaring_bitmap_andnot_inplace` ends. -/
structure AndnotWalk where
  x1 : RoaringBitmap
  pos1 : Nat
  intersectionSize : Nat
  deriving DecidableEq, Repr

/-- The walk of `roaring_bitmap_andnot_inplace`. -/
def andnotWalkLoop (x2 : RoaringBitmap) (length1 length2 : Nat) (x1 : RoaringBitmap) (pos1 pos2 intersectionSize : Nat)
    (s1 s2 : UInt16) : Outcome AndnotWalk := do
  if s1 = s2 then
    let (x1, intersectionSize) ← andnotAligned x1 x2 pos1 pos2 intersectionSize s1
    if length1 ≤ pos1 + 1 then return { x1, pos1 := pos1 + 1, intersectionSize }
    else if length2 ≤ pos2 + 1 then return { x1, pos1 := pos1 + 1, intersectionSize }
    else
      let s1 ← raGetKeyAtIndex x1.highLowContainer (UInt16.ofNat (pos1 + 1))
      let s2 ← raGetKeyAtIndex x2.highLowContainer (UInt16.ofNat (pos2 + 1))
      andnotWalkLoop x2 length1 length2 x1 (pos1 + 1) (pos2 + 1) intersectionSize s1 s2
  else if s1 < s2 then
    let x1 ← andnotKeep x1 pos1 intersectionSize s1
    if length1 ≤ pos1 + 1 then return { x1, pos1 := pos1 + 1, intersectionSize := intersectionSize + 1 }
    else
      let s1 ← raGetKeyAtIndex x1.highLowContainer (UInt16.ofNat (pos1 + 1))
      andnotWalkLoop x2 length1 length2 x1 (pos1 + 1) pos2 (intersectionSize + 1) s1 s2
  else
    let pos2' := raAdvanceUntil x2.highLowContainer s1 pos2
    have _forward : pos2 < pos2' := SortedList.le_gallop x2.highLowContainer.keys (pos2 + 1) s1
    if length2 ≤ pos2' then return { x1, pos1, intersectionSize }
    else
      let s2 ← raGetKeyAtIndex x2.highLowContainer (UInt16.ofNat pos2')
      andnotWalkLoop x2 length1 length2 x1 pos1 pos2' intersectionSize s1 s2
termination_by (length1 - pos1) + (length2 - pos2)

/-- `roaring_bitmap_andnot_inplace` of two different bitmaps. -/
def roaringBitmapAndnotInplace (x1 x2 : RoaringBitmap) : Outcome RoaringBitmap := do
  let length1 := x1.highLowContainer.size
  let length2 := x2.highLowContainer.size
  if length2 = 0 then return x1
  if length1 = 0 then return (← roaringBitmapOverwrite x1 roaringBitmapCreate).1
  let s1 ← raGetKeyAtIndex x1.highLowContainer 0
  let s2 ← raGetKeyAtIndex x2.highLowContainer 0
  let walk ← andnotWalkLoop x2 length1 length2 x1 0 0 0 s1 s2
  let ra := walk.x1.highLowContainer
  if walk.pos1 < length1 then
    let ra ← if walk.intersectionSize < walk.pos1 then raCopyRange ra walk.pos1 length1 walk.intersectionSize else .ok ra
    return { walk.x1 with highLowContainer := ← raDownsize ra (walk.intersectionSize + (length1 - walk.pos1)) }
  else return { walk.x1 with highLowContainer := ← raDownsize ra walk.intersectionSize }

end RedisRoaring
