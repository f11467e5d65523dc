import RedisRoaring.Serialize

/-!
# Reading a bitmap

The reader of the container form checks only the cookie. `PortableImage` is the
shape of what it accepts, field by field, and `raPortableDeserialize_iff` says
that it accepts nothing else: on every other buffer the reader leaves the buffer
or fails an assertion.
-/

namespace RedisRoaring

open Exec ByteCodec

/-! ## Containers -/

/-- `bitset_container_read`. -/
def bitsetContainerRead (cardinality : Nat) (buf : List UInt8) : Outcome (BitsetContainer × List UInt8) := do
  let (array, buf) ← (u64.vector bitsetContainerSizeInWords).decode buf
  return ({ cardinality, array }, buf)

/-- `array_container_read`. -/
def arrayContainerRead (cardinality : Nat) (container : ArrayContainer) (buf : List UInt8) :
    Outcome (ArrayContainer × List UInt8) := do
  let container :=
    if container.capacity < cardinality then arrayContainerGrow container cardinality defaultMaxSize false
    else container
  let (array, buf) ← u16.decodeMany cardinality buf
  return (← container.store array, buf)

/-- `run_container_read`: the cardinality of the header is not used. -/
def runContainerRead (container : RunContainer) (buf : List UInt8) : Outcome (RunContainer × List UInt8) := do
  let (nRuns, buf) ← u16.decode buf
  let container :=
    if container.capacity < nRuns.toNat then runContainerGrow container nRuns.toNat false else container
  let (runs, buf) ← rle16Codec.decodeMany nRuns.toNat buf
  return (← container.store runs, buf)

/-- Whether the bitmap of run containers, if there is one, has chunk `k`. -/
def hasRunFlag (bitmapOfRunContainers : Option (List UInt8)) (k : Nat) : Bool :=
  match bitmapOfRunContainers with
  | none => false
  | some bitmap => bitmap[k / 8]?.getD 0 &&& 1 <<< UInt8.ofNat (k % 8) != 0

/-- One round of the last loop of `ra_portable_deserialize`. -/
def readContainer (isRun : Bool) (cardinality : Nat) (buf : List UInt8) : Outcome (Container × List UInt8) := do
  if isRun then
    let (c, buf) ← runContainerRead runContainerCreate buf
    return (.run c, buf)
  else if defaultMaxSize < cardinality then
    let (c, buf) ← bitsetContainerRead cardinality buf
    return (.bitset c, buf)
  else
    let (c, buf) ← arrayContainerRead cardinality (arrayContainerCreateGivenCapacity cardinality) buf
    return (.array c, buf)

/-- The last loop of `ra_portable_deserialize`, from chunk `k` on. -/
def readContainers (bitmapOfRunContainers : Option (List UInt8)) :
    (k : Nat) → List (UInt16 × UInt16) → List UInt8 → Outcome (List Chunk × List UInt8)
  | _, [], buf => .ok ([], buf)
  | k, (key, tmp) :: descriptors, buf => do
    let (c, buf) ← readContainer (hasRunFlag bitmapOfRunContainers k) (1 + tmp.toNat) buf
    let (chunks, buf) ← readContainers bitmapOfRunContainers (k + 1) descriptors buf
    return ({ key, container := .owned c } :: chunks, buf)

/-! ## The container form -/

/-- The number of chunks: from the cookie, or from a signed 32-bit field of its own. -/
def readSize (cookie : UInt32) (buf : List UInt8) : Outcome (Int × List UInt8) := do
  if cookie &&& 0xFFFF = serialCookie then return ((cookie >>> 16).toNat + 1, buf)
  else
    let (size, buf) ← u32.decode buf
    return (size.toBitVec.toInt, buf)

/-- The `bitmapOfRunContainers` of `ra_portable_deserialize`. -/
def readRunBitmap (hasrun : Bool) (size : Nat) (buf : List UInt8) : Outcome (Option (List UInt8) × List UInt8) := do
  if hasrun then
    let (bitmap, buf) ← take ((size + 7) / 8) buf
    return (some bitmap, buf)
  else return (none, buf)

/-- `buf += size * 4`, computed in 32 bits. -/
def skipOffsets (hasrun : Bool) (size : Nat) (buf : List UInt8) : Outcome (List UInt8) :=
  if !hasrun || decide (noOffsetThreshold ≤ size) then
    if size * 4 < 2 ^ 31 then skip (size * 4) buf else .error .overflow
  else .ok buf

/-- What `ra_portable_deserialize` does once it has the size. -/
def readChunks (hasrun : Bool) (size : Nat) (buf : List UInt8) : Outcome RoaringArray := do
  let (bitmapOfRunContainers, buf) ← readRunBitmap hasrun size buf
  let (descriptors, buf) ← descriptorCodec.decodeMany size buf
  let buf ← skipOffsets hasrun size buf
  let (chunks, _) ← readContainers bitmapOfRunContainers 0 descriptors buf
  (raInitWithCapacity size).store chunks

/-- `ra_portable_deserialize`: nothing on a wrong cookie. For a negative size the
allocation of the cardinalities is larger than any object, and its assertion fails. -/
def raPortableDeserialize (buf : List UInt8) : Outcome (Option RoaringArray) := do
  let (cookie, buf) ← u32.decode buf
  if cookie &&& 0xFFFF ≠ serialCookie ∧ cookie ≠ serialCookieNoRuncontainer then return none
  else
    let (size, buf) ← readSize cookie buf
    if size < 0 then throw .assertFailed
    else return some (← readChunks (decide (cookie &&& 0xFFFF = serialCookie)) size.toNat buf)

/-- `roaring_bitmap_portable_deserialize`. After a wrong cookie the array that
was never initialized is cleared. -/
def roaringBitmapPortableDeserialize (buf : List UInt8) : Outcome (Option RoaringBitmap) := do
  match ← raPortableDeserialize buf with
  | some ra => return some { highLowContainer := ra, copyOnWrite := false }
  | none => throw .uninitialized

/-- `roaring_bitmap_deserialize`. -/
def roaringBitmapDeserialize (buf : List UInt8) : Outcome (Option RoaringBitmap) := do
  match buf with
  | [] => throw .outOfBounds
  | first :: rest =>
    if first = serializationArrayUint32 then
      let (card, rest) ← u32.decode rest
      let (elems, _) ← u32.decodeMany card.toNat rest
      return some (← roaringBitmapOfPtr elems)
    else if first = serializationContainer then roaringBitmapPortableDeserialize rest
    else return none

/-! ## What a container section holds -/

/-- The capacity of a run container that was read. -/
def runReadCapacity (nRuns : Nat) : Nat :=
  if runContainerCreate.capacity < nRuns then (runContainerGrow runContainerCreate nRuns false).capacity
  else runContainerCreate.capacity

/-- The containers that are read where the header says `cardinality`. -/
inductive Stores : Bool → Nat → Container → Prop where
  | run (cardinality : Nat) (runs : List Rle16) (few : runs.length < 65536) :
      Stores true cardinality (.run { capacity := runReadCapacity runs.length, runs })
  | bitset (cardinality : Nat) (array : Words) (large : defaultMaxSize < cardinality) :
      Stores false cardinality (.bitset { cardinality, array })
  | array (array : List UInt16) (small : array.length ≤ defaultMaxSize) :
      Stores false array.length (.array { capacity := array.length, array })

theorem le_runReadCapacity (n : Nat) : n ≤ runReadCapacity n := by
  have clamped : ∀ capacity, n ≤ if capacity < n then n else capacity := fun capacity => by split <;> omega
  unfold runReadCapacity
  split
  · exact clamped _
  · omega

theorem runContainerRead_iff {buf rest : List UInt8} {r : RunContainer} :
    runContainerRead runContainerCreate buf = .ok (r, rest) ↔
      r.runs.length < 65536 ∧ r.capacity = runReadCapacity r.runs.length ∧
        buf = containerWrite (.owned (.run r)) ++ rest := by
  have grown : ∀ n, (if runContainerCreate.capacity < n then runContainerGrow runContainerCreate n false
      else runContainerCreate) = { capacity := runReadCapacity n, runs := [] } := by
    intro n
    unfold runReadCapacity
    by_cases short : runContainerCreate.capacity < n
    · simp only [short, if_true]
      rfl
    · simp only [short, if_false]
      rfl
  simp only [runContainerRead, grown, bind_eq_ok, Prod.exists, u16.decode_iff, rle16Codec.decodeMany_iff, pure_eq,
    Except.ok.injEq, Prod.mk.injEq]
  constructor
  · intro given
    obtain ⟨nRuns, rest', rfl, runs, rest'', ⟨length, rfl⟩, r', stored, rfl, rfl⟩ := given
    have room : runs.length ≤ runReadCapacity nRuns.toNat := length ▸ le_runReadCapacity _
    rw [RunContainer.store, if_pos room, Except.ok.injEq] at stored
    subst stored
    refine ⟨length ▸ nRuns.toNat_lt, by rw [← length], ?_⟩
    simp only [containerWrite, containerUnwrapShared, RunContainer.nRuns, length, UInt16.ofNat_toNat, List.append_assoc]
  · intro given
    obtain ⟨few, capacity, rfl⟩ := given
    have count : (UInt16.ofNat r.runs.length).toNat = r.runs.length := UInt16.toNat_ofNat_of_lt' few
    refine ⟨UInt16.ofNat r.runs.length, rle16Codec.encodeMany r.runs ++ rest, ?_, r.runs, rest, ⟨count.symm, rfl⟩, r, ?_,
      rfl, rfl⟩
    · simp only [containerWrite, containerUnwrapShared, RunContainer.nRuns, List.append_assoc]
    · rw [count, RunContainer.store, if_pos (le_runReadCapacity _), ← capacity]

theorem arrayContainerRead_iff {cardinality : Nat} {buf rest : List UInt8} {arr : ArrayContainer} :
    arrayContainerRead cardinality (arrayContainerCreateGivenCapacity cardinality) buf = .ok (arr, rest) ↔
      arr.array.length = cardinality ∧ arr.capacity = cardinality ∧
        buf = containerWrite (.owned (.array arr)) ++ rest := by
  have exact : ¬ (arrayContainerCreateGivenCapacity cardinality).capacity < cardinality := Nat.lt_irrefl _
  simp only [arrayContainerRead, exact, if_false, bind_eq_ok, Prod.exists, u16.decodeMany_iff, pure_eq,
    Except.ok.injEq, Prod.mk.injEq]
  constructor
  · intro given
    obtain ⟨array, rest', ⟨rfl, rfl⟩, arr', stored, rfl, rfl⟩ := given
    have room : array.length ≤ (arrayContainerCreateGivenCapacity array.length).capacity := Nat.le_refl _
    rw [ArrayContainer.store, if_pos room, Except.ok.injEq] at stored
    subst stored
    exact ⟨rfl, rfl, rfl⟩
  · intro given
    obtain ⟨rfl, capacity, rfl⟩ := given
    refine ⟨arr.array, rest, ⟨rfl, rfl⟩, arr, ?_, rfl, rfl⟩
    have room : arr.array.length ≤ (arrayContainerCreateGivenCapacity arr.array.length).capacity := Nat.le_refl _
    have same :
        ({ arrayContainerCreateGivenCapacity arr.array.length with array := arr.array } : ArrayContainer) = arr := by
      rw [← capacity]
      rfl
    rw [ArrayContainer.store, if_pos room, same]

theorem bitsetContainerRead_iff {cardinality : Nat} {buf rest : List UInt8} {b : BitsetContainer} :
    bitsetContainerRead cardinality buf = .ok (b, rest) ↔
      b.cardinality = cardinality ∧ buf = containerWrite (.owned (.bitset b)) ++ rest := by
  simp only [bitsetContainerRead, bind_eq_ok, Prod.exists, Codec.decode_iff, pure_eq, Except.ok.injEq, Prod.mk.injEq]
  constructor
  · intro given
    obtain ⟨array, rest', rfl, rfl, rfl⟩ := given
    exact ⟨rfl, rfl⟩
  · intro given
    obtain ⟨rfl, rfl⟩ := given
    exact ⟨b.array, rest, rfl, rfl, rfl⟩

/-- A container is read exactly where it is written. -/
theorem readContainer_iff {isRun : Bool} {cardinality : Nat} {buf rest : List UInt8} {c : Container} :
    readContainer isRun cardinality buf = .ok (c, rest) ↔
      Stores isRun cardinality c ∧ buf = containerWrite (.owned c) ++ rest := by
  cases isRun with
  | true =>
    simp only [readContainer, if_true, bind_eq_ok, Prod.exists, runContainerRead_iff, pure_eq, Except.ok.injEq,
      Prod.mk.injEq]
    constructor
    · intro given
      obtain ⟨⟨capacity, runs⟩, rest', ⟨few, isCapacity, written⟩, rfl, rfl⟩ := given
      dsimp only at isCapacity few
      subst isCapacity
      exact ⟨.run cardinality runs few, written⟩
    · intro given
      obtain ⟨stores, written⟩ := given
      cases stores with
      | run _ runs few => exact ⟨_, rest, ⟨few, rfl, written⟩, rfl, rfl⟩
  | false =>
    by_cases large : defaultMaxSize < cardinality
    · simp only [readContainer, Bool.false_eq_true, if_false, large, if_true, bind_eq_ok, Prod.exists,
        bitsetContainerRead_iff, pure_eq, Except.ok.injEq, Prod.mk.injEq]
      constructor
      · intro given
        obtain ⟨⟨card, array⟩, rest', ⟨rfl, written⟩, rfl, rfl⟩ := given
        exact ⟨.bitset card array large, written⟩
      · intro given
        obtain ⟨stores, written⟩ := given
        cases stores with
        | bitset _ array _ => exact ⟨_, rest, ⟨rfl, written⟩, rfl, rfl⟩
        | array array small => exact absurd small (Nat.not_le.2 large)
    · simp only [readContainer, Bool.false_eq_true, if_false, large, bind_eq_ok, Prod.exists,
        arrayContainerRead_iff, pure_eq, Except.ok.injEq, Prod.mk.injEq]
      constructor
      · intro given
        obtain ⟨⟨capacity, array⟩, rest', ⟨rfl, isCapacity, written⟩, rfl, rfl⟩ := given
        dsimp only at isCapacity
        subst isCapacity
        exact ⟨.array array (Nat.le_of_not_lt large), written⟩
      · intro given
        obtain ⟨stores, written⟩ := given
        cases stores with
        | bitset _ _ large' => exact absurd large' large
        | array array small => exact ⟨_, rest, ⟨rfl, rfl, written⟩, rfl, rfl⟩

/-- The chunks that are read for a list of descriptors, from chunk `k` on. -/
inductive Described (bitmapOfRunContainers : Option (List UInt8)) :
    Nat → List (UInt16 × UInt16) → List Chunk → Prop where
  | nil (k : Nat) : Described bitmapOfRunContainers k [] []
  | cons {k : Nat} {key tmp : UInt16} {c : Container} {descriptors : List (UInt16 × UInt16)} {chunks : List Chunk}
      (stores : Stores (hasRunFlag bitmapOfRunContainers k) (1 + tmp.toNat) c)
      (rest : Described bitmapOfRunContainers (k + 1) descriptors chunks) :
      Described bitmapOfRunContainers k ((key, tmp) :: descriptors) ({ key, container := .owned c } :: chunks)

theorem Described.length_eq {bitmap : Option (List UInt8)} {k : Nat} {descriptors : List (UInt16 × UInt16)}
    {chunks : List Chunk} (described : Described bitmap k descriptors chunks) : chunks.length = descriptors.length := by
  induction described with
  | nil => rfl
  | cons _ _ ih => rw [List.length_cons, List.length_cons, ih]

/-- The container section, byte for byte. -/
def containerSection (chunks : List Chunk) : List UInt8 := chunks.flatMap fun chunk => containerWrite chunk.container

theorem readContainers_iff {bitmap : Option (List UInt8)} {descriptors : List (UInt16 × UInt16)} {k : Nat}
    {buf rest : List UInt8} {chunks : List Chunk} : readContainers bitmap k descriptors buf = .ok (chunks, rest) ↔
      Described bitmap k descriptors chunks ∧ buf = containerSection chunks ++ rest := by
  induction descriptors generalizing k buf rest chunks with
  | nil =>
    simp only [readContainers, Except.ok.injEq, Prod.mk.injEq]
    constructor
    · intro given
      obtain ⟨rfl, rfl⟩ := given
      exact ⟨.nil k, rfl⟩
    · intro given
      obtain ⟨described, rfl⟩ := given
      cases described
      exact ⟨rfl, rfl⟩
  | cons descriptor descriptors ih =>
    obtain ⟨key, tmp⟩ := descriptor
    simp only [readContainers, bind_eq_ok, Prod.exists, readContainer_iff, ih, pure_eq, Except.ok.injEq,
      Prod.mk.injEq]
    constructor
    · intro given
      obtain ⟨c, rest', ⟨stores, rfl⟩, chunks', rest'', ⟨described, rfl⟩, rfl, rfl⟩ := given
      exact ⟨.cons stores described, by simp [containerSection, List.flatMap_cons]⟩
    · intro given
      obtain ⟨described, rfl⟩ := given
      cases described with
      | @cons _ _ _ c _ chunks' stores described =>
        exact ⟨c, _, ⟨stores, by simp [containerSection, List.flatMap_cons]⟩, chunks', rest, ⟨described, rfl⟩, rfl, rfl⟩

/-! ## What the reader accepts -/

/-- A buffer in the container form, field by field. Offsets are skipped when it
is read, and so are the cardinalities of run containers. -/
structure PortableImage where
  bitmapOfRunContainers : Option (List UInt8)
  descriptors : List (UInt16 × UInt16)
  offsets : List UInt8
  chunks : List Chunk

namespace PortableImage

/-- The number of chunks. -/
def size (image : PortableImage) : Nat := image.descriptors.length

/-- The cookie, with the size. -/
def cookie (image : PortableImage) : List UInt8 :=
  if image.bitmapOfRunContainers.isSome then u32.encode (serialCookie ||| UInt32.ofNat (image.size - 1) <<< 16)
  else u32.encode serialCookieNoRuncontainer ++ u32.encode (UInt32.ofNat image.size)

/-- The bytes after the cookie. -/
def body (image : PortableImage) : List UInt8 :=
  image.bitmapOfRunContainers.getD [] ++ descriptorCodec.encodeMany image.descriptors ++ image.offsets ++
    containerSection image.chunks

/-- The whole buffer. -/
def bytes (image : PortableImage) : List UInt8 := image.cookie ++ image.body

/-- The array that is read. -/
def array (image : PortableImage) : RoaringArray := { allocationSize := image.size, chunks := image.chunks }

/-- The fields fit together. -/
structure Fits (image : PortableImage) : Prop where
  bitmap : ∀ bitmap, image.bitmapOfRunContainers = some bitmap → bitmap.length = (image.size + 7) / 8
  counted : image.bitmapOfRunContainers.isSome = true → 0 < image.size ∧ image.size ≤ 65536
  offsets : image.offsets.length =
    if image.bitmapOfRunContainers.isNone || decide (noOffsetThreshold ≤ image.size) then image.size * 4 else 0
  bounded : image.size * 4 < 2 ^ 31
  chunks : Described image.bitmapOfRunContainers 0 image.descriptors image.chunks

end PortableImage

theorem readRunBitmap_iff {hasrun : Bool} {size : Nat} {buf rest : List UInt8} {bitmap : Option (List UInt8)} :
    readRunBitmap hasrun size buf = .ok (bitmap, rest) ↔ bitmap.isSome = hasrun ∧
      (∀ b, bitmap = some b → b.length = (size + 7) / 8) ∧ buf = bitmap.getD [] ++ rest := by
  cases hasrun with
  | true =>
    simp only [readRunBitmap, if_true, bind_eq_ok, Prod.exists, take_eq_ok, pure_eq, Except.ok.injEq, Prod.mk.injEq]
    constructor
    · intro given
      obtain ⟨b, rest', ⟨length, rfl⟩, rfl, rfl⟩ := given
      exact ⟨rfl, fun b' h => Option.some.inj h ▸ length, rfl⟩
    · intro given
      obtain ⟨isSome, length, rfl⟩ := given
      obtain ⟨b, rfl⟩ := Option.isSome_iff_exists.1 isSome
      exact ⟨b, rest, ⟨length b rfl, rfl⟩, rfl, rfl⟩
  | false =>
    simp only [readRunBitmap, Bool.false_eq_true, if_false, pure_eq, Except.ok.injEq, Prod.mk.injEq]
    constructor
    · intro given
      obtain ⟨rfl, rfl⟩ := given
      exact ⟨rfl, by simp, rfl⟩
    · intro given
      obtain ⟨isNone, -, rfl⟩ := given
      have none : bitmap = none := by simpa using isNone
      exact ⟨none.symm, by rw [none]; rfl⟩

theorem skipOffsets_iff {hasrun : Bool} {size : Nat} {buf rest : List UInt8}
    (counted : hasrun = true → 0 < size ∧ size ≤ 65536) :
    skipOffsets hasrun size buf = .ok rest ↔ size * 4 < 2 ^ 31 ∧ ∃ offsets : List UInt8, offsets.length =
      (if !hasrun || decide (noOffsetThreshold ≤ size) then size * 4 else 0) ∧ buf = offsets ++ rest := by
  unfold skipOffsets
  split
  case isTrue given =>
    split
    case isTrue small =>
      rw [skip_eq_ok]
      exact ⟨fun h => ⟨small, h⟩, fun h => h.2⟩
    case isFalse large => exact ⟨fun h => by simp at h, fun h => absurd h.1 large⟩
  case isFalse omitted =>
    have isRun : hasrun = true := by
      cases hasrun
      · simp at omitted
      · rfl
    simp only [Except.ok.injEq, List.length_eq_zero_iff]
    constructor
    · rintro rfl
      have := (counted isRun).2
      exact ⟨by omega, [], rfl, rfl⟩
    · intro given
      obtain ⟨-, offsets, rfl, rfl⟩ := given
      rfl

/-- After the size, the reader accepts exactly the images of that size. -/
theorem readChunks_iff {hasrun : Bool} {size : Nat} {buf : List UInt8} (ra : RoaringArray)
    (counted : hasrun = true → 0 < size ∧ size ≤ 65536) :
    readChunks hasrun size buf = .ok ra ↔ ∃ image : PortableImage, ∃ rest : List UInt8,
      image.bitmapOfRunContainers.isSome = hasrun ∧ image.size = size ∧ image.Fits ∧ buf = image.body ++ rest ∧
        ra = image.array := by
  simp only [readChunks, bind_eq_ok, Prod.exists, readRunBitmap_iff, descriptorCodec.decodeMany_iff,
    skipOffsets_iff counted, readContainers_iff]
  constructor
  · intro given
    obtain ⟨bitmap, rest1, ⟨isSome, isLength, rfl⟩, descriptors, rest2, ⟨rfl, rfl⟩, rest3,
      ⟨small, offsets, length, rfl⟩, chunks, rest, ⟨described, rfl⟩, stored⟩ := given
    have room : chunks.length ≤ (raInitWithCapacity descriptors.length).allocationSize :=
      Nat.le_of_eq described.length_eq
    rw [RoaringArray.store, if_pos room, Except.ok.injEq] at stored
    refine ⟨{ bitmapOfRunContainers := bitmap, descriptors, offsets, chunks }, rest, isSome, rfl,
      ⟨isLength, fun h => counted (isSome.symm.trans h), ?_, small, described⟩, ?_, stored.symm⟩
    · rw [length, ← isSome]
      cases bitmap <;> rfl
    · simp [PortableImage.body]
  · intro given
    obtain ⟨image, rest, isSome, rfl, fits, rfl, rfl⟩ := given
    refine ⟨image.bitmapOfRunContainers, _, ⟨isSome, fits.bitmap, ?_⟩, image.descriptors, _, ⟨rfl, rfl⟩, _,
      ⟨fits.bounded, image.offsets, ?_, rfl⟩, image.chunks, rest, ⟨fits.chunks, rfl⟩, ?_⟩
    · simp [PortableImage.body]
    · rw [fits.offsets, ← isSome]
      simp
    · have room : image.chunks.length ≤ (raInitWithCapacity image.size).allocationSize :=
        Nat.le_of_eq fits.chunks.length_eq
      rw [RoaringArray.store, if_pos room]
      rfl

/-! ## The cookie -/

theorem toNat_runCookie {n : Nat} (small : n < 65536) :
    (serialCookie ||| UInt32.ofNat n <<< 16).toNat = n * 65536 + 12347 := by
  have shifted : (UInt32.ofNat n <<< 16).toNat = n <<< 16 := by
    simp only [UInt32.toNat_shiftLeft, UInt32.toNat_ofNat', UInt32.reduceToNat, Nat.reduceMod, Nat.shiftLeft_eq]
    omega
  have low : (12347 : Nat) < 2 ^ 16 := by decide
  have isCookie : serialCookie.toNat = 12347 := rfl
  rw [UInt32.toNat_or, shifted, isCookie, Nat.or_comm, ← Nat.shiftLeft_add_eq_or_of_lt low, Nat.shiftLeft_eq]

theorem toNat_lowHalf (c : UInt32) : (c &&& 0xFFFF).toNat = c.toNat % 65536 :=
  Nat.and_two_pow_sub_one_eq_mod c.toNat 16

theorem toNat_highHalf (c : UInt32) : (c >>> 16).toNat = c.toNat / 65536 := by
  simp only [UInt32.toNat_shiftRight, UInt32.reduceToNat, Nat.reduceMod, Nat.shiftRight_eq_div_pow]

/-- The cookies of the run form, by the size they carry. -/
theorem runCookie_iff {c : UInt32} : c &&& 0xFFFF = serialCookie ↔
    c = serialCookie ||| UInt32.ofNat ((c >>> 16).toNat + 1 - 1) <<< 16 := by
  have := c.toNat_lt
  rw [← UInt32.toNat_inj, ← UInt32.toNat_inj, toNat_runCookie (by rw [toNat_highHalf]; omega), toNat_lowHalf,
    toNat_highHalf]
  have isCookie : serialCookie.toNat = 12347 := rfl
  omega

theorem runCookie_parts {n : Nat} (positive : 0 < n) (small : n ≤ 65536) :
    (serialCookie ||| UInt32.ofNat (n - 1) <<< 16) &&& 0xFFFF = serialCookie ∧
      ((serialCookie ||| UInt32.ofNat (n - 1) <<< 16) >>> 16).toNat + 1 = n := by
  rw [← UInt32.toNat_inj, toNat_lowHalf, toNat_highHalf, toNat_runCookie (by omega)]
  have isCookie : serialCookie.toNat = 12347 := rfl
  omega

theorem toInt_ofNat {n : Nat} (small : n < 2 ^ 31) : (UInt32.ofNat n).toBitVec.toInt = n := by
  have isNat : (UInt32.ofNat n).toBitVec.toNat = n := UInt32.toNat_ofNat_of_lt' (by
    show n < 4294967296
    omega)
  rw [BitVec.toInt_eq_toNat_cond, isNat, if_pos (by omega)]

theorem eq_ofNat_of_toInt {size : UInt32} (positive : ¬ size.toBitVec.toInt < 0) :
    size = UInt32.ofNat size.toBitVec.toInt.toNat := by
  have bound : size.toBitVec.toNat < 4294967296 := size.toNat_lt
  have isNat : size.toBitVec.toInt.toNat = size.toNat := by
    rw [BitVec.toInt_eq_toNat_cond] at positive ⊢
    split at positive
    case isTrue low =>
      rw [if_pos low]
      rfl
    case isFalse => exact absurd (by omega) positive
  rw [isNat, UInt32.ofNat_toNat]

section Cookies

variable {cookie : UInt32} {rest : List UInt8}

theorem raPortableDeserialize_run (isRun : cookie &&& 0xFFFF = serialCookie) :
    raPortableDeserialize (u32.encode cookie ++ rest) =
      (readChunks true ((cookie >>> 16).toNat + 1) rest >>= fun ra => .ok (some ra)) := by
  have positive : ¬ ((cookie >>> 16).toNat : Int) + 1 < 0 := by omega
  have size : (((cookie >>> 16).toNat : Int) + 1).toNat = (cookie >>> 16).toNat + 1 := by omega
  simp only [raPortableDeserialize, u32.decode_encode, ok_bind, isRun, ne_eq, not_true_eq_false, false_and, if_false,
    readSize, if_true, pure_eq, positive, size, decide_true]

theorem raPortableDeserialize_norun {size : UInt32} :
    raPortableDeserialize (u32.encode serialCookieNoRuncontainer ++ (u32.encode size ++ rest)) =
      if size.toBitVec.toInt < 0 then .error .assertFailed
      else readChunks false size.toBitVec.toInt.toNat rest >>= fun ra => .ok (some ra) := by
  have notRun : ¬ serialCookieNoRuncontainer &&& 0xFFFF = serialCookie := by decide
  simp only [raPortableDeserialize, u32.decode_encode, ok_bind, notRun, ne_eq, not_false_eq_true, not_true_eq_false,
    and_false, if_false, readSize, pure_eq, decide_false]
  rfl

theorem raPortableDeserialize_wrong (notRun : ¬ cookie &&& 0xFFFF = serialCookie)
    (other : cookie ≠ serialCookieNoRuncontainer) :
    raPortableDeserialize (u32.encode cookie ++ rest) = .ok none := by
  simp only [raPortableDeserialize, u32.decode_encode, ok_bind, ne_eq, notRun, other, not_false_eq_true, and_self,
    if_true, pure_eq]

theorem accepted_run {ra : RoaringArray} (isRun : cookie &&& 0xFFFF = serialCookie)
    (run : raPortableDeserialize (u32.encode cookie ++ rest) = .ok (some ra)) :
    ∃ image : PortableImage, ∃ rest' : List UInt8,
      image.Fits ∧ u32.encode cookie ++ rest = image.bytes ++ rest' ∧ ra = image.array := by
  -- the size is in the cookie
  have high := toNat_highHalf cookie
  have := cookie.toNat_lt
  have counted : 0 < (cookie >>> 16).toNat + 1 ∧ (cookie >>> 16).toNat + 1 ≤ 65536 := by omega
  rw [raPortableDeserialize_run isRun] at run
  simp only [bind_eq_ok, Except.ok.injEq, Option.some.injEq, exists_eq_right, readChunks_iff _ fun _ => counted] at run
  obtain ⟨image, rest', isSome, isSize, fits, rfl, rfl⟩ := run
  refine ⟨image, rest', fits, ?_, rfl⟩
  rw [PortableImage.bytes, PortableImage.cookie, isSome, if_pos rfl, isSize, ← runCookie_iff.1 isRun,
    List.append_assoc]

theorem accepted_norun {ra : RoaringArray}
    (run : raPortableDeserialize (u32.encode serialCookieNoRuncontainer ++ rest) = .ok (some ra)) :
    ∃ image : PortableImage, ∃ rest' : List UInt8,
      image.Fits ∧ u32.encode serialCookieNoRuncontainer ++ rest = image.bytes ++ rest' ∧ ra = image.array := by
  -- the size follows the cookie
  have notRun : ¬ serialCookieNoRuncontainer &&& 0xFFFF = serialCookie := by decide
  obtain ⟨⟨size, rest'⟩, isSize, -⟩ : ∃ p, u32.decode rest = .ok p ∧ True := by
    simp only [raPortableDeserialize, u32.decode_encode, ok_bind, notRun, ne_eq, not_false_eq_true,
      not_true_eq_false, and_false, if_false, readSize] at run
    cases h : u32.decode rest with
    | error e =>
      rw [h] at run
      cases run
    | ok p => exact ⟨p, rfl, trivial⟩
  rw [u32.decode_iff] at isSize
  subst isSize
  rw [raPortableDeserialize_norun] at run
  by_cases negative : size.toBitVec.toInt < 0
  · rw [if_pos negative] at run
    cases run
  rw [if_neg negative] at run
  simp only [bind_eq_ok, Except.ok.injEq, Option.some.injEq, exists_eq_right,
    readChunks_iff _ fun h => absurd h Bool.false_ne_true] at run
  obtain ⟨image, rest'', isNone, isSize, fits, rfl, rfl⟩ := run
  refine ⟨image, rest'', fits, ?_, rfl⟩
  rw [PortableImage.bytes, PortableImage.cookie, isNone, if_neg Bool.false_ne_true, isSize,
    ← eq_ofNat_of_toInt negative]
  simp only [List.append_assoc]

end Cookies

/-- The reader gives back the array of an image. -/
theorem raPortableDeserialize_bytes {image : PortableImage} (fits : image.Fits) (rest : List UInt8) :
    raPortableDeserialize (image.bytes ++ rest) = .ok (some image.array) := by
  rw [PortableImage.bytes, PortableImage.cookie]
  by_cases isSome : image.bitmapOfRunContainers.isSome = true
  · obtain ⟨positive, small⟩ := fits.counted isSome
    obtain ⟨isRun, isSize⟩ := runCookie_parts positive small
    have read := (readChunks_iff image.array fun _ => ⟨positive, small⟩).2
      ⟨image, rest, isSome, rfl, fits, rfl, rfl⟩
    rw [if_pos isSome, List.append_assoc, raPortableDeserialize_run isRun, isSize, read]
    rfl
  · have small : image.size < 2 ^ 31 := by
      have := fits.bounded
      omega
    have positive : ¬ (image.size : Int) < 0 := by omega
    have read := (readChunks_iff image.array fun h => absurd h Bool.false_ne_true).2
      ⟨image, rest, Bool.eq_false_iff.2 isSome, rfl, fits, rfl, rfl⟩
    rw [if_neg isSome, List.append_assoc, List.append_assoc, raPortableDeserialize_norun, toInt_ofNat small,
      if_neg positive, Int.toNat_natCast, read]
    rfl

/-- **The container form.** The reader accepts the images, followed by anything,
and no other buffer. -/
theorem raPortableDeserialize_iff {buf : List UInt8} {ra : RoaringArray} :
    raPortableDeserialize buf = .ok (some ra) ↔
      ∃ image : PortableImage, ∃ rest : List UInt8, image.Fits ∧ buf = image.bytes ++ rest ∧ ra = image.array := by
  constructor
  · intro run
    obtain ⟨⟨cookie, rest⟩, isCookie, -⟩ := bind_eq_ok.1 run
    rw [u32.decode_iff] at isCookie
    subst isCookie
    by_cases isRun : cookie &&& 0xFFFF = serialCookie
    · exact accepted_run isRun run
    by_cases right : cookie = serialCookieNoRuncontainer
    · subst right
      exact accepted_norun run
    · rw [raPortableDeserialize_wrong isRun right] at run
      cases run
  · intro given
    obtain ⟨image, rest, fits, rfl, rfl⟩ := given
    exact raPortableDeserialize_bytes fits rest

end RedisRoaring
